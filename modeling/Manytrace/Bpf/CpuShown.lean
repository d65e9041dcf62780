import Mathlib.Data.Nat.Pairing
import Mathlib.Logic.Equiv.Nat
import Manytrace.Core.Introduction
import Manytrace.Converter.Declarations
import Manytrace.Bpf.Utilisation

/-! From the processors to the trace. Every interval of a thread is counted in one value of the
thread, and the two tracks of the thread show these values. -/
namespace Manytrace.Bpf.CpuUtil
open Manytrace.Core Manytrace.Protocol Manytrace.Converter

/-- The two counters of a thread. -/
inductive Kind
  | cpu
  | kernel
deriving DecidableEq, Repr

def Kind.label : Kind → String
  | .cpu => "cpu_time"
  | .kernel => "kernel_time"

/-- A value of a counter. -/
structure Point where
  key : ThreadKey
  kind : Kind
  value : Percentage
  timestamp : UInt64
deriving DecidableEq, Repr

namespace Point
variable (p : Point)

def series : ThreadKey × Kind := (p.key, p.kind)

def track (id : ℕ) : Track :=
  ⟨p.kind.label, .counter id (some "%"), some (.thread p.key.2 p.key.1)⟩

def sample (id : ℕ) : CounterSample :=
  ⟨p.kind.label, p.value, p.timestamp, .counter id, some "%"⟩

@[simp] theorem track_toId (id : ℕ) : (p.track id).trackType.toId = .counter id := rfl

end Point

/-- The float of a percentage has these bits. -/
def Report.event (bits : Percentage → UInt64) : Report → Event
  | .track t => .track t
  | .counter c =>
    .counter ⟨c.name, bits c.value, c.timestamp.toNat, c.trackId, ⟨[], [], [], []⟩, c.unit⟩

/-- The id that is drawn for a counter of a thread. -/
def drawnId (draw : ThreadKey → ℕ × ℕ) (k : ThreadKey × Kind) : ℕ :=
  match k.2 with
  | .cpu => (draw k.1).1
  | .kernel => (draw k.1).2

/-! ## What the callback is told -/

namespace Collector

/-- A value has been told, after its track if that was new. -/
def announced (id : ℕ) (p : Point) (c : Collector) : Collector :=
  if c.submittedTracks (.counter id) then
    { c with reports := c.reports ++ [.counter (p.sample id)] }
  else
    { c with
      submittedTracks := Function.update c.submittedTracks (.counter id) true
      reports := c.reports ++ [.track (p.track id), .counter (p.sample id)] }

section Announced
variable (id : ℕ) (p : Point) (c : Collector)

@[simp] theorem announced_threadStats : (c.announced id p).threadStats = c.threadStats := by
  unfold announced
  split <;> rfl

@[simp] theorem announced_maxTimestamp : (c.announced id p).maxTimestamp = c.maxTimestamp := by
  unfold announced
  split <;> rfl

@[simp] theorem announced_boundariesReported :
    (c.announced id p).boundariesReported = c.boundariesReported := by
  unfold announced
  split <;> rfl

@[simp] theorem announced_trackIdMapping :
    (c.announced id p).trackIdMapping = c.trackIdMapping := by
  unfold announced
  split <;> rfl

end Announced

def ids (draw : ThreadKey → ℕ × ℕ) (c : Collector) (k : ThreadKey × Kind) : Option ℕ :=
  if c.submittedTracks (.counter (drawnId draw k)) then some (drawnId draw k) else none

/-- The tables and the messages after these values. -/
structure Shows (bits : Percentage → UInt64) (draw : ThreadKey → ℕ × ℕ) (points : List Point)
    (c : Collector) : Prop where
  mapped : ∀ key pair, c.trackIdMapping key = some pair → pair = draw key
  introduced : Introduced Point.series (fun p id => .track (p.track id))
    (fun p id => [Report.event bits (.counter (p.sample id))]) (fun id => concerns (.counter id))
    (c.ids draw) points (c.reports.map (Report.event bits))
  fresh : ∀ id, c.submittedTracks (.counter id) = false →
    (c.reports.map (Report.event bits)).filter (concerns (.counter id)) = []

end Collector

section Telling
variable {bits : Percentage → UInt64} {draw : ThreadKey → ℕ × ℕ} {points : List Point}
  {c : Collector}

theorem Collector.shows_new : Collector.new.Shows bits draw [] where
  mapped := by simp [Collector.new]
  introduced := introduced_nil _ _ _ _
  fresh _ _ := rfl

theorem concerns_sample (p : Point) (i j : ℕ) :
    concerns (.counter j) (Report.event bits (.counter (p.sample i))) = decide (i = j) := by
  simp [Report.event, Point.sample]

/-- The ids of a thread are drawn. -/
theorem Collector.Shows.map (h : c.Shows bits draw points) (key : ThreadKey) :
    Collector.Shows bits draw points { c with
      trackIdMapping := Function.update c.trackIdMapping key (some (draw key)) } := by
  refine ⟨fun k pair hk => ?_, h.introduced, h.fresh⟩
  change Function.update c.trackIdMapping key (some (draw key)) k = some pair at hk
  by_cases hkey : k = key
  · subst hkey
    rw [Function.update_self] at hk
    exact (Option.some.inj hk).symm
  · rw [Function.update_of_ne hkey] at hk
    exact h.mapped k pair hk

theorem Collector.Shows.announced (h : c.Shows bits draw points)
    (hdraw : Function.Injective (drawnId draw)) (p : Point) :
    (c.announced (drawnId draw p.series) p).Shows bits draw (points ++ [p]) := by
  have heach : ∀ (a : Point) (i : ℕ), ∀ m ∈ [Report.event bits (.counter (a.sample i))], ∀ j,
      concerns (.counter j) m = decide (i = j) := by
    intro a i m hm j
    rw [List.mem_singleton.mp hm, concerns_sample]
  unfold Collector.announced
  cases hsubmitted : c.submittedTracks (.counter (drawnId draw p.series)) with
  | true =>
    rw [if_pos rfl]
    refine ⟨h.mapped, ?_, fun id hid => ?_⟩
    · rw [List.map_append]
      exact h.introduced.old heach (if_pos hsubmitted)
    · have hne : drawnId draw p.series ≠ id := by
        rintro rfl
        cases hsubmitted.symm.trans hid
      rw [List.map_append, List.filter_append, h.fresh id hid, List.map_singleton,
        List.filter_cons_of_neg (by simp [concerns_sample, hne])]
      rfl
  | false =>
    rw [if_neg Bool.false_ne_true]
    have hids : Collector.ids draw
        { c with
          submittedTracks := Function.update c.submittedTracks (.counter (drawnId draw p.series))
            true
          reports := c.reports ++ [.track (p.track (drawnId draw p.series)),
            .counter (p.sample (drawnId draw p.series))] } =
        Function.update (c.ids draw) p.series (some (drawnId draw p.series)) := by
      funext k
      by_cases hk : k = p.series
      · subst hk
        simp [Collector.ids]
      · have hne : drawnId draw k ≠ drawnId draw p.series := fun heq => hk (hdraw heq)
        rw [Function.update_of_ne hk]
        simp [Collector.ids, Function.update, hne]
    refine ⟨h.mapped, ?_, fun id hid => ?_⟩
    · rw [hids, List.map_append]
      exact h.introduced.new heach (fun a i j => by simp)
        (if_neg (by simp [hsubmitted])) (h.fresh _ hsubmitted)
    · have hne : id ≠ drawnId draw p.series := by
        rintro rfl
        simp at hid
      have hold : c.submittedTracks (.counter id) = false := by
        simpa [Function.update, hne] using hid
      rw [List.map_append, List.filter_append, h.fresh id hold]
      simp [Report.event, Point.sample, Ne.symm hne]

end Telling

/-! ## What the values stand for -/

/-- What is reported for a thread at once: these intervals, in the time since its last report. -/
structure Portion where
  key : ThreadKey
  intervals : List CpuEvent
  since : UInt64
  upTo : UInt64
deriving DecidableEq, Repr

def timeOf : Kind → List CpuEvent → ℕ
  | .cpu, es => (es.map fun e => e.endTime.toNat - e.startTime.toNat).sum
  | .kernel, es => (es.map fun e => e.kernelTimeNs.toNat).sum

def Portion.point (F : Rounding) (p : Portion) (kind : Kind) : Point where
  key := p.key
  kind := kind
  value := percentage F (UInt64.ofNat (timeOf kind p.intervals)) (p.upTo - p.since)
  timestamp := p.since

/-- The intervals of a thread. -/
def intervalsOf (key : ThreadKey) (es : List CpuEvent) : List CpuEvent :=
  es.filter fun e => e.accepted && e.key = key

/-- The latest end of all events. -/
def latest (es : List CpuEvent) : UInt64 := es.foldl (fun t e => max t e.endTime) 0

/-- The window of a thread begins where the finished rounds end, if the thread was in one of
them, or with an interval of the round that begins earlier. -/
def windowStart (key : ThreadKey) (finished current : List CpuEvent) : UInt64 :=
  (intervalsOf key current).foldl (fun t e => min t e.startTime)
    (if (intervalsOf key finished).isEmpty then 0xFFFFFFFFFFFFFFFF else latest finished)

/-- The portion of a thread when a round is over. There is none if the thread has not been met. -/
def portion (key : ThreadKey) (finished current : List CpuEvent) : Option Portion :=
  if (intervalsOf key (finished ++ current)).isEmpty then none
  else some ⟨key, intervalsOf key current, windowStart key finished current,
    latest (finished ++ current)⟩

/-- The portions of a thread, the events of the rounds that are over, and those of the round that
is under way. -/
structure Book where
  reported : List Portion
  finished : List CpuEvent
  current : List CpuEvent

namespace Book

def new : Book := ⟨[], [], []⟩

def close (key : ThreadKey) (b : Book) : Book :=
  ⟨b.reported ++ (portion key b.finished b.current).toList, b.finished ++ b.current, []⟩

/-- A round is over when it has as many boundaries as there are processors. -/
def add (nprocs : ℕ) (key : ThreadKey) (b : Book) (e : CpuEvent) : Book :=
  if e.boundary ∧ (b.current ++ [e]).countP CpuEvent.boundary = nprocs then
    close key { b with current := b.current ++ [e] }
  else { b with current := b.current ++ [e] }

end Book

def book (nprocs : ℕ) (key : ThreadKey) (es : List CpuEvent) : Book :=
  es.foldl (Book.add nprocs key) .new

section Books
variable {es : List CpuEvent} {e : CpuEvent} {key : ThreadKey} {nprocs : ℕ}

theorem intervalsOf_append (key : ThreadKey) (es es' : List CpuEvent) :
    intervalsOf key (es ++ es') = intervalsOf key es ++ intervalsOf key es' := List.filter_append ..

theorem intervalsOf_mine (hacc : e.accepted) : intervalsOf e.key [e] = [e] := by
  simp [intervalsOf, hacc]

theorem intervalsOf_other (h : ¬(e.accepted ∧ e.key = key)) : intervalsOf key [e] = [] := by
  refine List.filter_eq_nil_iff.mpr fun x hx => ?_
  rw [List.mem_singleton.mp hx]
  simpa using h

theorem latest_concat (es : List CpuEvent) (e : CpuEvent) :
    latest (es ++ [e]) = max (latest es) e.endTime := by
  simp [latest, List.foldl_append]

theorem le_latest (h : e ∈ es) : e.endTime.toNat ≤ (latest es).toNat := by
  induction es using List.reverseRecOn with
  | nil => cases h
  | append_singleton es x ih =>
    rw [latest_concat, UInt64.toNat_max]
    rcases List.mem_append.mp h with h | h
    · exact Nat.le_trans (ih h) (Nat.le_max_left _ _)
    · rw [List.mem_singleton.mp h]
      exact Nat.le_max_right _ _

theorem windowStart_mine (hacc : e.accepted) (finished current : List CpuEvent) :
    windowStart e.key finished (current ++ [e]) =
      min (windowStart e.key finished current) e.startTime := by
  simp [windowStart, intervalsOf_append, intervalsOf_mine hacc, List.foldl_append]

theorem windowStart_other (h : ¬(e.accepted ∧ e.key = key)) (finished current : List CpuEvent) :
    windowStart key finished (current ++ [e]) = windowStart key finished current := by
  simp [windowStart, intervalsOf_append, intervalsOf_other h]

theorem windowStart_nil {finished : List CpuEvent} (h : intervalsOf key finished ≠ []) :
    windowStart key finished [] = latest finished := by
  have hmet : ¬ (intervalsOf key finished).isEmpty = true := by simpa using h
  rw [windowStart, if_neg hmet]
  rfl

theorem portion_intervals (key : ThreadKey) (finished current : List CpuEvent) :
    (portion key finished current).toList.flatMap Portion.intervals = intervalsOf key current := by
  unfold portion
  split_ifs with hnone
  · rw [intervalsOf_append, List.isEmpty_iff, List.append_eq_nil_iff] at hnone
    rw [hnone.2]
    rfl
  · simp

theorem book_concat (nprocs : ℕ) (key : ThreadKey) (es : List CpuEvent) (e : CpuEvent) :
    book nprocs key (es ++ [e]) = (book nprocs key es).add nprocs key e := by
  simp [book, List.foldl_append]

theorem countP_boundary_concat {current : List CpuEvent} {n : ℕ}
    (hcount : n = current.countP CpuEvent.boundary) :
    (current ++ [e]).countP CpuEvent.boundary = n + if e.boundary then 1 else 0 := by
  rw [List.countP_append, ← hcount, List.countP_singleton]

/-- With `n` boundaries before it, an event leaves the round open or ends it. -/
theorem book_open {n : ℕ} (hcount : n = (book nprocs key es).current.countP CpuEvent.boundary)
    (h : ¬ (e.boundary = true ∧ n + 1 = nprocs)) : book nprocs key (es ++ [e]) =
      { book nprocs key es with current := (book nprocs key es).current ++ [e] } := by
  rw [book_concat, Book.add, if_neg]
  rintro ⟨hboundary, hfull⟩
  rw [countP_boundary_concat hcount, if_pos hboundary] at hfull
  exact h ⟨hboundary, hfull⟩

theorem book_full {n : ℕ} (hcount : n = (book nprocs key es).current.countP CpuEvent.boundary)
    (hboundary : e.boundary = true) (hfull : n + 1 = nprocs) :
    book nprocs key (es ++ [e]) = Book.close key
      { book nprocs key es with current := (book nprocs key es).current ++ [e] } := by
  have hround : ((book nprocs key es).current ++ [e]).countP CpuEvent.boundary = nprocs := by
    rw [countP_boundary_concat hcount, if_pos hboundary, hfull]
  rw [book_concat, Book.add, if_pos ⟨hboundary, hround⟩]

/-- No interval is lost or counted twice. -/
theorem book_intervals (nprocs : ℕ) (key : ThreadKey) (es : List CpuEvent) :
    intervalsOf key es = (book nprocs key es).reported.flatMap Portion.intervals ++
      intervalsOf key (book nprocs key es).current := by
  induction es using List.reverseRecOn with
  | nil => rfl
  | append_singleton es e ih =>
    have hmore : intervalsOf key (es ++ [e]) =
        (book nprocs key es).reported.flatMap Portion.intervals ++
          intervalsOf key ((book nprocs key es).current ++ [e]) := by
      rw [intervalsOf_append, ih, intervalsOf_append, List.append_assoc]
    rw [book_concat]
    unfold Book.add
    split_ifs
    · rw [hmore, Book.close, List.flatMap_append, portion_intervals]
      exact (List.append_nil _).symm
    · exact hmore

end Books

/-! ## Runs -/

/-- The collector after the events `es`, when the threads have these books. -/
structure Collector.Told (F : Rounding) (bits : Percentage → UInt64) (draw : ThreadKey → ℕ × ℕ)
    (es : List CpuEvent) (books : ThreadKey → Book) (c : Collector) : Prop where
  latest_eq : c.maxTimestamp = latest es
  whole : ∀ key, (books key).finished ++ (books key).current = es
  tally : ∀ key stats, c.threadStats key = some stats → intervalsOf key es ≠ [] ∧
    stats.minTimestamp = windowStart key (books key).finished (books key).current ∧
    CpuUtil.Tally es key stats (intervalsOf key (books key).current)
  absent : ∀ key, c.threadStats key = none → intervalsOf key es = []
  shows : ∃ points, c.Shows bits draw points ∧ ∀ key kind,
    points.filter (fun p => p.series = (key, kind)) =
      (books key).reported.map fun p => p.point F kind

section Run
variable {F : Rounding} {bits : Percentage → UInt64} {draw : ThreadKey → ℕ × ℕ} {nprocs : ℕ}
  {es : List CpuEvent} {books : ThreadKey → Book} {c : Collector} {key : ThreadKey}

theorem emitCounter_accepting (p : Point) (id : ℕ) (c : Collector) :
    emitCounter (fun _ => 0) p.kind.label p.key id p.value p.timestamp c =
      (.ok (), c.announced id p) := by
  unfold emitCounter Collector.announced
  rw [Op.get_bind]
  cases hsubmitted : c.submittedTracks (.counter id) with
  | true => rfl
  | false =>
    simp only [Bool.false_eq_true, if_false]
    change (Except.ok (), { c with
      submittedTracks := Function.update c.submittedTracks (.counter id) true
      reports := (c.reports ++ [Report.track (p.track id)]) ++ [Report.counter (p.sample id)] }) = _
    rw [List.append_assoc]
    rfl

theorem trackIds_eq (hmapped : ∀ pair, c.trackIdMapping key = some pair → pair = draw key) :
    trackIds draw key c = (.ok (draw key), { c with
      trackIdMapping := Function.update c.trackIdMapping key (some (draw key)) }) := by
  unfold trackIds
  rw [Op.get_bind]
  cases hkey : c.trackIdMapping key with
  | none => rfl
  | some pair =>
    have hsame : Function.update c.trackIdMapping key (some (draw key)) = c.trackIdMapping := by
      rw [← hmapped pair hkey, ← hkey, Function.update_eq_self]
    rw [hsame, hmapped pair hkey]
    rfl

theorem flushThread_absent (hstats : c.threadStats key = none) :
    flushThread F (fun _ => 0) draw key c = (.ok (), c) := by
  unfold flushThread
  rw [Op.get_bind]
  simp only [hstats]
  rfl

/-- A thread is reported by one portion. -/
theorem flushThread_accepting (hmapped : ∀ pair, c.trackIdMapping key = some pair → pair = draw key)
    {stats : ThreadStats} (hstats : c.threadStats key = some stats) {recent : List CpuEvent}
    (htally : Tally es key stats recent) :
    let p : Portion := ⟨key, recent, stats.minTimestamp, c.maxTimestamp⟩
    flushThread F (fun _ => 0) draw key c =
      (.ok (), ((({ c with
        trackIdMapping := Function.update c.trackIdMapping key (some (draw key)) } :
          Collector).announced (draw key).1 (p.point F .cpu)).announced (draw key).2
            (p.point F .kernel)).reset key) := by
  intro p
  have hcpu : UInt64.ofNat (timeOf .cpu recent) = stats.cpuTimeNs := by
    rw [timeOf, ← htally.cpu, UInt64.ofNat_toNat]
  have hkernel : UInt64.ofNat (timeOf .kernel recent) = stats.kernelTimeNs := by
    rw [timeOf, ← htally.kernel, UInt64.ofNat_toNat]
  unfold flushThread
  rw [Op.get_bind]
  simp only [hstats]
  rw [Op.bind_ok (trackIds_eq hmapped), ← hcpu, ← hkernel]
  have hfirst := emitCounter_accepting (p.point F .cpu) (draw key).1 { c with
    trackIdMapping := Function.update c.trackIdMapping key (some (draw key)) }
  refine (Op.bind_ok hfirst).trans ?_
  exact Op.bind_ok (emitCounter_accepting (p.point F .kernel) (draw key).2 _)

/-- A portion gives each of the two counters of its thread one value. -/
theorem filter_points (p : Portion) (key : ThreadKey) (kind : Kind) :
    ([p.point F .cpu] ++ [p.point F .kernel]).filter (fun q => q.series = (key, kind)) =
      if p.key = key then [p.point F kind] else [] := by
  by_cases hown : p.key = key
  · cases kind <;> simp [Portion.point, Point.series, hown]
  · simp [Portion.point, Point.series, hown]

theorem Collector.told_new : Collector.new.Told F bits draw [] fun _ => .new where
  latest_eq := rfl
  whole _ := rfl
  tally := by simp [Collector.new]
  absent _ _ := rfl
  shows := ⟨[], Collector.shows_new, fun _ _ => rfl⟩

/-- The round goes on, unless every processor has passed its boundary. -/
theorem handleEvent_goesOn {d : Delivery}
    (hopen : ¬ (d.event.boundary = true ∧ c.boundariesReported + 1 = nprocs)) :
    handleEvent F (fun _ => 0) nprocs d c = (.ok (), { c.record d.event with
      boundariesReported := c.boundariesReported + if d.event.boundary then 1 else 0 }) := by
  unfold handleEvent
  refine (Op.bind_ok rfl).trans ?_
  cases hboundary : d.event.boundary with
  | false => rfl
  | true =>
    have hround : ¬ (c.record d.event).boundariesReported + 1 = nprocs :=
      fun hfull => hopen ⟨hboundary, hfull⟩
    refine (Op.bind_ok rfl).trans ?_
    rw [Op.get_bind, if_neg hround]
    rfl

theorem handleEvent_last {d : Delivery} (hboundary : d.event.boundary = true)
    (hfull : c.boundariesReported + 1 = nprocs) :
    handleEvent F (fun _ => 0) nprocs d c =
      flush F (fun _ => 0) d.ids d.order { c.record d.event with boundariesReported := 0 } := by
  have hround : (c.record d.event).boundariesReported + 1 = nprocs := hfull
  unfold handleEvent
  refine (Op.bind_ok rfl).trans ?_
  rw [if_pos hboundary]
  refine (Op.bind_ok rfl).trans ?_
  rw [Op.get_bind, if_pos hround]
  exact Op.bind_ok rfl

/-- What the books do not speak of may change. -/
theorem Collector.Told.congr (h : c.Told F bits draw es books) {c' : Collector}
    (hstats : c'.threadStats = c.threadStats) (hmax : c'.maxTimestamp = c.maxTimestamp)
    (hmapping : c'.trackIdMapping = c.trackIdMapping)
    (hsubmitted : c'.submittedTracks = c.submittedTracks) (hreports : c'.reports = c.reports) :
    c'.Told F bits draw es books := by
  obtain ⟨points, hshows, hpoints⟩ := h.shows
  refine ⟨hmax ▸ h.latest_eq, h.whole, hstats ▸ h.tally, hstats ▸ h.absent, points, ⟨?_, ?_, ?_⟩,
    hpoints⟩
  · rw [hmapping]
    exact hshows.mapped
  · have hids : c'.ids draw = c.ids draw := by
      funext k
      simp only [Collector.ids, hsubmitted]
    rw [hids, hreports]
    exact hshows.introduced
  · rw [hsubmitted, hreports]
    exact hshows.fresh

theorem Collector.Told.record (h : c.Told F bits draw es books) {e : CpuEvent}
    (hsep : Separate (es ++ [e])) :
    (c.record e).Told F bits draw (es ++ [e])
      fun key => { books key with current := (books key).current ++ [e] } := by
  have hother : ∀ key, ¬(e.accepted ∧ e.key = key) →
      (c.record e).threadStats key = c.threadStats key := by
    intro key hnot
    unfold Collector.record
    dsimp only
    split_ifs with hacc
    · exact Function.update_of_ne (fun heq => hnot ⟨hacc, heq.symm⟩) _ _
    · rfl
  refine ⟨?_, fun key => ?_, fun key stats hkey => ?_, fun key hkey => ?_, ?_⟩
  · rw [latest_concat, ← h.latest_eq]
    rfl
  · rw [← List.append_assoc, h.whole]
  · by_cases hmine : e.accepted ∧ e.key = key
    · obtain ⟨hacc, rfl⟩ := hmine
      have hprev : ((c.threadStats e.key).getD {}).minTimestamp =
            windowStart e.key (books e.key).finished (books e.key).current ∧
          Tally es e.key ((c.threadStats e.key).getD {})
            (intervalsOf e.key (books e.key).current) := by
        cases hentry : c.threadStats e.key with
        | none =>
          have hnone := h.absent _ hentry
          rw [← h.whole e.key, intervalsOf_append, List.append_eq_nil_iff] at hnone
          rw [windowStart, hnone.1, hnone.2]
          exact ⟨rfl, Tally.empty rfl rfl⟩
        | some old => exact (h.tally e.key old hentry).2
      have hstats : stats = ((c.threadStats e.key).getD {}).add e := by
        simpa [Collector.record, hacc, eq_comm] using hkey
      subst hstats
      refine ⟨?_, ?_, ?_⟩
      · simp [intervalsOf_append, intervalsOf_mine hacc]
      · rw [windowStart_mine hacc, ← hprev.1]
        rfl
      · rw [intervalsOf_append, intervalsOf_mine hacc]
        exact hprev.2.add hsep hacc fun x hx => le_latest hx
    · rw [hother key hmine] at hkey
      obtain ⟨hsome, hmin, htally⟩ := h.tally key stats hkey
      refine ⟨?_, ?_, ?_⟩
      · simp [intervalsOf_append, hsome]
      · rw [windowStart_other hmine, hmin]
      · rw [intervalsOf_append, intervalsOf_other hmine, List.append_nil]
        exact htally.append [e]
  · have hnot : ¬(e.accepted ∧ e.key = key) := by
      rintro ⟨hacc, rfl⟩
      simp [Collector.record, hacc] at hkey
    rw [hother key hnot] at hkey
    rw [intervalsOf_append, intervalsOf_other hnot, h.absent key hkey]
    rfl
  · obtain ⟨points, hshows, hpoints⟩ := h.shows
    exact ⟨points, ⟨hshows.mapped, hshows.introduced, hshows.fresh⟩, hpoints⟩

/-- The books of threads that have not been met can be closed at any time. -/
theorem Collector.Told.close_absent (h : c.Told F bits draw es books) {books' : ThreadKey → Book}
    (hbooks : ∀ key, books' key = books key ∨
      intervalsOf key es = [] ∧ books' key = (books key).close key) :
    c.Told F bits draw es books' := by
  obtain ⟨points, hshows, hpoints⟩ := h.shows
  refine ⟨h.latest_eq, fun key => ?_, fun key stats hkey => ?_, h.absent, points, hshows,
    fun key kind => ?_⟩
  · rcases hbooks key with heq | ⟨-, heq⟩
    · rw [heq, h.whole]
    · rw [heq, Book.close, List.append_nil, h.whole]
  · obtain ⟨hsome, hrest⟩ := h.tally key stats hkey
    rcases hbooks key with heq | ⟨hnone, -⟩
    · rw [heq]
      exact ⟨hsome, hrest⟩
    · exact absurd hnone hsome
  · rcases hbooks key with heq | ⟨hnone, heq⟩
    · rw [hpoints, heq]
    · rw [hpoints, heq, Book.close, portion, h.whole, hnone]
      simp

section Flush
variable (hdraw : Function.Injective (drawnId draw))
include hdraw

/-- The book of a thread is closed when the thread is reported. -/
theorem told_flushThread (h : c.Told F bits draw es books) (key : ThreadKey) :
    ∃ c', flushThread F (fun _ => 0) draw key c = (.ok (), c') ∧
      c'.boundariesReported = c.boundariesReported ∧
      c'.Told F bits draw es (Function.update books key ((books key).close key)) := by
  cases hstats : c.threadStats key with
  | none =>
    refine ⟨c, flushThread_absent hstats, rfl, h.close_absent fun k => ?_⟩
    by_cases hown : k = key
    · subst hown
      exact Or.inr ⟨h.absent k hstats, Function.update_self ..⟩
    · exact Or.inl (Function.update_of_ne hown ..)
  | some stats =>
    obtain ⟨hsome, hmin, htally⟩ := h.tally key stats hstats
    obtain ⟨points, hshows, hpoints⟩ := h.shows
    refine ⟨_, flushThread_accepting (hshows.mapped key) hstats htally, ?_, ?_⟩
    · simp [Collector.reset]
    set p : Portion := ⟨key, intervalsOf key (books key).current, stats.minTimestamp,
      c.maxTimestamp⟩
    have hportion : portion key (books key).finished (books key).current = some p := by
      rw [portion, h.whole, if_neg (by simpa using hsome), ← hmin, ← h.latest_eq]
    refine ⟨?_, fun k => ?_, fun k stats' hk => ?_, fun k hk => ?_, ?_⟩
    · simpa [Collector.reset] using h.latest_eq
    · by_cases hown : k = key
      · subst hown
        rw [Function.update_self, Book.close, List.append_nil, h.whole]
      · rw [Function.update_of_ne hown, h.whole]
    · by_cases hown : k = key
      · subst hown
        have hreset : stats' = { minTimestamp := c.maxTimestamp } := by
          simpa [Collector.reset, eq_comm] using hk
        rw [Function.update_self, Book.close, h.whole, windowStart_nil hsome, ← h.latest_eq,
          hreset]
        exact ⟨hsome, rfl, Tally.empty rfl rfl⟩
      · rw [Function.update_of_ne hown]
        refine h.tally k stats' ?_
        simpa [Collector.reset, Function.update_of_ne hown] using hk
    · have hown : k ≠ key := by
        rintro rfl
        simp [Collector.reset] at hk
      refine h.absent k ?_
      simpa [Collector.reset, Function.update_of_ne hown] using hk
    · have hmore := ((hshows.map key).announced hdraw (p.point F .cpu)).announced hdraw
        (p.point F .kernel)
      refine ⟨_, ⟨hmore.mapped, hmore.introduced, hmore.fresh⟩, fun k kind => ?_⟩
      rw [List.append_assoc, List.filter_append, hpoints, filter_points]
      by_cases hown : k = key
      · subst hown
        rw [Function.update_self, Book.close, hportion, List.map_append, if_pos rfl]
        rfl
      · rw [Function.update_of_ne hown, if_neg (Ne.symm hown), List.append_nil]

theorem told_flush (h : c.Told F bits draw es books) {keys : List ThreadKey}
    (hkeys : keys.Nodup) :
    ∃ c', flush F (fun _ => 0) draw keys c = (.ok (), c') ∧
      c'.boundariesReported = c.boundariesReported ∧
      c'.Told F bits draw es fun k => if k ∈ keys then (books k).close k else books k := by
  induction keys generalizing c books with
  | nil => exact ⟨c, rfl, rfl, by simpa using h⟩
  | cons key keys ih =>
    obtain ⟨hnew, hkeys⟩ := List.nodup_cons.mp hkeys
    obtain ⟨c₁, hfirst, hcount₁, h₁⟩ := told_flushThread hdraw h key
    obtain ⟨c₂, hrest, hcount₂, h₂⟩ := ih h₁ hkeys
    refine ⟨c₂, (Op.bind_ok hfirst).trans hrest, hcount₂.trans hcount₁, ?_⟩
    have hbooks : (fun k => if k ∈ keys then (Function.update books key ((books key).close key)
        k).close k else Function.update books key ((books key).close key) k) =
        fun k => if k ∈ key :: keys then (books k).close k else books k := by
      funext k
      by_cases hown : k = key
      · subst hown
        simp [hnew]
      · simp [hown]
    rwa [hbooks] at h₂

theorem told_handleEvent (h : c.Told F bits draw es fun key => book nprocs key es)
    (hcount : ∀ key, c.boundariesReported =
      (book nprocs key es).current.countP CpuEvent.boundary)
    {d : Delivery} (hsep : Separate (es ++ [d.event])) (hids : d.ids = draw)
    (horder : d.order.Nodup) (hall : ∀ e ∈ es ++ [d.event], e.accepted → e.key ∈ d.order) :
    ∃ c', handleEvent F (fun _ => 0) nprocs d c = (.ok (), c') ∧
      c'.Told F bits draw (es ++ [d.event]) (fun key => book nprocs key (es ++ [d.event])) ∧
      ∀ key, c'.boundariesReported =
        (book nprocs key (es ++ [d.event])).current.countP CpuEvent.boundary := by
  have hrecord := h.record hsep
  by_cases hfull : d.event.boundary = true ∧ c.boundariesReported + 1 = nprocs
  · -- every processor has passed its boundary: all books are closed
    have hclosed := fun key => book_full (hcount key) hfull.1 hfull.2
    have hzero : Collector.Told F bits draw (es ++ [d.event]) _
        { c.record d.event with boundariesReported := 0 } :=
      hrecord.congr rfl rfl rfl rfl rfl
    obtain ⟨c', hflush, hcount', htold⟩ := told_flush hdraw hzero horder
    rw [← hids] at hflush
    refine ⟨c', (handleEvent_last hfull.1 hfull.2).trans hflush, ?_, fun key => ?_⟩
    · refine htold.close_absent fun key => ?_
      by_cases hmem : key ∈ d.order
      · exact Or.inl (by rw [hclosed, if_pos hmem])
      · refine Or.inr ⟨List.filter_eq_nil_iff.mpr fun e he => ?_, by rw [hclosed, if_neg hmem]⟩
        rw [Bool.and_eq_true, decide_eq_true_iff]
        rintro ⟨hacc, rfl⟩
        exact hmem (hall e he hacc)
    · rw [hcount', hclosed]
      rfl
  · have hopen := fun key => book_open (hcount key) hfull
    refine ⟨_, handleEvent_goesOn hfull, ?_, fun key => ?_⟩
    · simp only [hopen]
      exact hrecord.congr rfl rfl rfl rfl rfl
    · rw [hopen, countP_boundary_concat (hcount key)]

/-- The entries of the map are visited once each. -/
def VisitsAll (ds : List Delivery) : Prop :=
  ∀ pre d post, ds = pre ++ d :: post → d.order.Nodup ∧
    ∀ e ∈ (pre ++ [d]).map Delivery.event, e.accepted → e.key ∈ d.order

variable (F bits nprocs) in
theorem told_run {ds : List Delivery} (hsep : Separate (ds.map Delivery.event))
    (hids : ∀ d ∈ ds, d.ids = draw) (hvisits : VisitsAll ds) :
    ((collector F (fun _ => 0) nprocs).final Collector.new ds).Told F bits draw
        (ds.map Delivery.event) (fun key => book nprocs key (ds.map Delivery.event)) ∧
      ∀ key, ((collector F (fun _ => 0) nprocs).final Collector.new ds).boundariesReported =
        (book nprocs key (ds.map Delivery.event)).current.countP CpuEvent.boundary := by
  induction ds using List.reverseRecOn with
  | nil => exact ⟨Collector.told_new, fun _ => rfl⟩
  | append_singleton ds d ih =>
    rw [List.map_append] at hsep ⊢
    obtain ⟨htold, hcount⟩ := ih (hsep.sublist (List.sublist_append_left _ _))
      (fun d' hd' => hids d' (List.mem_append_left _ hd')) (by
        rintro pre d' post rfl
        exact hvisits pre d' (post ++ [d]) (by simp))
    obtain ⟨horder, hall⟩ := hvisits ds d [] rfl
    rw [List.map_append] at hall
    obtain ⟨c', hstep, hnext⟩ := told_handleEvent hdraw htold hcount hsep
      (hids d (by simp)) horder hall
    rw [Machine.final_append]
    have hfinal : ((collector F (fun _ => 0) nprocs).step
        ((collector F (fun _ => 0) nprocs).final Collector.new ds) d).1 = c' :=
      congrArg Prod.snd hstep
    change Collector.Told F bits draw _ _ ((collector F (fun _ => 0) nprocs).step _ d).1 ∧
      ∀ key, ((collector F (fun _ => 0) nprocs).step _ d).1.boundariesReported = _
    rw [hfinal]
    exact hnext

end Flush
end Run

/-! ## What the trace shows -/

/-- The value that a portion gives a counter, under the id of the counter. -/
def Portion.event (F : Rounding) (bits : Percentage → UInt64) (kind : Kind) (id : ℕ) (p : Portion) :
    Event :=
  Report.event bits (.counter ((p.point F kind).sample id))

/-- What is counted for a thread and not yet reported. -/
def Collector.counted (c : Collector) (key : ThreadKey) : Kind → ℕ
  | .cpu => ((c.threadStats key).map fun s => s.cpuTimeNs.toNat).getD 0
  | .kernel => ((c.threadStats key).map fun s => s.kernelTimeNs.toNat).getD 0

section Trace
variable {F : Rounding} {bits : Percentage → UInt64} {draw : ThreadKey → ℕ × ℕ}
  {es : List CpuEvent} {books : ThreadKey → Book} {c : Collector}

theorem Collector.Told.counted (h : c.Told F bits draw es books) (key : ThreadKey) (kind : Kind) :
    c.counted key kind = timeOf kind (intervalsOf key (books key).current) := by
  cases hkey : c.threadStats key with
  | none =>
    have hnone := h.absent key hkey
    rw [← h.whole key, intervalsOf_append, List.append_eq_nil_iff] at hnone
    rw [hnone.2]
    cases kind <;> simp [Collector.counted, hkey, timeOf]
  | some stats =>
    obtain ⟨-, -, htally⟩ := h.tally key stats hkey
    cases kind with
    | cpu => simpa [Collector.counted, hkey, timeOf] using htally.cpu
    | kernel => simpa [Collector.counted, hkey, timeOf] using htally.kernel

/-- A thread that has been reported has its tracks, and they show its portions. -/
theorem Collector.Told.shown (h : c.Told F bits draw es books) {messages : List Message}
    {io : ℕ → Bool}
    (hothers : Undisturbed (c.reports.map (Report.event bits)) (messages.map fun m => m.event))
    (hok : ∀ r ∈ (converter io).outputs .new messages, r = .ok ()) {key : ThreadKey}
    (hne : (books key).reported ≠ []) (kind : Kind) :
    ∃ id u, Faithful ((converter io).final .new messages)
      ⟨kind.label, .counter id (some "%"), some (.thread key.2 key.1)⟩
      ((books key).reported.map (Portion.event F bits kind id)) u := by
  obtain ⟨points, hshows, hpoints⟩ := h.shows
  have hmine := hpoints key kind
  obtain ⟨p, ps, hps⟩ := List.exists_cons_of_ne_nil hne
  cases hid : c.ids draw (key, kind) with
  | none =>
    have hmem : p.point F kind ∈ points.filter fun p => p.series = (key, kind) := by
      rw [hmine, hps]
      exact List.mem_cons_self
    obtain ⟨hpoint, hseries⟩ := List.mem_filter.mp hmem
    exact absurd (of_decide_eq_true hseries) (hshows.introduced.absent _ hid _ hpoint)
  | some id =>
    obtain ⟨a, rest, hrest, hout⟩ := hshows.introduced.present _ id hid
    have ha : a.series = (key, kind) := by
      have hmem : a ∈ points.filter fun p => p.series = (key, kind) := by
        rw [hrest]
        exact List.mem_cons_self
      simpa using (List.mem_filter.mp hmem).2
    have htrack : a.track id = ⟨kind.label, .counter id (some "%"),
        some (.thread key.2 key.1)⟩ := by
      obtain ⟨k, d, value, timestamp⟩ := a
      cases ha
      rfl
    rw [← hrest, hmine, ← List.map_eq_flatMap, List.map_map] at hout
    obtain ⟨u, hu⟩ := hothers.shown io messages hok (t := a.track id) rfl hout
      (fun e he => by obtain ⟨y, -, rfl⟩ := List.mem_map.mp he; rfl)
      (fun q hq => by cases hq; exact .inl rfl)
    exact ⟨id, u, htrack ▸ hu⟩

end Trace

/-- Whatever runs on the processors and however their records arrive, a thread is reported at the
end of every round from the first one that it has an interval in. In the trace its two tracks
show what part of the time since its last report the intervals of the round take. No interval is
lost or shown twice: what is in none of the portions is still counted. -/
theorem thread_tracks_show_time (filterEnabled : Bool) (traces : ℕ → List Tracepoint)
    (hclock : ∀ c, (traces c).Pairwise fun x y => x.now ≤ y.now) (hone : OneCpuAtATime traces)
    (F : Rounding) (bits : Percentage → UInt64) (draw : ThreadKey → ℕ × ℕ) (nprocs : ℕ)
    (ds : List Delivery)
    (hds : ∀ c, ((ds.map Delivery.event).filter fun e => e.cpu = c).Sublist
      (eventsOf filterEnabled traces c))
    (hids : ∀ d ∈ ds, d.ids = draw) (hdraw : Function.Injective (drawnId draw))
    (hvisits : VisitsAll ds) (messages : List Message) (io : ℕ → Bool)
    (hothers : Undisturbed
      (((collector F (fun _ => 0) nprocs).final .new ds).reports.map (Report.event bits))
      (messages.map fun m => m.event))
    (hok : ∀ r ∈ (converter io).outputs .new messages, r = .ok ()) :
    let c := (collector F (fun _ => 0) nprocs).final .new ds
    let t := (converter io).final .new messages
    ∀ key, let b := book nprocs key (ds.map Delivery.event)
      intervalsOf key (ds.map Delivery.event) =
        b.reported.flatMap Portion.intervals ++ intervalsOf key b.current ∧
      ∀ kind, c.counted key kind = timeOf kind (intervalsOf key b.current) ∧
        (b.reported ≠ [] → ∃ id u, Faithful t
          ⟨kind.label, .counter id (some "%"), some (.thread key.2 key.1)⟩
          (b.reported.map (Portion.event F bits kind id)) u) := by
  have hf : ∀ c, Forward 0 (traces c) := by
    intro c
    refine ⟨by simp, ?_⟩
    simpa only [UInt64.le_iff_toNat_le] using hclock c
  have hsep := separate_of_streams hf hone hds
  intro c t key b
  obtain ⟨htold, -⟩ := told_run F bits nprocs hdraw hsep hids hvisits
  exact ⟨book_intervals nprocs key _, fun kind => ⟨htold.counted key kind,
    fun hne => htold.shown hothers hok hne kind⟩⟩

/-! ### A thread on two processors -/

def pairedIds (key : ThreadKey) : ℕ × ℕ :=
  let n := Nat.pair (Equiv.intEquivNat key.1) (Equiv.intEquivNat key.2)
  (2 * n, 2 * n + 1)

theorem drawnId_pairedIds : Function.Injective (drawnId pairedIds) := by
  rintro ⟨⟨a, b⟩, kind⟩ ⟨⟨a', b'⟩, kind'⟩ h
  have hpair : Nat.pair (Equiv.intEquivNat a) (Equiv.intEquivNat b) =
      Nat.pair (Equiv.intEquivNat a') (Equiv.intEquivNat b') ∧ kind = kind' := by
    cases kind <;> cases kind' <;> simp [drawnId, pairedIds] at h ⊢ <;> omega
  obtain ⟨ha, hb⟩ := Nat.pair_eq_pair.mp hpair.1
  rw [Equiv.intEquivNat.injective ha, Equiv.intEquivNat.injective hb, hpair.2]

def migrationDeliveries : List Delivery :=
  migrationRecords.map fun d => { d with order := [(3, 7)], ids := pairedIds }

theorem visitsAll_migration : VisitsAll migrationDeliveries := by
  intro pre d post h
  have hd : d ∈ migrationDeliveries := by simp [h]
  have hevents : ∀ e ∈ migrationDeliveries.map Delivery.event, e.accepted → e.key = (3, 7) := by
    decide
  obtain ⟨r, -, rfl⟩ := List.mem_map.mp hd
  refine ⟨List.nodup_singleton _, fun e he hacc => ?_⟩
  rw [hevents e (by rw [h]; exact List.map_subset _ (by simp) he) hacc]
  exact List.mem_singleton_self _

def plainBits : Percentage → UInt64
  | .value q => UInt64.ofNat q.num.toNat
  | _ => 0

def migrationReports : List Event :=
  ((collector Rounding.exact (fun _ => 0) 2).final .new migrationDeliveries).reports.map
    (Report.event plainBits)

/-- The thread has run for 30 of the 40 ns from its first interval on. -/
theorem thread_tracks_show_migration :
    let t := (converter fun _ => true).final .new (migrationReports.map fun e => ⟨e, none⟩)
    ∃ id u, Faithful t ⟨"cpu_time", .counter id (some "%"), some (.thread 7 3)⟩
      [.counter ⟨"cpu_time", plainBits (percentage Rounding.exact 30 40), 10, .counter id,
        ⟨[], [], [], []⟩, some "%"⟩] u := by
  obtain ⟨-, hkinds⟩ := thread_tracks_show_time false migration migration_clock
    migration_oneCpuAtATime Rounding.exact plainBits pairedIds 2 migrationDeliveries
    (migration_sublist rfl) (by simp [migrationDeliveries]) drawnId_pairedIds visitsAll_migration
    _ (fun _ => true) (.alone migrationReports) (by decide +kernel) (3, 7)
  have hbook : (book 2 (3, 7) (migrationDeliveries.map Delivery.event)).reported =
      [⟨(3, 7), [⟨7, 3, 50, 15, 30, 1, true⟩, ⟨7, 3, 20, 0, 10, 0, false⟩], 10, 50⟩] := by
    decide +kernel
  obtain ⟨-, hshown⟩ := hkinds .cpu
  rw [hbook] at hshown
  exact hshown (List.cons_ne_nil _ _)

end Manytrace.Bpf.CpuUtil
