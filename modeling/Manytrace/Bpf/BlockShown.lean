import Manytrace.Core.Introduction
import Manytrace.Converter.Declarations
import Manytrace.Bpf.BlockTrack
import Manytrace.Bpf.Mounts

/-! From the block tracer to the trace. Every device gets a track, which shows the requests to the
device, and below it one track for each of its counters. -/
namespace Manytrace.Bpf.BlockTrack
open Manytrace.Core Manytrace.Protocol Manytrace.Converter

/-! ## Names and labels -/

def decodeDevice (dev : ℕ) : ℕ × ℕ := (dev >>> 20, dev &&& (1 <<< 20 - 1))

/-- What is known of a device: its name in sysfs, if it has one, and its mounts. -/
structure DeviceInfo where
  dev : ℕ
  sysfs : Option String
  mounts : List Mounts.MountInfo

namespace DeviceInfo
variable (d : DeviceInfo)

def majorMinor : String :=
  let (major, minor) := decodeDevice d.dev
  toString major ++ ":" ++ toString minor

def name : String := d.sysfs.getD ("block-" ++ d.majorMinor)

def filesystems : String :=
  ",".intercalate ((d.mounts.map fun m => String.ofList m.filesystem).eraseDups.mergeSort
    fun a b => decide (a ≤ b))

def mountpoints (mounts : List Mounts.MountInfo) : String :=
  ",".intercalate (mounts.map fun m => String.ofList m.mountpoint)

def trackName : String :=
  d.name ++ " (" ++ d.majorMinor ++ ")" ++
    if d.mounts.isEmpty then "" else " " ++ d.filesystems ++ " " ++ mountpoints (d.mounts.take 3)

def track (id : ℕ) : Track := ⟨d.trackName, .custom id, none⟩

end DeviceInfo

def BlockOperation.name : BlockOperation → String
  | .read => "read"
  | .write => "write"
  | .flush => "flush"
  | .discard => "discard"
  | .other => "other"

def formatBytes (bytes : ℕ) : String :=
  if 0 < bytes ∧ bytes % (1024 * 1024) = 0 then toString (bytes / (1024 * 1024)) ++ " MiB"
  else if 0 < bytes ∧ bytes % 1024 = 0 then toString (bytes / 1024) ++ " KiB"
  else toString bytes ++ " B"

def asI64 (n : ℕ) : ℤ := (UInt64.ofNat n).toInt64.toInt

/-- The devices as they are first looked up, and the float for a number of nanoseconds as
microseconds. -/
structure Surroundings where
  device : ℕ → DeviceInfo
  micros : ℕ → UInt64

section Span
variable (env : Surroundings) (e : RequestSpanEvent)

def RequestSpanEvent.labels : Labels :=
  let partition := env.device e.partitionDev
  { ints := [("bytes", (e.bytes : ℤ)), ("sector", asI64 e.sector), ("pid", (e.pid : ℤ)),
      ("tgid", (e.tgid : ℤ)), ("error", (e.error : ℤ)), ("requeues", (e.requeues : ℤ))]
    floats := [("queue_latency_us", env.micros e.queueNs),
      ("service_latency_us", env.micros e.serviceNs),
      ("total_latency_us", env.micros e.totalNs)]
    bools := [("completed", e.completed)]
    strings := [("comm", e.comm), ("operation", e.operation.name),
        ("partition", partition.name ++ " (" ++ partition.majorMinor ++ ")")] ++
      if partition.mounts.isEmpty then []
      else
        [("filesystems", partition.filesystems),
          ("mountpoints", DeviceInfo.mountpoints partition.mounts),
          ("sources", ",".intercalate (partition.mounts.map fun m => String.ofList m.source))] }

def RequestSpanEvent.status : String :=
  if e.completed then if e.error = 0 then e.operation.name else "error" else "requeued"

def RequestSpanEvent.span (id : ℕ) : Span where
  name := e.status ++ " " ++ formatBytes e.bytes
  spanId := e.requestId ^^^ e.startNs
  startTimestamp := e.startNs
  endTimestamp := e.endNs
  trackId := .custom id
  labels := e.labels env

end Span

inductive CounterKind
  | throughput
  | iops
  | queueAverage
  | serviceAverage
  | totalAverage
  | serviceP50
  | serviceP95
  | serviceP99
  | totalP50
  | totalP95
  | totalP99
  | errors
  | busyPercent
  | saturatedPercent
  | averageInflight
  | averageQueued
  | inflight
  | queued
  | maxInflight
  | maxQueued
  | requeues
  | lostRequests
  | timelineDrops
deriving DecidableEq, Repr

structure SeriesKey where
  dev : ℕ
  operation : Option BlockOperation
  kind : CounterKind
deriving DecidableEq, Repr

structure CounterSample where
  operation : Option BlockOperation
  kind : CounterKind
  name : String
  value : UInt64
  unit : String
deriving DecidableEq, Repr

/-! ## The callback -/

/-- A sample of a device. -/
structure Value where
  dev : ℕ
  sample : CounterSample
  timestamp : ℕ
deriving DecidableEq, Repr

def Value.key (v : Value) : SeriesKey := ⟨v.dev, v.sample.operation, v.sample.kind⟩

def Value.track (v : Value) (deviceTrack id : ℕ) : Track :=
  ⟨v.sample.name, .counter id (some v.sample.unit), some (.custom deviceTrack)⟩

def Value.event (v : Value) (id : ℕ) : Event :=
  .counter ⟨v.sample.name, v.sample.value, v.timestamp, .counter id, ⟨[], [], [], []⟩,
    some v.sample.unit⟩

/-- What is handed on: a sample, or a span from the ring buffer. -/
inductive Report
  | counter (value : Value)
  | span (event : RequestSpanEvent)
deriving DecidableEq, Repr

structure Registry where
  trackIds : ℕ → Option ℕ
  seriesIds : SeriesKey → Option ℕ
  told : List (Event × ℤ)

def Registry.new : Registry := ⟨fun _ => none, fun _ => none, []⟩

section Emission
variable (env : Surroundings) (random : ℕ → ℕ) (callback : List (Event × ℤ) → Event → ℤ)

def Registry.tell (s : Registry) (e : Event) : ℤ × Registry :=
  (callback s.told e, { s with told := s.told ++ [(e, callback s.told e)] })

/-- A number is drawn for a track just before the callback is told about the track. -/
def Registry.ensureTrack (s : Registry) (dev : ℕ) : ℕ × ℤ × Registry :=
  match s.trackIds dev with
  | some id => (id, 0, s)
  | none =>
    let id := random s.told.length
    let (result, s) := s.tell callback (.track ((env.device dev).track id))
    (id, result,
      if result = 0 then { s with trackIds := Function.update s.trackIds dev (some id) } else s)

/-- The end of `emit_counter`, below the track of the device. -/
def Registry.emitBelow (s : Registry) (deviceTrack : ℕ) (v : Value) : ℤ × Registry :=
  match s.seriesIds v.key with
  | some id => s.tell callback (v.event id)
  | none =>
    let id := random s.told.length
    let s := { s with seriesIds := Function.update s.seriesIds v.key (some id) }
    let (result, s) := s.tell callback (.track (v.track deviceTrack id))
    if result ≠ 0 then (result, s) else s.tell callback (v.event id)

def Registry.emitCounter (s : Registry) (v : Value) : ℤ × Registry :=
  let (deviceTrack, result, s) := s.ensureTrack env random callback v.dev
  if result ≠ 0 then (result, s) else s.emitBelow random callback deviceTrack v

def Registry.emitRequestSpan (s : Registry) (e : RequestSpanEvent) : ℤ × Registry :=
  let (id, result, s) := s.ensureTrack env random callback e.dev
  if result ≠ 0 then (result, s) else s.tell callback (.span (e.span env id))

def Registry.report (s : Registry) : Report → ℤ × Registry
  | .counter v => s.emitCounter env random callback v
  | .span e => s.emitRequestSpan env random callback e

end Emission

/-! ## What was told -/

def Report.dev : Report → ℕ
  | .counter v => v.dev
  | .span e => e.dev

def Report.value? : Report → Option Value
  | .counter v => some v
  | .span _ => none

/-- What goes to the track of the device. -/
def Report.onDevice (env : Surroundings) (id : ℕ) : Report → List Event
  | .counter _ => []
  | .span e => [.span (e.span env id)]

/-- The track of a device is declared before those below it. -/
def ParentsBefore (told : List Event) : Prop :=
  ∀ before t after, told = before ++ .track t :: after → ∀ id, t.parent = some (.custom id) →
    ∃ e ∈ before, (nameFor (.custom id) e).isSome

theorem ParentsBefore.append {told news : List Event} (h : ParentsBefore told)
    (hnews : ∀ t, .track t ∈ news → ∀ id, t.parent = some (.custom id) →
      ∃ e ∈ told, (nameFor (.custom id) e).isSome) : ParentsBefore (told ++ news) := by
  intro before t after heq id hparent
  rcases List.append_eq_append_iff.mp heq with ⟨middle, rfl, hrest⟩ | ⟨middle, hrest, hnew⟩
  · obtain ⟨e, he, hname⟩ := hnews t (by simp [hrest]) id hparent
    exact ⟨e, List.mem_append_left _ he, hname⟩
  · cases middle with
    | nil =>
      obtain rfl : told = before := by simpa using hrest
      obtain rfl : .track t :: after = news := hnew
      exact hnews t List.mem_cons_self id hparent
    | cons e middle =>
      obtain ⟨rfl, -⟩ := List.cons.inj hnew
      exact h before t middle hrest id hparent

/-- The tables and what was told after these reports. The samples have come in the order of `as`,
each with the number of the track of its device. -/
structure Registry.Shows (env : Surroundings) (random : ℕ → ℕ) (s : Registry) (rs : List Report)
    (as : List (Value × ℕ)) : Prop where
  drawn : Undrawn random (s.told.map Prod.fst)
  devices : Introduced Report.dev (fun r id => .track ((env.device r.dev).track id))
    (fun r id => r.onDevice env id) (fun id => concerns (.custom id)) s.trackIds rs
    (s.told.map Prod.fst)
  series : Introduced (fun a => a.1.key) (fun a id => .track (a.1.track a.2 id))
    (fun a id => [a.1.event id]) (fun id => concerns (.counter id)) s.seriesIds as
    (s.told.map Prod.fst)
  parents : ∀ a ∈ as, s.trackIds a.1.dev = some a.2
  before : ParentsBefore (s.told.map Prod.fst)

section Steps
variable {env : Surroundings} {random : ℕ → ℕ} {s : Registry} {rs : List Report}
  {as : List (Value × ℕ)}

theorem shows_new : Registry.new.Shows env random [] [] where
  drawn := by simp [Undrawn, Registry.new]
  devices := introduced_nil _ _ _ _
  series := introduced_nil _ _ _ _
  parents := by simp
  before := by
    intro before t after h
    simp [Registry.new] at h

theorem onDevice_concerns (env : Surroundings) (r : Report) (i : ℕ) : ∀ e ∈ r.onDevice env i,
    (∀ j, concerns (.custom j) e = decide (i = j)) ∧ (∀ j, concerns (.counter j) e = false) ∧
      ∀ t, e ≠ .track t := by
  intro e he
  cases r with
  | counter v => cases he
  | span x =>
    rw [List.mem_singleton.mp he]
    simp [RequestSpanEvent.span]

@[simp] theorem event_concerns (v : Value) (i : ℕ) (id : TrackId) :
    concerns id (v.event i) = decide (.counter i = id) := concerns_counter id _

@[simp] theorem Value.track_toId (v : Value) (d i : ℕ) :
    (v.track d i).trackType.toId = .counter i := rfl

@[simp] theorem DeviceInfo.track_toId (d : DeviceInfo) (i : ℕ) :
    (d.track i).trackType.toId = .custom i := rfl

theorem map_fst_told (s : Registry) (news : List Event) :
    (s.told ++ news.map fun e => (e, (0 : ℤ))).map Prod.fst = s.told.map Prod.fst ++ news := by
  rw [List.map_append, List.map_map]
  exact congrArg _ (List.map_id _)

/-- The number of a device was drawn before. -/
theorem Registry.Shows.ne_random (h : s.Shows env random rs as) {dev id n : ℕ}
    (hid : s.trackIds dev = some id) (hn : s.told.length ≤ n) : id ≠ random n := by
  rintro rfl
  obtain ⟨a, rest, -, hout⟩ := h.devices.present dev _ hid
  rw [h.drawn.custom (by rwa [List.length_map])] at hout
  cases hout

/-- and so was the number of a series. -/
theorem Registry.Shows.series_ne_random (h : s.Shows env random rs as) {k : SeriesKey} {id n : ℕ}
    (hid : s.seriesIds k = some id) (hn : s.told.length ≤ n) : id ≠ random n := by
  rintro rfl
  obtain ⟨a, rest, -, hout⟩ := h.series.present k _ hid
  rw [h.drawn.counter (by rwa [List.length_map])] at hout
  cases hout

/-- What goes to the track of a device that has one. -/
theorem Registry.Shows.deviceOld (h : s.Shows env random rs as) {r : Report} {id : ℕ}
    (hid : s.trackIds r.dev = some id) :
    Registry.Shows env random
      { s with told := s.told ++ (r.onDevice env id).map fun e => (e, 0) } (rs ++ [r]) as := by
  have hnews := onDevice_concerns env r id
  refine ⟨?_, ?_, ?_, h.parents, ?_⟩
  · rw [map_fst_told]
    refine h.drawn.append fun n hn e he => ⟨(hnews e he).2.1 _, ?_⟩
    rw [(hnews e he).1]
    rw [List.length_map] at hn
    simpa using h.ne_random hid (n := n) (by omega)
  · rw [map_fst_told]
    exact h.devices.old (fun a i m hm j => (onDevice_concerns env a i m hm).1 j) hid
  · rw [map_fst_told]
    exact h.series.other fun m hm i => (hnews m hm).2.1 i
  · rw [map_fst_told]
    exact h.before.append fun t ht => absurd rfl ((hnews _ ht).2.2 t)

variable (hrandom : Function.Injective random)
include hrandom

/-- The first report about a device. -/
theorem Registry.Shows.deviceNew (h : s.Shows env random rs as) {r : Report}
    (hnone : s.trackIds r.dev = none) :
    Registry.Shows env random
      { s with
        trackIds := Function.update s.trackIds r.dev (some (random s.told.length))
        told := s.told ++ (.track ((env.device r.dev).track (random s.told.length)) ::
          r.onDevice env (random s.told.length)).map fun e => (e, 0) } (rs ++ [r]) as := by
  have hnews := onDevice_concerns env r (random s.told.length)
  refine ⟨?_, ?_, ?_, fun a ha => ?_, ?_⟩
  · rw [map_fst_told]
    refine h.drawn.append fun n hn e he => ?_
    rw [List.length_map, List.length_cons] at hn
    have hne : s.told.length ≠ n := by omega
    rcases List.mem_cons.mp he with rfl | he
    · simp [hrandom.eq_iff, hne]
    · refine ⟨(hnews e he).2.1 _, ?_⟩
      rw [(hnews e he).1]
      simpa [hrandom.eq_iff] using hne
  · rw [map_fst_told]
    exact h.devices.new (fun a i m hm j => (onDevice_concerns env a i m hm).1 j)
      (fun a i j => by simp) hnone
      (h.drawn.custom (by rw [List.length_map]))
  · rw [map_fst_told]
    refine h.series.other fun m hm i => ?_
    rcases List.mem_cons.mp hm with rfl | hm
    · simp
    · exact (hnews m hm).2.1 i
  · have hne : a.1.dev ≠ r.dev := by
      intro heq
      have hparent := h.parents a ha
      rw [heq, hnone] at hparent
      cases hparent
    exact (Function.update_of_ne hne ..).trans (h.parents a ha)
  · rw [map_fst_told]
    refine h.before.append fun t ht id hid => ?_
    rcases List.mem_cons.mp ht with heq | ht
    · cases heq
      cases hid
    · exact absurd rfl ((hnews _ ht).2.2 t)

/-- A sample of a device that has its track. -/
theorem Registry.Shows.emitBelow (h : s.Shows env random rs as) {v : Value} {d : ℕ}
    (hd : s.trackIds v.dev = some d) :
    (s.emitBelow random accepting d v).2.Shows env random rs (as ++ [(v, d)]) := by
  have hparents : ∀ a ∈ as ++ [(v, d)], s.trackIds a.1.dev = some a.2 := by
    intro a ha
    rcases List.mem_append.mp ha with ha | ha
    · exact h.parents a ha
    · rw [List.mem_singleton.mp ha]
      exact hd
  have heach : ∀ (a : Value × ℕ) (i : ℕ), ∀ m ∈ [a.1.event i], ∀ j,
      concerns (.counter j) m = decide (i = j) := by
    intro a i m hm j
    rw [List.mem_singleton.mp hm, event_concerns]
    simp
  unfold Registry.emitBelow
  cases hid : s.seriesIds v.key with
  | some id =>
    change Registry.Shows env random
      { s with told := s.told ++ [v.event id].map fun e => (e, 0) } rs (as ++ [(v, d)])
    refine ⟨?_, ?_, ?_, hparents, ?_⟩
    · rw [map_fst_told]
      refine h.drawn.append fun n hn e he => ?_
      rw [List.length_map, List.length_singleton] at hn
      rw [List.mem_singleton.mp he]
      simp [h.series_ne_random hid (n := n) (by omega)]
    · rw [map_fst_told]
      refine h.devices.other fun m hm i => ?_
      rw [List.mem_singleton.mp hm]
      simp
    · rw [map_fst_told]
      exact h.series.old heach (a := (v, d)) hid
    · rw [map_fst_told]
      refine h.before.append fun t ht => ?_
      cases List.mem_singleton.mp ht
  | none =>
    change Registry.Shows env random
      { s with
        seriesIds := Function.update s.seriesIds v.key (some (random s.told.length))
        told := (s.told ++ [(.track (v.track d (random s.told.length)), 0)]) ++
          [(v.event (random s.told.length), 0)] } rs (as ++ [(v, d)])
    rw [List.append_assoc]
    change Registry.Shows env random
      { s with
        seriesIds := Function.update s.seriesIds v.key (some (random s.told.length))
        told := s.told ++ [.track (v.track d (random s.told.length)),
          v.event (random s.told.length)].map fun e => (e, 0) } rs (as ++ [(v, d)])
    refine ⟨?_, ?_, ?_, hparents, ?_⟩
    · rw [map_fst_told]
      refine h.drawn.append fun n hn e he => ?_
      simp only [List.length_map, List.length_cons, List.length_nil] at hn
      have hne : s.told.length ≠ n := by omega
      simp only [List.mem_cons, List.not_mem_nil, or_false] at he
      rcases he with rfl | rfl <;> simp [hrandom.eq_iff, hne]
    · rw [map_fst_told]
      refine h.devices.other fun m hm i => ?_
      simp only [List.mem_cons, List.not_mem_nil, or_false] at hm
      rcases hm with rfl | rfl <;> simp
    · rw [map_fst_told]
      exact h.series.new heach (fun a i j => by simp) (a := (v, d)) hid
        (h.drawn.counter (by rw [List.length_map]))
    · rw [map_fst_told]
      refine h.before.append fun t ht id hparent => ?_
      simp only [List.mem_cons, List.not_mem_nil, or_false] at ht
      rcases ht with heq | heq
      · cases heq
        cases hparent
        obtain ⟨a, rest, -, hout⟩ := h.devices.present _ _ hd
        refine ⟨.track ((env.device a.dev).track d), ?_, by simp [nameFor]⟩
        refine List.mem_of_mem_filter (p := concerns (.custom d)) ?_
        rw [hout]
        exact List.mem_cons_self
      · cases heq

theorem Registry.Shows.report (h : s.Shows env random rs as) (r : Report) :
    ∃ as', (s.report env random accepting r).2.Shows env random (rs ++ [r]) as' ∧
      as'.map Prod.fst = as.map Prod.fst ++ r.value?.toList := by
  cases hid : s.trackIds r.dev with
  | some id =>
    have hdevice := h.deviceOld hid
    cases r with
    | span e =>
      change s.trackIds e.dev = some id at hid
      refine ⟨as, ?_, (List.append_nil _).symm⟩
      simpa [Registry.report, Registry.emitRequestSpan, Registry.ensureTrack, hid, Registry.tell,
        accepting, Report.onDevice, Report.dev] using hdevice
    | counter v =>
      change s.trackIds v.dev = some id at hid
      have hs : s.Shows env random (rs ++ [.counter v]) as := by
        simpa [Report.onDevice] using hdevice
      refine ⟨as ++ [(v, id)], ?_, by simp [Report.value?]⟩
      simpa [Registry.report, Registry.emitCounter, Registry.ensureTrack, hid] using
        hs.emitBelow hrandom hid
  | none =>
    have hdevice := h.deviceNew hrandom hid
    cases r with
    | span e =>
      change s.trackIds e.dev = none at hid
      refine ⟨as, ?_, (List.append_nil _).symm⟩
      simpa [Registry.report, Registry.emitRequestSpan, Registry.ensureTrack, hid, Registry.tell,
        accepting, Report.onDevice, Report.dev] using hdevice
    | counter v =>
      change s.trackIds v.dev = none at hid
      refine ⟨as ++ [(v, random s.told.length)], ?_, by simp [Report.value?]⟩
      have hs := hdevice.emitBelow hrandom (v := v) (Function.update_self ..)
      simpa [Registry.report, Registry.emitCounter, Registry.ensureTrack, hid, Registry.tell,
        accepting, Report.onDevice, Report.dev] using hs

variable (env) in
theorem shows_run (rs : List Report) : ∃ as, as.map Prod.fst = rs.filterMap Report.value? ∧
    (rs.foldl (fun s r => (s.report env random accepting r).2) Registry.new).Shows env random
      rs as := by
  induction rs using List.reverseRecOn with
  | nil => exact ⟨[], rfl, shows_new⟩
  | append_singleton rs r ih =>
    obtain ⟨as, has, h⟩ := ih
    obtain ⟨as', h', has'⟩ := h.report hrandom r
    refine ⟨as', ?_, ?_⟩
    · rw [has', has, List.filterMap_append]
      cases r <;> rfl
    · rw [List.foldl_append]
      exact h'

end Steps

/-! ## What the trace shows -/

def Report.span? : Report → Option RequestSpanEvent
  | .counter _ => none
  | .span e => some e

/-- What the callback is told if it accepts everything. -/
def told (env : Surroundings) (random : ℕ → ℕ) (rs : List Report) : List Event :=
  (rs.foldl (fun s r => (s.report env random accepting r).2) Registry.new).told.map Prod.fst

theorem flatMap_onDevice (env : Surroundings) (id : ℕ) (rs : List Report) :
    rs.flatMap (fun r => r.onDevice env id) =
      (rs.filterMap Report.span?).map fun e => .span (e.span env id) := by
  induction rs with
  | nil => rfl
  | cons r rs ih =>
    rw [List.flatMap_cons, ih]
    cases r <;> rfl

theorem filterMap_span_filter (dev : ℕ) (rs : List Report) :
    (rs.filter fun r => r.dev = dev).filterMap Report.span? =
      (rs.filterMap Report.span?).filter fun e => e.dev = dev := by
  rw [List.filterMap_filter, List.filter_filterMap]
  congr 1
  funext r
  cases r with
  | counter v => simp [Report.span?]
  | span e => by_cases hdev : e.dev = dev <;> simp [Report.span?, Report.dev, Option.filter, hdev]

/-- The samples of a series are all on its track, below the track of the device. -/
theorem Registry.Shows.seriesShown {env : Surroundings} {random : ℕ → ℕ} {s : Registry}
    {rs : List Report} {as : List (Value × ℕ)} {messages : List Message} {io : ℕ → Bool}
    (h : s.Shows env random rs as)
    (hothers : Undisturbed (s.told.map Prod.fst) (messages.map fun m => m.event))
    (hok : ∀ r ∈ (converter io).outputs .new messages, r = .ok ()) {vs : List Value}
    (has : as.map Prod.fst = vs) {v : Value} (hv : v ∈ vs) {id : ℕ}
    (hid : s.trackIds v.dev = some id) :
    ∃ first i w, vs.find? (fun x => x.key = v.key) = some first ∧
      Faithful ((converter io).final .new messages) (first.track id i)
        ((vs.filter fun x => x.key = v.key).map fun x => x.event i) w := by
  subst has
  cases hi : s.seriesIds v.key with
  | none =>
    obtain ⟨a, ha, rfl⟩ := List.mem_map.mp hv
    exact absurd rfl (h.series.absent _ hi a ha)
  | some i =>
    obtain ⟨a, rest, hrest, hout⟩ := h.series.present _ i hi
    have ha : a ∈ as ∧ a.1.key = v.key := by
      have hmem : a ∈ as.filter fun a => a.1.key = v.key := by
        rw [hrest]
        exact List.mem_cons_self
      simpa using List.mem_filter.mp hmem
    have hbelow : a.2 = id := by
      have hdev : a.1.dev = v.dev := congrArg SeriesKey.dev ha.2
      have hown := h.parents a ha.1
      rw [hdev, hid] at hown
      exact (Option.some.inj hown).symm
    have hvalues : ((as.map Prod.fst).filter fun x => x.key = v.key) =
        (a :: rest).map Prod.fst := by
      rw [List.filter_map, ← hrest]
      rfl
    rw [hbelow, ← List.map_eq_flatMap] at hout
    have hmem : .track (a.1.track id i) ∈ s.told.map Prod.fst := by
      refine List.mem_of_mem_filter (p := concerns (.counter i)) ?_
      rw [hout]
      exact List.mem_cons_self
    obtain ⟨before, after, hsplit⟩ := List.append_of_mem hmem
    obtain ⟨w, hw⟩ := hothers.shown io messages hok (t := a.1.track id i) rfl hout
      (fun e he => by obtain ⟨y, -, rfl⟩ := List.mem_map.mp he; rfl)
      (fun p hp => by
        cases hp
        exact Or.inr ⟨before, after, hsplit, h.before before _ after hsplit id rfl⟩)
    refine ⟨a.1, i, w, ?_, ?_⟩
    · rw [← List.head?_filter, hvalues]
      rfl
    · rw [hvalues, List.map_map]
      exact hw

/-- A device with a number has its track, which shows the spans of the device. -/
theorem Registry.Shows.deviceShown {env : Surroundings} {random : ℕ → ℕ} {s : Registry}
    {rs : List Report} {as : List (Value × ℕ)} {messages : List Message} {io : ℕ → Bool}
    (h : s.Shows env random rs as)
    (hothers : Undisturbed (s.told.map Prod.fst) (messages.map fun m => m.event))
    (hok : ∀ r ∈ (converter io).outputs .new messages, r = .ok ()) {dev id : ℕ}
    (hid : s.trackIds dev = some id) :
    ∃ u, Faithful ((converter io).final .new messages) ((env.device dev).track id)
      (((rs.filterMap Report.span?).filter fun e => e.dev = dev).map
        fun e => .span (e.span env id)) u := by
  obtain ⟨a, rest, hrest, hout⟩ := h.devices.present _ id hid
  have ha : a.dev = dev := by
    have hmem : a ∈ rs.filter fun a => a.dev = dev := by
      rw [hrest]
      exact List.mem_cons_self
    simpa using (List.mem_filter.mp hmem).2
  rw [ha, ← hrest, flatMap_onDevice, filterMap_span_filter] at hout
  refine hothers.shown io messages hok (t := (env.device dev).track id) rfl hout
    (fun e he => ?_) (fun p hp => by cases hp)
  obtain ⟨x, -, rfl⟩ := List.mem_map.mp he
  rfl

/-- Whatever is traced besides, every device that was reported has one track of its own. On its
timeline there are the begin and the end of every request that the programs have submitted for
the device, in the order of submission, and below it each counter of the device has a track with
all its values. -/
theorem device_track_shows_requests (cfg : Cfg) (maps : Maps) (tps : List Tracepoint)
    (env : Surroundings) (random : ℕ → ℕ) (rs : List Report) (messages : List Message)
    (io : ℕ → Bool)
    (hspans : rs.filterMap Report.span? = (blockTrack cfg).outputs maps tps)
    (hrandom : Function.Injective random)
    (hothers : Undisturbed (told env random rs) (messages.map fun m => m.event))
    (hok : ∀ r ∈ (converter io).outputs .new messages, r = .ok ()) :
    let c := (converter io).final .new messages
    let values := rs.filterMap Report.value?
    ∀ r ∈ rs, ∃ id u,
      Faithful c ((env.device r.dev).track id)
        ((((blockTrack cfg).outputs maps tps).filter fun e => e.dev = r.dev).map
          fun e => .span (e.span env id)) u ∧
      ∀ v ∈ values, v.dev = r.dev → ∃ first i w,
        values.find? (fun x => x.key = v.key) = some first ∧
        Faithful c (first.track id i)
          ((values.filter fun x => x.key = v.key).map (·.event i)) w := by
  intro c values r hr
  obtain ⟨as, has, hshows⟩ := shows_run env hrandom rs
  unfold told at hothers
  generalize rs.foldl (fun s r => (s.report env random accepting r).2) Registry.new = s at *
  cases hid : s.trackIds r.dev with
  | none => exact absurd rfl (hshows.devices.absent _ hid r hr)
  | some id =>
    obtain ⟨u, hu⟩ := hshows.deviceShown hothers hok hid
    rw [hspans] at hu
    refine ⟨id, u, hu, fun v hv hdev => ?_⟩
    exact hshows.seriesShown hothers hok has hv (hdev ▸ hid)

/-! ### Two reads at the same time -/

/-- A read of one device is under way from 100 to 300, and another one from 200 to 400. -/
def twoReads : List Tracepoint :=
  [(100, 64, .issue), (200, 96, .issue), (300, 64, .complete 0 4096),
      (400, 96, .complete 0 4096)].map fun p =>
    ⟨⟨p.1, [], 1, 1, "dd", 0, true, true, true⟩, ⟨p.2.1, 0, 4096, 2048, some 8, none⟩, p.2.2⟩

def twoReadsMaps : Maps := ⟨fun _ => none, fun _ => none, .empty⟩

def twoReadsReports : List Report :=
  .counter ⟨8, ⟨some .read, .iops, "read_iops", 0, "operations/s"⟩, 400⟩ ::
    ((blockTrack { timelineEnabled := true }).outputs twoReadsMaps twoReads).map .span

def noMounts : Surroundings := ⟨fun dev => ⟨dev, some "sda", []⟩, UInt64.ofNat⟩

theorem device_track_shows_twoReads :
    let c := (converter fun _ => true).final .new
      ((told noMounts (fun n => n) twoReadsReports).map fun e => ⟨e, none⟩)
    ∃ id u, c.trackMap (.custom id) = some u ∧
      (timeline c u).map (fun e => (e.1, e.2.type)) =
        [(100, .sliceBegin), (300, .sliceEnd), (200, .sliceBegin), (400, .sliceEnd)] ∧
      ∃ i w, Faithful c ⟨"read_iops", .counter i (some "operations/s"), some (.custom id)⟩
        [.counter ⟨"read_iops", 0, 400, .counter i, ⟨[], [], [], []⟩, some "operations/s"⟩] w := by
  intro c
  obtain ⟨id, u, hrequests, hvalues⟩ :=
    device_track_shows_requests { timelineEnabled := true } twoReadsMaps twoReads noMounts
      (fun n => n) twoReadsReports _ (fun _ => true) (by decide +kernel) (fun _ _ h => h)
      (.alone _) (by decide +kernel) _ List.mem_cons_self
  obtain ⟨first, i, w, hfirst, hw⟩ := hvalues _ List.mem_cons_self rfl
  cases hfirst
  refine ⟨id, u, hrequests.mapped, ?_, i, w, hw⟩
  rw [hrequests.timeline_eq, List.map_flatMap, List.flatMap_map]
  change (((blockTrack { timelineEnabled := true }).outputs twoReadsMaps twoReads).filter
    _).flatMap (fun e => [(e.startNs, TrackEventType.sliceBegin), (e.endNs, .sliceEnd)]) = _
  decide +kernel

end Manytrace.Bpf.BlockTrack
