import Manytrace.Bpf.PerfCounter
import Manytrace.Core.Lists

/-! The numbering of the series of a processor: it is made up four times, when the counters are
expanded, when the tracks are declared, and for the regular and the derived samples. -/
namespace Manytrace.Bpf.PerfCounter
open Manytrace.Core Manytrace.Protocol

/-! ## The expanded list -/

def DerivedCounter.indices : DerivedCounter → List ℕ
  | .ipc cyclesIdx instructionsIdx => [cyclesIdx, instructionsIdx]

/-- The value that is derived from the deltas of all counters. -/
def DerivedCounter.value {F : Type} (conv : Conversions F) (deltas : ℕ → ℕ) : DerivedCounter → F
  | .ipc cyclesIdx instructionsIdx =>
    PerfCounter.ipc conv (deltas instructionsIdx) (deltas cyclesIdx)

/-- The two counters behind a derived one are next to each other, and there for nothing else. -/
structure Expansion.Backed (x : Expansion) (d : DerivedCounter) : Prop where
  adjacent : ∃ k, d = .ipc k (k + 1) ∧
    x.counters[k]? = some (.named "cpu-cycles") ∧
    x.counters[k + 1]? = some (.named "cpu-instructions")
  derivedOnly : ∀ k ∈ d.indices, x.isDerivedOnly[k]? = some true

structure Expansion.Sound (x : Expansion) : Prop where
  length_eq : x.isDerivedOnly.length = x.counters.length
  currentIdx_eq : x.currentIdx = x.counters.length
  derived_length_le : 2 * x.derived.length ≤ x.counters.length
  named : ∀ d ∈ x.derived, d.1 = "ipc"
  backed : ∀ d ∈ x.derived, x.Backed d.2
  covered : ∀ i, x.isDerivedOnly[i]? = some true → ∃ d ∈ x.derived, i ∈ d.2.indices
  nodup : (x.derived.flatMap fun d => d.2.indices).Nodup

section Expand
variable {x y : Expansion} {counters : List CounterConfig}

theorem Expansion.Backed.append {d : DerivedCounter} (h : x.Backed d) {cs : List CounterConfig}
    {bs : List Bool} (hcounters : y.counters = x.counters ++ cs)
    (hderived : y.isDerivedOnly = x.isDerivedOnly ++ bs) : y.Backed d := by
  obtain ⟨k, hd, hcycles, hinstructions⟩ := h.adjacent
  refine ⟨⟨k, hd, ?_, ?_⟩, ?_⟩
  · rw [hcounters]
    exact getElem?_append_some hcycles
  · rw [hcounters]
    exact getElem?_append_some hinstructions
  · intro j hj
    rw [hderived]
    exact getElem?_append_some (h.derivedOnly j hj)

theorem Expansion.Sound.lt_of_mem (h : x.Sound) {d : String × DerivedCounter} {j : ℕ}
    (hd : d ∈ x.derived) (hj : j ∈ d.2.indices) : j < x.counters.length := by
  obtain ⟨hlt, -⟩ := List.getElem?_eq_some_iff.mp ((h.backed d hd).derivedOnly j hj)
  rwa [h.length_eq] at hlt

theorem Expansion.push_ipc (x : Expansion) : x.push (.named "ipc") =
    { counters := x.counters ++ [.named "cpu-cycles", .named "cpu-instructions"]
      derived := x.derived ++ [("ipc", .ipc x.currentIdx (x.currentIdx + 1))]
      isDerivedOnly := x.isDerivedOnly ++ [true, true]
      currentIdx := x.currentIdx + 2 } := rfl

theorem Expansion.push_regular (x : Expansion) {counter : CounterConfig}
    (h : counter ≠ .named "ipc") : x.push counter =
      { x with
        counters := x.counters ++ [counter]
        isDerivedOnly := x.isDerivedOnly ++ [false]
        currentIdx := x.currentIdx + 1 } := if_neg h

theorem Expansion.Sound.push_ipc (h : x.Sound) : (x.push (.named "ipc")).Sound := by
  have hidx := h.currentIdx_eq
  have hlen := h.length_eq
  rw [x.push_ipc]
  constructor
  · simp [hlen]
  · simp [hidx]
  · have hle := h.derived_length_le
    simp only [List.length_append, List.length_cons, List.length_nil]
    omega
  · intro d hd
    rcases List.mem_append.mp hd with hold | hnew
    · exact h.named d hold
    · rw [List.mem_singleton.mp hnew]
  · intro d hd
    rcases List.mem_append.mp hd with hold | hnew
    · exact (h.backed d hold).append rfl rfl
    · rw [List.mem_singleton.mp hnew]
      refine ⟨⟨x.currentIdx, rfl, ?_, ?_⟩, ?_⟩
      · simp [hidx]
      · simp [hidx]
      · intro j hj
        simp only [DerivedCounter.indices, List.mem_cons, List.not_mem_nil, or_false] at hj
        rcases hj with rfl | rfl
        · simp [hidx, hlen]
        · simp [hidx, hlen]
  · intro i hi
    rcases Nat.lt_or_ge i x.isDerivedOnly.length with hlt | hge
    · rw [List.getElem?_append_left hlt] at hi
      obtain ⟨d, hd, hmem⟩ := h.covered i hi
      exact ⟨d, List.mem_append_left _ hd, hmem⟩
    · refine ⟨_, List.mem_append_right _ List.mem_cons_self, ?_⟩
      obtain ⟨hlt, -⟩ := List.getElem?_eq_some_iff.mp hi
      simp only [List.length_append, List.length_cons, List.length_nil] at hlt
      simp only [DerivedCounter.indices, List.mem_cons, List.not_mem_nil, or_false]
      omega
  · rw [List.flatMap_append, List.nodup_append]
    refine ⟨h.nodup, by simp [DerivedCounter.indices], ?_⟩
    intro j hj j' hj'
    obtain ⟨d, hd, hjd⟩ := List.mem_flatMap.mp hj
    have hlt := h.lt_of_mem hd hjd
    simp only [List.flatMap_cons, List.flatMap_nil, List.append_nil, DerivedCounter.indices,
      List.mem_cons, List.not_mem_nil, or_false] at hj'
    omega

theorem Expansion.Sound.push_regular (h : x.Sound) {counter : CounterConfig}
    (hcounter : counter ≠ .named "ipc") : (x.push counter).Sound := by
  rw [x.push_regular hcounter]
  constructor
  · simp [h.length_eq]
  · simp [h.currentIdx_eq]
  · have hle := h.derived_length_le
    simp only [List.length_append, List.length_singleton]
    omega
  · exact h.named
  · intro d hd
    exact (h.backed d hd).append rfl rfl
  · intro i hi
    rcases Nat.lt_or_ge i x.isDerivedOnly.length with hlt | hge
    · rw [List.getElem?_append_left hlt] at hi
      exact h.covered i hi
    · rw [List.getElem?_append_right hge, List.getElem?_singleton] at hi
      split_ifs at hi
      cases hi
  · exact h.nodup

theorem sound_foldl_push (h : x.Sound) (counters : List CounterConfig) :
    (counters.foldl Expansion.push x).Sound := by
  induction counters generalizing x with
  | nil => exact h
  | cons counter counters ih =>
    by_cases hcounter : counter = .named "ipc"
    · subst hcounter
      exact ih h.push_ipc
    · exact ih (h.push_regular hcounter)

theorem sound_expandCounters (counters : List CounterConfig) :
    (expandCounters counters).Sound := by
  have hempty : ({} : Expansion).Sound := ⟨rfl, rfl, Nat.le_refl 0, by simp, by simp, by simp,
    List.nodup_nil⟩
  exact sound_foldl_push hempty counters

theorem forall_of_checkCounters (h : checkCounters counters = .ok ()) :
    ∀ counter ∈ counters, ∃ t, counter.toPerfConfig = .ok t := by
  induction counters with
  | nil => simp
  | cons counter counters ih =>
    rw [checkCounters] at h
    cases hcounter : counter.toPerfConfig with
    | error e =>
      rw [hcounter] at h
      cases h
    | ok t =>
      rw [hcounter] at h
      exact List.forall_mem_cons.mpr ⟨⟨t, hcounter⟩, ih h⟩

/-- What is known of a list that passes. -/
structure Expansion.Valid (x : Expansion) : Prop extends x.Sound where
  ne_nil : x.counters ≠ []
  length_le : x.counters.length ≤ maxPerfCounters
  known : ∀ counter ∈ x.counters, ∃ t, counter.toPerfConfig = .ok t

theorem valid_of_validate (h : validate counters = .ok x) :
    x = expandCounters counters ∧ x.Valid := by
  unfold validate at h
  dsimp only at h
  split_ifs at h with hempty hmany
  · cases hcheck : checkCounters (expandCounters counters).counters with
    | error e =>
      rw [hcheck] at h
      cases h
    | ok u =>
      rw [hcheck] at h
      cases h
      refine ⟨rfl, sound_expandCounters counters, ?_, Nat.le_of_not_lt hmany,
        forall_of_checkCounters hcheck⟩
      intro hnil
      rw [hnil] at hempty
      exact hempty rfl

end Expand

/-! ## Sending -/

section Send
variable {F : Type} (callback : ℕ → ℤ)

/-- The reports one after another, until one is refused. -/
def sendAll : List (Report F) → CollectOp F Unit
  | [] => pure ()
  | r :: rs => do
    emit callback r
    sendAll rs

variable {callback} {c : Collector F}

theorem sendAll_append (rs rs' : List (Report F)) :
    sendAll callback (rs ++ rs') = (do sendAll callback rs; sendAll callback rs') := by
  induction rs with
  | nil => rfl
  | cons r rs ih =>
    change (emit callback r >>= fun _ => sendAll callback (rs ++ rs')) = _
    rw [ih]
    exact (Op.bind_assoc _ _ _).symm

/-- All reports are taken, or those before the one that is refused have been sent. -/
theorem sendAll_cases (callback : ℕ → ℤ) (rs : List (Report F)) (c : Collector F) :
    sendAll callback rs c = (.ok (), { c with reports := c.reports ++ rs }) ∨
      ∃ sent, sent <+: rs ∧
        sendAll callback rs c = (.error .refused, { c with reports := c.reports ++ sent }) := by
  induction rs generalizing c with
  | nil =>
    left
    simp only [List.append_nil]
    rfl
  | cons r rs ih =>
    have hemit : emit callback r c =
        (if callback c.reports.length = 0 then .ok () else .error .refused,
          { c with reports := c.reports ++ [r] }) := rfl
    change (emit callback r >>= fun _ => sendAll callback rs) c = _ ∨ ∃ sent, sent <+: r :: rs ∧
      (emit callback r >>= fun _ => sendAll callback rs) c = _
    by_cases h : callback c.reports.length = 0
    · rw [if_pos h] at hemit
      rw [Op.bind_ok hemit]
      rcases ih { c with reports := c.reports ++ [r] } with hok | ⟨sent, hsent, hrefused⟩
      · left
        rw [hok]
        simp
      · right
        refine ⟨r :: sent, List.cons_prefix_cons.mpr ⟨rfl, hsent⟩, ?_⟩
        rw [hrefused]
        simp
    · rw [if_neg h] at hemit
      right
      refine ⟨[r], List.cons_prefix_cons.mpr ⟨rfl, List.nil_prefix⟩, ?_⟩
      rw [Op.bind_error hemit]

theorem index_eq {α : Type} {xs : List α} {i : ℕ} {a : α} (h : xs[i]? = some a) :
    (index xs i : CollectOp F α) = pure a := by
  rw [index, h]

theorem emitRegular_eq {α : Type} {isDerivedOnly : List Bool} {report : α → ℕ → Report F}
    {items : List (α × ℕ)} (h : ∀ y ∈ items, y.2 < isDerivedOnly.length) :
    emitRegular callback isDerivedOnly report items = sendAll callback
      ((items.filter fun y => isDerivedOnly[y.2]? = some false).map fun y => report y.1 y.2) := by
  induction items with
  | nil => rfl
  | cons y items ih =>
    obtain ⟨a, i⟩ := y
    have hi : i < isDerivedOnly.length := h (a, i) List.mem_cons_self
    have hget : isDerivedOnly[i]? = some (isDerivedOnly[i]) := List.getElem?_eq_getElem hi
    have hrest := ih fun y hy => h y (List.mem_cons_of_mem _ hy)
    rw [emitRegular, index_eq hget]
    cases hb : isDerivedOnly[i] with
    | true =>
      rw [hb] at hget
      rw [List.filter_cons_of_neg (by simp [hget])]
      exact hrest
    | false =>
      rw [hb] at hget
      rw [List.filter_cons_of_pos (by simp [hget]), List.map_cons, sendAll, ← hrest]
      rfl

end Send

/-! ## The samples of an event -/

/-- The indices of the counters that are reported. -/
def Expansion.regularIdx (x : Expansion) : List ℕ :=
  (List.range x.counters.length).filter fun i => x.isDerivedOnly[i]? = some false

/-- The series of each processor, in the order in which they are reported. -/
def Expansion.series (x : Expansion) : List ℕ :=
  x.regularIdx ++ (List.range x.derived.length).map (x.counters.length + ·)

namespace PerfCounterEvent
variable {F : Type} (conv : Conversions F) (e : PerfCounterEvent) (previous : ℕ × ℕ → Option ℕ)

def value (i : ℕ) : ℕ := e.counters.toList.getD i 0

def deltaOf (i : ℕ) : ℕ := delta (previous (e.cpuId, i)) (e.value i)

def sample (series : ℕ) (value : F) : Report F :=
  .counter ⟨"", value, e.timestamp, .counter (trackId e.cpuId series), none⟩

def samples (x : Expansion) : List (Report F) :=
  (x.regularIdx.map fun i => e.sample i (conv.asF64 (e.deltaOf previous i))) ++
    x.derived.zipIdx.map fun y =>
      e.sample (x.counters.length + y.2) (y.1.2.value conv (e.deltaOf previous))

/-- The values are kept under the processor of the event. -/
def stored (countersLen : ℕ) (k : ℕ × ℕ) : Option ℕ :=
  if k.1 = e.cpuId ∧ k.2 < countersLen then some (e.value k.2) else previous k

end PerfCounterEvent

section Samples
variable {F : Type} {conv : Conversions F} {callback : ℕ → ℤ} {x : Expansion}
  {e : PerfCounterEvent} {previous : ℕ × ℕ → Option ℕ} {n : ℕ}

theorem length_take_counters (h : n ≤ maxPerfCounters) :
    (e.counters.toList.take n).length = n := by
  rw [List.length_take, Vector.length_toList]
  exact Nat.min_eq_left h

theorem getD_take_counters {i : ℕ} (h : i < n) :
    (e.counters.toList.take n).getD i 0 = e.value i := by
  rw [PerfCounterEvent.value, List.getD_eq_getElem?_getD, List.getD_eq_getElem?_getD,
    List.getElem?_take_of_lt h]

theorem enumerate_eq (h : n ≤ maxPerfCounters) :
    (e.enumerate n : CollectOp F _) = pure ((List.range n).map fun i => (e.value i, i)) := by
  rw [PerfCounterEvent.enumerate, if_pos h, zipIdx_eq_map_range _ 0, length_take_counters h]
  congr 1
  apply List.map_congr_left
  intro i hi
  rw [getD_take_counters (List.mem_range.mp hi)]

theorem processRegularCounters_eq (h : x.Valid) :
    processRegularCounters conv callback e x.counters.length previous x.isDerivedOnly =
      sendAll callback
        (x.regularIdx.map fun i => e.sample i (conv.asF64 (e.deltaOf previous i))) := by
  rw [processRegularCounters, enumerate_eq h.length_le]
  change emitRegular callback _ _ _ = _
  rw [emitRegular_eq, List.filter_map, List.map_map]
  · rfl
  · intro y hy
    obtain ⟨i, hi, rfl⟩ := List.mem_map.mp hy
    rw [h.length_eq]
    exact List.mem_range.mp hi

theorem deltaAt_eq {i : ℕ} (h : i < maxPerfCounters) :
    (deltaAt e previous i : CollectOp F ℕ) = pure (e.deltaOf previous i) := by
  have hget : e.counters.toList[i]? = some (e.value i) := by
    have hi : i < e.counters.toList.length := by
      rw [Vector.length_toList]
      exact h
    rw [PerfCounterEvent.value, List.getD_eq_getElem _ _ hi, List.getElem?_eq_getElem hi]
  unfold deltaAt PerfCounterEvent.deltaOf
  cases previous (e.cpuId, i) with
  | none => rfl
  | some prev =>
    rw [index_eq hget]
    rfl

theorem processDerivedCounters_eq {ds : List ((String × DerivedCounter) × ℕ)}
    (h : ∀ y ∈ ds, ∀ i ∈ y.1.2.indices, i < maxPerfCounters) :
    processDerivedCounters conv callback e n previous ds =
      sendAll callback (ds.map fun y =>
        e.sample (n + y.2) (y.1.2.value conv (e.deltaOf previous))) := by
  induction ds with
  | nil => rfl
  | cons y ds ih =>
    obtain ⟨⟨name, ⟨cyclesIdx, instructionsIdx⟩⟩, idx⟩ := y
    have hy := h _ List.mem_cons_self
    have hcycles : cyclesIdx < maxPerfCounters := hy _ (by simp [DerivedCounter.indices])
    have hinstructions : instructionsIdx < maxPerfCounters :=
      hy _ (by simp [DerivedCounter.indices])
    rw [processDerivedCounters, deltaAt_eq hcycles, deltaAt_eq hinstructions,
      ih fun y hy => h y (List.mem_cons_of_mem _ hy)]
    rfl

theorem updatePreviousValues_apply (h : n ≤ maxPerfCounters) (c : Collector F) :
    updatePreviousValues e n c =
      (.ok (), { c with previousValues := e.stored c.previousValues n }) := by
  have hfold : ∀ k : ℕ, ((List.range k).map fun i => (e.value i, i)).foldl
      (fun previous x => Function.update previous (e.cpuId, x.2) (some x.1))
      c.previousValues = e.stored c.previousValues k := by
    intro k
    induction k with
    | zero =>
      funext key
      simp [PerfCounterEvent.stored]
    | succ k ih =>
      rw [List.range_succ, List.map_append, List.foldl_append, ih]
      funext key
      obtain ⟨cpu, i⟩ := key
      by_cases hkey : (cpu, i) = (e.cpuId, k)
      · cases hkey
        simp [PerfCounterEvent.stored]
      · have hi : cpu = e.cpuId → i ≠ k := fun hcpu hk => hkey (by rw [hcpu, hk])
        simp only [List.map_cons, List.map_nil, List.foldl_cons, List.foldl_nil,
          Function.update_of_ne hkey, PerfCounterEvent.stored]
        congr 1
        simp only [eq_iff_iff, and_congr_right_iff]
        intro hcpu
        have := hi hcpu
        omega
  rw [updatePreviousValues, enumerate_eq h]
  rw [← hfold n]
  rfl

/-- An event is answered with its samples, and then its values are kept; or a sample is
refused. -/
theorem handleEvent_cases (conv : Conversions F) (callback : ℕ → ℤ) (e : PerfCounterEvent)
    (h : x.Valid) (c : Collector F) :
    handleEvent conv callback x e c =
        (.ok (), ⟨e.stored c.previousValues x.counters.length,
          c.reports ++ e.samples conv c.previousValues x⟩) ∨
      ∃ sent, sent <+: e.samples conv c.previousValues x ∧
        handleEvent conv callback x e c =
          (.error .refused, { c with reports := c.reports ++ sent }) := by
  have hderived : ∀ y ∈ x.derived.zipIdx, ∀ i ∈ y.1.2.indices, i < maxPerfCounters := by
    intro y hy i hi
    exact Nat.lt_of_lt_of_le (h.lt_of_mem (List.fst_mem_of_mem_zipIdx hy) hi) h.length_le
  have heq : handleEvent conv callback x e c =
      (sendAll callback (e.samples conv c.previousValues x) >>= fun _ =>
        updatePreviousValues e x.counters.length) c := by
    rw [PerfCounterEvent.samples, sendAll_append, ← processRegularCounters_eq h,
      ← processDerivedCounters_eq hderived, Op.bind_assoc]
    rfl
  rw [heq]
  rcases sendAll_cases callback (e.samples conv c.previousValues x) c with
    hok | ⟨sent, hsent, hrefused⟩
  · left
    rw [Op.bind_ok hok, updatePreviousValues_apply h.length_le]
  · right
    refine ⟨sent, hsent, ?_⟩
    rw [Op.bind_error hrefused]

end Samples

/-! ## The declared tracks -/

def Report.id {F : Type} : Report F → TrackId
  | .track t => t.trackType.toId
  | .counter c => c.trackId

/-- The id of a track that is declared under this processor. -/
def Report.declares {F : Type} (cpu : ℕ) : Report F → Option TrackId
  | .track t => if t.parent = some (.cpu cpu) then some t.trackType.toId else none
  | .counter _ => none

def declaredFor {F : Type} (cpu : ℕ) (reports : List (Report F)) : List TrackId :=
  reports.filterMap (Report.declares cpu)

def Expansion.tracks {F : Type} (x : Expansion) (nprocs cpu : ℕ) : List (Report F) :=
  (x.regularIdx.map fun i =>
    counterTrack (x.counters.getD i (.named "")).name cpu nprocs i) ++
      x.derived.zipIdx.map fun y => counterTrack y.1.1 cpu nprocs (x.counters.length + y.2)

section Declare
variable {F : Type} {callback : ℕ → ℤ} {x : Expansion} {nprocs : ℕ}

theorem declareDerived_eq {cpu : ℕ} (ds : List ((String × DerivedCounter) × ℕ)) :
    (declareDerived callback x cpu nprocs ds : CollectOp F Unit) = sendAll callback
      (ds.map fun y => counterTrack y.1.1 cpu nprocs (x.counters.length + y.2)) := by
  induction ds with
  | nil => rfl
  | cons y ds ih =>
    rw [declareDerived, ih]
    rfl

theorem declareTracks_eq (h : x.Sound) (cpus : List ℕ) :
    (declareTracks callback x nprocs cpus : CollectOp F Unit) =
      sendAll callback (cpus.flatMap (x.tracks nprocs)) := by
  induction cpus with
  | nil => rfl
  | cons cpu cpus ih =>
    have hregular : (emitRegular callback x.isDerivedOnly
        (fun counter i => counterTrack counter.name cpu nprocs i) x.counters.zipIdx :
          CollectOp F Unit) =
          sendAll callback (x.regularIdx.map fun i =>
            counterTrack (x.counters.getD i (.named "")).name cpu nprocs i) := by
      rw [emitRegular_eq]
      · exact congrArg (sendAll callback) (map_filter_zipIdx x.counters (.named "")
          (fun i => x.isDerivedOnly[i]? = some false)
          fun counter i => counterTrack counter.name cpu nprocs i)
      · intro y hy
        rw [h.length_eq]
        exact List.snd_lt_of_mem_zipIdx hy
    rw [declareTracks, hregular, declareDerived_eq, ih, List.flatMap_cons, sendAll_append,
      Expansion.tracks, sendAll_append, Op.bind_assoc]

/-- What is done for the regular counters and then for the derived ones is done for each
series. -/
theorem map_series {β : Type} (f : ℕ → β) :
    x.regularIdx.map f ++ x.derived.zipIdx.map (fun y => f (x.counters.length + y.2)) =
      x.series.map f := by
  rw [Expansion.series, List.map_append, zipIdx_eq_map_range _ ("", .ipc 0 0), List.map_map,
    List.map_map]
  rfl

theorem samples_id (conv : Conversions F) (e : PerfCounterEvent) (previous : ℕ × ℕ → Option ℕ) :
    (e.samples conv previous x).map Report.id =
      x.series.map fun i => .counter (trackId e.cpuId i) := by
  rw [PerfCounterEvent.samples, List.map_append, List.map_map, List.map_map]
  exact map_series fun i => TrackId.counter (trackId e.cpuId i)

theorem tracks_id (nprocs cpu : ℕ) : (x.tracks nprocs cpu : List (Report F)).map Report.id =
    x.series.map fun i => .counter (trackId cpu i) := by
  rw [Expansion.tracks, List.map_append, List.map_map, List.map_map]
  exact map_series fun i => TrackId.counter (trackId cpu i)

theorem tracks_declares (nprocs : ℕ) {cpu : ℕ} (h : cpu < 2 ^ 32) (cpu' : ℕ) :
    (x.tracks nprocs cpu : List (Report F)).filterMap (Report.declares cpu') =
      if cpu = cpu' then x.series.map fun i => .counter (trackId cpu i) else [] := by
  have hdeclares : ∀ name i, (counterTrack name cpu nprocs i : Report F).declares cpu' =
      if cpu = cpu' then some (.counter (trackId cpu i)) else none := by
    intro name i
    simp only [counterTrack, Report.declares, TrackType.toId, Nat.mod_eq_of_lt h,
      Option.some.injEq, TrackType.cpu.injEq]
  unfold Expansion.tracks
  rw [List.filterMap_append, List.filterMap_map, List.filterMap_map]
  simp only [Function.comp_def, hdeclares]
  by_cases hcpu : cpu = cpu'
  · simp only [hcpu, if_true, List.filterMap_eq_map']
    exact map_series fun i => TrackId.counter (trackId cpu' i)
  · simp [hcpu]

end Declare

section Ids
variable {F : Type} {x : Expansion}

theorem trackId_eq {cpu i : ℕ} (hcpu : cpu < 2 ^ 32) (hi : i < 2 ^ 32) :
    trackId cpu i = cpu * 2 ^ 32 + i := by
  have hmul : cpu * 2 ^ 32 < 2 ^ 64 := by omega
  rw [trackId, Nat.shiftLeft_eq, Nat.mod_eq_of_lt hmul, ← Nat.shiftLeft_eq,
    ← Nat.shiftLeft_add_eq_or_of_lt hi, Nat.shiftLeft_eq]

theorem trackId_inj {cpu cpu' i i' : ℕ} (hcpu : cpu < 2 ^ 32) (hcpu' : cpu' < 2 ^ 32)
    (hi : i < 2 ^ 32) (hi' : i' < 2 ^ 32) (h : trackId cpu i = trackId cpu' i') :
    cpu = cpu' ∧ i = i' := by
  rw [trackId_eq hcpu hi, trackId_eq hcpu' hi'] at h
  omega

theorem mem_regularIdx {i : ℕ} :
    i ∈ x.regularIdx ↔ i < x.counters.length ∧ x.isDerivedOnly[i]? = some false := by
  simp [Expansion.regularIdx]

theorem nodup_series (x : Expansion) : x.series.Nodup := by
  unfold Expansion.series
  rw [List.nodup_append]
  refine ⟨List.nodup_range.filter _, ?_, ?_⟩
  · exact List.nodup_range.map fun i j h => Nat.add_left_cancel h
  · intro i hi j hj
    obtain ⟨k, -, rfl⟩ := List.mem_map.mp hj
    have hlt := (mem_regularIdx.mp hi).1
    omega

theorem Expansion.Valid.series_lt (h : x.Valid) {i : ℕ} (hi : i ∈ x.series) : i < 2 ^ 32 := by
  have hlen := h.length_le
  have hderived := h.derived_length_le
  unfold maxPerfCounters at hlen
  rcases List.mem_append.mp hi with hregular | hi
  · have hlt := (mem_regularIdx.mp hregular).1
    omega
  · obtain ⟨k, hk, rfl⟩ := List.mem_map.mp hi
    have hlt := List.mem_range.mp hk
    omega

theorem nodup_ids (h : x.Valid) {n : ℕ} (hn : n ≤ 2 ^ 32) (nprocs : ℕ) :
    (((List.range n).flatMap (x.tracks nprocs) : List (Report F)).map Report.id).Nodup := by
  rw [List.map_flatMap, List.nodup_flatMap]
  constructor
  · intro cpu hcpu
    have hlt : cpu < 2 ^ 32 := by
      have := List.mem_range.mp hcpu
      omega
    rw [tracks_id, List.nodup_map_iff_inj_on (nodup_series x)]
    intro i hi j hj heq
    exact (trackId_inj hlt hlt (h.series_lt hi) (h.series_lt hj) (TrackId.counter.inj heq)).2
  · refine List.nodup_range.pairwise_of_forall_ne ?_
    intro cpu hcpu cpu' hcpu' hne
    have hlt := List.mem_range.mp hcpu
    have hlt' := List.mem_range.mp hcpu'
    change List.Disjoint ((x.tracks nprocs cpu : List (Report F)).map Report.id)
      ((x.tracks nprocs cpu' : List (Report F)).map Report.id)
    rw [tracks_id, tracks_id]
    intro id hid hid'
    obtain ⟨i, hi, rfl⟩ := List.mem_map.mp hid
    obtain ⟨j, hj, heq⟩ := List.mem_map.mp hid'
    exact hne (trackId_inj (by omega) (by omega) (h.series_lt hj) (h.series_lt hi)
      (TrackId.counter.inj heq)).1.symm

theorem declaredFor_tracks {n cpu : ℕ} (hn : n ≤ 2 ^ 32) (hcpu : cpu < n) (nprocs : ℕ) :
    declaredFor cpu ((List.range n).flatMap (x.tracks nprocs) : List (Report F)) =
      x.series.map fun i => .counter (trackId cpu i) := by
  have hown := tracks_declares (F := F) (x := x) nprocs (Nat.lt_of_lt_of_le hcpu hn) cpu
  rw [if_pos rfl] at hown
  rw [declaredFor, List.filterMap_flatMap, ← hown]
  apply flatMap_eq_of_nodup List.nodup_range (List.mem_range.mpr hcpu)
  intro i hi hne
  have hlt := Nat.lt_of_lt_of_le (List.mem_range.mp hi) hn
  rw [tracks_declares nprocs hlt, if_neg hne]

end Ids

/-- The indices of an accepted list fit together, and all tracks that are declared are different.
If the callback takes the declarations, every series of every processor has its track, and the
samples of an event are for the tracks of its processor, for all of them if they are taken. -/
theorem samples_on_declared_tracks {F : Type} (conv : Conversions F)
    {counters : List CounterConfig} {x : Expansion} (hvalid : validate counters = .ok x) {n : ℕ}
    (hn : n ≤ 2 ^ 32) (callback : ℕ → ℤ) :
    x.isDerivedOnly.length = x.counters.length ∧ x.counters.length ≤ maxPerfCounters ∧
      (∀ d ∈ x.derived, x.Backed d.2) ∧ (x.derived.flatMap fun d => d.2.indices).Nodup ∧
      let built : Except Stop Unit × Collector F := declareTracks callback x n (List.range n) .new
      built.1 ≠ .error .panicked ∧ (built.2.reports.map Report.id).Nodup ∧
        (built.1 = .ok () → (∀ cpu < n, declaredFor cpu built.2.reports =
            x.series.map fun i => .counter (trackId cpu i)) ∧
          ∀ (e : PerfCounterEvent) (c : Collector F), e.cpuId < n →
            let r := handleEvent conv callback x e c
            r.1 ≠ .error .panicked ∧ ∃ sent, r.2.reports = c.reports ++ sent ∧
              sent.map Report.id <+: declaredFor e.cpuId built.2.reports ∧
              (r.1 = .ok () → sent.map Report.id = declaredFor e.cpuId built.2.reports)) := by
  obtain ⟨-, h⟩ := valid_of_validate hvalid
  refine ⟨h.length_eq, h.length_le, h.backed, h.nodup, ?_⟩
  have hnodup := nodup_ids (F := F) h hn n
  rw [declareTracks_eq h.toSound]
  rcases sendAll_cases callback ((List.range n).flatMap (x.tracks n)) .new with
    hok | ⟨sent, hsent, hrefused⟩
  · rw [hok]
    have hdeclared : ∀ cpu < n, declaredFor cpu (Collector.new.reports ++
        (List.range n).flatMap (x.tracks n) : List (Report F)) =
          x.series.map fun i => .counter (trackId cpu i) :=
      fun cpu hcpu => declaredFor_tracks hn hcpu n
    refine ⟨by simp, hnodup, fun _ => ⟨hdeclared, ?_⟩⟩
    intro e c he
    dsimp only
    rw [hdeclared e.cpuId he, ← samples_id conv e c.previousValues]
    rcases handleEvent_cases conv callback e h c with
      hevent | ⟨sent, hsent, hevent⟩
    · rw [hevent]
      exact ⟨by simp, _, rfl, List.prefix_refl _, fun _ => rfl⟩
    · rw [hevent]
      exact ⟨by simp, sent, rfl, hsent.map Report.id, by simp⟩
  · rw [hrefused]
    refine ⟨by simp, ?_, by simp⟩
    exact hnodup.sublist (hsent.map Report.id).sublist

/-- An ipc and a custom counter on two processors, and an event of the second. -/
theorem samples_on_declared_tracks_of_ipc :
    let x := expandCounters [.named "ipc", .custom "l2" 4 0x1234]
    let built : Except Stop Unit × Collector ℚ :=
      declareTracks (fun _ => 0) x 2 (List.range 2) .new
    let r := handleEvent unrounded (fun _ => 0) x ⟨5, 1, Vector.replicate 8 0⟩ .new
    validate [.named "ipc", .custom "l2" 4 0x1234] = .ok x ∧ built.1 = .ok () ∧ r.1 = .ok () ∧
      (built.2.reports.map Report.id).Nodup ∧
      declaredFor 1 built.2.reports = [.counter (2 ^ 32 + 2), .counter (2 ^ 32 + 3)] ∧
      r.2.reports.map Report.id = declaredFor 1 built.2.reports := by
  intro x built r
  have hvalid : validate [.named "ipc", .custom "l2" 4 0x1234] = .ok x := by decide +kernel
  have hbuilt : built.1 = .ok () := rfl
  have hr : r.1 = .ok () := rfl
  have hseries : (x.series.map fun i => TrackId.counter (trackId 1 i)) =
      [.counter (2 ^ 32 + 2), .counter (2 ^ 32 + 3)] := by decide
  obtain ⟨-, -, -, -, -, hnodup, htracks⟩ :=
    samples_on_declared_tracks unrounded hvalid (n := 2) (by decide) fun _ => 0
  obtain ⟨hdeclared, hevents⟩ := htracks hbuilt
  obtain ⟨-, sent, hsent, -, hall⟩ := hevents ⟨5, 1, Vector.replicate 8 0⟩ .new (by decide)
  refine ⟨hvalid, hbuilt, hr, hnodup, (hdeclared 1 (by decide)).trans hseries, ?_⟩
  have hreports : r.2.reports = sent := hsent
  rw [hreports]
  exact hall hr

end Manytrace.Bpf.PerfCounter
