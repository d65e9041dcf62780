import Mathlib.Algebra.BigOperators.Ring.Finset
import Mathlib.Data.List.ReduceOption
import Manytrace.Bpf.PerfTracks

/-! What is reported of a counter adds up to what it has counted, as long as no read fails: the
program writes a zero then, and the callback takes it for a counter that starts again. -/
namespace Manytrace.Bpf.PerfCounter
open Manytrace.Core Manytrace.Protocol

/-! ## Readings of one counter -/

/-- What the program writes for a read. -/
def written (r : Option ℕ) : ℕ := r.getD 0

/-- The deltas of the values that are written, one after another. -/
def deltas : Option ℕ → List ℕ → List ℕ
  | _, [] => []
  | previous, v :: vs => delta previous v :: deltas (some v) vs

/-- By how much the counter has grown at each read, from `v` on. -/
def increases : ℕ → List (Option ℕ) → List ℕ
  | _, [] => []
  | v, some w :: rs => (w - v) :: increases w rs
  | v, none :: rs => 0 :: increases v rs

/-- The value that is read last. -/
def lastRead (v : ℕ) (rs : List (Option ℕ)) : ℕ := rs.reduceOption.getLastD v

/-- Whether the reads have been failing since `v` was read. -/
def previousOf (failing : Bool) (v : ℕ) : ℕ := if failing then 0 else v

/-- What is counted once more, because a read has failed before it. -/
def recounted (v : ℕ) : Bool → List (Option ℕ) → ℕ
  | _, [] => 0
  | failing, some w :: rs => (if failing then v else 0) + recounted w false rs
  | _, none :: rs => recounted v true rs

section Readings
variable {v : ℕ} {rs : List (Option ℕ)}

theorem delta_of_le {p w : ℕ} (h : p ≤ w) : delta (some p) w = w - p := if_pos h

theorem delta_zero (p : ℕ) : delta (some p) 0 = 0 := by
  change (if p ≤ 0 then 0 - p else 0) = 0
  rw [Nat.zero_sub, ite_self]

theorem delta_le (previous : Option ℕ) (w : ℕ) : delta previous w ≤ w := by
  unfold delta
  cases previous with
  | none => exact Nat.zero_le w
  | some p =>
    dsimp only
    split_ifs <;> omega

theorem exists_ge_of_mem_deltas {previous : Option ℕ} {vs : List ℕ} {n : ℕ}
    (h : n ∈ deltas previous vs) : ∃ w ∈ vs, n ≤ w := by
  induction vs generalizing previous with
  | nil => cases h
  | cons w vs ih =>
    rcases List.mem_cons.mp h with rfl | hrest
    · exact ⟨w, List.mem_cons_self, delta_le previous w⟩
    · obtain ⟨w', hw', hle⟩ := ih hrest
      exact ⟨w', List.mem_cons_of_mem _ hw', hle⟩

theorem lastRead_some (w : ℕ) : lastRead v (some w :: rs) = lastRead w rs := by
  rw [lastRead, List.reduceOption_cons_of_some, List.getLastD_cons]
  rfl

/-- Nothing but the values read before a failure is reported twice. -/
theorem sum_deltas (failing : Bool) (h : (v :: rs.reduceOption).Pairwise (· ≤ ·)) :
    (deltas (some (previousOf failing v)) (rs.map written)).sum + v =
      lastRead v rs + recounted v failing rs := by
  induction rs generalizing v failing with
  | nil => simp [deltas, lastRead, recounted]
  | cons r rs ih =>
    cases r with
    | none =>
      have hrest := ih true h
      rw [List.map_cons, deltas, List.sum_cons]
      change delta (some (previousOf failing v)) 0 + _ + v = _
      rw [delta_zero, Nat.zero_add]
      exact hrest
    | some w =>
      rw [List.reduceOption_cons_of_some] at h
      have hle : v ≤ w := List.rel_of_pairwise_cons h List.mem_cons_self
      have hprevious : previousOf failing v ≤ w := by
        unfold previousOf
        split_ifs <;> omega
      have hrest := ih false (List.Pairwise.of_cons h)
      rw [List.map_cons, deltas, List.sum_cons, lastRead_some, recounted]
      change delta _ w + (deltas (some (previousOf false w)) (rs.map written)).sum + v = _
      rw [delta_of_le hprevious]
      cases failing with
      | true =>
        simp only [previousOf, if_true] at hrest ⊢
        omega
      | false =>
        simp only [previousOf, Bool.false_eq_true, if_false] at hrest ⊢
        omega

/-- After `v`, reads that fail are followed by one that succeeds. -/
def Resumes (failing : Bool) (rs : List (Option ℕ)) : Prop :=
  ∃ w, (if failing then [some w] else [none, some w]).Sublist rs

/-- A read fails between two that succeed, the first of them with `u`. -/
def FailsAfter (u : ℕ) (rs : List (Option ℕ)) : Prop := ∃ w, [some u, none, some w].Sublist rs

theorem resumes_none (failing : Bool) : Resumes failing (none :: rs) ↔ Resumes true rs := by
  cases failing with
  | true => simp [Resumes, List.cons_sublist_cons']
  | false => simp [Resumes, List.cons_sublist_cons]

theorem resumes_true_some (w : ℕ) : Resumes true (some w :: rs) :=
  ⟨w, List.Sublist.cons_cons _ (List.nil_sublist rs)⟩

theorem resumes_false_some (w : ℕ) : Resumes false (some w :: rs) ↔ Resumes false rs := by
  simp [Resumes, List.cons_sublist_cons']

theorem failsAfter_none (u : ℕ) : FailsAfter u (none :: rs) ↔ FailsAfter u rs := by
  simp [FailsAfter, List.cons_sublist_cons']

theorem failsAfter_some (u w : ℕ) :
    FailsAfter u (some w :: rs) ↔ FailsAfter u rs ∨ u = w ∧ Resumes false rs := by
  simp [FailsAfter, Resumes, List.cons_sublist_cons', exists_or]

/-- Since the values do not decrease, it is enough that none of them is recounted. -/
theorem recounted_eq_zero_iff (failing : Bool) (h : (v :: rs.reduceOption).Pairwise (· ≤ ·)) :
    recounted v failing rs = 0 ↔
      (Resumes failing rs → v = 0) ∧ ∀ u, FailsAfter u rs → u = 0 := by
  induction rs generalizing v failing with
  | nil => cases failing <;> simp [recounted, Resumes, FailsAfter]
  | cons r rs ih =>
    cases r with
    | none =>
      simp only [recounted, resumes_none, failsAfter_none]
      exact ih true h
    | some w =>
      rw [List.reduceOption_cons_of_some] at h
      have hle : v ≤ w := List.rel_of_pairwise_cons h List.mem_cons_self
      have hrest := ih false (List.Pairwise.of_cons h)
      have hsplit : (∀ u, FailsAfter u (some w :: rs) → u = 0) ↔
          (Resumes false rs → w = 0) ∧ ∀ u, FailsAfter u rs → u = 0 := by
        simp only [failsAfter_some, or_imp, forall_and, and_imp, forall_eq]
        exact and_comm
      rw [hsplit, recounted, Nat.add_eq_zero_iff, hrest]
      cases failing with
      | true => simp [resumes_true_some]
      | false =>
        simp only [Bool.false_eq_true, if_false, true_and, resumes_false_some]
        constructor
        · intro hw
          exact ⟨fun hresumes => Nat.le_zero.mp (hw.1 hresumes ▸ hle), hw⟩
        · exact And.right

/-- What is not recounted is the growth since the last read. -/
theorem deltas_eq_increases (failing : Bool) (h : (v :: rs.reduceOption).Pairwise (· ≤ ·))
    (hzero : recounted v failing rs = 0) :
    deltas (some (previousOf failing v)) (rs.map written) = increases v rs := by
  induction rs generalizing v failing with
  | nil => rfl
  | cons r rs ih =>
    cases r with
    | none =>
      rw [List.map_cons, deltas, increases]
      exact congrArg₂ List.cons (delta_zero _) (ih true h hzero)
    | some w =>
      rw [List.reduceOption_cons_of_some] at h
      have hle : v ≤ w := List.rel_of_pairwise_cons h List.mem_cons_self
      rw [recounted, Nat.add_eq_zero_iff] at hzero
      have hprevious : previousOf failing v = v := by
        cases failing with
        | true => exact hzero.1.symm
        | false => rfl
      rw [List.map_cons, deltas, increases, hprevious]
      exact congrArg₂ List.cons (delta_of_le hle) (ih false (List.Pairwise.of_cons h) hzero.2)

/-- From the first read on. -/
theorem deltas_growth_iff {first : ℕ} (h : (first :: rs.reduceOption).Pairwise (· ≤ ·)) :
    ((deltas none ((some first :: rs).map written)).sum + first =
          lastRead first (some first :: rs) ∧
        List.Forall₂ (· ≤ ·) (deltas none ((some first :: rs).map written))
          (increases first (some first :: rs))) ↔
      ∀ u, FailsAfter u (some first :: rs) → u = 0 := by
  have hsum := sum_deltas false h
  have hdeltas : deltas none ((some first :: rs).map written) =
      0 :: deltas (some (previousOf false first)) (rs.map written) := rfl
  have hcond : (∀ u, FailsAfter u (some first :: rs) → u = 0) ↔ recounted first false rs = 0 := by
    rw [recounted_eq_zero_iff false h]
    simp only [failsAfter_some, or_imp, forall_and, and_imp, forall_eq]
    exact and_comm
  rw [hcond, hdeltas, lastRead_some, List.sum_cons, Nat.zero_add, hsum]
  constructor
  · rintro ⟨htotal, -⟩
    omega
  · intro hzero
    rw [hzero, deltas_eq_increases false h hzero, increases, Nat.sub_self]
    exact ⟨rfl, List.forall₂_same.mpr fun _ _ => Nat.le_refl _⟩

end Readings

/-! ## Readings of a run -/

/-- What the reads of a counter of a processor have given, tick after tick. -/
def readings (x : Expansion) (cpu i : ℕ) (ticks : List Tick) : List (Option ℕ) :=
  (ticks.filter fun t => t.cpu = cpu ∧ t.room).map fun t =>
    t.readValue (slotFlags cpu x.counters.length i)

/-- The recorded ticks of a processor: when they were, and what each counter has grown by. -/
def recorded (x : Expansion) (cpu : ℕ) : (ℕ → Option ℕ) → List Tick → List (ℕ × (ℕ → ℕ))
  | _, [] => []
  | previous, t :: ticks =>
    if t.cpu = cpu ∧ t.room then
      let row i := written (t.readValue (slotFlags cpu x.counters.length i))
      (t.timestamp, fun i => delta (previous i) (row i)) ::
        recorded x cpu (fun i => some (row i)) ticks
    else recorded x cpu previous ticks

theorem map_recorded (x : Expansion) (cpu i : ℕ) (previous : ℕ → Option ℕ) (ticks : List Tick) :
    (recorded x cpu previous ticks).map (fun p => p.2 i) =
      deltas (previous i) ((readings x cpu i ticks).map written) := by
  induction ticks generalizing previous with
  | nil => rfl
  | cons t ticks ih =>
    unfold recorded readings
    by_cases h : t.cpu = cpu ∧ t.room
    · rw [if_pos h, List.filter_cons_of_pos (by simpa using h)]
      exact congrArg (List.cons _) (ih _)
    · rw [if_neg h, List.filter_cons_of_neg (by simpa using h)]
      exact ih previous

section Series
variable {F : Type} (conv : Conversions F) (x : Expansion)

/-- What is reported in a series, from the deltas of all counters. -/
def Expansion.seriesValue (s : ℕ) (deltas : ℕ → ℕ) : F :=
  if s < x.counters.length then conv.asF64 (deltas s)
  else (x.derived.getD (s - x.counters.length) ("", .ipc 0 0)).2.value conv deltas

def Expansion.sample (cpu s : ℕ) (p : ℕ × (ℕ → ℕ)) : Report F :=
  .counter ⟨"", x.seriesValue conv s p.2, p.1, .counter (trackId cpu s), none⟩

/-- The values of the samples that have this id. -/
def onTrack (id : TrackId) (reports : List (Report F)) : List F :=
  reports.filterMap fun
    | .track _ => none
    | .counter c => if c.trackId = id then some c.value else none

end Series

section Runs
variable {F : Type} {conv : Conversions F} {callback : ℕ → ℤ} {x : Expansion} {cpu s : ℕ}

theorem samples_eq_map (e : PerfCounterEvent) (previous : ℕ × ℕ → Option ℕ) :
    e.samples conv previous x =
      x.series.map fun s => e.sample s (x.seriesValue conv s (e.deltaOf previous)) := by
  unfold PerfCounterEvent.samples Expansion.series
  rw [List.map_append, zipIdx_eq_map_range x.derived ("", .ipc 0 0), List.map_map, List.map_map]
  congr 1
  · apply List.map_congr_left
    intro i hi
    rw [Expansion.seriesValue, if_pos (mem_regularIdx.mp hi).1]
  · apply List.map_congr_left
    intro k _
    have hge : ¬ x.counters.length + k < x.counters.length := by omega
    simp only [Function.comp_apply, Expansion.seriesValue, if_neg hge,
      Nat.add_sub_cancel_left]

/-- Each event has one sample for each series of its processor. -/
theorem filter_samples (conv : Conversions F) (h : x.Valid) (hs : s ∈ x.series)
    (hcpu : cpu < 2 ^ 32) {e : PerfCounterEvent} (he : e.cpuId < 2 ^ 32)
    (previous : ℕ × ℕ → Option ℕ) :
    (e.samples conv previous x).filter (fun r => r.id = .counter (trackId cpu s)) =
      if e.cpuId = cpu then [x.sample conv cpu s (e.timestamp, e.deltaOf previous)] else [] := by
  by_cases heq : e.cpuId = cpu
  · subst heq
    rw [if_pos rfl]
    have hnodup : ((e.samples conv previous x).map Report.id).Nodup := by
      rw [samples_id, List.nodup_map_iff_inj_on (nodup_series x)]
      intro i hi j hj hij
      exact (trackId_inj he he (h.series_lt hi) (h.series_lt hj) (TrackId.counter.inj hij)).2
    refine filter_eq_singleton hnodup ?_ rfl
    rw [samples_eq_map]
    exact List.mem_map_of_mem hs
  · rw [if_neg heq, List.filter_eq_nil_iff, samples_eq_map]
    intro r hr hid
    obtain ⟨j, hj, rfl⟩ := List.mem_map.mp hr
    have hid := TrackId.counter.inj (of_decide_eq_true hid)
    exact heq (trackId_inj he hcpu (h.series_lt hj) (h.series_lt hs) hid).1

theorem value_congr {d : DerivedCounter} {f g : ℕ → ℕ} (h : ∀ i ∈ d.indices, f i = g i) :
    d.value conv f = d.value conv g := by
  obtain ⟨cyclesIdx, instructionsIdx⟩ := d
  have hcycles : f cyclesIdx = g cyclesIdx := h _ (by simp [DerivedCounter.indices])
  have hinstructions : f instructionsIdx = g instructionsIdx :=
    h _ (by simp [DerivedCounter.indices])
  simp only [DerivedCounter.value, hcycles, hinstructions]

theorem seriesValue_congr (h : x.Valid) (hs : s ∈ x.series) {d d' : ℕ → ℕ}
    (hd : ∀ i < x.counters.length, d i = d' i) :
    x.seriesValue conv s d = x.seriesValue conv s d' := by
  unfold Expansion.seriesValue
  split_ifs with hlt
  · rw [hd s hlt]
  · apply value_congr
    intro i hi
    rcases List.mem_append.mp hs with hregular | hderived
    · exact absurd (mem_regularIdx.mp hregular).1 hlt
    · obtain ⟨k, hk, rfl⟩ := List.mem_map.mp hderived
      rw [Nat.add_sub_cancel_left, List.getD_eq_getElem _ _ (List.mem_range.mp hk)] at hi
      exact hd i (h.lt_of_mem (List.getElem_mem _) hi)

theorem tracer_step_lost (conv : Conversions F) (callback : ℕ → ℤ) (x : Expansion)
    (c : Collector F) {t : Tick} (hroom : t.room = false) :
    ((tracer conv callback x).step c t).1 = c := by
  simp [tracer, perfcounterTimer, hroom]

/-- A recorded tick leaves the samples of its event. -/
theorem tracer_step_recorded (h : x.Valid) (c : Collector F) {t : Tick} (hroom : t.room = true)
    (htaken : ∀ r ∈ ((tracer conv callback x).step c t).2, r = .ok ()) :
    ∃ e : PerfCounterEvent, e.timestamp = t.timestamp ∧ e.cpuId = t.cpu ∧
      (∀ i < x.counters.length,
        e.value i = written (t.readValue (slotFlags t.cpu x.counters.length i))) ∧
      ((tracer conv callback x).step c t).1 = ⟨e.stored c.previousValues x.counters.length,
        c.reports ++ e.samples conv c.previousValues x⟩ := by
  obtain ⟨e, htimer, hstamp, hcpu, hvalue⟩ : ∃ e, perfcounterTimer x.counters.length t = some e ∧
      e.timestamp = t.timestamp ∧ e.cpuId = t.cpu ∧ ∀ i < x.counters.length,
        e.value i = written (t.readValue (slotFlags t.cpu x.counters.length i)) := by
    refine ⟨_, by simp only [perfcounterTimer, hroom]; rfl, rfl, rfl, ?_⟩
    intro i hi
    have hmax : i < maxPerfCounters := Nat.lt_of_lt_of_le hi h.length_le
    simp [PerfCounterEvent.value, written, Nat.min_eq_left h.length_le, hi, hmax]
  refine ⟨e, hstamp, hcpu, hvalue, ?_⟩
  simp only [tracer, htimer] at htaken ⊢
  rcases handleEvent_cases conv callback e h c with hok | ⟨sent, -, hrefused⟩
  · rw [hok]
  · have hr := htaken _ List.mem_cons_self
    rw [hrefused] at hr
    cases hr

/-- The samples of a series are those of the recorded ticks of its processor. -/
theorem filter_run (h : x.Valid) (hs : s ∈ x.series) (hcpu : cpu < 2 ^ 32) (ticks : List Tick)
    (c : Collector F) (htaken : ∀ r ∈ (tracer conv callback x).outputs c ticks, r = .ok ())
    {previous : ℕ → Option ℕ}
    (hprevious : ∀ i < x.counters.length, c.previousValues (cpu, i) = previous i) :
    ((tracer conv callback x).final c ticks).reports.filter
        (fun r => r.id = .counter (trackId cpu s)) =
      c.reports.filter (fun r => r.id = .counter (trackId cpu s)) ++
        (recorded x cpu previous ticks).map (x.sample conv cpu s) := by
  induction ticks generalizing c previous with
  | nil => exact (List.append_nil _).symm
  | cons t ticks ih =>
    rw [Machine.outputs_cons, List.forall_mem_append] at htaken
    rw [Machine.final_cons]
    cases hroom : t.room with
    | false =>
      have hstep := tracer_step_lost conv callback x c hroom
      rw [hstep] at htaken ⊢
      rw [ih c htaken.2 hprevious, recorded, if_neg (by simp [hroom])]
    | true =>
      obtain ⟨e, hstamp, he, hvalue, hstep⟩ := tracer_step_recorded h c hroom htaken.1
      rw [hstep] at htaken ⊢
      have hsamples := filter_samples conv h hs hcpu (he ▸ t.cpu_lt) c.previousValues
      by_cases hon : t.cpu = cpu
      · have hecpu : e.cpuId = cpu := he.trans hon
        subst hon
        have hstored : ∀ i < x.counters.length,
            e.stored c.previousValues x.counters.length (t.cpu, i) =
              some (written (t.readValue (slotFlags t.cpu x.counters.length i))) := by
          intro i hi
          simp [PerfCounterEvent.stored, hecpu, hi, hvalue i hi]
        have hdelta : x.seriesValue conv s (e.deltaOf c.previousValues) =
            x.seriesValue conv s fun i => delta (previous i)
              (written (t.readValue (slotFlags t.cpu x.counters.length i))) := by
          refine seriesValue_congr h hs fun i hi => ?_
          rw [PerfCounterEvent.deltaOf, hecpu, hprevious i hi, hvalue i hi]
        rw [ih _ htaken.2 hstored, List.filter_append, hsamples, if_pos hecpu,
          recorded, if_pos ⟨rfl, hroom⟩, List.map_cons, List.append_assoc,
          List.singleton_append, Expansion.sample, Expansion.sample, hdelta, hstamp]
      · have hecpu : e.cpuId ≠ cpu := fun heq => hon (he.symm.trans heq)
        have hstored : ∀ i < x.counters.length,
            e.stored c.previousValues x.counters.length (cpu, i) = previous i := by
          intro i hi
          simp [PerfCounterEvent.stored, Ne.symm hecpu, hprevious i hi]
        rw [ih _ htaken.2 hstored, List.filter_append, hsamples, if_neg hecpu, List.append_nil,
          recorded, if_neg (by simp [hon])]

theorem onTrack_filter (id : TrackId) (rs : List (Report F)) :
    onTrack id (rs.filter fun r => r.id = id) = onTrack id rs := by
  unfold onTrack
  rw [List.filterMap_filter]
  apply List.filterMap_congr
  intro r _
  cases r with
  | track t => exact ite_self _
  | counter c =>
    by_cases hid : c.trackId = id
    · simp [Report.id, hid]
    · simp [Report.id, hid]

theorem onTrack_append (id : TrackId) (rs rs' : List (Report F)) :
    onTrack id (rs ++ rs') = onTrack id rs ++ onTrack id rs' := List.filterMap_append

theorem onTrack_sample (ps : List (ℕ × (ℕ → ℕ))) :
    onTrack (.counter (trackId cpu s)) (ps.map (x.sample conv cpu s)) =
      ps.map fun p => x.seriesValue conv s p.2 := by
  rw [onTrack, List.filterMap_map, ← List.filterMap_eq_map]
  apply List.filterMap_congr
  intro p _
  exact if_pos rfl

theorem onTrack_run (h : x.Valid) (hs : s ∈ x.series) (hcpu : cpu < 2 ^ 32) (ticks : List Tick)
    (c : Collector F) (htaken : ∀ r ∈ (tracer conv callback x).outputs c ticks, r = .ok ()) :
    onTrack (.counter (trackId cpu s)) ((tracer conv callback x).final c ticks).reports =
      onTrack (.counter (trackId cpu s)) c.reports ++
        (recorded x cpu (fun i => c.previousValues (cpu, i)) ticks).map
          fun p => x.seriesValue conv s p.2 := by
  have hrun := filter_run h hs hcpu ticks c htaken fun _ _ => rfl
  rw [← onTrack_filter, hrun, onTrack_append, onTrack_filter, onTrack_sample]

theorem regularIdx_subset_series {i : ℕ} (hi : i ∈ x.regularIdx) : i ∈ x.series :=
  List.mem_append_left _ hi

theorem onTrack_regular (h : x.Valid) {i : ℕ} (hi : i ∈ x.regularIdx) (hcpu : cpu < 2 ^ 32)
    (ticks : List Tick) (c : Collector F)
    (htaken : ∀ r ∈ (tracer conv callback x).outputs c ticks, r = .ok ()) :
    onTrack (.counter (trackId cpu i)) ((tracer conv callback x).final c ticks).reports =
      onTrack (.counter (trackId cpu i)) c.reports ++
        (deltas (c.previousValues (cpu, i)) ((readings x cpu i ticks).map written)).map
          conv.asF64 := by
  have hvalue : x.seriesValue conv i = fun d => conv.asF64 (d i) := by
    funext d
    exact if_pos (mem_regularIdx.mp hi).1
  rw [onTrack_run h (regularIdx_subset_series hi) hcpu ticks c htaken, hvalue,
    ← map_recorded x cpu i fun j => c.previousValues (cpu, j), List.map_map]
  rfl

theorem onTrack_derived (h : x.Valid) {j cyclesIdx instructionsIdx : ℕ} {name : String}
    (hj : x.derived[j]? = some (name, .ipc cyclesIdx instructionsIdx)) (hcpu : cpu < 2 ^ 32)
    (ticks : List Tick) (c : Collector F)
    (htaken : ∀ r ∈ (tracer conv callback x).outputs c ticks, r = .ok ()) :
    onTrack (.counter (trackId cpu (x.counters.length + j)))
        ((tracer conv callback x).final c ticks).reports =
      onTrack (.counter (trackId cpu (x.counters.length + j))) c.reports ++
        List.zipWith (ipc conv)
          (deltas (c.previousValues (cpu, instructionsIdx))
            ((readings x cpu instructionsIdx ticks).map written))
          (deltas (c.previousValues (cpu, cyclesIdx))
            ((readings x cpu cyclesIdx ticks).map written)) := by
  obtain ⟨hlt, -⟩ := List.getElem?_eq_some_iff.mp hj
  have hseries : x.counters.length + j ∈ x.series :=
    List.mem_append_right _ (List.mem_map.mpr ⟨j, List.mem_range.mpr hlt, rfl⟩)
  have hvalue : x.seriesValue conv (x.counters.length + j) =
      fun d => ipc conv (d instructionsIdx) (d cyclesIdx) := by
    funext d
    have hge : ¬ x.counters.length + j < x.counters.length := by omega
    rw [Expansion.seriesValue, if_neg hge, Nat.add_sub_cancel_left, List.getD_eq_getElem?_getD, hj]
    rfl
  rw [onTrack_run h hseries hcpu ticks c htaken, hvalue,
    ← map_recorded x cpu instructionsIdx fun i => c.previousValues (cpu, i),
    ← map_recorded x cpu cyclesIdx fun i => c.previousValues (cpu, i), List.zipWith_map,
    List.zipWith_self]

end Runs

/-! ## Adding up -/

/-- If the floats of all numbers up to the values that are read are exact, so are the samples. -/
theorem decode_deltas {F : Type} {conv : Conversions F} {decode : F → ℚ} {rs : List (Option ℕ)}
    {first : ℕ} (hfirst : some first ∈ rs)
    (hexact : ∀ v ∈ rs.reduceOption, ∀ n ≤ v, decode (conv.asF64 n) = n) :
    ((deltas none (rs.map written)).map conv.asF64).map decode =
      (deltas none (rs.map written)).map (↑) := by
  rw [List.map_map]
  apply List.map_congr_left
  intro n hn
  obtain ⟨w, hw, hle⟩ := exists_ge_of_mem_deltas hn
  obtain ⟨r, hr, rfl⟩ := List.mem_map.mp hw
  cases r with
  | some v => exact hexact v (List.reduceOption_mem_iff.mpr hr) n hle
  | none =>
    have hzero : n ≤ first := Nat.le_trans hle (Nat.zero_le first)
    exact hexact first (List.reduceOption_mem_iff.mpr hfirst) n hzero

/-- The samples of a counter that is read with success at first, and never decreases, add up to
its growth, and none exceeds the growth since the last read, exactly if no read fails between two
that succeed, except while the counter is at zero. -/
theorem deltas_add_up_iff {F : Type} (conv : Conversions F) (decode : F → ℚ)
    {counters : List CounterConfig} {x : Expansion}
    (hvalid : validate counters = .ok x) (callback : ℕ → ℤ) (ticks : List Tick)
    (htaken : ∀ r ∈ (tracer conv callback x).outputs .new ticks, r = .ok ()) {cpu i first : ℕ}
    (hcpu : cpu < 2 ^ 32) (hi : i ∈ x.regularIdx)
    (hfirst : (readings x cpu i ticks).head? = some (some first))
    (hmono : (readings x cpu i ticks).reduceOption.Pairwise (· ≤ ·))
    (hexact : ∀ v ∈ (readings x cpu i ticks).reduceOption, ∀ n ≤ v,
      decode (conv.asF64 n) = n) :
    let samples := (onTrack (.counter (trackId cpu i))
      ((tracer conv callback x).final .new ticks).reports).map decode
    (samples.sum = (lastRead first (readings x cpu i ticks) : ℚ) - first ∧
        List.Forall₂ (· ≤ ·) samples ((increases first (readings x cpu i ticks)).map (↑))) ↔
      ∀ u, FailsAfter u (readings x cpu i ticks) → u = 0 := by
  obtain ⟨-, h⟩ := valid_of_validate hvalid
  have hsamples :
      onTrack (.counter (trackId cpu i)) ((tracer conv callback x).final .new ticks).reports =
        (deltas none ((readings x cpu i ticks).map written)).map conv.asF64 :=
    onTrack_regular h hi hcpu ticks .new htaken
  dsimp only
  rw [hsamples, decode_deltas (List.mem_of_head? hfirst) hexact, ← Nat.cast_list_sum,
    eq_sub_iff_add_eq, List.forall₂_map_left_iff, List.forall₂_map_right_iff]
  norm_cast
  cases hreadings : readings x cpu i ticks with
  | nil =>
    rw [hreadings] at hfirst
    cases hfirst
  | cons r rs =>
    rw [hreadings] at hfirst hmono
    cases Option.some.inj hfirst
    rw [List.reduceOption_cons_of_some] at hmono
    exact deltas_growth_iff hmono

/-- A timer that finds the counter in the first slot at this value. -/
def tickWith (r : Option ℕ) : Tick := ⟨0, 0, by decide, true, fun _ => r⟩

theorem deltas_add_up_of_two_reads :
    let x := expandCounters [.named "cache-misses"]
    let ticks := [tickWith (some 100), tickWith (some 150)]
    (onTrack (.counter (trackId 0 0))
      ((tracer unrounded (fun _ => 0) x).final .new ticks).reports).sum = 150 - 100 := by
  intro x ticks
  have hvalid : validate [.named "cache-misses"] = .ok x := by decide +kernel
  have hreadings : readings x 0 0 ticks = [some 100, some 150] := by decide
  have hfirst : (readings x 0 0 ticks).head? = some (some 100) := by
    rw [hreadings]
    rfl
  have hmono : (readings x 0 0 ticks).reduceOption.Pairwise (· ≤ ·) := by
    rw [hreadings]
    decide
  have hnever : ∀ u, FailsAfter u (readings x 0 0 ticks) → u = 0 := by
    rintro u ⟨w, hsub⟩
    rw [hreadings] at hsub
    exact absurd hsub.length_le (by simp)
  have hadd := (deltas_add_up_iff unrounded id hvalid (fun _ => 0) ticks (by decide) (by decide)
    (by decide) hfirst hmono fun _ _ _ _ => rfl).mpr hnever
  rw [hreadings, List.map_id] at hadd
  exact hadd.1

/-- A read fails between the values 100 and 150, and the whole of the second is reported. -/
theorem failed_read_counted_again :
    let x := expandCounters [.named "cache-misses"]
    let ticks := [tickWith (some 100), tickWith none, tickWith (some 150)]
    readings x 0 0 ticks = [some 100, none, some 150] ∧
      onTrack (.counter (trackId 0 0))
        ((tracer unrounded (fun _ => 0) x).final .new ticks).reports = [0, 0, 150] := by
  decide +kernel

end Manytrace.Bpf.PerfCounter
