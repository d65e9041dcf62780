import Manytrace.Bpf.ProfilerSamples

/-! What a sample shows when other stacks come into its bucket before it is consumed. -/
namespace Manytrace.Bpf.Profiler
open Manytrace.Core

section Reuse
variable (cfg : Config) (hash hashCallstack : List ℕ → ℕ) (streamId : ℕ)

/-- The stacks that are brought to the stack map. -/
def Act.takenStacks : Act → List (List ℕ)
  | .perfEvent ctx => if recorded cfg ctx then ctx.takenStacks cfg else []
  | .consume _ => []

/-- The stacks that come into one bucket. -/
def intoBucket (b : ℕ) (acts : List Act) : List (List ℕ) :=
  (acts.flatMap (Act.takenStacks cfg)).filter fun stack => bucketOf hash stack = b

variable {cfg hash hashCallstack streamId}

/-- The stacks go through the map one after the other. -/
theorem step_stackmap (s : State) (a : Act) :
    ((profiler cfg hash hashCallstack streamId).step s a).1.stackmap =
      (a.takenStacks cfg).foldl (bpfGetStackid hash) s.stackmap := by
  cases a with
  | consume x =>
    cases hring : s.ring with
    | nil => rw [step_consume_nil hring]; rfl
    | cons r ring => rw [step_consume_cons hring]; rfl
  | perfEvent ctx =>
    have hcollect : ∀ (enabled : Bool) (new : Option (List ℕ)) (m : Stackmap),
        (collect hash enabled new m).2 = (taken enabled new).foldl (bpfGetStackid hash) m := by
      intro enabled new m
      cases enabled <;> cases new <;> rfl
    change (profilerPerfEvent hash cfg ctx s.stackmap).2 = _
    by_cases hrec : recorded cfg ctx = true
    · rw [profilerPerfEvent_of_recorded hrec, Act.takenStacks, if_pos hrec, Context.takenStacks,
        List.foldl_append, ← hcollect, ← hcollect]
    · rw [profilerPerfEvent_of_not_recorded hrec, Act.takenStacks, if_neg hrec]
      rfl

theorem final_stackmap (s : State) (acts : List Act) :
    ((profiler cfg hash hashCallstack streamId).final s acts).stackmap =
      (acts.flatMap (Act.takenStacks cfg)).foldl (bpfGetStackid hash) s.stackmap := by
  induction acts generalizing s with
  | nil => rfl
  | cons a acts ih =>
    rw [Machine.final_cons, ih, step_stackmap, List.flatMap_cons, List.foldl_append]

/-- A bucket holds the stack that came into it last. -/
theorem foldl_bpfGetStackid {b : ℕ} {m : Stackmap} {xs : List (List ℕ)}
    (hhash : ∀ x ∈ (m b).toList ++ xs, ∀ y ∈ (m b).toList ++ xs,
      hash x = hash y → x = y) :
    xs.foldl (bpfGetStackid hash) m b =
      (xs.filter fun x => bucketOf hash x = b).getLast?.or (m b) := by
  induction xs generalizing m with
  | nil => rfl
  | cons x xs ih =>
    rw [List.foldl_cons]
    by_cases hb : bucketOf hash x = b
    · have hx : bpfGetStackid hash m x b = some x := by
        subst hb
        refine bpfGetStackid_self fun old hold heq => ?_
        exact hhash old (by simp [hold]) x (by simp) heq
      have hsub : ∀ y ∈ (bpfGetStackid hash m x b).toList ++ xs,
          y ∈ (m b).toList ++ x :: xs := by
        rw [hx]
        exact fun y hy => List.mem_append_right _ hy
      rw [ih fun y hy z hz => hhash y (hsub y hy) z (hsub z hz), hx,
        List.filter_cons_of_pos (by simpa using hb), List.getLast?_cons]
      cases (xs.filter fun x => bucketOf hash x = b).getLast? <;> rfl
    · have hkeep : bpfGetStackid hash m x b = m b := by
        unfold bpfGetStackid
        split_ifs
        · rfl
        · rw [Function.update_of_ne (Ne.symm hb)]
      have hsub : ∀ y ∈ (m b).toList ++ xs, y ∈ (m b).toList ++ x :: xs := by
        intro y hy
        rcases List.mem_append.mp hy with hy | hy
        · exact List.mem_append_left _ hy
        · exact List.mem_append_right _ (List.mem_cons_of_mem _ hy)
      rw [← hkeep] at hsub ⊢
      rw [ih fun y hy z hz => hhash y (by simpa [hkeep] using hsub y hy) z
        (by simpa [hkeep] using hsub z hz), List.filter_cons_of_neg (by simpa using hb)]

theorem id_of_collect {enabled : Bool} {new : Option (List ℕ)} {m : Stackmap}
    (h : 0 ≤ (collect hash enabled new m).1) :
    (collect hash enabled new m).1 = bucketOf hash (collected enabled new) := by
  cases enabled with
  | false => exact absurd h (show ¬ (0 : ℤ) ≤ -1 by decide)
  | true =>
    cases new with
    | none => exact absurd h (show ¬ (0 : ℤ) ≤ -14 by decide)
    | some stack => rfl

/-- The ids of a record with their stacks. -/
def Record.entries (r : Record) : List (ℤ × List ℕ) :=
  [(r.event.ustackId, r.user), (r.event.kstackId, r.kernel)]

/-- The ids of the records that wait are the buckets of their own stacks. -/
theorem entries_of_ring {acts : List Act} {r : Record}
    (hr : r ∈ ((profiler cfg hash hashCallstack streamId).final .new acts).ring)
    {e : ℤ × List ℕ} (he : e ∈ r.entries) (hid : 0 ≤ e.1) :
    e.1 = bucketOf hash e.2 ∧ e.2 ∈ acts.flatMap (Act.takenStacks cfg) := by
  induction acts using List.reverseRecOn with
  | nil => simp [State.new] at hr
  | append_singleton acts a ih =>
    rw [List.flatMap_append, List.mem_append]
    have hkeep : r ∈ ((profiler cfg hash hashCallstack streamId).final .new acts).ring →
        e.1 = bucketOf hash e.2 ∧
          (e.2 ∈ acts.flatMap (Act.takenStacks cfg) ∨ e.2 ∈ [a].flatMap (Act.takenStacks cfg)) :=
      fun hold => ⟨(ih hold).1, Or.inl (ih hold).2⟩
    rw [Machine.final_append] at hr
    simp only [Machine.final_cons, Machine.final_nil] at hr
    cases a with
    | consume x =>
      apply hkeep
      cases hring : ((profiler cfg hash hashCallstack streamId).final .new acts).ring with
      | nil => rwa [step_consume_nil hring, hring] at hr
      | cons r' ring =>
        rw [step_consume_cons hring] at hr
        exact List.mem_cons_of_mem _ hr
    | perfEvent ctx =>
      by_cases hrec : recorded cfg ctx = true
      · simp only [profiler, profilerPerfEvent_of_recorded hrec, Option.map_some,
          Option.toList_some] at hr
        rcases List.mem_append.mp hr with hold | hnew
        · exact hkeep hold
        · obtain rfl := List.mem_singleton.mp hnew
          have htaken : ctx.takenStacks cfg =
              [Act.perfEvent ctx].flatMap (Act.takenStacks cfg) := by
            simp [Act.takenStacks, hrec]
          rw [← htaken]
          rcases List.mem_pair.mp he with rfl | rfl
          · exact ⟨id_of_collect hid,
              Or.inr (List.mem_append_left _ (mem_taken_of_collect hid))⟩
          · exact ⟨id_of_collect hid,
              Or.inr (List.mem_append_right _ (mem_taken_of_collect hid))⟩
      · simp only [profiler, profilerPerfEvent_of_not_recorded hrec, Option.map_none,
          Option.toList_none, List.append_nil] at hr
        exact hkeep hr

end Reuse

/-- When a sample is consumed it shows, for the user and for the kernel, the stack that came into
the bucket last. So it shows its own exactly if no other one came into the bucket since. -/
theorem shows_last_stack (cfg : Config) (hash hashCallstack : List ℕ → ℕ) (streamId : ℕ)
    (acts : List Act) (hwalked : ∀ x ∈ acts.flatMap (Act.takenStacks cfg), walked x = true)
    (hhash : ∀ x ∈ acts.flatMap (Act.takenStacks cfg), ∀ y ∈ acts.flatMap (Act.takenStacks cfg),
      hash x = hash y → x = y) :
    let s := (profiler cfg hash hashCallstack streamId).final .new acts
    ∀ r ∈ s.ring, ∀ e ∈ r.entries, 0 ≤ e.1 → ∃ last,
      (intoBucket cfg hash e.1.toNat acts).getLast? = some last ∧
        framesOf s.stackmap e.1 = last ∧ (framesOf s.stackmap e.1 = e.2 ↔ last = e.2) := by
  intro s r hr e he hid
  obtain ⟨hbucket, hmem⟩ := entries_of_ring hr he hid
  have hnat : e.1.toNat = bucketOf hash e.2 := by omega
  have hinto : e.2 ∈ intoBucket cfg hash e.1.toNat acts :=
    List.mem_filter.mpr ⟨hmem, by simp [hnat]⟩
  obtain ⟨last, hlast⟩ := Option.isSome_iff_exists.mp
    (List.getLast?_isSome.mpr (List.ne_nil_of_mem hinto))
  have hbelow : last ∈ intoBucket cfg hash e.1.toNat acts := List.mem_of_getLast? hlast
  have hm : s.stackmap e.1.toNat = some last := by
    change ((profiler cfg hash hashCallstack streamId).final .new acts).stackmap _ = _
    rw [final_stackmap, foldl_bpfGetStackid hhash]
    change (intoBucket cfg hash e.1.toNat acts).getLast?.or none = _
    rw [hlast]
    rfl
  have hframes : framesOf s.stackmap e.1 = last := by
    rw [framesOf, if_pos hid]
    exact getStackFrames_eq hm (hwalked last (List.mem_filter.mp hbelow).1)
  exact ⟨last, hlast, hframes, by rw [hframes]⟩

/-- All stacks have the bucket 5. -/
def oneBucketProfiler : Machine State Act Protocol.Message :=
  profiler ⟨false, true, false⟩ (fun l => 16384 * l.foldl (fun h x => 31 * h + x) 7 + 5)
    (fun l => l.foldl (fun h x => 31 * h + x) 7) 1

/-- The first of two samples that wait shows the stack of the second. -/
theorem shows_last_stack_oneBucket :
    framesOf (oneBucketProfiler.final .new (twoSamples.take 2)).stackmap 5 = [48, 32] ∧
    ∃ last, (intoBucket ⟨false, true, false⟩
        (fun l => 16384 * l.foldl (fun h x => 31 * h + x) 7 + 5) 5
        (twoSamples.take 2)).getLast? = some last ∧
      framesOf (oneBucketProfiler.final .new (twoSamples.take 2)).stackmap 5 = last ∧
      (framesOf (oneBucketProfiler.final .new (twoSamples.take 2)).stackmap 5 = [16, 32] ↔
        last = [16, 32]) :=
  ⟨by decide +kernel, shows_last_stack ⟨false, true, false⟩ _ _ 1 (twoSamples.take 2)
    (by decide) (by decide) ⟨⟨10, 5, 6, 0, 5, -1⟩, [16, 32], []⟩ (by decide +kernel) (5, [16, 32])
    (by decide) (by decide)⟩

end Manytrace.Bpf.Profiler
