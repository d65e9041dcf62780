import Manytrace.Symbolizer.Resolution

/-! The order in which a call stack lists its frames. The user addresses are reversed before
they are interned, the kernel addresses are not. -/

namespace Manytrace.Symbolizer
open Manytrace.Core Manytrace.Protocol

/-- The program counter that the frame definitions give to an id. -/
def Dictionary.relPc (D : Dictionary) (id : ℕ) : Option ℕ :=
  (D.frames.find? fun f => f.iid == id).map Frame.relPc

/-- The program counters of a list of frame ids. -/
def Dictionary.relPcs (D : Dictionary) (ids : List ℕ) : Option (List ℕ) :=
  ids.mapM D.relPc

/-- The whole stack of a sample from its outermost frame on, for addresses that come innermost
first. The kernel was entered from the user's innermost frame. -/
def Request.bottomFirst (r : Request) : List ℕ := (r.kernelAddresses ++ r.userAddresses).reverse

section Frames
variable {c : InternedCache} {seen : List (Key × Option String)} {D : Dictionary}
  {i : Interned} {hash : List ℕ → ℕ}

theorem relPc_of_resolveFrame {id a : ℕ} {name : String}
    (h : D.resolveFrame id = some (a, name)) : D.relPc id = some a := by
  unfold Dictionary.resolveFrame at h
  obtain ⟨f, hf, hname⟩ := Option.bind_eq_some_iff.mp h
  obtain ⟨n, -, heq⟩ := Option.map_eq_some_iff.mp hname
  rw [Dictionary.relPc, hf, Option.map_some, (Prod.mk.inj heq).1]

theorem relPcs_of_ids {ks : List Key} {ids : List ℕ} (h : Frames c seen D)
    (hids : List.Forall₂ (fun k id => c.pidFrameToSequence.ids k = some id) ks ids) :
    D.relPcs ids = some (ks.map Prod.snd) := by
  unfold Dictionary.relPcs
  induction hids with
  | nil => rfl
  | cons hk _ ih =>
    have hpc := relPc_of_resolveFrame (h.resolved _ _ hk)
    simp [List.mapM_cons, hpc, ih]

/-- `Frames` reads neither the call stacks nor the flag of the first data. -/
theorem Frames.setCallstacks (h : Frames c seen D) (t : Interner ℕ) (first : Bool)
    (callstacks : List Callstack) :
    Frames { c with callstackHashToSequence := t, isFirstInternedData := first } seen
      { D with callstacks := callstacks } :=
  ⟨h.functions, h.frames, h.unknown, h.mappings, h.buildIds, h.closed, h.sighted, h.resolved⟩

/-- The build id is declared together with the mapping. -/
theorem newBuildIds_of_newMappings (h : Frames c seen D) (hm : (i.draft c).newMappings = []) :
    (i.draft c).newBuildIds = [] := by
  obtain ⟨hmappings, hbuilds⟩ := (draft_loop h i).mappings
  rw [hmappings] at hm
  rw [hbuilds]
  revert hm
  cases hu : c.unknownFunctionId <;> cases hf : c.fakeMappingId <;>
    simp [Draft.start, Draft.declareUnknownFunction, Draft.declareFakeMapping,
      InternedCache.getOrCreateUnknownFunctionId, InternedCache.getOrCreateFakeMappingId, hu, hf]

/-- A call keeps the frames, whether or not the hash of its frame ids was met before. -/
theorem Frames.data (hash : List ℕ → ℕ) (h : Frames c seen D) (i : Interned) :
    Frames (i.data hash c).2 (seen ++ i.sightings) (D.addData (i.data hash c).1.2) := by
  have hdraft := (draft_loop h i).frames
  unfold Interned.data
  dsimp only
  split_ifs with hnew
  · exact hdraft.setCallstacks _ _ _
  · -- nothing is returned, and nothing was new
    simp only [Bool.or_eq_true, not_or, Bool.not_eq_true', Bool.not_eq_false,
      List.isEmpty_iff] at hnew
    obtain ⟨⟨⟨-, hn⟩, hf⟩, hm⟩ := hnew
    have hb := newBuildIds_of_newMappings h hm
    have hD : D.withDraft (i.draft c) = D := by simp [Dictionary.withDraft, hn, hf, hm, hb]
    rw [hD] at hdraft
    exact hdraft.setCallstacks _ _ D.callstacks

/-- The frame ids of a call, read with everything defined so far. -/
theorem relPcs_data (hash : List ℕ → ℕ) (h : Frames c seen D) (i : Interned) :
    (D.addData (i.data hash c).1.2).relPcs (i.draft c).allFrameIds =
      some (i.sightings.map fun s => s.1.2) := by
  have hids := (draft_loop h i).ids
  have hframes := h.data hash i
  have htable : (i.data hash c).2.pidFrameToSequence = (i.draft c).cache.pidFrameToSequence := by
    unfold Interned.data
    dsimp only
    split_ifs <;> rfl
  rw [← htable] at hids
  rw [relPcs_of_ids hframes hids, List.map_map]
  rfl

theorem callstacks_data {x : InternedData} (hx : (i.data hash c).1.2 = some x) :
    x.callstacks = [⟨(i.data hash c).1.1, (i.draft c).allFrameIds⟩] := by
  unfold Interned.data at hx ⊢
  dsimp only at hx ⊢
  split_ifs at hx ⊢
  cases hx
  rfl

end Frames

section Run
variable {hash : List ℕ → ℕ} {r : Request}

theorem frames_of_run (hash : List ℕ → ℕ) (rs : List Request) :
    Frames ((symbolizer hash).final .new rs) (rs.flatMap Request.sightings)
      (dictionary (emitted ((symbolizer hash).outputs .new rs))) := by
  induction rs using List.reverseRecOn with
  | nil => exact (run_new hash).inv.frames
  | append_singleton rs r ih =>
    rw [Machine.outputs_append, Machine.final_append]
    simp only [Machine.outputs_cons, Machine.outputs_nil, Machine.final_cons, Machine.final_nil,
      List.append_nil]
    cases hr : symbolize r with
    | error e =>
      have hseen : (rs ++ [r]).flatMap Request.sightings = rs.flatMap Request.sightings := by
        simp [Request.sightings, hr]
      rw [step_error _ hr, hseen, emitted_error]
      exact ih
    | ok i =>
      rw [step_ok _ hr, sightings_concat rs hr, dictionary_emitted_ok]
      exact ih.data hash i

/-- The order of the loops. -/
theorem relPcs_last (rs : List Request) (hone : r.OnePerAddress) {a : Answer}
    (ha : .ok a ∈ ((symbolizer hash).step ((symbolizer hash).final .new rs) r).2) :
    (dictionary (emitted ((symbolizer hash).outputs .new (rs ++ [r])))).relPcs a.frameIds =
      some (r.userAddresses.reverse ++ r.kernelAddresses) := by
  rw [Machine.outputs_append]
  simp only [Machine.outputs_cons, Machine.outputs_nil, List.append_nil]
  cases hr : symbolize r with
  | error e => simp [step_error _ hr] at ha
  | ok i =>
    rw [step_ok _ hr] at ha ⊢
    obtain rfl : a = i.answer hash _ := by simpa using ha
    have hkeys := keys_of_sightings hr hone
    have hpcs : i.sightings.map (fun s => s.1.2) = r.keys.map Prod.snd := by
      rw [← hkeys, List.map_map]
      rfl
    have hlast := relPcs_data hash (frames_of_run hash rs) i
    rw [hpcs] at hlast
    rw [dictionary_emitted_ok]
    refine hlast.trans ?_
    simp [Request.keys, Function.comp_def]

/-- Every call stack that a call emits lists its frames from the bottom on exactly if the
kernel addresses read the same in both directions. -/
theorem callstack_bottom_first_iff (hash : List ℕ → ℕ) (rs : List Request) (r : Request)
    (hone : r.OnePerAddress) {a : Answer}
    (ha : .ok a ∈ ((symbolizer hash).step ((symbolizer hash).final .new rs) r).2) :
    (∀ x, a.data = some x → x.callstacks = [⟨a.callstackId, a.frameIds⟩]) ∧
    ((dictionary (emitted ((symbolizer hash).outputs .new (rs ++ [r])))).relPcs a.frameIds =
        some r.bottomFirst ↔
      r.kernelAddresses.reverse = r.kernelAddresses) := by
  constructor
  · intro x hx
    cases hr : symbolize r with
    | error e => simp [step_error _ hr] at ha
    | ok i =>
      rw [step_ok _ hr] at ha
      obtain rfl : a = i.answer hash _ := by simpa using ha
      exact callstacks_data hx
  · rw [relPcs_last rs hone ha, Request.bottomFirst, List.reverse_append, Option.some.injEq,
      List.append_cancel_left_eq]
    exact eq_comm

/-- A thread in a system call, with `kernel` as its kernel stack. -/
def systemCall (kernel : List ℕ) : Request where
  pid := 5
  userAddresses := [16, 32]
  kernelAddresses := kernel
  userResult := .ok [some "read", some "main"]
  kernelResult := .ok (kernel.map fun _ => none)

/-- With one kernel frame the order is right, also after a stack with more of them. -/
theorem callstack_bottom_first_one_kernel_frame :
    ∃ a : Answer, .ok a ∈ ((symbolizer List.length).step
        ((symbolizer List.length).final .new [systemCall [64, 65]]) (systemCall [64])).2 ∧
      (dictionary (emitted ((symbolizer List.length).outputs .new
        ([systemCall [64, 65]] ++ [systemCall [64]])))).relPcs a.frameIds = some [32, 16, 64] := by
  refine ⟨_, List.mem_singleton_self _, ?_⟩
  exact (callstack_bottom_first_iff List.length _ (systemCall [64])
    (by simp [Request.OnePerAddress, systemCall]) (List.mem_singleton_self _)).2.mpr rfl

/-- Two kernel frames come out from the innermost to the outermost. -/
theorem callstack_two_kernel_frames_reversed :
    (systemCall [64, 65]).bottomFirst = [32, 16, 65, 64] ∧
    ∃ a : Answer, .ok a ∈ ((symbolizer List.length).step .new (systemCall [64, 65])).2 ∧
      (dictionary (emitted ((symbolizer List.length).outputs .new [systemCall [64, 65]]))).relPcs
        a.frameIds = some [32, 16, 64, 65] := by
  refine ⟨rfl, _, List.mem_singleton_self _, ?_⟩
  decide

end Run
end Manytrace.Symbolizer
