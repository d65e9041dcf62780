import Mathlib.Data.List.Forall2
import Mathlib.Data.List.Induction
import Manytrace.Symbolizer.InternedSymbolizer

/-! The definitions a symbolizer has emitted resolve every call stack id it returns to the
sampled stack. -/
namespace Manytrace.Symbolizer
open Manytrace.Core Manytrace.Protocol

/-- All definitions that a reader of the trace has seen. -/
structure Dictionary where
  functionNames : List InternedString
  frames : List Frame
  callstacks : List Callstack
  mappings : List Mapping
  buildIds : List InternedString

def dictionary (ds : List InternedData) : Dictionary where
  functionNames := ds.flatMap fun d => d.functionNames
  frames := ds.flatMap fun d => d.frames
  callstacks := ds.flatMap fun d => d.callstacks
  mappings := ds.flatMap fun d => d.mappings
  buildIds := ds.flatMap fun d => d.buildIds

namespace Dictionary

def functionName (D : Dictionary) (id : ℕ) : Option String :=
  (D.functionNames.find? fun f => f.iid == id).map fun f => f.str

/-- The address and the name of a frame. -/
def resolveFrame (D : Dictionary) (id : ℕ) : Option (ℕ × String) :=
  (D.frames.find? fun f => f.iid == id).bind fun f =>
    (D.functionName f.functionNameId).map fun name => (f.relPc, name)

def resolve (D : Dictionary) (id : ℕ) : Option (List (ℕ × String)) :=
  (D.callstacks.find? fun s => s.iid == id).bind fun s => s.frameIds.mapM D.resolveFrame

/-- The frame refers to a function name and a mapping that are defined. -/
def Closes (D : Dictionary) (f : Frame) : Prop :=
  f.functionNameId ∈ D.functionNames.map InternedString.iid ∧
    f.mappingId ∈ D.mappings.map Mapping.iid

end Dictionary

/-- Frames are the same for a process (or the kernel, -1) and an address. -/
abbrev Key := ℤ × ℕ

def Request.keys (r : Request) : List Key :=
  r.userAddresses.reverse.map (fun a => (r.pid, a)) ++ r.kernelAddresses.map fun a => (-1, a)

/-- The symbols found for the keys of a stack, in the order in which `data` comes to them. -/
def Interned.sightings (i : Interned) : List (Key × Option String) :=
  (i.userSymbols.zip i.userAddresses).reverse.map (fun s => ((i.pid, s.2), s.1)) ++
    (i.kernelSymbols.zip i.kernelAddresses).map fun s => ((-1, s.2), s.1)

def Request.sightings (r : Request) : List (Key × Option String) :=
  match symbolize r with
  | .ok i => i.sightings
  | .error _ => []

/-- The symbol found when the key was first seen. -/
def firstName (seen : List (Key × Option String)) (k : Key) : String :=
  (seen.lookup k).join.getD "<unknown>"

def Request.OnePerAddress (r : Request) : Prop :=
  (∀ syms, r.userResult = .ok syms → syms.length = r.userAddresses.length) ∧
    ∀ syms, r.kernelResult = .ok syms → syms.length = r.kernelAddresses.length

/-- There is an address, and blazesym has an answer wherever it is asked. -/
def Request.Answerable (r : Request) : Prop :=
  (r.userAddresses ≠ [] ∨ r.kernelAddresses ≠ []) ∧
    (r.userAddresses ≠ [] → ∃ syms, r.userResult = .ok syms) ∧
    (r.kernelAddresses ≠ [] → ∃ syms, r.kernelResult = .ok syms)

def answers (os : List (Except SymbolizerError Answer)) : List Answer :=
  os.filterMap Except.toOption

def emitted (os : List (Except SymbolizerError Answer)) : List InternedData :=
  (answers os).filterMap fun a => a.data

/-- No two of the frame-id lists that were hashed collide. -/
def NoCollision (hash : List ℕ → ℕ) (os : List (Except SymbolizerError Answer)) : Prop :=
  ∀ a ∈ answers os, ∀ b ∈ answers os, hash a.frameIds = hash b.frameIds → a.frameIds = b.frameIds

/-! ## What is known between two frames -/

/-- The cache agrees with the functions and frames that have been defined. -/
structure Frames (c : InternedCache) (seen : List (Key × Option String)) (D : Dictionary) :
    Prop where
  functions : Numbered InternedString.iid D.functionNames c.nextFunctionId
  frames : Numbered Frame.iid D.frames c.pidFrameToSequence.next
  unknown : ∀ u, c.unknownFunctionId = some u → D.functionName u = some "<unknown>"
  mappings : D.mappings.map Mapping.iid = if c.fakeMappingId.isSome then [fakeMappingId] else []
  buildIds : D.buildIds.map InternedString.iid = if c.fakeMappingId.isSome then [1] else []
  closed : ∀ f ∈ D.frames, D.Closes f
  sighted : ∀ k, (c.pidFrameToSequence.ids k).isSome = (seen.lookup k).isSome
  resolved : ∀ k i, c.pidFrameToSequence.ids k = some i →
    D.resolveFrame i = some (k.2, firstName seen k)

/-- Nothing that was defined is lost or hidden. -/
structure Dictionary.Le (D E : Dictionary) : Prop where
  functionNames : D.functionNames <+: E.functionNames
  frames : D.frames <+: E.frames
  mappings : D.mappings <+: E.mappings

namespace Dictionary.Le
variable {D E : Dictionary} (h : D.Le E) {id : ℕ}
include h

theorem functionName {name : String} (hn : D.functionName id = some name) :
    E.functionName id = some name := by
  unfold Dictionary.functionName at hn ⊢
  obtain ⟨f, hf, rfl⟩ := Option.map_eq_some_iff.mp hn
  obtain ⟨fs, hfs⟩ := h.functionNames
  rw [← hfs, find?_append_of_some hf, Option.map_some]

theorem resolveFrame {r : ℕ × String} (hr : D.resolveFrame id = some r) :
    E.resolveFrame id = some r := by
  unfold Dictionary.resolveFrame at hr ⊢
  obtain ⟨f, hf, hname⟩ := Option.bind_eq_some_iff.mp hr
  obtain ⟨name, hn, rfl⟩ := Option.map_eq_some_iff.mp hname
  obtain ⟨fs, hfs⟩ := h.frames
  rw [← hfs, find?_append_of_some hf, Option.bind_some, h.functionName hn, Option.map_some]

theorem closes {f : Frame} (hf : D.Closes f) : E.Closes f :=
  ⟨(h.functionNames.map _).subset hf.1, (h.mappings.map _).subset hf.2⟩

end Dictionary.Le

section Frames
variable {c : InternedCache} {seen : List (Key × Option String)} {D : Dictionary}

theorem firstName_append_of_seen {k : Key} (h : (seen.lookup k).isSome)
    (seen' : List (Key × Option String)) : firstName (seen ++ seen') k = firstName seen k := by
  obtain ⟨s, hs⟩ := Option.isSome_iff_exists.mp h
  simp [firstName, List.lookup_append, hs]

theorem isSome_lookup_concat (seen : List (Key × Option String)) (k l : Key)
    (sym : Option String) :
    ((seen ++ [(k, sym)]).lookup l).isSome = ((seen.lookup l).isSome || l == k) := by
  rw [List.lookup_append, Option.isSome_or, List.lookup_cons]
  cases l == k <;> rfl

theorem firstName_append_of_unseen {k : Key} (h : seen.lookup k = none) (sym : Option String) :
    firstName (seen ++ [(k, sym)]) k = sym.getD "<unknown>" := by
  simp [firstName, List.lookup_append, h]

/-- A frame that is known keeps its first name. -/
theorem Frames.resolved_append (h : Frames c seen D) {k : Key} {i : ℕ}
    (hk : c.pidFrameToSequence.ids k = some i) (seen' : List (Key × Option String)) :
    D.resolveFrame i = some (k.2, firstName (seen ++ seen') k) := by
  have hseen : (seen.lookup k).isSome := by
    rw [← h.sighted k, hk]
    rfl
  rw [firstName_append_of_seen hseen]
  exact h.resolved k i hk

theorem Frames.addSighting (h : Frames c seen D) {k : Key}
    (hk : (c.pidFrameToSequence.ids k).isSome) (sym : Option String) :
    Frames c (seen ++ [(k, sym)]) D :=
  { h with
    sighted := by
      intro l
      rw [isSome_lookup_concat, ← h.sighted]
      by_cases hl : l = k
      · simp [hl, hk]
      · simp [hl]
    resolved := fun l i hl => h.resolved_append hl _ }

theorem Frames.addFunction (h : Frames c seen D) (name : String) :
    Frames { c with nextFunctionId := c.nextFunctionId + 1 } seen
      { D with functionNames := D.functionNames ++ [⟨c.nextFunctionId, name⟩] } := by
  have hle : D.Le { D with functionNames := D.functionNames ++ [⟨c.nextFunctionId, name⟩] } :=
    ⟨List.prefix_append _ _, List.prefix_rfl, List.prefix_rfl⟩
  exact {
    functions := h.functions.concat rfl
    frames := h.frames
    unknown := fun u hu => hle.functionName (h.unknown u hu)
    mappings := h.mappings
    buildIds := h.buildIds
    closed := fun f hf => hle.closes (h.closed f hf)
    sighted := h.sighted
    resolved := fun k i hk => hle.resolveFrame (h.resolved k i hk) }

theorem Frames.functionName_addFunction (h : Frames c seen D) (name : String) :
    Dictionary.functionName
        { D with functionNames := D.functionNames ++ [⟨c.nextFunctionId, name⟩] }
      c.nextFunctionId = some name := by
  unfold Dictionary.functionName
  rw [h.functions.find?_concat rfl, Option.map_some]

theorem Frames.addMapping (h : Frames c seen D) (hc : c.fakeMappingId = none) {m : Mapping}
    (hm : m.iid = fakeMappingId) {b : InternedString} (hb : b.iid = 1) (n : ℕ) :
    Frames { c with fakeMappingId := some fakeMappingId, nextMappingId := n } seen
      { D with mappings := D.mappings ++ [m], buildIds := D.buildIds ++ [b] } := by
  have hle : D.Le { D with mappings := D.mappings ++ [m], buildIds := D.buildIds ++ [b] } :=
    ⟨List.prefix_rfl, List.prefix_rfl, List.prefix_append _ _⟩
  exact {
    functions := h.functions
    frames := h.frames
    unknown := fun u hu => hle.functionName (h.unknown u hu)
    mappings := by simp [List.map_append, h.mappings, hc, hm]
    buildIds := by simp [List.map_append, h.buildIds, hc, hb]
    closed := fun f hf => hle.closes (h.closed f hf)
    sighted := h.sighted
    resolved := fun k i hk => hle.resolveFrame (h.resolved k i hk) }

theorem Frames.addUnknown (h : Frames c seen D) :
    Frames { c with
        nextFunctionId := c.nextFunctionId + 1, unknownFunctionId := some c.nextFunctionId } seen
      { D with functionNames := D.functionNames ++ [⟨c.nextFunctionId, "<unknown>"⟩] } :=
  { h.addFunction "<unknown>" with
    unknown := by
      rintro u hu
      rw [← Option.some.inj hu]
      exact h.functionName_addFunction "<unknown>" }

theorem mem_functionNames_of_functionName {id : ℕ} {name : String}
    (h : D.functionName id = some name) : id ∈ D.functionNames.map InternedString.iid := by
  obtain ⟨f, hf, rfl⟩ := Option.map_eq_some_iff.mp h
  have hid : f.iid = id := by simpa using List.find?_some hf
  exact hid ▸ List.mem_map_of_mem (List.mem_of_find?_eq_some hf)

/-- A key seen for the first time gets a frame with the name of its symbol. -/
theorem Frames.addFrame (h : Frames c seen D) {k : Key} {fid : ℕ} {sym : Option String}
    (hk : c.pidFrameToSequence.ids k = none)
    (hf : D.functionName fid = some (sym.getD "<unknown>")) (hm : c.fakeMappingId.isSome) :
    Frames { c with pidFrameToSequence := c.pidFrameToSequence.add k } (seen ++ [(k, sym)])
      { D with frames := D.frames ++ [⟨c.pidFrameToSequence.next, fid, fakeMappingId, k.2⟩] } := by
  have hle : D.Le { D with
      frames := D.frames ++ [⟨c.pidFrameToSequence.next, fid, fakeMappingId, k.2⟩] } :=
    ⟨List.prefix_rfl, List.prefix_append _ _, List.prefix_rfl⟩
  have hunseen : seen.lookup k = none := by
    have hs := h.sighted k
    rw [hk] at hs
    simpa using hs.symm
  refine
    { functions := h.functions
      frames := h.frames.concat rfl
      unknown := fun u hu => hle.functionName (h.unknown u hu)
      mappings := h.mappings
      buildIds := h.buildIds
      closed := ?_
      sighted := ?_
      resolved := ?_ }
  · intro f hmem
    rcases List.mem_append.mp hmem with hold | hnew
    · exact hle.closes (h.closed f hold)
    · rw [List.mem_singleton.mp hnew]
      refine ⟨mem_functionNames_of_functionName hf, ?_⟩
      rw [h.mappings, if_pos hm]
      exact List.mem_singleton_self _
  · intro l
    rw [isSome_lookup_concat, ← h.sighted]
    by_cases hl : l = k
    · simp [hl]
    · simp [Interner.add_ids_of_ne _ hl, hl]
  · intro l i hli
    by_cases hl : l = k
    · subst hl
      obtain rfl : c.pidFrameToSequence.next = i := by simpa using hli
      have hfind := h.frames.find?_concat
        (x := ⟨c.pidFrameToSequence.next, fid, fakeMappingId, l.2⟩) rfl
      unfold Dictionary.resolveFrame
      rw [hfind, Option.bind_some, firstName_append_of_unseen hunseen, hle.functionName hf,
        Option.map_some]
    · rw [Interner.add_ids_of_ne _ hl] at hli
      exact hle.resolveFrame (h.resolved_append hli _)

end Frames

/-! ## The loops over the addresses -/

def Dictionary.withDraft (D : Dictionary) (d : Draft) : Dictionary where
  functionNames := D.functionNames ++ d.newFunctionNames
  frames := D.frames ++ d.newFrames
  callstacks := D.callstacks
  mappings := D.mappings ++ d.newMappings
  buildIds := D.buildIds ++ d.newBuildIds

/-- A draft `d` that was reached from `e` by coming to the keys `ks`. -/
structure Loop (D : Dictionary) (e d : Draft) (seen : List (Key × Option String))
    (ks : List Key) : Prop where
  frames : Frames d.cache seen (D.withDraft d)
  unknown : d.cache.unknownFunctionId.isSome
  mapping : d.cache.fakeMappingId.isSome
  ids : List.Forall₂ (fun k id => d.cache.pidFrameToSequence.ids k = some id) ks d.allFrameIds
  callstacks : d.cache.callstackHashToSequence = e.cache.callstackHashToSequence
  first : d.cache.isFirstInternedData = e.cache.isFirstInternedData
  mappings : d.newMappings = e.newMappings ∧ d.newBuildIds = e.newBuildIds
  next_le : e.cache.pidFrameToSequence.next ≤ d.cache.pidFrameToSequence.next
  -- a frame can only be new if its id is
  old : (d.newFrames = e.newFrames ∧ d.newFunctionNames = e.newFunctionNames) ∨
    ∃ id ∈ d.allFrameIds, e.cache.pidFrameToSequence.next ≤ id

section Loop
variable {D : Dictionary} {e d : Draft} {seen : List (Key × Option String)} {ks : List Key}

theorem internFrame_of_some {pid : ℤ} {a i : ℕ} (sym : Option String)
    (h : d.cache.pidFrameToSequence.ids (pid, a) = some i) :
    d.internFrame pid (sym, a) = { d with allFrameIds := d.allFrameIds ++ [i] } := by
  simp [Draft.internFrame, InternedCache.cachedFrame, InternedCache.reserveFrame,
    Interner.reserve_of_some h, h]

theorem internFrame_of_none {pid : ℤ} {a : ℕ} (sym : Option String)
    (h : d.cache.pidFrameToSequence.ids (pid, a) = none) :
    d.internFrame pid (sym, a) =
      let f := Draft.functionId { d with
        cache := { d.cache with pidFrameToSequence := d.cache.pidFrameToSequence.add (pid, a) }
        allFrameIds := d.allFrameIds ++ [d.cache.pidFrameToSequence.next] } sym
      { f.2 with newFrames :=
          f.2.newFrames ++ [⟨d.cache.pidFrameToSequence.next, f.1, fakeMappingId, a⟩] } := by
  simp [Draft.internFrame, InternedCache.cachedFrame, InternedCache.reserveFrame,
    Interner.reserve_of_none h, h]

/-- The function of a new frame has the name of its symbol. Reserving it touches neither the
frame table nor the ids found. -/
theorem exists_functionId (h : Frames d.cache seen (D.withDraft d))
    (hu : d.cache.unknownFunctionId.isSome) (sym : Option String) :
    ∃ fid n names,
      (∀ t ids, Draft.functionId { d with
          cache := { d.cache with pidFrameToSequence := t }, allFrameIds := ids } sym =
        (fid, { d with
          cache := { d.cache with pidFrameToSequence := t, nextFunctionId := n }
          allFrameIds := ids
          newFunctionNames := d.newFunctionNames ++ names })) ∧
      Frames { d.cache with nextFunctionId := n } seen { D.withDraft d with
        functionNames := (D.withDraft d).functionNames ++ names } ∧
      Dictionary.functionName { D.withDraft d with
        functionNames := (D.withDraft d).functionNames ++ names } fid =
          some (sym.getD "<unknown>") := by
  cases sym with
  | some name =>
    exact ⟨d.cache.nextFunctionId, d.cache.nextFunctionId + 1, [⟨d.cache.nextFunctionId, name⟩],
      fun t ids => rfl, h.addFunction name, h.functionName_addFunction name⟩
  | none =>
    obtain ⟨u, hu⟩ := Option.isSome_iff_exists.mp hu
    refine ⟨u, d.cache.nextFunctionId, [], ?_, ?_, ?_⟩
    · intro t ids
      simp [Draft.functionId, InternedCache.getOrCreateUnknownFunctionId, hu]
    · simpa using h
    · simpa using h.unknown u hu

/-- The ids found so far are kept when a key is added. -/
theorem forall₂_add {t : Interner Key} {k : Key} (hk : t.ids k = none) {ids : List ℕ}
    (h : List.Forall₂ (fun l id => t.ids l = some id) ks ids) :
    List.Forall₂ (fun l id => (t.add k).ids l = some id) (ks ++ [k]) (ids ++ [t.next]) := by
  have hold : List.Forall₂ (fun l id => (t.add k).ids l = some id) ks ids :=
    h.imp fun l id hl => Interner.ids_add_of_some hk hl
  exact List.rel_append hold (List.Forall₂.cons (t.add_ids_self k) List.Forall₂.nil)

theorem Loop.internFrame (h : Loop D e d seen ks) (pid : ℤ) (sym : Option String) (a : ℕ) :
    Loop D e (d.internFrame pid (sym, a)) (seen ++ [((pid, a), sym)]) (ks ++ [(pid, a)]) := by
  cases hk : d.cache.pidFrameToSequence.ids (pid, a) with
  | some i =>
    rw [internFrame_of_some sym hk]
    have hids := List.rel_append h.ids (List.Forall₂.cons hk List.Forall₂.nil)
    exact { h with
      frames := h.frames.addSighting (by rw [hk]; rfl) sym
      ids := hids
      old := by
        rcases h.old with hold | ⟨id, hid, hle⟩
        · exact Or.inl hold
        · exact Or.inr ⟨id, List.mem_append_left _ hid, hle⟩ }
  | none =>
    obtain ⟨fid, n, names, heq, hframes, hname⟩ := exists_functionId h.frames h.unknown sym
    rw [internFrame_of_none sym hk]
    simp only [heq]
    have hadd := hframes.addFrame hk hname h.mapping
    refine ⟨?_, h.unknown, h.mapping, forall₂_add hk h.ids, h.callstacks, h.first, h.mappings,
      Nat.le_succ_of_le h.next_le, Or.inr ⟨_, List.mem_append_right _ ?_, h.next_le⟩⟩
    · simpa only [Dictionary.withDraft, List.append_assoc] using hadd
    · exact List.mem_singleton_self _

/-- The loop over a list of addresses of one process. -/
theorem Loop.foldl (h : Loop D e d seen ks) (pid : ℤ) (l : List (Option String × ℕ)) :
    Loop D e (l.foldl (Draft.internFrame pid) d) (seen ++ l.map fun s => ((pid, s.2), s.1))
      (ks ++ l.map fun s => (pid, s.2)) := by
  induction l generalizing d seen ks with
  | nil => simpa using h
  | cons s l ih =>
    have hs := ih (h.internFrame pid s.1 s.2)
    simpa only [List.foldl_cons, List.map_cons, List.append_assoc, List.singleton_append] using hs

/-- What `data` starts from. -/
def Draft.start (c : InternedCache) : Draft :=
  (Draft.mk c [] [] [] [] []).declareUnknownFunction.declareFakeMapping

/-- The start of a call keeps the tables, and defines nothing if the unknown function and the
mapping are there. -/
structure Start (c : InternedCache) (e : Draft) : Prop where
  callstacks : e.cache.callstackHashToSequence = c.callstackHashToSequence
  table : e.cache.pidFrameToSequence = c.pidFrameToSequence
  first : e.cache.isFirstInternedData = c.isFirstInternedData
  newFrames : e.newFrames = []
  empty : c.unknownFunctionId.isSome → c.fakeMappingId.isSome →
    e.newFunctionNames = [] ∧ e.newMappings = [] ∧ e.newBuildIds = []

theorem Frames.declareUnknownFunction (h : Frames d.cache seen (D.withDraft d)) :
    Frames d.declareUnknownFunction.cache seen (D.withDraft d.declareUnknownFunction) := by
  cases hu : d.cache.unknownFunctionId with
  | some u => simpa [Draft.declareUnknownFunction, hu] using h
  | none =>
    simpa [Draft.declareUnknownFunction, InternedCache.getOrCreateUnknownFunctionId, hu,
      Dictionary.withDraft] using h.addUnknown

theorem Frames.declareFakeMapping (h : Frames d.cache seen (D.withDraft d)) :
    Frames d.declareFakeMapping.cache seen (D.withDraft d.declareFakeMapping) := by
  cases hm : d.cache.fakeMappingId with
  | some m => simpa [Draft.declareFakeMapping, hm] using h
  | none =>
    unfold Draft.declareFakeMapping
    rw [if_pos (by simp [hm])]
    have hadd := h.addMapping hm (m := ⟨fakeMappingId, 1, 0, 0, 0, 0x7fffffffffffffff, 0, []⟩)
      rfl (b := ⟨1, "unknown"⟩) rfl (fakeMappingId + 1)
    simpa [InternedCache.getOrCreateFakeMappingId, hm, Dictionary.withDraft] using hadd

theorem start_spec (c : InternedCache) :
    Start c (Draft.start c) ∧ (Draft.start c).allFrameIds = [] ∧
      (Draft.start c).cache.unknownFunctionId.isSome ∧
      (Draft.start c).cache.fakeMappingId.isSome := by
  cases hu : c.unknownFunctionId <;> cases hm : c.fakeMappingId <;>
    simp [Draft.start, Draft.declareUnknownFunction, Draft.declareFakeMapping,
      InternedCache.getOrCreateUnknownFunctionId, InternedCache.getOrCreateFakeMappingId,
      hu, hm] <;>
    constructor <;> simp [hu, hm]

theorem start_loop {c : InternedCache} (h : Frames c seen D) :
    Loop D (Draft.start c) (Draft.start c) seen [] := by
  obtain ⟨-, hids, hu, hm⟩ := start_spec c
  have h₀ : Frames (Draft.mk c [] [] [] [] []).cache seen
      (D.withDraft (Draft.mk c [] [] [] [] [])) := by
    simpa [Dictionary.withDraft] using h
  refine ⟨h₀.declareUnknownFunction.declareFakeMapping, hu, hm, ?_, rfl, rfl, ⟨rfl, rfl⟩,
    Nat.le_refl _, Or.inl ⟨rfl, rfl⟩⟩
  rw [hids]
  exact List.Forall₂.nil

/-- Both loops of `data`. -/
theorem draft_loop {c : InternedCache} (h : Frames c seen D) (i : Interned) :
    Loop D (Draft.start c) (i.draft c) (seen ++ i.sightings) (i.sightings.map Prod.fst) := by
  have hloop := ((start_loop h).foldl i.pid (i.userSymbols.zip i.userAddresses).reverse).foldl
    (-1) (i.kernelSymbols.zip i.kernelAddresses)
  simpa [Interned.draft, Interned.sightings, Function.comp_def, Draft.start] using hloop

end Loop

/-! ## Whole calls -/

def Dictionary.addData (D : Dictionary) : Option InternedData → Dictionary
  | none => D
  | some x =>
    { functionNames := D.functionNames ++ x.functionNames
      frames := D.frames ++ x.frames
      callstacks := D.callstacks ++ x.callstacks
      mappings := D.mappings ++ x.mappings
      buildIds := D.buildIds ++ x.buildIds }

/-- The cache agrees with the dictionary. `hashed` are the frame-id lists so far. -/
structure Inv (hash : List ℕ → ℕ) (c : InternedCache) (seen : List (Key × Option String))
    (D : Dictionary) (hashed : List (List ℕ)) : Prop where
  frames : Frames c seen D
  callstacks : Numbered Callstack.iid D.callstacks c.callstackHashToSequence.next
  known : ∀ h i, c.callstackHashToSequence.ids h = some i →
    ∃ s, D.callstacks.find? (fun s => s.iid == i) = some s ∧ hash s.frameIds = h ∧
      s.frameIds ∈ hashed ∧ ∀ id ∈ s.frameIds, id < c.pidFrameToSequence.next
  ready : ∀ h i, c.callstackHashToSequence.ids h = some i →
    c.unknownFunctionId.isSome ∧ c.fakeMappingId.isSome

section Data
variable {hash : List ℕ → ℕ} {c : InternedCache} {seen : List (Key × Option String)}
  {D : Dictionary} {hashed : List (List ℕ)} {i : Interned}

theorem data_of_new (h : (i.draft c).cache.cachedCallstack hash (i.draft c).allFrameIds = none) :
    i.data hash c =
      let d := i.draft c
      ((d.cache.callstackHashToSequence.next, some {
        functionNames := d.newFunctionNames
        frames := d.newFrames
        callstacks := [⟨d.cache.callstackHashToSequence.next, d.allFrameIds⟩]
        mappings := d.newMappings
        buildIds := d.newBuildIds
        continuation := !d.cache.isFirstInternedData }),
      { d.cache with
        callstackHashToSequence := d.cache.callstackHashToSequence.add (hash d.allFrameIds)
        isFirstInternedData := false }) := by
  unfold Interned.data
  simp only [h, Option.isNone_none, Bool.true_or, if_true]
  unfold InternedCache.cachedCallstack at h
  simp [InternedCache.reserveCallstack, InternedCache.takeIsFirstInternedData,
    Interner.reserve_of_none h]

theorem data_of_cached {id : ℕ}
    (h : (i.draft c).cache.cachedCallstack hash (i.draft c).allFrameIds = some id)
    (hnames : (i.draft c).newFunctionNames = []) (hframes : (i.draft c).newFrames = [])
    (hmappings : (i.draft c).newMappings = []) :
    i.data hash c = ((id, none), (i.draft c).cache) := by
  unfold Interned.data
  simp only [h, hnames, hframes, hmappings, Option.isNone_some, List.isEmpty_nil, Bool.not_true,
    Bool.or_self, Bool.false_eq_true, if_false]
  unfold InternedCache.cachedCallstack at h
  simp [InternedCache.reserveCallstack, Interner.reserve_of_some h]

theorem mapM_resolveFrame {t : Interner Key} {ks : List Key} {ids : List ℕ}
    (hids : List.Forall₂ (fun k id => t.ids k = some id) ks ids) {name : Key → String}
    (hD : ∀ k id, t.ids k = some id → D.resolveFrame id = some (k.2, name k)) :
    ids.mapM D.resolveFrame = some (ks.map fun k => (k.2, name k)) := by
  induction hids with
  | nil => rfl
  | cons hk _ ih => simp [List.mapM_cons, hD _ _ hk, ih]

theorem lt_of_mem_ids {t : Interner Key} {ks : List Key} {ids : List ℕ}
    (hids : List.Forall₂ (fun k id => t.ids k = some id) ks ids) : ∀ id ∈ ids, id < t.next := by
  induction hids with
  | nil => simp
  | cons hk _ ih => exact List.forall_mem_cons.mpr ⟨t.ids_lt _ _ hk, ih⟩

/-- A stack whose frame-id list was hashed before brings nothing new. -/
theorem Inv.nothing_new (h : Inv hash c seen D hashed) (i : Interned) {id : ℕ}
    (hcol : ∀ l ∈ hashed, hash l = hash (i.draft c).allFrameIds → l = (i.draft c).allFrameIds)
    (hid : (i.draft c).cache.cachedCallstack hash (i.draft c).allFrameIds = some id) :
    ((i.draft c).newFunctionNames = [] ∧ (i.draft c).newFrames = [] ∧
      (i.draft c).newMappings = [] ∧ (i.draft c).newBuildIds = []) ∧
    ∃ s, D.callstacks.find? (fun s => s.iid == id) = some s ∧
      s.frameIds = (i.draft c).allFrameIds := by
  have hstart := (start_spec c).1
  have hloop := draft_loop h.frames i
  unfold InternedCache.cachedCallstack at hid
  rw [hloop.callstacks, hstart.callstacks] at hid
  obtain ⟨s, hs, hhash, hmem, hlt⟩ := h.known _ _ hid
  have heq : s.frameIds = (i.draft c).allFrameIds := hcol _ hmem hhash
  obtain ⟨hu, hm⟩ := h.ready _ _ hid
  obtain ⟨hnames, hmappings, hbuilds⟩ := hstart.empty hu hm
  rcases hloop.old with ⟨hf, hn⟩ | ⟨id', hid', hle⟩
  · exact ⟨⟨hn.trans hnames, hf.trans hstart.newFrames, hloop.mappings.1.trans hmappings,
      hloop.mappings.2.trans hbuilds⟩, s, hs, heq⟩
  · have hold := hlt id' (heq ▸ hid')
    rw [hstart.table] at hle
    omega

/-- What a call does, given what held before it. -/
structure Outcome (hash : List ℕ → ℕ) (c : InternedCache) (seen : List (Key × Option String))
    (D : Dictionary) (hashed : List (List ℕ)) (i : Interned)
    (out : (ℕ × Option InternedData) × InternedCache) : Prop where
  inv : Inv hash out.2 (seen ++ i.sightings) (D.addData out.1.2)
    (hashed ++ [(i.draft c).allFrameIds])
  resolves : (D.addData out.1.2).resolve out.1.1 =
    some ((i.sightings.map Prod.fst).map fun k => (k.2, firstName (seen ++ i.sightings) k))
  continuation : ∀ x, out.1.2 = some x → x.continuation = !c.isFirstInternedData
  first : out.2.isFirstInternedData = (c.isFirstInternedData && out.1.2.isNone)

theorem callstacks_draft (h : Frames c seen D) (i : Interned) :
    (i.draft c).cache.callstackHashToSequence = c.callstackHashToSequence :=
  (draft_loop h i).callstacks.trans (start_spec c).1.callstacks

theorem first_draft (h : Frames c seen D) (i : Interned) :
    (i.draft c).cache.isFirstInternedData = c.isFirstInternedData :=
  (draft_loop h i).first.trans (start_spec c).1.first

/-- Earlier stacks keep their meaning while the frame table grows. -/
theorem Inv.stacks_draft (h : Inv hash c seen D hashed) (i : Interned) {k id : ℕ}
    (hid : c.callstackHashToSequence.ids k = some id) :
    ∃ s, D.callstacks.find? (fun s => s.iid == id) = some s ∧ hash s.frameIds = k ∧
      s.frameIds ∈ hashed ++ [(i.draft c).allFrameIds] ∧
      ∀ f ∈ s.frameIds, f < (i.draft c).cache.pidFrameToSequence.next := by
  obtain ⟨s, hs, hhash, hmem, hlt⟩ := h.known k id hid
  have hle := (draft_loop h.frames i).next_le
  rw [(start_spec c).1.table] at hle
  exact ⟨s, hs, hhash, List.mem_append_left _ hmem, fun f hf => Nat.lt_of_lt_of_le (hlt f hf) hle⟩

theorem Inv.data_cached (h : Inv hash c seen D hashed) (i : Interned) {id : ℕ}
    (hcol : ∀ l ∈ hashed, hash l = hash (i.draft c).allFrameIds → l = (i.draft c).allFrameIds)
    (hid : (i.draft c).cache.cachedCallstack hash (i.draft c).allFrameIds = some id) :
    Outcome hash c seen D hashed i (i.data hash c) := by
  obtain ⟨⟨hn, hf, hm, hb⟩, s, hs, hids⟩ := h.nothing_new i hcol hid
  have hloop := draft_loop h.frames i
  have hD : D.withDraft (i.draft c) = D := by
    simp [Dictionary.withDraft, hn, hf, hm, hb]
  have hframes := hloop.frames
  rw [hD] at hframes
  rw [data_of_cached hid hn hf hm]
  refine ⟨⟨hframes, ?_, ?_, fun _ _ _ => ⟨hloop.unknown, hloop.mapping⟩⟩, ?_, by simp, ?_⟩
  · rw [callstacks_draft h.frames i]
    exact h.callstacks
  · intro k id' hk
    rw [callstacks_draft h.frames i] at hk
    exact h.stacks_draft i hk
  · unfold Dictionary.resolve
    change (D.callstacks.find? fun s => s.iid == id).bind _ = _
    rw [hs, Option.bind_some, hids]
    exact mapM_resolveFrame hloop.ids hframes.resolved
  · simp [first_draft h.frames i]

theorem Inv.data_new (h : Inv hash c seen D hashed) (i : Interned)
    (hnew : (i.draft c).cache.cachedCallstack hash (i.draft c).allFrameIds = none) :
    Outcome hash c seen D hashed i (i.data hash c) := by
  have hloop := draft_loop h.frames i
  have hcs := callstacks_draft h.frames i
  have hnum : Numbered Callstack.iid
      (D.callstacks ++ [⟨c.callstackHashToSequence.next, (i.draft c).allFrameIds⟩])
      (c.callstackHashToSequence.next + 1) := h.callstacks.concat rfl
  have hfind := h.callstacks.find?_concat
    (x := ⟨c.callstackHashToSequence.next, (i.draft c).allFrameIds⟩) rfl
  unfold InternedCache.cachedCallstack at hnew
  rw [data_of_new hnew]
  simp only [hcs]
  refine ⟨⟨?_, hnum, ?_, fun _ _ _ => ⟨hloop.unknown, hloop.mapping⟩⟩, ?_, ?_, ?_⟩
  · exact ⟨hloop.frames.functions, hloop.frames.frames, hloop.frames.unknown,
      hloop.frames.mappings, hloop.frames.buildIds, hloop.frames.closed, hloop.frames.sighted,
      hloop.frames.resolved⟩
  · intro k id hk
    by_cases hkey : k = hash (i.draft c).allFrameIds
    · subst hkey
      obtain rfl : c.callstackHashToSequence.next = id := by simpa using hk
      exact ⟨_, hfind, rfl, List.mem_append_right _ (List.mem_singleton_self _),
        lt_of_mem_ids hloop.ids⟩
    · change (c.callstackHashToSequence.add _).ids k = some id at hk
      rw [Interner.add_ids_of_ne _ hkey] at hk
      obtain ⟨s, hs, hrest⟩ := h.stacks_draft i hk
      exact ⟨s, find?_append_of_some hs _, hrest⟩
  · unfold Dictionary.resolve
    refine (congrArg (fun o => Option.bind o _) hfind).trans ?_
    exact mapM_resolveFrame hloop.ids hloop.frames.resolved
  · intro x hx
    cases hx
    rw [first_draft h.frames i]
  · simp

theorem Inv.data (h : Inv hash c seen D hashed) (i : Interned)
    (hcol : ∀ l ∈ hashed, hash l = hash (i.draft c).allFrameIds → l = (i.draft c).allFrameIds) :
    Outcome hash c seen D hashed i (i.data hash c) := by
  cases hid : (i.draft c).cache.cachedCallstack hash (i.draft c).allFrameIds with
  | none => exact h.data_new i hid
  | some id => exact h.data_cached i hcol hid

end Data

section Symbolize
variable {r : Request} {i : Interned}

theorem blazesym_length {addresses : List ℕ} {result : Except String (List (Option String))}
    {syms : List (Option String)}
    (hone : ∀ syms, result = .ok syms → syms.length = addresses.length)
    (h : blazesym addresses result = .ok syms) : syms.length = addresses.length := by
  unfold blazesym at h
  split_ifs at h with hempty
  · cases h
    rw [List.isEmpty_iff.mp hempty]
    rfl
  · cases result with
    | error e => cases h
    | ok l =>
      cases h
      exact hone _ rfl

theorem symbolize_ok (h : symbolize r = .ok i) :
    ∃ us ks, blazesym r.userAddresses r.userResult = .ok us ∧
      blazesym r.kernelAddresses r.kernelResult = .ok ks ∧
      i = ⟨r.pid, r.userAddresses, r.kernelAddresses, us, ks⟩ := by
  unfold symbolize at h
  split_ifs at h
  cases hu : blazesym r.userAddresses r.userResult with
  | error e => simp [hu, bind, Except.bind] at h
  | ok us =>
    cases hk : blazesym r.kernelAddresses r.kernelResult with
    | error e => simp [hu, hk, bind, Except.bind] at h
    | ok ks =>
      simp only [hu, hk, bind, Except.bind] at h
      split_ifs at h
      exact ⟨us, ks, rfl, rfl, (Except.ok.inj h).symm⟩

theorem blazesym_ok_iff (addresses : List ℕ) (result : Except String (List (Option String))) :
    (∃ syms, blazesym addresses result = .ok syms) ↔
      (addresses ≠ [] → ∃ syms, result = .ok syms) := by
  cases addresses with
  | nil => simp [blazesym]
  | cons a as => cases result <;> simp [blazesym, Except.mapError]

/-- A stack is symbolized exactly if it has an address and blazesym does not fail. -/
theorem symbolize_ok_iff (hone : r.OnePerAddress) :
    (∃ i, symbolize r = .ok i) ↔ r.Answerable := by
  unfold Request.Answerable
  rw [← blazesym_ok_iff, ← blazesym_ok_iff]
  constructor
  · rintro ⟨i, hi⟩
    obtain ⟨us, ks, hu, hk, -⟩ := symbolize_ok hi
    refine ⟨?_, ⟨us, hu⟩, ⟨ks, hk⟩⟩
    by_contra hempty
    obtain ⟨hue, hke⟩ : r.userAddresses = [] ∧ r.kernelAddresses = [] := by
      simpa [not_or] using hempty
    simp [symbolize, hue, hke] at hi
  · rintro ⟨hsome, ⟨us, hu⟩, ks, hk⟩
    have hul := blazesym_length hone.1 hu
    have hkl := blazesym_length hone.2 hk
    -- one symbol for each address: the answers are not both empty either
    have hsyms : (us.isEmpty && ks.isEmpty) = false := by
      rw [Bool.and_eq_false_iff]
      simp only [List.isEmpty_eq_false_iff, ← List.length_pos_iff] at hsome ⊢
      omega
    have haddresses : (r.userAddresses.isEmpty && r.kernelAddresses.isEmpty) = false := by
      rw [Bool.and_eq_false_iff]
      simpa using hsome
    refine ⟨⟨r.pid, r.userAddresses, r.kernelAddresses, us, ks⟩, ?_⟩
    simp [symbolize, haddresses, hu, hk, hsyms, bind, Except.bind]

theorem map_zip_key {us : List (Option String)} {as : List ℕ} (h : us.length = as.length)
    (pid : ℤ) : (us.zip as).map (fun s => (pid, s.2)) = as.map fun a => (pid, a) := by
  have hsnd : (us.zip as).map Prod.snd = as := List.map_snd_zip (Nat.le_of_eq h.symm)
  conv_rhs => rw [← hsnd]
  rw [List.map_map]
  rfl

/-- The loops come to the keys of the request in its order. -/
theorem keys_of_sightings (h : symbolize r = .ok i) (hone : r.OnePerAddress) :
    i.sightings.map Prod.fst = r.keys := by
  obtain ⟨us, ks, hu, hk, rfl⟩ := symbolize_ok h
  have hul := blazesym_length hone.1 hu
  have hkl := blazesym_length hone.2 hk
  simp only [Interned.sightings, Request.keys, List.map_append, List.map_map, List.map_reverse,
    Function.comp_def, map_zip_key hul, map_zip_key hkl]

theorem sightings_concat (rs : List Request) (h : symbolize r = .ok i) :
    (rs ++ [r]).flatMap Request.sightings = rs.flatMap Request.sightings ++ i.sightings := by
  simp [Request.sightings, h]

end Symbolize

/-! ## Runs -/

section Run
variable {hash : List ℕ → ℕ} {os os' : List (Except SymbolizerError Answer)}

theorem dictionary_emitted_ok (os : List (Except SymbolizerError Answer)) (a : Answer) :
    dictionary (emitted (os ++ [.ok a])) = (dictionary (emitted os)).addData a.data := by
  unfold emitted answers
  cases ha : a.data <;>
    simp [List.filterMap_append, Except.toOption, ha, dictionary, Dictionary.addData]

theorem emitted_error (os : List (Except SymbolizerError Answer)) (e : SymbolizerError) :
    emitted (os ++ [.error e]) = emitted os := by
  simp [emitted, answers, List.filterMap_append, Except.toOption]

theorem NoCollision.of_append (h : NoCollision hash (os ++ os')) : NoCollision hash os := by
  intro a ha b hb
  have hsub : ∀ x ∈ answers os, x ∈ answers (os ++ os') := by
    intro x hx
    rw [answers, List.filterMap_append]
    exact List.mem_append_left _ hx
  exact h a (hsub a ha) b (hsub b hb)

/-- What holds after the requests `rs` with the outputs `os`. -/
structure Run (hash : List ℕ → ℕ) (c : InternedCache) (rs : List Request)
    (os : List (Except SymbolizerError Answer)) : Prop where
  inv : Inv hash c (rs.flatMap Request.sightings) (dictionary (emitted os))
    ((answers os).map Answer.frameIds)
  first : c.isFirstInternedData = (emitted os).isEmpty
  continuation : ∀ i d, (emitted os)[i]? = some d → (d.continuation = false ↔ i = 0)
  closed : ∀ pre d post, emitted os = pre ++ d :: post →
    ∀ f ∈ d.frames, (dictionary (pre ++ [d])).Closes f

theorem run_new (hash : List ℕ → ℕ) : Run hash .new [] [] where
  inv := by
    refine ⟨⟨numbered_nil _ _, numbered_nil _ _, ?_, ?_, ?_, ?_, ?_, ?_⟩, numbered_nil _ _,
      ?_, ?_⟩ <;>
      simp [InternedCache.new, Interner.empty, dictionary, emitted, answers]
  first := rfl
  continuation := by simp [emitted, answers]
  closed := by simp [emitted, answers]

variable {c : InternedCache} {rs : List Request} {r : Request}

theorem Run.error (h : Run hash c rs os) {e : SymbolizerError} (hr : symbolize r = .error e) :
    Run hash c (rs ++ [r]) (os ++ [.error e]) := by
  have hans : answers (os ++ [.error e]) = answers os := by
    simp [answers, List.filterMap_append, Except.toOption]
  have hseen : (rs ++ [r]).flatMap Request.sightings = rs.flatMap Request.sightings := by
    simp [Request.sightings, hr]
  refine ⟨?_, ?_, ?_, ?_⟩
  · rw [hans, hseen, emitted_error]
    exact h.inv
  · rw [emitted_error]
    exact h.first
  · rw [emitted_error]
    exact h.continuation
  · rw [emitted_error]
    exact h.closed

theorem continuation_concat {ds : List InternedData} {x : InternedData}
    (h : ∀ i d, ds[i]? = some d → (d.continuation = false ↔ i = 0))
    (hx : x.continuation = !ds.isEmpty) :
    ∀ i d, (ds ++ [x])[i]? = some d → (d.continuation = false ↔ i = 0) := by
  intro i d hd
  rcases Nat.lt_or_ge i ds.length with hlt | hge
  · rw [List.getElem?_append_left hlt] at hd
    exact h i d hd
  · rw [List.getElem?_append_right hge] at hd
    obtain ⟨hi, hdx⟩ : i - ds.length = 0 ∧ x = d := by simpa [List.getElem?_singleton] using hd
    have hlen : i = ds.length := by omega
    rw [← hdx, hx, hlen]
    simp

/-- The list of this call does not collide with an earlier one. -/
theorem NoCollision.fresh {a : Answer} (h : NoCollision hash (os ++ [.ok a])) :
    ∀ l ∈ (answers os).map Answer.frameIds, hash l = hash a.frameIds → l = a.frameIds := by
  intro l hl hhash
  obtain ⟨b, hb, rfl⟩ := List.mem_map.mp hl
  refine h b ?_ a ?_ hhash <;>
    simp [answers, List.filterMap_append, Except.toOption] at hb ⊢
  exact Or.inl hb

theorem Run.ok (h : Run hash c rs os) {i : Interned} (hr : symbolize r = .ok i)
    (hcol : NoCollision hash (os ++ [.ok (i.answer hash c)])) :
    Run hash (i.data hash c).2 (rs ++ [r]) (os ++ [.ok (i.answer hash c)]) := by
  have hout := h.inv.data i hcol.fresh
  have hseen := sightings_concat rs hr
  have hans : answers (os ++ [.ok (i.answer hash c)]) = answers os ++ [i.answer hash c] := by
    simp [answers, List.filterMap_append, Except.toOption]
  have hem : emitted (os ++ [.ok (i.answer hash c)]) =
      emitted os ++ (i.data hash c).1.2.toList := by
    rw [emitted, hans, List.filterMap_append]
    cases hd : (i.data hash c).1.2 <;> simp [emitted, Interned.answer, hd]
  have hinv : Inv hash (i.data hash c).2 ((rs ++ [r]).flatMap Request.sightings)
      (dictionary (emitted (os ++ [.ok (i.answer hash c)])))
      ((answers (os ++ [.ok (i.answer hash c)])).map Answer.frameIds) := by
    rw [hseen, dictionary_emitted_ok, hans, List.map_append]
    exact hout.inv
  have hclosed := hinv.frames.closed
  have hfirst := hout.first
  rw [h.first] at hfirst
  cases hd : (i.data hash c).1.2 with
  | none =>
    rw [hd, Option.toList_none, List.append_nil] at hem
    refine ⟨hinv, ?_, ?_, ?_⟩ <;> rw [hem]
    · simpa [hd] using hfirst
    · exact h.continuation
    · exact h.closed
  | some x =>
    rw [hd, Option.toList_some] at hem
    rw [hem] at hclosed
    refine ⟨hinv, ?_, ?_, ?_⟩ <;> rw [hem]
    · rw [hfirst, hd]
      simp
    · have hx := hout.continuation x hd
      rw [h.first] at hx
      exact continuation_concat h.continuation hx
    · refine forall_split_concat h.closed fun f hf => hclosed f ?_
      simp [dictionary, hf]

theorem run_inv (hash : List ℕ → ℕ) (rs : List Request)
    (hcol : NoCollision hash ((symbolizer hash).outputs .new rs)) :
    Run hash ((symbolizer hash).final .new rs) rs ((symbolizer hash).outputs .new rs) := by
  induction rs using List.reverseRecOn with
  | nil => exact run_new hash
  | append_singleton rs r ih =>
    rw [Machine.outputs_append] at hcol ⊢
    rw [Machine.final_append]
    have h := ih hcol.of_append
    simp only [Machine.outputs_cons, Machine.outputs_nil, Machine.final_cons, Machine.final_nil,
      List.append_nil] at hcol ⊢
    cases hr : symbolize r with
    | error e =>
      rw [step_error _ hr]
      exact h.error hr
    | ok i =>
      rw [step_ok _ hr] at hcol ⊢
      exact h.ok hr hcol

/-- What a reader of the trace can rely on. -/
structure StacksResolve (hash : List ℕ → ℕ) (rs : List Request) : Prop where
  continuation : ∀ i d, (emitted ((symbolizer hash).outputs .new rs))[i]? = some d →
    (d.continuation = false ↔ i = 0)
  functionNames : ((dictionary (emitted ((symbolizer hash).outputs .new rs))).functionNames.map
    InternedString.iid).Nodup
  frames : ((dictionary (emitted ((symbolizer hash).outputs .new rs))).frames.map Frame.iid).Nodup
  callstacks : ((dictionary (emitted ((symbolizer hash).outputs .new rs))).callstacks.map
    Callstack.iid).Nodup
  mappings : ((dictionary (emitted ((symbolizer hash).outputs .new rs))).mappings.map
    Mapping.iid).Nodup
  buildIds : ((dictionary (emitted ((symbolizer hash).outputs .new rs))).buildIds.map
    InternedString.iid).Nodup
  closed : ∀ pre d post, emitted ((symbolizer hash).outputs .new rs) = pre ++ d :: post →
    ∀ f ∈ d.frames, (dictionary (pre ++ [d])).Closes f
  resolves : ∀ pre r post, rs = pre ++ r :: post → ∀ a,
    .ok a ∈ ((symbolizer hash).step ((symbolizer hash).final .new pre) r).2 →
    ∃ stack, (dictionary (emitted ((symbolizer hash).outputs .new (pre ++ [r])))).resolve
        a.callstackId = some stack ∧
      stack.map Prod.fst = r.userAddresses.reverse ++ r.kernelAddresses ∧
      stack.map Prod.snd =
        r.keys.map (firstName ((pre ++ [r]).flatMap Request.sightings))
  answered : ∀ pre r post, rs = pre ++ r :: post →
    (r.Answerable ↔
      ∃ a, ((symbolizer hash).step ((symbolizer hash).final .new pre) r).2 = [.ok a])

theorem answered_iff (hone : r.OnePerAddress) :
    r.Answerable ↔ ∃ a, ((symbolizer hash).step c r).2 = [.ok a] := by
  rw [← symbolize_ok_iff hone]
  cases hr : symbolize r with
  | error e => simp [step_error _ hr]
  | ok i => simp [step_ok _ hr]

/-- The last call of a run returns an id that resolves. -/
theorem resolves_last {pre : List Request} (hone : r.OnePerAddress)
    (hcol : NoCollision hash ((symbolizer hash).outputs .new (pre ++ [r]))) {a : Answer}
    (ha : .ok a ∈ ((symbolizer hash).step ((symbolizer hash).final .new pre) r).2) :
    (dictionary (emitted ((symbolizer hash).outputs .new (pre ++ [r])))).resolve a.callstackId =
      some (r.keys.map fun k =>
        (k.2, firstName ((pre ++ [r]).flatMap Request.sightings) k)) := by
  rw [Machine.outputs_append] at hcol ⊢
  have hrun := run_inv hash pre hcol.of_append
  simp only [Machine.outputs_cons, Machine.outputs_nil, List.append_nil] at hcol ⊢
  cases hr : symbolize r with
  | error e => simp [step_error _ hr] at ha
  | ok i =>
    rw [step_ok _ hr] at ha hcol ⊢
    obtain rfl : a = i.answer hash _ := by simpa using ha
    have hout := hrun.inv.data i hcol.fresh
    rw [dictionary_emitted_ok, ← keys_of_sightings hr hone, sightings_concat pre hr]
    exact hout.resolves

theorem stacks_resolve (hash : List ℕ → ℕ) (rs : List Request)
    (hone : ∀ r ∈ rs, r.OnePerAddress)
    (hcol : NoCollision hash ((symbolizer hash).outputs .new rs)) : StacksResolve hash rs := by
  have hrun := run_inv hash rs hcol
  have hframes := hrun.inv.frames
  refine ⟨hrun.continuation, hframes.functions.nodup, hframes.frames.nodup,
    hrun.inv.callstacks.nodup, ?_, ?_, hrun.closed, ?_, ?_⟩
  · rw [hframes.mappings]
    split_ifs <;> simp
  · rw [hframes.buildIds]
    split_ifs <;> simp
  · rintro pre r post rfl a ha
    rw [List.append_cons, Machine.outputs_append] at hcol
    have hlast := resolves_last (hone r (by simp)) hcol.of_append ha
    refine ⟨_, hlast, ?_, ?_⟩ <;> simp [Request.keys, Function.comp_def]
  · rintro pre r post rfl
    exact answered_iff (hone r (by simp))

/-- Two stacks of one process: the second meets a frame of the first again, has one without
a symbol, and one address twice. -/
def sampledStacks : List Request :=
  [⟨5, [16, 32], [255], .ok [some "leaf", some "main"], .ok [some "entry"]⟩,
    ⟨5, [48, 48, 32], [], .ok [none, none, some "main"], .ok []⟩]

/-- A hash without collision on the stacks of the run. -/
def sampledHash (l : List ℕ) : ℕ := l.foldl (fun h x => 31 * h + x) 7

theorem stacks_resolve_sampledStacks :
    StacksResolve sampledHash sampledStacks ∧
      (answers ((symbolizer sampledHash).outputs .new sampledStacks)).map (fun a =>
        (a.callstackId,
          (dictionary (emitted ((symbolizer sampledHash).outputs .new sampledStacks))).resolve
            a.callstackId)) =
        [(0, some [(32, "main"), (16, "leaf"), (255, "entry")]),
          (1, some [(32, "main"), (48, "<unknown>"), (48, "<unknown>")])] := by
  refine ⟨stacks_resolve _ sampledStacks ?_ ?_, by decide +kernel⟩
  · simp [sampledStacks, Request.OnePerAddress]
  · unfold NoCollision
    decide

end Run
end Manytrace.Symbolizer
