import Manytrace.Converter.Rendering

/-!
The descriptors of counters, custom and cpu tracks: each has exactly one, from the first event
that declares it.
-/

namespace Manytrace.Converter

open Manytrace.Core Manytrace.Protocol

/-- The descriptor that an event leads to when the tracks `known` exist. -/
def describes (map : TrackId → Option ℕ) (id : TrackId) (known : List TrackId) :
    Event → List TrackDescriptor
  | .track t =>
    if t.trackType.toId = id ∧ id ∉ known then
      [describe t (parentUuid (fun p => p ∈ known) map t) ((map id).getD 0)]
    else []
  | _ => []

def described (map : TrackId → Option ℕ) (id : TrackId) (known : List TrackId) :
    List Event → List TrackDescriptor
  | [] => []
  | e :: es => describes map id known e ++ described map id (known ++ created known e) es

/-- A parent that exists, or needs no declaration, exists with the track. -/
theorem parent_mem_created {known : List TrackId} {track : Track}
    (hnew : track.trackType.toId ∉ known) {p : TrackType} (hp : track.parent = some p)
    (hk : (decide (p.toId ∈ known) || !isOther p.toId) = true) :
    p.toId ∈ known ++ created known (.track track) := by
  rcases (Bool.or_eq_true _ _).mp hk with hin | hother
  · exact List.mem_append_left _ (of_decide_eq_true hin)
  · apply List.mem_append_right
    simp only [created, if_neg hnew, hp, impliedParent, List.mem_append]
    left; left
    cases p with
    | thread tid pid => simp [TrackType.toId, implied]
    | process pid => simp [TrackType.toId, implied]
    | _ => simp [TrackType.toId, isOther] at hother

/-- The uuid of the parent does not depend on what comes after the track. -/
theorem parentUuid_later {c t : PerfettoConverter} {known : List TrackId} (hl : Lists known c)
    {track : Track} (hnew : track.trackType.toId ∉ known)
    (hkeys : ∀ id, id ∈ known ++ created known (.track track) → (t.trackMap id).isSome)
    {map : TrackId → Option ℕ} (hmap : ∀ id u, t.trackMap id = some u → map id = some u) :
    parentUuid (fun id => (c.trackMap id).isSome) t.trackMap track =
      parentUuid (fun p => p ∈ known) map track := by
  unfold parentUuid
  cases hp : track.parent with
  | none => rfl
  | some p =>
    have hsame : (c.trackMap p.toId).isSome = decide (p.toId ∈ known) := by
      rw [Bool.eq_iff_iff, decide_eq_true_iff, hl p.toId]
    simp only [hsame]
    by_cases hk : (decide (p.toId ∈ known) || !isOther p.toId) = true
    · obtain ⟨u, hu⟩ := Option.isSome_iff_exists.mp (hkeys _ (parent_mem_created hnew hp hk))
      rw [if_pos hk, if_pos hk, hu, hmap _ u hu]
    · rw [if_neg hk, if_neg hk]

section Runs
variable (io : ℕ → Bool) {id : TrackId}

/-- The descriptors of one conversion that succeeds, with any later map. -/
theorem step_described {c : PerfettoConverter} {known : List TrackId} (hl : Lists known c)
    (hn : Nested c) (hid : isOther id = true) (m : Message)
    (hok : (convertEvent io m.event m.streamId c).1 = .ok ()) {map : TrackId → Option ℕ}
    (hmap : ∀ id u, (convertEvent io m.event m.streamId c).2.trackMap id = some u →
      map id = some u) :
    descriptors (convertEvent io m.event m.streamId c).2 id =
      descriptors c id ++ describes map id known m.event := by
  obtain ⟨event, streamId⟩ := m
  have hext := (convertEvent_extends io c event streamId).ok hok
  have hadds := (convertEvent_adds io hl hn event streamId).ok hok
  rw [hext.descriptors id hid]
  cases event with
  | track track =>
    congr 1
    simp only [saidBy, describes]
    have hiff : c.trackMap id = none ↔ id ∉ known := by
      rw [hl id, Option.not_isSome_iff_eq_none]
    by_cases hnew : track.trackType.toId = id ∧ id ∉ known
    · have hkeys : ∀ id, id ∈ known ++ created known (.track track) →
          ((convertEvent io (.track track) streamId c).2.trackMap id).isSome := by
        intro id' hid'
        rw [hadds.keys id', ← hl id', ← List.mem_append]
        exact hid'
      obtain ⟨rfl, hnot⟩ := hnew
      have hmem : track.trackType.toId ∈ known ++ created known (.track track) := by
        simp [created, hnot]
      obtain ⟨u, hu⟩ := Option.isSome_iff_exists.mp (hkeys _ hmem)
      rw [if_pos ⟨rfl, hiff.mpr hnot⟩, if_pos ⟨rfl, hnot⟩,
        parentUuid_later hl hnot hkeys hmap, hu, hmap _ u hu]
    · rw [if_neg hnew, if_neg (by rwa [hiff])]
  | _ => rfl

theorem run_described {c : PerfettoConverter} {known : List TrackId} (hl : Lists known c)
    (hn : Nested c) (hid : isOther id = true) (messages : List Message)
    (hok : ∀ r ∈ (converter io).outputs c messages, r = .ok ()) :
    descriptors ((converter io).final c messages) id = descriptors c id ++
      described ((converter io).final c messages).trackMap id known
        (messages.map fun m => m.event) := by
  induction messages generalizing c known with
  | nil => simp [described]
  | cons m messages ih =>
    have hfirst : (convertEvent io m.event m.streamId c).1 = .ok () :=
      hok _ (by simp [converter])
    obtain ⟨hl', hn'⟩ := step_lists io hl hn m hfirst
    have hrest := ih hl' hn' fun r hr => hok r (by
      rw [Machine.outputs_cons]
      exact List.mem_append_right _ hr)
    have hstep := step_described io hl hn hid m hfirst
      fun id u hu => final_keeps io ((converter io).step c m).1 messages hu
    change descriptors ((converter io).step c m).1 id = _ at hstep
    rw [Machine.final_cons, hrest, hstep, List.append_assoc]
    rfl

end Runs

section Declared
variable {map : TrackId → Option ℕ} {id : TrackId}

theorem described_of_known {known : List TrackId} (h : id ∈ known) (es : List Event) :
    described map id known es = [] := by
  induction es generalizing known with
  | nil => rfl
  | cons e es ih =>
    have hfirst : describes map id known e = [] := by
      cases e with
      | track t => exact if_neg fun hnew => hnew.2 h
      | _ => rfl
    rw [described, hfirst, ih (List.mem_append_left _ h)]
    rfl

/-- Only a declaration brings such a track into being. -/
theorem mem_created_iff (hid : isOther id = true) (known : List TrackId) (e : Event) :
    id ∈ known ++ created known e ↔ id ∈ known ∨ (nameFor id e).isSome := by
  have himplied : ∀ p : TrackId, id ∉ implied p := by
    intro p hp
    cases p <;> simp [implied] at hp
    · rcases hp with rfl | rfl <;> cases hid
    · subst hp
      cases hid
  rw [List.mem_append]
  cases e with
  | track t =>
    have hparent : id ∉ impliedParent t.parent := by
      cases t.parent with
      | none => simp [impliedParent]
      | some p => exact himplied p.toId
    by_cases hk : t.trackType.toId ∈ known
    · by_cases ht : t.trackType.toId = id
      · subst ht
        simp [hk]
      · simp [created, nameFor, hk, ht]
    · by_cases ht : t.trackType.toId = id
      · subst ht
        simp [created, nameFor, hk]
      · simp [created, nameFor, hk, hparent, himplied, ht, Ne.symm ht]
  | span s => simp [created, nameFor, himplied]
  | instant i => simp [created, nameFor, himplied]
  | _ => simp [created, nameFor]

theorem described_append_of_undeclared {known : List TrackId} {es : List Event}
    (h : ∀ e ∈ es, nameFor id e = none) (fs : List Event) :
    described map id known (es ++ fs) =
      described map id (es.foldl (fun known e => known ++ created known e) known) fs := by
  induction es generalizing known with
  | nil => rfl
  | cons e es ih =>
    have hfirst : describes map id known e = [] := by
      cases e with
      | track t =>
        have hne : t.trackType.toId ≠ id := by simpa [nameFor] using h _ List.mem_cons_self
        exact if_neg fun hnew => hne hnew.1
      | _ => rfl
    rw [List.cons_append, described, hfirst, List.nil_append,
      ih fun f hf => h f (List.mem_cons_of_mem e hf), List.foldl_cons]

theorem not_mem_announced (hid : isOther id = true) {es : List Event}
    (h : ∀ e ∈ es, nameFor id e = none) : id ∉ announced es := by
  have hfold : ∀ known, id ∉ known →
      id ∉ es.foldl (fun known e => known ++ created known e) known := by
    induction es with
    | nil => exact fun _ hk => hk
    | cons e es ih =>
      intro known hk
      apply ih fun f hf => h f (List.mem_cons_of_mem e hf)
      rw [mem_created_iff hid, h e List.mem_cons_self]
      simpa using hk
  exact hfold [] (by simp)

/-- The first declaration decides alone. -/
theorem described_first (hid : isOther id = true) {pre : List Event} {t : Track}
    (hpre : ∀ e ∈ pre, nameFor id e = none) (ht : t.trackType.toId = id) (post : List Event) :
    described map id [] (pre ++ .track t :: post) =
      [describe t (parentUuid (fun p => p ∈ announced pre) map t) ((map id).getD 0)] := by
  have hnew : id ∉ announced pre := not_mem_announced hid hpre
  have hknown : id ∈ announced pre ++ created (announced pre) (.track t) := by
    rw [mem_created_iff hid]
    simp [nameFor, ht]
  rw [described_append_of_undeclared hpre]
  change described map id (announced pre) (.track t :: post) = _
  rw [described, described_of_known hknown, describes, if_pos ⟨ht, hnew⟩, List.append_nil]

end Declared

/-- The tracks that exist are those that the events have announced. -/
theorem mapped_iff (io : ℕ → Bool) (messages : List Message)
    (hok : ∀ r ∈ (converter io).outputs .new messages, r = .ok ()) (id : TrackId) :
    (((converter io).final .new messages).trackMap id).isSome ↔
      id ∈ announced (messages.map fun m => m.event) :=
  (run_lists io lists_new nested_new messages hok id).symm

theorem announced_append (es fs : List Event) :
    announced (es ++ fs) = fs.foldl (fun known e => known ++ created known e) (announced es) :=
  List.foldl_append

/-- A track that has been announced stays. -/
theorem mem_foldl_created {id : TrackId} (es : List Event) {known : List TrackId}
    (h : id ∈ known) : id ∈ es.foldl (fun known e => known ++ created known e) known := by
  induction es generalizing known with
  | nil => exact h
  | cons e es ih => exact ih (List.mem_append_left _ h)

theorem mem_announced_of_mem {id : TrackId} {e : Event} (pre post : List Event)
    (h : id ∈ announced pre ++ created (announced pre) e) :
    id ∈ announced (pre ++ e :: post) := by
  rw [announced_append, List.foldl_cons]
  exact mem_foldl_created post h

theorem descriptors_run (io : ℕ → Bool) (messages : List Message)
    (hok : ∀ r ∈ (converter io).outputs .new messages, r = .ok ()) {id : TrackId}
    (hid : isOther id = true) :
    descriptors ((converter io).final .new messages) id =
      described ((converter io).final .new messages).trackMap id []
        (messages.map fun m => m.event) :=
  run_described io lists_new nested_new hid messages hok

/-- If all writes succeed, a counter, custom or cpu track that is ever declared has one
descriptor in the trace: with the name, unit and parent of its first declaration, however often
and however differently it is declared again. A parent that is no thread or process and is
declared later is left out. -/
theorem first_declaration_stands (io : ℕ → Bool) (pre post : List Message) (t : Track)
    (streamId : Option ℕ) (hid : isOther t.trackType.toId = true)
    (hok : ∀ r ∈ (converter io).outputs .new (pre ++ ⟨.track t, streamId⟩ :: post), r = .ok ())
    (hpre : ∀ m ∈ pre, nameFor t.trackType.toId m.event = none) :
    let c := (converter io).final .new (pre ++ ⟨.track t, streamId⟩ :: post)
    let known := announced (pre.map fun m => m.event)
    ∃ u, c.trackMap t.trackType.toId = some u ∧ descriptors c t.trackType.toId =
      [describe t (parentUuid (fun p => p ∈ known) c.trackMap t) u] := by
  intro c known
  have hundeclared : ∀ e ∈ pre.map (fun m => m.event), nameFor t.trackType.toId e = none := by
    simpa using hpre
  have hmapped : (c.trackMap t.trackType.toId).isSome := by
    rw [mapped_iff io _ hok, List.map_append, List.map_cons]
    apply mem_announced_of_mem
    rw [mem_created_iff hid]
    simp [nameFor]
  obtain ⟨u, hu⟩ := Option.isSome_iff_exists.mp hmapped
  refine ⟨u, hu, ?_⟩
  rw [descriptors_run io _ hok hid, List.map_append, List.map_cons,
    described_first hid hundeclared rfl]
  change [describe t _ ((c.trackMap _).getD 0)] = _
  rw [hu]
  rfl

/-- A counter whose parent is declared after it, and which is declared again. -/
def orphaned : List Message :=
  [⟨.track ⟨"load", .counter 4 (some "%"), some (.custom 9)⟩, none⟩,
    ⟨.track ⟨"host", .custom 9, none⟩, none⟩,
    ⟨.track ⟨"other", .counter 4 none, some (.custom 9)⟩, none⟩]

theorem first_declaration_stands_orphaned : ∃ u,
    ((converter fun _ => true).final .new orphaned).trackMap (.counter 4) = some u ∧
      descriptors ((converter fun _ => true).final .new orphaned) (.counter 4) =
        [describe ⟨"load", .counter 4 (some "%"), some (.custom 9)⟩ 0 u] :=
  first_declaration_stands (fun _ => true) []
    [⟨.track ⟨"host", .custom 9, none⟩, none⟩,
      ⟨.track ⟨"other", .counter 4 none, some (.custom 9)⟩, none⟩]
    ⟨"load", .counter 4 (some "%"), some (.custom 9)⟩ none rfl (by decide) (by simp)

end Manytrace.Converter
