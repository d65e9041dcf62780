import Manytrace.Converter.Descriptors

/-! What a producer can rely on. If it declares a track before it uses it and nobody else uses
the track, then the trace shows the track as declared, with everything that the producer has put
on it, whatever other messages come in between. -/
namespace Manytrace.Converter
open Manytrace.Core Manytrace.Protocol

/-- The event declares the track or is drawn on it. -/
def concerns (id : TrackId) (e : Event) : Bool :=
  (nameFor id e).isSome || decide (trackOf e = some id)

@[simp] theorem concerns_track (id : TrackId) (t : Track) :
    concerns id (.track t) = decide (t.trackType.toId = id) := by
  by_cases h : t.trackType.toId = id <;> simp [concerns, nameFor, trackOf, h]

@[simp] theorem concerns_counter (id : TrackId) (k : Counter) :
    concerns id (.counter k) = decide (k.trackId = id) := by
  simp [concerns, nameFor, trackOf]

@[simp] theorem concerns_span (id : TrackId) (s : Span) :
    concerns id (.span s) = decide (s.trackId = id) := by
  simp [concerns, nameFor, trackOf]

section Shown
variable {id : TrackId}

theorem shown_of_known {known : List TrackId} (h : id ∈ known) (es : List Event) :
    shown id known es = es.filter fun e => trackOf e = some id := by
  induction es generalizing known with
  | nil => rfl
  | cons e es ih =>
    have hvisible : visible known e = some id ↔ trackOf e = some id := by
      unfold visible
      rw [Option.filter_eq_some_iff]
      exact and_iff_left (decide_eq_true (List.mem_append_left _ h))
    rw [shown, ih (List.mem_append_left _ h)]
    by_cases he : trackOf e = some id
    · simp [hvisible, he]
    · simp [hvisible, he]

theorem shown_of_declared (hid : isOther id = true) {known : List TrackId} (hnew : id ∉ known)
    {es : List Event} {t : Track} {uses : List Event}
    (h : es.filter (concerns id) = .track t :: uses) :
    shown id known es = es.filter fun e => trackOf e = some id := by
  induction es generalizing known with
  | nil => cases h
  | cons e es ih =>
    by_cases he : concerns id e = true
    · rw [List.filter_cons_of_pos he] at h
      obtain ⟨rfl, -⟩ := List.cons.inj h
      have hdeclares : (nameFor id (.track t)).isSome = true := by
        simpa [concerns, trackOf] using he
      have hknown := (mem_created_iff hid known (.track t)).mpr (Or.inr hdeclares)
      rw [shown, shown_of_known hknown]
      rfl
    · rw [List.filter_cons_of_neg he] at h
      obtain ⟨hname, huse⟩ : nameFor id e = none ∧ trackOf e ≠ some id := by
        simpa [concerns] using he
      have hrest : id ∉ known ++ created known e := by
        rw [mem_created_iff hid, hname]
        simpa using hnew
      have hskip : visible known e ≠ some id := by
        intro hvisible
        exact huse (Option.filter_eq_some_iff.mp hvisible).1
      rw [shown, if_neg hskip, ih hrest h, List.nil_append, List.filter_cons_of_neg (by simpa)]

/-- An event that brings its track along if that is the track of a thread. -/
def bringsThread : Event → Bool
  | .span _ | .instant _ => true
  | _ => false

theorem thread_mem_created {tid pid : ℤ} (known : List TrackId) {e : Event}
    (he : trackOf e = some (.thread tid pid)) (hkind : bringsThread e = true) :
    .thread tid pid ∈ created known e := by
  cases e with
  | span s =>
    have hs : s.trackId = .thread tid pid := Option.some.inj he
    simp [created, hs, implied]
  | instant i =>
    have hi : i.trackId = .thread tid pid := Option.some.inj he
    simp [created, hi, implied]
  | _ => cases hkind

/-- The track of a thread shows all spans and instants on it. -/
theorem shown_thread {tid pid : ℤ} (known : List TrackId) {es : List Event}
    (h : ∀ e ∈ es, trackOf e = some (.thread tid pid) → bringsThread e = true) :
    shown (.thread tid pid) known es =
      es.filter fun e => trackOf e = some (.thread tid pid) := by
  induction es generalizing known with
  | nil => rfl
  | cons e es ih =>
    have hvisible : visible known e = some (.thread tid pid) ↔
        trackOf e = some (.thread tid pid) := by
      unfold visible
      rw [Option.filter_eq_some_iff]
      refine and_iff_left_of_imp fun he => decide_eq_true (List.mem_append_right _ ?_)
      exact thread_mem_created known he (h e (by simp) he)
    rw [shown, ih _ fun e' he' => h e' (by simp [he'])]
    by_cases he : trackOf e = some (.thread tid pid)
    · simp [hvisible, he]
    · simp [hvisible, he]

end Shown

/-- A thread that has spans or instants has a track with all of them. -/
theorem thread_shown (io : ℕ → Bool) (messages : List Message)
    (hok : ∀ r ∈ (converter io).outputs .new messages, r = .ok ()) {tid pid : ℤ}
    {mine : List Event}
    (hmine : (messages.map fun m => m.event).filter
      (fun e => trackOf e = some (.thread tid pid)) = mine)
    (hkind : ∀ e ∈ mine, bringsThread e = true) :
    let c := (converter io).final .new messages
    (mine ≠ [] → (c.trackMap (.thread tid pid)).isSome) ∧
      ∀ u, c.trackMap (.thread tid pid) = some u → timeline c u = mine.flatMap (drawn u) := by
  have hall : ∀ e ∈ messages.map (fun m => m.event), trackOf e = some (.thread tid pid) →
      bringsThread e = true := by
    intro e he htrack
    refine hkind e ?_
    rw [← hmine]
    exact List.mem_filter.mpr ⟨he, decide_eq_true htrack⟩
  refine ⟨fun hne => ?_, fun u hu => ?_⟩
  · obtain ⟨e, he⟩ := List.exists_mem_of_ne_nil mine hne
    rw [← hmine] at he
    obtain ⟨hmem, htrack⟩ := List.mem_filter.mp he
    have htrack := of_decide_eq_true htrack
    obtain ⟨pre, post, hsplit⟩ := List.append_of_mem hmem
    rw [mapped_iff io messages hok, hsplit]
    exact mem_announced_of_mem pre post
      (List.mem_append_right _ (thread_mem_created _ htrack (hall e hmem htrack)))
  · have hshown := shown_thread [] hall
    rw [hmine] at hshown
    rw [timeline, run_rendered io lists_new nested_new messages hok]
    change (rendered _ [] _).filter _ = _
    rw [filter_rendered (run_inv io messages).injective hu, hshown]

/-- A track as its producer has declared and used it. -/
structure Faithful (c : PerfettoConverter) (t : Track) (uses : List Event) (u : ℕ) : Prop where
  mapped : c.trackMap t.trackType.toId = some u
  timeline_eq : timeline c u = uses.flatMap (drawn u)
  descriptor : ∃ parent, descriptors c t.trackType.toId = [describe t parent u] ∧
    (t.parent = none → parent = 0) ∧ ∀ p, t.parent = some p → c.trackMap p.toId = some parent

/-- The parent of a track needs no declaration, or has one before the track. -/
def ParentFirst (es : List Event) (t : Track) : Prop :=
  ∀ p, t.parent = some p → isOther p.toId = false ∨
    ∀ pre post, es = pre ++ .track t :: post → ∃ e ∈ pre, (nameFor p.toId e).isSome

theorem mem_announced_of_declared {id : TrackId} (hid : isOther id = true) {es : List Event}
    {e : Event} (hmem : e ∈ es) (he : (nameFor id e).isSome) : id ∈ announced es := by
  obtain ⟨pre, post, rfl⟩ := List.append_of_mem hmem
  exact mem_announced_of_mem pre post ((mem_created_iff hid (announced pre) e).mpr (Or.inr he))

/-- What concerns a track that is declared once is its use. -/
theorem filter_uses {id : TrackId} {es uses : List Event} {t : Track}
    (hdeclared : es.filter (concerns id) = .track t :: uses)
    (huses : ∀ e ∈ uses, trackOf e = some id) :
    (es.filter fun e => trackOf e = some id) = uses := by
  have hsub : ∀ e : Event, decide (trackOf e = some id) =
      (decide (trackOf e = some id) && concerns id e) := by
    intro e
    by_cases he : trackOf e = some id
    · simp [he, concerns]
    · simp [he]
  calc es.filter (fun e => trackOf e = some id)
      = (es.filter (concerns id)).filter (fun e => trackOf e = some id) := by
        rw [List.filter_filter]
        exact List.filter_congr fun e _ => hsub e
    _ = uses.filter (fun e => trackOf e = some id) := by
        rw [hdeclared]
        rfl
    _ = uses := List.filter_eq_self.mpr fun e he => decide_eq_true (huses e he)

/-- A track that is declared once before it is used has what is put on it, and its descriptor
names the parent as far as that is known at the declaration. -/
theorem declared_once (io : ℕ → Bool) (messages : List Message)
    (hok : ∀ r ∈ (converter io).outputs .new messages, r = .ok ()) {t : Track}
    (hid : isOther t.trackType.toId = true) {uses : List Event}
    (hdeclared : (messages.map fun m => m.event).filter (concerns t.trackType.toId) =
      .track t :: uses)
    (huses : ∀ e ∈ uses, trackOf e = some t.trackType.toId) :
    let c := (converter io).final .new messages
    ∃ u pre post, (messages.map fun m => m.event) = pre ++ .track t :: post ∧
      t.trackType.toId ∉ announced pre ∧ c.trackMap t.trackType.toId = some u ∧
      timeline c u = uses.flatMap (drawn u) ∧ descriptors c t.trackType.toId =
        [describe t (parentUuid (fun p => p ∈ announced pre) c.trackMap t) u] := by
  intro c
  have hshown := shown_of_declared hid List.not_mem_nil hdeclared
  rw [filter_uses hdeclared huses] at hshown
  have hevents := run_rendered io lists_new nested_new messages hok
  have hsaid := descriptors_run io messages hok hid
  have hmapped := mapped_iff io messages hok t.trackType.toId
  generalize messages.map (fun m => m.event) = es at *
  obtain ⟨pre, post, rfl, hpre, -, -⟩ := List.filter_eq_cons_iff.mp hdeclared
  have hundeclared : ∀ e ∈ pre, nameFor t.trackType.toId e = none := by
    intro e he
    have hnot := hpre e he
    simp only [concerns, Bool.or_eq_true, not_or] at hnot
    simpa using hnot.1
  have hexists : t.trackType.toId ∈ announced (pre ++ .track t :: post) :=
    mem_announced_of_declared hid (List.mem_append_right _ List.mem_cons_self)
      (by simp [nameFor])
  obtain ⟨u, hu⟩ := Option.isSome_iff_exists.mp (hmapped.mpr hexists)
  rw [described_first hid hundeclared rfl, hu] at hsaid
  refine ⟨u, pre, post, rfl, not_mem_announced hid hundeclared, hu, ?_, hsaid⟩
  rw [timeline, hevents]
  change (rendered _ [] _).filter _ = _
  rw [filter_rendered (run_inv io messages).injective hu, hshown]

theorem declared_track (io : ℕ → Bool) (messages : List Message)
    (hok : ∀ r ∈ (converter io).outputs .new messages, r = .ok ()) {t : Track}
    (hid : isOther t.trackType.toId = true) {uses : List Event}
    (hdeclared : (messages.map fun m => m.event).filter (concerns t.trackType.toId) =
      .track t :: uses)
    (huses : ∀ e ∈ uses, trackOf e = some t.trackType.toId)
    (hparent : ParentFirst (messages.map fun m => m.event) t) :
    ∃ u, Faithful ((converter io).final .new messages) t uses u := by
  obtain ⟨u, pre, post, hes, hnew, hu, htimeline, hsaid⟩ :=
    declared_once io messages hok hid hdeclared huses
  refine ⟨u, hu, htimeline, _, hsaid, fun hp => by simp [parentUuid, hp], fun p hp => ?_⟩
  have hknown : (decide (p.toId ∈ announced pre) || !isOther p.toId) = true := by
    rcases hparent p hp with hother | hfirst
    · simp [hother]
    · cases hother : isOther p.toId with
      | false => simp
      | true =>
        obtain ⟨e, he, hname⟩ := hfirst pre post hes
        simp [mem_announced_of_declared hother he hname]
  have hthere : p.toId ∈ announced (messages.map fun m => m.event) := by
    rw [hes]
    exact mem_announced_of_mem pre post (parent_mem_created hnew hp hknown)
  obtain ⟨v, hv⟩ := Option.isSome_iff_exists.mp ((mapped_iff io messages hok _).mpr hthere)
  simp only [parentUuid, hp, hknown, if_true, hv, Option.getD_some]

/-- The callback that takes every message. -/
def accepting (_ : List (Event × ℤ)) (_ : Event) : ℤ := 0

/-- Numbers are drawn one after the other. Nothing is about the tracks of those to come. -/
def Undrawn (random : ℕ → ℕ) (told : List Event) : Prop :=
  ∀ n, told.length ≤ n → ∀ e ∈ told,
    concerns (.counter (random n)) e = false ∧ concerns (.custom (random n)) e = false

section Undrawn
variable {random : ℕ → ℕ} {told news : List Event} {n : ℕ}

theorem Undrawn.append (h : Undrawn random told)
    (hnews : ∀ n, told.length + news.length ≤ n → ∀ e ∈ news,
      concerns (.counter (random n)) e = false ∧ concerns (.custom (random n)) e = false) :
    Undrawn random (told ++ news) := by
  intro n hn e he
  rw [List.length_append] at hn
  rcases List.mem_append.mp he with he | he
  · exact h n (by omega) e he
  · exact hnews n hn e he

theorem Undrawn.counter (h : Undrawn random told) (hn : told.length ≤ n) :
    told.filter (concerns (.counter (random n))) = [] :=
  List.filter_eq_nil_iff.mpr fun e he => by simp [(h n hn e he).1]

theorem Undrawn.custom (h : Undrawn random told) (hn : told.length ≤ n) :
    told.filter (concerns (.custom (random n))) = [] :=
  List.filter_eq_nil_iff.mpr fun e he => by simp [(h n hn e he).2]

end Undrawn

/-- The events of a producer among others: nobody else declares or uses its tracks. -/
structure Undisturbed (told es : List Event) : Prop where
  sublist : told.Sublist es
  own : ∀ e ∈ told, ∀ id, (nameFor id e).isSome →
    es.filter (concerns id) = told.filter (concerns id)

theorem Undisturbed.alone (told : List Event) :
    Undisturbed told ((told.map fun e => (⟨e, none⟩ : Message)).map fun m => m.event) := by
  have hsame : (told.map fun e => (⟨e, none⟩ : Message)).map (fun m => m.event) = told := by
    rw [List.map_map]
    exact List.map_id told
  rw [hsame]
  exact ⟨List.Sublist.refl told, fun _ _ _ _ => rfl⟩

theorem not_mem_uses {id : TrackId} {uses : List Event} (huses : ∀ e ∈ uses, trackOf e = some id)
    (t : Track) : .track t ∉ uses := by
  intro hmem
  cases huses _ hmem

/-- What a producer has told in an order comes in this order. -/
theorem Undisturbed.parentFirst {told es : List Event} (h : Undisturbed told es) {t : Track}
    {uses : List Event} (hdeclared : told.filter (concerns t.trackType.toId) = .track t :: uses)
    (huses : ∀ e ∈ uses, trackOf e = some t.trackType.toId)
    (hparent : ∀ p, t.parent = some p → isOther p.toId = false ∨
      ∃ before after, told = before ++ .track t :: after ∧
        ∃ e ∈ before, (nameFor p.toId e).isSome) : ParentFirst es t := by
  intro p hp
  rcases hparent p hp with hother | ⟨before, after, htold, e, he, hname⟩
  · exact Or.inl hother
  · refine Or.inr fun pre post hes => ⟨e, ?_, hname⟩
    have hown := h.own (.track t) (by simp [htold]) t.trackType.toId (by simp [nameFor])
    rw [hdeclared, hes, List.filter_append, List.filter_cons_of_pos (by simp)] at hown
    have hlast : .track t ∉ post := by
      intro hmem
      have hpost : Event.track t ∈ post.filter (concerns t.trackType.toId) :=
        List.mem_filter.mpr ⟨hmem, by simp⟩
      apply not_mem_uses huses t
      rcases List.append_eq_cons_iff.mp hown with ⟨-, heq⟩ | ⟨rest, -, heq⟩
      · rw [← (List.cons.inj heq).2]
        exact hpost
      · rw [heq]
        exact List.mem_append_right _ List.mem_cons_self
    have hpair : [e, .track t].Sublist (pre ++ .track t :: post) := by
      rw [← hes]
      refine List.Sublist.trans ?_ h.sublist
      rw [htold]
      exact (List.singleton_sublist.mpr he).append (List.singleton_sublist.mpr List.mem_cons_self)
    obtain ⟨left, right, heq, hleft, hright⟩ := List.sublist_append_iff.mp hpair
    cases left with
    | nil =>
      obtain rfl : [e, .track t] = right := heq
      have htail := List.Sublist.of_cons_cons hright
      exact absurd (List.singleton_sublist.mp htail) hlast
    | cons a left =>
      obtain ⟨rfl, -⟩ := List.cons.inj heq
      exact hleft.subset List.mem_cons_self

/-- A track that a producer has declared and used is shown so. -/
theorem Undisturbed.shown (io : ℕ → Bool) (messages : List Message)
    (hok : ∀ r ∈ (converter io).outputs .new messages, r = .ok ()) {told : List Event}
    (h : Undisturbed told (messages.map fun m => m.event)) {t : Track}
    (hid : isOther t.trackType.toId = true) {uses : List Event}
    (hdeclared : told.filter (concerns t.trackType.toId) = .track t :: uses)
    (huses : ∀ e ∈ uses, trackOf e = some t.trackType.toId)
    (hparent : ∀ p, t.parent = some p → isOther p.toId = false ∨
      ∃ before after, told = before ++ .track t :: after ∧
        ∃ e ∈ before, (nameFor p.toId e).isSome) :
    ∃ u, Faithful ((converter io).final .new messages) t uses u := by
  have hmem : .track t ∈ told.filter (concerns t.trackType.toId) := by
    rw [hdeclared]
    exact List.mem_cons_self
  have hown := h.own (.track t) (List.mem_of_mem_filter hmem) t.trackType.toId
    (by simp [nameFor])
  exact declared_track io messages hok hid (hown.trans hdeclared) huses
    (h.parentFirst hdeclared huses hparent)

end Manytrace.Converter
