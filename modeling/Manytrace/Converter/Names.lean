import Manytrace.Converter.Closure

/-! Which names of threads and processes reach the output. The converter announces a track
at its first use and writes a name only with the announcement, so a `Track` event that
comes after any other use of its track is lost. -/
namespace Manytrace.Converter
open Manytrace.Core Manytrace.Protocol

/-- The tracks that come into being with a track that is used without being declared. -/
def implied : TrackId → List TrackId
  | .thread tid pid => [.thread tid pid, .process pid]
  | .process pid => [.process pid]
  | _ => []

def impliedParent (parent : Option TrackType) : List TrackId :=
  match parent with
  | some p => implied p.toId
  | none => []

/-- The tracks an event brings into being when the tracks `known` exist. -/
def created (known : List TrackId) : Event → List TrackId
  | .span s => implied s.trackId
  | .instant i => implied i.trackId
  | .track t =>
    if t.trackType.toId ∈ known then []
    else impliedParent t.parent ++ implied t.trackType.toId ++ [t.trackType.toId]
  | _ => []

/-- The tracks that exist after the events. -/
def announced (es : List Event) : List TrackId :=
  es.foldl (fun known e => known ++ created known e) []

/-- The name an event gives to a track. -/
def nameFor (id : TrackId) : Event → Option String
  | .track t => if t.trackType.toId = id then some t.name else none
  | _ => none

def lastName (es : List Event) (id : TrackId) : Option String :=
  (es.filterMap (nameFor id)).getLast?

/-- A process track whose own parent brings the process into being without a name. -/
def shadowed (t : Track) : Bool :=
  match t.trackType with
  | .process pid => TrackId.process pid ∈ impliedParent t.parent
  | _ => false

/-- The name that the first event about a track makes the converter write. -/
def writes (known : List TrackId) (id : TrackId) : Event → List String
  | .track t =>
    if t.trackType.toId = id ∧ isOther id = false ∧ id ∉ known ∧ shadowed t = false then [t.name]
    else []
  | _ => []

def TrackDescriptor.givenName (d : TrackDescriptor) : Option String :=
  match d.thread, d.process with
  | some t, _ => t.threadName
  | none, some p => p.processName
  | none, none => none

def PacketData.givenName : PacketData → Option String
  | .trackDescriptor d => d.givenName
  | _ => none

/-- The names in the descriptors written for a track. -/
def named (c : PerfettoConverter) (id : TrackId) : List String :=
  c.packets.flatMap fun p => if p.1 = some id then p.2.data.givenName.toList else []

/-- What a successful operation adds: tracks to the map, names to the output. -/
structure Adds (c t : PerfettoConverter) (ids : List TrackId) (names : TrackId → List String) :
    Prop where
  keys : ∀ id, (t.trackMap id).isSome ↔ (c.trackMap id).isSome ∨ id ∈ ids
  names : ∀ id, named t id = named c id ++ names id

section Adds
variable {c t u : PerfettoConverter} {ids ids' : List TrackId} {ns ns' : TrackId → List String}

theorem Adds.trans (h : Adds c t ids ns) (h' : Adds t u ids' ns') :
    Adds c u (ids ++ ids') (fun id => ns id ++ ns' id) where
  keys := by
    intro id
    rw [h'.keys, h.keys, List.mem_append, or_assoc]
  names := by
    intro id
    rw [h'.names, h.names, List.append_assoc]

theorem Adds.congr (h : Adds c t ids ns) (hids : ∀ id, (c.trackMap id).isSome ∨ id ∈ ids ↔
    (c.trackMap id).isSome ∨ id ∈ ids') (hns : ∀ id, ns id = ns' id) : Adds c t ids' ns' where
  keys := fun id => (h.keys id).trans (hids id)
  names := fun id => by rw [h.names, hns]

theorem adds_refl (c : PerfettoConverter) : Adds c c [] fun _ => [] where
  keys := by simp
  names := by simp

end Adds

/-- The process of every thread in the map is in the map. -/
def Nested (c : PerfettoConverter) : Prop :=
  ∀ tid pid, (c.trackMap (.thread tid pid)).isSome → (c.trackMap (.process pid)).isSome

theorem Adds.nested {c t : PerfettoConverter} {ids : List TrackId}
    {ns : TrackId → List String} (h : Adds c t ids ns) (hc : Nested c)
    (hids : ∀ tid pid, TrackId.thread tid pid ∈ ids → TrackId.process pid ∈ ids) : Nested t := by
  intro tid pid ht
  rcases (h.keys _).mp ht with hold | hnew
  · exact (h.keys _).mpr (Or.inl (hc tid pid hold))
  · exact (h.keys _).mpr (Or.inr (hids tid pid hnew))

/-- Whatever comes with a track that is known is known. -/
theorem Nested.implied_known {c : PerfettoConverter} (hn : Nested c) (id : TrackId)
    (h : (c.trackMap id).isSome) : ∀ id' ∈ implied id, (c.trackMap id').isSome := by
  intro id' hid
  cases id with
  | thread tid pid =>
    rcases List.mem_pair.mp hid with rfl | rfl
    · exact h
    · exact hn tid pid h
  | process pid =>
    rw [List.mem_singleton.mp hid]
    exact h
  | _ => simp [implied] at hid

theorem adds_known {c : PerfettoConverter} {ids : List TrackId}
    (h : ∀ id ∈ ids, (c.trackMap id).isSome) : Adds c c ids fun _ => [] := by
  refine (adds_refl c).congr ?_ (fun _ => rfl)
  intro id
  have hid := h id
  simp only [List.not_mem_nil, or_false]
  tauto

section Operations
variable (io : ℕ → Bool) (c : PerfettoConverter)

theorem writePacket_adds (owner : Option TrackId) (p : TracePacket) (streamId : Option ℕ) :
    (writePacket io owner p streamId).Post c (fun _ t => t.trackMap = c.trackMap ∧
      Adds c t [] fun id => if owner = some id then p.data.givenName.toList else [])
      fun _ => True := by
  unfold Op.Post writePacket
  by_cases hio : io c.writes = true
  · simp only [if_pos hio]
    exact ⟨trivial, by simp, by simp [named]⟩
  · simp only [if_neg hio]

theorem writeNewTrack_adds (owner : TrackId) (descriptor : ℕ → TrackDescriptor)
    (name : Option String) (hname : ∀ u, (descriptor u).givenName = name) :
    (writeNewTrack io owner descriptor).Post c (fun _ t => t.trackMap = c.trackMap ∧
      Adds c t [] fun id => if owner = id then name.toList else []) fun _ => True := by
  have hnext : nextTrackUuid.Post c (fun _ t => t.trackMap = c.trackMap ∧
      t.packets = c.packets) fun _ => True := by
    unfold Op.Post nextTrackUuid
    by_cases hlt : c.trackUuidCounter + 1 < 2 ^ 64
    · simp only [if_pos hlt, and_self]
    · simp only [if_neg hlt]
  apply hnext.bind
  intro u t hpost
  obtain ⟨hmap, hpackets⟩ := hpost
  apply (writePacket_adds io t (some owner) _ none).bind
  intro _ t' hex
  obtain ⟨hmap', hadds⟩ := hex
  refine Op.post_pure ⟨hmap'.trans hmap, ?_, ?_⟩
  · intro id
    rw [hmap', hmap]
    simp
  · intro id
    rw [hadds.names id]
    simp [named, hpackets, PacketData.givenName, hname]

theorem insertTrack_adds (id : TrackId) (u : ℕ) :
    (insertTrack id u).Post c (fun _ t => Adds c t [id] fun _ => []) fun _ => True := by
  refine Op.post_modify ⟨?_, ?_⟩
  · intro id'
    by_cases h : id' = id
    · subst h
      simp
    · simp [h]
  · intro id'
    simp [named]

theorem ensureProcessTrack_adds (pid : ℤ) (name : Option String) :
    (ensureProcessTrack io pid name).Post c (fun _ t => Adds c t [.process pid] fun id =>
      if id = .process pid ∧ c.trackMap (.process pid) = none then name.toList else [])
      fun _ => True := by
  apply Op.post_get_bind
  cases hm : c.trackMap (.process pid) with
  | some u =>
    refine Op.post_pure ((adds_refl c).congr ?_ (by simp))
    intro id
    by_cases h : id = .process pid
    · subst h
      simp [hm]
    · simp [h]
  | none =>
    apply (writeNewTrack_adds io c (.process pid) _ name (fun _ => rfl)).bind
    intro u t hpost
    obtain ⟨-, ht⟩ := hpost
    apply (insertTrack_adds t (.process pid) u).bind
    intro _ t' ht'
    refine Op.post_pure ((ht.trans ht').congr (by simp) ?_)
    intro id
    by_cases h : id = .process pid
    · simp [h]
    · simp [h, Ne.symm h]

theorem ensureThreadTrack_adds (hn : Nested c) (pid tid : ℤ) (name : Option String) :
    (ensureThreadTrack io pid tid name).Post c
      (fun _ t => Adds c t (implied (.thread tid pid)) fun id =>
        if id = .thread tid pid then name.toList else []) fun _ => True := by
  have hproc := ensureProcessTrack_adds io c pid none
  apply Op.post_get_bind
  cases hm : c.trackMap (.thread tid pid) with
  | some u =>
    have hknown := hn.implied_known (.thread tid pid) (by simp [hm])
    by_cases hname : name.isSome = true
    · simp only [if_pos hname]
      apply hproc.bind
      intro parent t ht
      apply (writePacket_adds io t (some (.thread tid pid)) _ none).bind
      intro _ t' hex
      obtain ⟨-, ht'⟩ := hex
      refine Op.post_pure ((ht.trans ht').congr ?_ ?_)
      · intro id
        have hid := hknown id
        simp only [implied, List.mem_cons, List.not_mem_nil, or_false] at hid
        simp only [implied, List.append_nil, List.mem_cons, List.not_mem_nil, or_false]
        tauto
      · intro id
        by_cases h : id = .thread tid pid
        · subst h
          simp [PacketData.givenName, TrackDescriptor.givenName, threadDescriptor]
        · simp [h, Ne.symm h]
    · simp only [if_neg hname]
      refine Op.post_pure ((adds_known hknown).congr (fun _ => Iff.rfl) ?_)
      intro id
      simp [Option.not_isSome_iff_eq_none.mp hname]
  | none =>
    apply hproc.bind
    intro parent t ht
    apply (writeNewTrack_adds io t (.thread tid pid) _ name (fun _ => rfl)).bind
    intro u t' hex
    obtain ⟨-, ht'⟩ := hex
    apply (insertTrack_adds t' (.thread tid pid) u).bind
    intro _ t'' ht''
    refine Op.post_pure (((ht.trans ht').trans ht'').congr ?_ ?_)
    · intro id
      simp only [implied, List.append_nil, List.cons_append, List.nil_append, List.mem_cons,
        List.not_mem_nil, or_false]
      tauto
    · intro id
      by_cases h : id = .thread tid pid
      · subst h
        simp
      · simp [h, Ne.symm h]

/-- Repeating an insertion adds nothing. -/
theorem insertTrack_adds_nothing {id : TrackId} {u : ℕ} (h : (c.trackMap id).isSome) :
    (insertTrack id u).Post c (fun _ t => Adds c t [] fun _ => []) fun _ => True := by
  have hpost := insertTrack_adds c id u
  refine hpost.mono (fun _ t ht => ht.congr ?_ (fun _ => rfl)) (fun _ _ => trivial)
  intro id'
  by_cases he : id' = id
  · subst he
    simp [h]
  · simp [he]

/-- An unnamed track that is created where it is used. -/
theorem ensure_insert_adds {id : TrackId} {x : ConvertOp ℕ} (ids : List TrackId)
    (hid : id ∈ ids) (hx : x.Post c (fun _ t => Adds c t ids fun _ => []) fun _ => True)
    {α : Type} (f : ℕ → α) :
    (x >>= fun u => insertTrack id u >>= fun _ => pure (f u)).Post c
      (fun _ t => Adds c t ids fun _ => []) fun _ => True := by
  apply hx.bind
  intro u t ht
  have hknown : (t.trackMap id).isSome := (ht.keys id).mpr (Or.inr hid)
  apply (insertTrack_adds_nothing t hknown).bind
  intro _ t' ht'
  exact Op.post_pure ((ht.trans ht').congr (by simp) (by simp))

theorem eventTrack_adds (hn : Nested c) (id : TrackId) :
    (eventTrack io id).Post c (fun _ t => Adds c t (implied id) fun _ => []) fun _ => True := by
  apply Op.post_get_bind
  cases hm : c.trackMap id with
  | some u => exact Op.post_pure (adds_known (hn.implied_known _ (by simp [hm])))
  | none =>
    cases id with
    | thread tid pid =>
      apply ensure_insert_adds c _ (by simp [implied])
      exact (ensureThreadTrack_adds io c hn pid tid none).mono
        (fun _ _ ht => ht.congr (fun _ => Iff.rfl) (by simp)) (fun _ _ => trivial)
    | process pid =>
      apply ensure_insert_adds c _ (by simp [implied])
      exact (ensureProcessTrack_adds io c pid none).mono
        (fun _ _ ht => ht.congr (fun _ => Iff.rfl) (by simp)) (fun _ _ => trivial)
    | _ => exact Op.post_pure (adds_refl c)

theorem parentTrack_adds (hn : Nested c) (parent : Option TrackType) :
    (parentTrack io parent).Post c (fun _ t => Adds c t (impliedParent parent) fun _ => [])
      fun _ => True := by
  cases parent with
  | none => exact Op.post_pure (adds_refl c)
  | some parent =>
    apply Op.post_get_bind
    cases hm : c.trackMap parent.toId with
    | some u => exact Op.post_pure (adds_known (hn.implied_known _ (by simp [hm])))
    | none =>
      cases parent with
      | thread tid pid =>
        apply ensure_insert_adds c _ (by simp [impliedParent, implied, TrackType.toId])
        exact (ensureThreadTrack_adds io c hn pid tid none).mono
          (fun _ _ ht => ht.congr (fun _ => Iff.rfl) (by simp)) (fun _ _ => trivial)
      | process pid =>
        apply ensure_insert_adds c _ (by simp [impliedParent, implied, TrackType.toId])
        exact (ensureProcessTrack_adds io c pid none).mono
          (fun _ _ ht => ht.congr (fun _ => Iff.rfl) (by simp)) (fun _ _ => trivial)
      | _ => exact Op.post_pure (adds_refl c)

/-- The name in the own descriptor of a track. A process that is in the map already gets
none. -/
def ownName (c : PerfettoConverter) (track : Track) : List String :=
  match track.trackType with
  | .thread _ _ => [track.name]
  | .process pid => if c.trackMap (.process pid) = none then [track.name] else []
  | _ => []

theorem ownTrack_adds (hn : Nested c) (track : Track) (parent : ℕ) :
    (ownTrack io track parent).Post c (fun _ t => Adds c t (implied track.trackType.toId)
      fun id => if id = track.trackType.toId then ownName c track else []) fun _ => True := by
  have hplain : ∀ descriptor : ℕ → TrackDescriptor, implied track.trackType.toId = [] →
      ownName c track = [] → (∀ u, (descriptor u).givenName = none) →
      (writeNewTrack io track.trackType.toId descriptor).Post c
        (fun _ t => Adds c t (implied track.trackType.toId)
          fun id => if id = track.trackType.toId then ownName c track else []) fun _ => True := by
    intro descriptor himp hown hname
    refine (writeNewTrack_adds io c _ descriptor none hname).mono (fun _ t ht => ?_)
      (fun _ _ => trivial)
    rw [himp, hown]
    exact ht.2.congr (fun _ => Iff.rfl) (by simp)
  unfold ownTrack ownName at *
  cases htype : track.trackType with
  | cpu n =>
    rw [htype] at hplain
    exact hplain _ rfl rfl (fun _ => rfl)
  | custom n =>
    rw [htype] at hplain
    exact hplain _ rfl rfl (fun _ => rfl)
  | counter n unit =>
    rw [htype] at hplain
    exact hplain _ rfl rfl (fun _ => rfl)
  | thread tid pid => exact ensureThreadTrack_adds io c hn pid tid (some track.name)
  | process pid =>
    refine (ensureProcessTrack_adds io c pid (some track.name)).mono (fun _ t ht => ?_)
      (fun _ _ => trivial)
    refine ht.congr (fun _ => Iff.rfl) (fun id => ?_)
    by_cases h : id = .process pid
    · simp [h, TrackType.toId]
    · simp [h, TrackType.toId]

end Operations

/-- `known` lists the tracks in the map. -/
def Lists (known : List TrackId) (c : PerfettoConverter) : Prop :=
  ∀ id, id ∈ known ↔ (c.trackMap id).isSome

section Events
variable (io : ℕ → Bool) {c : PerfettoConverter} {known : List TrackId}

theorem process_mem_implied {tid pid : ℤ} {id : TrackId}
    (h : TrackId.thread tid pid ∈ implied id) : TrackId.process pid ∈ implied id := by
  cases id with
  | thread tid' pid' =>
    have he : TrackId.thread tid pid = .thread tid' pid' := by simpa [implied] using h
    cases he
    simp [implied]
  | _ => simp [implied] at h

theorem process_mem_impliedParent {tid pid : ℤ} {parent : Option TrackType}
    (h : TrackId.thread tid pid ∈ impliedParent parent) :
    TrackId.process pid ∈ impliedParent parent := by
  cases parent with
  | none => simp [impliedParent] at h
  | some p => exact process_mem_implied h

/-- After the parent, a new thread gets its name, and a new process unless the parent has
brought it into being. -/
theorem ownName_eq {t : PerfettoConverter} {ns : TrackId → List String} {track : Track}
    (ht : Adds c t (impliedParent track.parent) ns)
    (hm : c.trackMap track.trackType.toId = none) :
    ownName t track = if isOther track.trackType.toId = false ∧ shadowed track = false
      then [track.name] else [] := by
  unfold ownName shadowed
  cases htype : track.trackType with
  | process pid =>
    rw [htype] at hm
    have hnone : t.trackMap (.process pid) = none ↔
        TrackId.process pid ∉ impliedParent track.parent := by
      rw [← Option.not_isSome_iff_eq_none, ht.keys]
      simp [show c.trackMap (.process pid) = none from hm]
    simp [hnone, isOther, TrackType.toId]
  | _ => simp [isOther, TrackType.toId]

theorem convertTrack_adds (hl : Lists known c) (hn : Nested c) (track : Track) :
    (convertTrack io track).Post c (fun _ t => Adds c t (created known (.track track))
      fun id => writes known id (.track track)) fun _ => True := by
  apply Op.post_get_bind
  cases hm : c.trackMap track.trackType.toId with
  | some u =>
    have hknown : track.trackType.toId ∈ known := (hl _).mpr (by simp [hm])
    refine Op.post_pure ((adds_refl c).congr ?_ ?_)
    · simp [created, hknown]
    · intro id
      have hskip : ¬ (track.trackType.toId = id ∧ isOther id = false ∧ id ∉ known ∧
          shadowed track = false) := by
        intro hex
        obtain ⟨rfl, -, hnot, -⟩ := hex
        exact hnot hknown
      rw [writes, if_neg hskip]
  | none =>
    have hknown : track.trackType.toId ∉ known := fun h => by simpa [hm] using (hl _).mp h
    apply (parentTrack_adds io c hn track.parent).bind
    intro parent t ht
    have hnt : Nested t := ht.nested hn fun _ _ => process_mem_impliedParent
    apply (ownTrack_adds io t hnt track parent).bind
    intro u t' ht'
    refine (insertTrack_adds t' track.trackType.toId u).mono (fun _ t'' ht'' => ?_)
      (fun _ _ => trivial)
    refine ((ht.trans ht').trans ht'').congr ?_ ?_
    · simp [created, hknown]
    · intro id
      rw [ownName_eq ht hm]
      by_cases h : id = track.trackType.toId
      · subst h
        simp [writes, hknown]
      · simp [writes, h, Ne.symm h]

theorem convertEvent_adds (hl : Lists known c) (hn : Nested c) (event : Event)
    (streamId : Option ℕ) :
    (convertEvent io event streamId).Post c (fun _ t => Adds c t (created known event)
      fun id => writes known id event) fun _ => True := by
  -- packets without a name change neither the map nor the names
  have hplain : ∀ (s : PerfettoConverter) (owner : Option TrackId) (p : TracePacket)
      (streamId : Option ℕ), p.data.givenName = none →
      (writePacket io owner p streamId).Post s (fun _ t => Adds s t [] fun _ => [])
        fun _ => True := by
    intro s owner p streamId hp
    refine (writePacket_adds io s owner p streamId).mono (fun _ t ht => ?_) (fun _ _ => trivial)
    exact ht.2.congr (fun _ => Iff.rfl) (by simp [hp])
  cases event with
  | internedData data => exact hplain c _ _ _ rfl
  | sample sample =>
    simp only [convertEvent]
    cases sample.trackId with
    | thread tid pid => exact hplain c _ _ _ rfl
    | _ => exact Op.post_pure (adds_refl c)
  | counter counter =>
    apply Op.post_get_bind
    cases c.trackMap counter.trackId with
    | none => exact Op.post_pure (adds_refl c)
    | some u => exact hplain c _ _ _ rfl
  | span span =>
    apply (eventTrack_adds io c hn span.trackId).bind
    rintro (_ | u) t ht
    · exact Op.post_pure ht
    · apply (hplain t _ _ _ rfl).bind
      intro _ t' ht'
      refine (hplain t' _ _ _ rfl).mono (fun _ t'' ht'' => ?_) (fun _ _ => trivial)
      exact ((ht.trans ht').trans ht'').congr (by simp [created]) (by simp [writes])
  | instant instant =>
    apply (eventTrack_adds io c hn instant.trackId).bind
    rintro (_ | u) t ht
    · exact Op.post_pure ht
    · refine (hplain t _ _ _ rfl).mono (fun _ t' ht' => ?_) (fun _ _ => trivial)
      exact (ht.trans ht').congr (by simp [created]) (by simp [writes])
  | track track => exact convertTrack_adds io hl hn track

theorem process_mem_created {event : Event} {tid pid : ℤ}
    (h : TrackId.thread tid pid ∈ created known event) :
    TrackId.process pid ∈ created known event := by
  cases event with
  | span span => exact process_mem_implied h
  | instant instant => exact process_mem_implied h
  | track track =>
    simp only [created] at h ⊢
    split_ifs at h ⊢ with hk
    · simp at h
    · simp only [List.mem_append, List.mem_singleton] at h ⊢
      rcases h with (h | h) | h
      · exact Or.inl (Or.inl (process_mem_impliedParent h))
      · exact Or.inl (Or.inr (process_mem_implied h))
      · rw [← h]
        exact Or.inl (Or.inr (by simp [implied]))
  | _ => simp [created] at h

end Events

/-- The names written for a track, from the tracks known before. -/
def written (id : TrackId) : List TrackId → List Event → List String
  | _, [] => []
  | known, e :: es => writes known id e ++ written id (known ++ created known e) es

section Runs
variable (io : ℕ → Bool)

/-- After conversions that all succeed the map and the names are those of the abstract
account. -/
theorem run_named {c : PerfettoConverter} {known : List TrackId} (hl : Lists known c)
    (hn : Nested c) (messages : List Message)
    (hok : ∀ r ∈ (converter io).outputs c messages, r = .ok ()) (id : TrackId) :
    named ((converter io).final c messages) id =
      named c id ++ written id known (messages.map fun m => m.event) := by
  induction messages generalizing c known with
  | nil => simp [written]
  | cons m messages ih =>
    have hfirst : (convertEvent io m.event m.streamId c).1 = .ok () :=
      hok _ (by simp [converter])
    have hadds := (convertEvent_adds io hl hn m.event m.streamId).ok hfirst
    have hl' : Lists (known ++ created known m.event) ((converter io).step c m).1 := by
      intro id'
      rw [List.mem_append, hl id']
      exact (hadds.keys id').symm
    have hn' : Nested ((converter io).step c m).1 :=
      hadds.nested hn fun _ _ => process_mem_created
    rw [Machine.final_cons, ih hl' hn' fun r hr => hok r (by
      rw [Machine.outputs_cons]
      exact List.mem_append_right _ hr)]
    change named (convertEvent io m.event m.streamId c).2 id ++ _ = _
    rw [hadds.names id]
    simp [written]

end Runs

section Written
variable {id : TrackId}

theorem writes_of_known {known : List TrackId} (h : id ∈ known) (e : Event) :
    writes known id e = [] := by
  cases e with
  | track t => simp [writes, h]
  | _ => rfl

theorem written_of_known {known : List TrackId} (h : id ∈ known) (es : List Event) :
    written id known es = [] := by
  induction es generalizing known with
  | nil => rfl
  | cons e es ih => rw [written, writes_of_known h, ih (List.mem_append_left _ h)]; rfl

theorem writes_of_unnamed {known : List TrackId} {e : Event} (h : nameFor id e = none) :
    writes known id e = [] := by
  cases e with
  | track t =>
    have hne : t.trackType.toId ≠ id := by simpa [nameFor] using h
    simp [writes, hne]
  | _ => rfl

/-- Events that do not name a track only add to what is known. -/
theorem written_append_of_unnamed (known : List TrackId) {es : List Event}
    (h : ∀ e ∈ es, nameFor id e = none) (fs : List Event) :
    written id known (es ++ fs) =
      written id (es.foldl (fun known e => known ++ created known e) known) fs := by
  induction es generalizing known with
  | nil => rfl
  | cons e es ih =>
    rw [List.cons_append, written, writes_of_unnamed (h e List.mem_cons_self), List.nil_append,
      ih _ fun f hf => h f (List.mem_cons_of_mem e hf), List.foldl_cons]

/-- The first event that names a track decides alone. -/
theorem written_first {pre post : List Event} {t : Track} (hid : isOther id = false)
    (hpre : ∀ e ∈ pre, nameFor id e = none) (ht : t.trackType.toId = id) :
    written id [] (pre ++ .track t :: post) =
      if id ∉ announced pre ∧ shadowed t = false then [t.name] else [] := by
  have hknown : id ∈ announced pre ++ created (announced pre) (.track t) := by
    by_cases hk : id ∈ announced pre
    · exact List.mem_append_left _ hk
    · apply List.mem_append_right
      simp [created, ht, hk]
  rw [written_append_of_unnamed [] hpre]
  change written id (announced pre) (.track t :: post) = _
  rw [written, written_of_known hknown, List.append_nil]
  simp [writes, ht, hid]

theorem exists_first_name (id : TrackId) (es : List Event) :
    (∀ e ∈ es, nameFor id e = none) ∨ ∃ pre t post, es = pre ++ .track t :: post ∧
      t.trackType.toId = id ∧ ∀ e ∈ pre, nameFor id e = none := by
  induction es with
  | nil => exact Or.inl (by simp)
  | cons e es ih =>
    cases he : nameFor id e with
    | some name =>
      cases e with
      | track t =>
        have ht : t.trackType.toId = id := by
          by_contra hne
          simp [nameFor, hne] at he
        exact Or.inr ⟨[], t, es, rfl, ht, by simp⟩
      | _ => simp [nameFor] at he
    | none =>
      rcases ih with hall | ⟨pre, t, post, rfl, ht, hpre⟩
      · exact Or.inl (List.forall_mem_cons.mpr ⟨he, hall⟩)
      · exact Or.inr ⟨e :: pre, t, post, rfl, ht, List.forall_mem_cons.mpr ⟨he, hpre⟩⟩

theorem lastName_isSome (pre post : List Event) {t : Track} (ht : t.trackType.toId = id) :
    (lastName (pre ++ .track t :: post) id).isSome := by
  rw [lastName, List.getLast?_isSome]
  simp [List.filterMap_append, nameFor, ht]

end Written

/-- The output has a descriptor of the track's uuid with the last name given to it. -/
def NameSurvives (c : PerfettoConverter) (es : List Event) (id : TrackId) : Prop :=
  ∀ name, lastName es id = some name → ∃ u p d, c.trackMap id = some u ∧ p ∈ c.packets ∧
    p.2.data = .trackDescriptor d ∧ d.uuid = u ∧ d.givenName = some name

/-- The first event that names the track comes before any other use of it, does not bring a
process into being through its own parent, and gives the name that is also given last. -/
def FirstNameStands (es : List Event) (id : TrackId) : Prop :=
  ∀ pre t post, es = pre ++ .track t :: post → t.trackType.toId = id →
    (∀ e ∈ pre, nameFor id e = none) →
      id ∉ announced pre ∧ shadowed t = false ∧ lastName es id = some t.name

/-- The descriptors of a track are those with its uuid. -/
theorem Inv.nameSurvives_iff {c : PerfettoConverter} (h : Inv c) {es : List Event}
    {id : TrackId} :
    NameSurvives c es id ↔ ∀ name, lastName es id = some name → name ∈ named c id := by
  refine forall₂_congr fun name _ => ⟨?_, ?_⟩
  · intro hex
    obtain ⟨u, p, d, hu, hp, hd, rfl, hname⟩ := hex
    obtain ⟨id', ho, hm⟩ := h.owned p hp d.uuid (by simp [hd, PacketData.uuid?])
    obtain rfl := h.injective id' id _ hm hu
    exact List.mem_flatMap.mpr ⟨p, hp, by simp [ho, hd, PacketData.givenName, hname]⟩
  · intro hname
    obtain ⟨p, hp, hmem⟩ := List.mem_flatMap.mp hname
    split_ifs at hmem with ho
    · cases hd : p.2.data with
      | trackDescriptor d =>
        obtain ⟨id', ho', hm⟩ := h.owned p hp d.uuid (by simp [hd, PacketData.uuid?])
        obtain rfl : id = id' := Option.some.inj (ho.symm.trans ho')
        exact ⟨d.uuid, p, d, hm, hp, hd, rfl, by simpa [hd, PacketData.givenName] using hmem⟩
      | _ => simp [hd, PacketData.givenName] at hmem
    · simp at hmem

theorem named_run (io : ℕ → Bool) (messages : List Message)
    (hok : ∀ r ∈ (converter io).outputs .new messages, r = .ok ()) (id : TrackId) :
    named ((converter io).final .new messages) id =
      written id [] (messages.map fun m => m.event) := by
  have hl : Lists [] PerfettoConverter.new := by
    intro id'
    simp [PerfettoConverter.new]
  have hn : Nested PerfettoConverter.new := by
    intro tid pid h
    simp [PerfettoConverter.new] at h
  have hrun := run_named io hl hn messages hok id
  simpa [named, PerfettoConverter.new] using hrun

/-- When all conversions succeed, the last name of a thread or a process survives exactly if
the first one stands. -/
theorem name_survives_iff (io : ℕ → Bool) (messages : List Message)
    (hok : ∀ r ∈ (converter io).outputs .new messages, r = .ok ()) (id : TrackId)
    (hid : isOther id = false) :
    NameSurvives ((converter io).final .new messages) (messages.map fun m => m.event) id ↔
      FirstNameStands (messages.map fun m => m.event) id := by
  rw [(run_inv io messages).nameSurvives_iff, named_run io messages hok id]
  generalize messages.map (fun m => m.event) = es
  constructor
  · intro hsurv pre t post hs ht hpre
    subst hs
    obtain ⟨name, hname⟩ := Option.isSome_iff_exists.mp (lastName_isSome pre post ht)
    have hmem := hsurv name hname
    rw [written_first hid hpre ht] at hmem
    split_ifs at hmem with hstand
    · rw [List.mem_singleton.mp hmem] at hname
      exact ⟨hstand.1, hstand.2, hname⟩
    · simp at hmem
  · intro hstand name hname
    rcases exists_first_name id es with hall | ⟨pre, t, post, rfl, ht, hpre⟩
    · have hnil : es.filterMap (nameFor id) = [] := List.filterMap_eq_nil_iff.mpr hall
      simp [lastName, hnil] at hname
    · obtain ⟨hk, hshadow, hlast⟩ := hstand pre t post rfl ht hpre
      rw [written_first hid hpre ht, if_pos ⟨hk, hshadow⟩]
      rw [hlast] at hname
      simpa using hname.symm

section Orders

def threadSpan : Message where
  event := .span ⟨"work", 1, 100, 200, .thread 7 3, ⟨[], [], [], []⟩⟩
  streamId := none

def threadName : Message where
  event := .track ⟨"main", .thread 7 3, some (.process 3)⟩
  streamId := none

theorem name_survives_iff_before_span :
    NameSurvives ((converter fun _ => true).final .new [threadName, threadSpan])
      [threadName.event, threadSpan.event] (.thread 7 3) ↔
    FirstNameStands [threadName.event, threadSpan.event] (.thread 7 3) :=
  name_survives_iff (fun _ => true) [threadName, threadSpan] (by decide) (.thread 7 3) (by decide)

/-- A span of the thread comes before its name: the thread is announced without a name, and
the name is never written. -/
theorem name_after_span_is_lost :
    (∀ r ∈ (converter fun _ => true).outputs .new [threadSpan, threadName], r = .ok ()) ∧
    ¬ NameSurvives ((converter fun _ => true).final .new [threadSpan, threadName])
      [threadSpan.event, threadName.event] (.thread 7 3) := by
  refine ⟨by decide, ?_⟩
  rw [(run_inv (fun _ => true) [threadSpan, threadName]).nameSurvives_iff]
  intro h
  exact absurd (h "main" (by decide)) (by decide)

end Orders
end Manytrace.Converter
