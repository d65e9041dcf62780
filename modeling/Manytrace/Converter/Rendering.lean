import Manytrace.Converter.Names

/-! What the trace shows of the events: every event whose track exists when it comes is on the
track's timeline, once, in the order of the events. -/
namespace Manytrace.Converter
open Manytrace.Core Manytrace.Protocol

/-- A track event with its time, if the packet is one. -/
def TracePacket.trackEvent? (p : TracePacket) : Option (ℕ × TrackEvent) :=
  match p.data, p.timestamp with
  | .trackEvent e, some t => some (t, e)
  | _, _ => none

def trackEvents (c : PerfettoConverter) : List (ℕ × TrackEvent) :=
  c.packets.filterMap fun p => p.2.trackEvent?

/-- What the reader of the trace sees on the track with this uuid. -/
def timeline (c : PerfettoConverter) (uuid : ℕ) : List (ℕ × TrackEvent) :=
  (trackEvents c).filter fun e => e.2.trackUuid = uuid

def sliceBegin (uuid : ℕ) (s : Span) : ℕ × TrackEvent :=
  (s.startTimestamp,
    { trackUuid := uuid, type := .sliceBegin, name := some s.name
      debugAnnotations := createDebugAnnotations s.labels })

def sliceEnd (uuid : ℕ) (s : Span) : ℕ × TrackEvent :=
  (s.endTimestamp, { trackUuid := uuid, type := .sliceEnd })

/-- An event on the track with this uuid. -/
def drawn (uuid : ℕ) : Event → List (ℕ × TrackEvent)
  | .counter k =>
    [(k.timestamp, { trackUuid := uuid, type := .counter, doubleCounterValue := some k.value })]
  | .span s => [sliceBegin uuid s, sliceEnd uuid s]
  | .instant i =>
    [(i.timestamp, { trackUuid := uuid, type := .instant, name := some i.name
                     debugAnnotations := createDebugAnnotations i.labels })]
  | _ => []

/-- The track that an event is drawn on. -/
def trackOf : Event → Option TrackId
  | .counter k => some k.trackId
  | .span s => some s.trackId
  | .instant i => some i.trackId
  | _ => none

/-- The track that an event finds when the tracks `known` exist. -/
def visible (known : List TrackId) (e : Event) : Option TrackId :=
  (trackOf e).filter (· ∈ known ++ created known e)

/-- All events that find their tracks, as they are drawn on them. -/
def rendered (map : TrackId → Option ℕ) : List TrackId → List Event → List (ℕ × TrackEvent)
  | _, [] => []
  | known, e :: es =>
    (((visible known e).bind map).elim [] fun u => drawn u e) ++
      rendered map (known ++ created known e) es

/-- The events that find the track. -/
def shown (id : TrackId) : List TrackId → List Event → List Event
  | _, [] => []
  | known, e :: es =>
    (if visible known e = some id then [e] else []) ++ shown id (known ++ created known e) es

theorem uuid_of_mem_drawn {uuid : ℕ} {event : Event} {e : ℕ × TrackEvent}
    (h : e ∈ drawn uuid event) : e.2.trackUuid = uuid := by
  cases event with
  | span s =>
    simp only [drawn, List.mem_cons, List.not_mem_nil, or_false] at h
    rcases h with rfl | rfl <;> rfl
  | counter k =>
    rw [List.mem_singleton.mp h]
  | instant i =>
    rw [List.mem_singleton.mp h]
  | _ => simp [drawn] at h

/-! ## What the operations add -/

def PacketData.descriptor? : PacketData → Option TrackDescriptor
  | .trackDescriptor d => some d
  | _ => none

/-- The descriptors written for a track. -/
def descriptors (c : PerfettoConverter) (id : TrackId) : List TrackDescriptor :=
  c.packets.filterMap fun p => if p.1 = some id then p.2.data.descriptor? else none

/-- What an operation adds: events to the trace, and descriptors of tracks that are neither
threads nor processes. Tracks stay where they are. -/
structure Extends (c t : PerfettoConverter) (evs : List (ℕ × TrackEvent))
    (said : TrackId → List TrackDescriptor) : Prop where
  keeps : ∀ id u, c.trackMap id = some u → t.trackMap id = some u
  events : trackEvents t = trackEvents c ++ evs
  descriptors : ∀ id, isOther id = true → descriptors t id = descriptors c id ++ said id

/-- Nothing is added that could be seen. -/
def Quiet (c t : PerfettoConverter) : Prop := Extends c t [] fun _ => []

section Extends
variable {c t t' : PerfettoConverter} {evs : List (ℕ × TrackEvent)}
  {said : TrackId → List TrackDescriptor}

theorem Quiet.refl (c : PerfettoConverter) : Quiet c c :=
  ⟨fun _ _ h => h, (List.append_nil _).symm, fun _ _ => (List.append_nil _).symm⟩

theorem Quiet.extends (h : Quiet c t) (h' : Extends t t' evs said) : Extends c t' evs said where
  keeps id u hu := h'.keeps id u (h.keeps id u hu)
  events := by rw [h'.events, h.events, List.append_nil]
  descriptors id hid := by rw [h'.descriptors id hid, h.descriptors id hid, List.append_nil]

theorem Quiet.trans (h : Quiet c t) (h' : Quiet t t') : Quiet c t' := h.extends h'

theorem Extends.draw {evs' : List (ℕ × TrackEvent)} (h : Extends c t evs said)
    (h' : Extends t t' evs' fun _ => []) : Extends c t' (evs ++ evs') said where
  keeps id u hu := h'.keeps id u (h.keeps id u hu)
  events := by rw [h'.events, h.events, List.append_assoc]
  descriptors id hid := by rw [h'.descriptors id hid, h.descriptors id hid, List.append_nil]

theorem Extends.congr {said' : TrackId → List TrackDescriptor} (h : Extends c t evs said)
    (hsaid : ∀ id, isOther id = true → said id = said' id) : Extends c t evs said' :=
  ⟨h.keeps, h.events, fun id hid => by rw [h.descriptors id hid, hsaid id hid]⟩

end Extends

section Operations
variable (io : ℕ → Bool) (c : PerfettoConverter)

theorem writePacket_extends (owner : Option TrackId) (p : TracePacket) (streamId : Option ℕ) :
    (writePacket io owner p streamId).Post c
      (fun _ t => t.trackMap = c.trackMap ∧ Extends c t p.trackEvent?.toList
        fun id => if owner = some id then p.data.descriptor?.toList else [])
      (Quiet c) := by
  unfold Op.Post writePacket
  by_cases hio : io c.writes = true
  · simp only [if_pos hio]
    have hsame : TracePacket.trackEvent?
        { p with trustedPacketSequenceId := streamId.getD (2 ^ 32 - 1) } = p.trackEvent? := rfl
    refine ⟨trivial, fun _ _ hu => hu, ?_, fun id _ => ?_⟩
    · simp only [trackEvents, List.filterMap_append, List.filterMap_cons, List.filterMap_nil,
        hsame]
      cases p.trackEvent? <;> rfl
    · simp only [descriptors, List.filterMap_append, List.filterMap_cons, List.filterMap_nil]
      by_cases hid : owner = some id
      · simp only [if_pos hid]
        cases p.data.descriptor? <;> rfl
      · simp only [if_neg hid]
  · simp only [if_neg hio]
    exact ⟨fun _ _ hu => hu, (List.append_nil _).symm, fun _ _ => (List.append_nil _).symm⟩

/-- An event is drawn, and nothing else. -/
theorem writeTrackEvent_extends (owner : TrackId) (e : TrackEvent) (timestamp : ℕ) :
    (writeTrackEvent io owner e timestamp).Post c
      (fun _ t => t.trackMap = c.trackMap ∧ Extends c t [(timestamp, e)] fun _ => [])
      (Quiet c) := by
  refine (writePacket_extends io c (some owner) _ none).mono (fun _ t ht => ?_) (fun _ h => h)
  exact ⟨ht.1, ht.2.congr fun _ _ => ite_self _⟩

theorem writeNewTrack_extends (owner : TrackId) (descriptor : ℕ → TrackDescriptor) :
    (writeNewTrack io owner descriptor).Post c
      (fun u t => t.trackMap = c.trackMap ∧ Extends c t [] fun id =>
        if owner = id then [descriptor u] else [])
      (Quiet c) := by
  have hnext : nextTrackUuid.Post c (fun _ t => t.trackMap = c.trackMap ∧ Quiet c t)
      (Quiet c) := by
    unfold Op.Post nextTrackUuid
    by_cases hlt : c.trackUuidCounter + 1 < 2 ^ 64
    · simp only [if_pos hlt]
      exact ⟨trivial, fun _ _ hu => hu, (List.append_nil _).symm,
        fun _ _ => (List.append_nil _).symm⟩
    · simp only [if_neg hlt]
      exact Quiet.refl c
  apply hnext.bind
  intro u t hpost
  obtain ⟨hmap, ht⟩ := hpost
  have hwrite := writePacket_extends io t (some owner) { data := .trackDescriptor (descriptor u) }
    none
  apply (hwrite.mono (fun _ _ h => h) (fun _ h => ht.trans h)).bind
  intro _ t' hex
  obtain ⟨hmap', ht'⟩ := hex
  refine Op.post_pure ⟨hmap'.trans hmap, (ht.extends ht').congr fun id _ => ?_⟩
  simp [PacketData.descriptor?]

/-- A track is inserted for the first time, or under the uuid that it has. -/
theorem insertTrack_extends {id : TrackId} {u : ℕ} {E : PerfettoConverter → Prop}
    (h : ∀ v, c.trackMap id = some v → v = u) :
    (insertTrack id u).Post c (fun _ t => t.trackMap id = some u ∧
      (∀ id', id' ≠ id → t.trackMap id' = c.trackMap id') ∧ Quiet c t) E := by
  refine Op.post_modify ⟨by simp, fun id' hne => by simp [Function.update_of_ne hne], ?_,
    (List.append_nil _).symm, fun _ _ => (List.append_nil _).symm⟩
  intro id' v hv
  by_cases hid : id' = id
  · subst hid
    simp [h v hv]
  · simpa [Function.update_of_ne hid] using hv

/-- A thread or a process has its track afterwards, and no other kind of track is touched. -/
structure Ensured (c : PerfettoConverter) (id : TrackId) (u : ℕ) (t : PerfettoConverter) :
    Prop where
  mapped : t.trackMap id = some u
  others : ∀ id', isOther id' = true → t.trackMap id' = c.trackMap id'
  quiet : Quiet c t

theorem ensureProcessTrack_extends (pid : ℤ) (name : Option String) :
    (ensureProcessTrack io pid name).Post c (fun u t => Ensured c (.process pid) u t ∧
      ∀ id, id ≠ .process pid → t.trackMap id = c.trackMap id) (Quiet c) := by
  apply Op.post_get_bind
  cases hm : c.trackMap (.process pid) with
  | some u => exact Op.post_pure ⟨⟨hm, fun _ _ => rfl, .refl c⟩, fun _ _ => rfl⟩
  | none =>
    apply (writeNewTrack_extends io c (.process pid) _).bind
    intro u t hpost
    obtain ⟨hmap, ht⟩ := hpost
    have hquiet : Quiet c t := ht.congr fun id hid => if_neg (by rintro rfl; cases hid)
    have hnew : ∀ v, t.trackMap (.process pid) = some v → v = u := by simp [hmap, hm]
    apply (insertTrack_extends t hnew).bind
    intro _ t' hex
    obtain ⟨hu, hother, ht'⟩ := hex
    have hrest : ∀ id, id ≠ .process pid → t'.trackMap id = c.trackMap id := by
      intro id hne
      rw [hother id hne, hmap]
    exact Op.post_pure ⟨⟨hu, fun id hid => hrest id (by rintro rfl; cases hid),
      hquiet.trans ht'⟩, hrest⟩

theorem ensureThreadTrack_extends (pid tid : ℤ) (name : Option String) :
    (ensureThreadTrack io pid tid name).Post c (Ensured c (.thread tid pid)) (Quiet c) := by
  have hproc := ensureProcessTrack_extends io c pid none
  have hthread : ∀ id, isOther id = true → id ≠ .thread tid pid := by
    rintro id hid rfl
    cases hid
  apply Op.post_get_bind
  cases hm : c.trackMap (.thread tid pid) with
  | some u =>
    by_cases hname : name.isSome = true
    · simp only [if_pos hname]
      apply hproc.bind
      intro parent t hpost
      obtain ⟨hensured, -⟩ := hpost
      have hwrite := writePacket_extends io t (some (.thread tid pid))
        { data := .trackDescriptor (threadDescriptor pid tid name parent u) } none
      apply (hwrite.mono (fun _ _ h => h) (fun _ h => hensured.quiet.trans h)).bind
      intro _ t' hex
      obtain ⟨hmap, ht'⟩ := hex
      have hquiet : Quiet t t' := ht'.congr fun id hid => if_neg fun heq =>
        hthread id hid (Option.some.inj heq).symm
      have hboth : Quiet c t' := hensured.quiet.trans hquiet
      exact Op.post_pure ⟨hboth.keeps _ _ hm,
        fun id hid => by rw [hmap, hensured.others id hid], hboth⟩
    · simp only [if_neg hname]
      exact Op.post_pure ⟨hm, fun _ _ => rfl, .refl c⟩
  | none =>
    apply hproc.bind
    intro parent t hpost
    obtain ⟨hensured, hother⟩ := hpost
    have hwrite := writeNewTrack_extends io t (.thread tid pid)
      (threadDescriptor pid tid name parent)
    apply (hwrite.mono (fun _ _ h => h) (fun _ h => hensured.quiet.trans h)).bind
    intro u t' hpost'
    obtain ⟨hmap, ht'⟩ := hpost'
    have hquiet : Quiet t t' := ht'.congr fun id hid => if_neg (Ne.symm (hthread id hid))
    have hnew : ∀ v, t'.trackMap (.thread tid pid) = some v → v = u := by
      simp [hmap, hother (.thread tid pid) (by simp), hm]
    apply (insertTrack_extends t' hnew).bind
    intro _ t'' hex
    obtain ⟨hu, hrest, ht''⟩ := hex
    refine Op.post_pure ⟨hu, fun id hid => ?_, (hensured.quiet.trans hquiet).trans ht''⟩
    rw [hrest id (hthread id hid), hmap, hensured.others id hid]

/-- A track that is created where it is used, and inserted once more. -/
theorem ensure_insert_extends {id : TrackId} {x : ConvertOp ℕ} {α : Type} (f : ℕ → α)
    (hx : x.Post c (Ensured c id) (Quiet c)) :
    (x >>= fun u => insertTrack id u >>= fun _ => pure (f u)).Post c
      (fun r t => ∃ u, r = f u ∧ Ensured c id u t) (Quiet c) := by
  apply hx.bind
  intro u t hensured
  have hsame : ∀ v, t.trackMap id = some v → v = u := by simp [hensured.mapped]
  apply (insertTrack_extends t hsame).bind
  intro _ t' hex
  obtain ⟨hu, hrest, ht'⟩ := hex
  refine Op.post_pure ⟨u, rfl, hu, fun id' hid' => ?_, hensured.quiet.trans ht'⟩
  by_cases hid : id' = id
  · subst hid
    rw [hu, ← hensured.others id' hid', hensured.mapped]
  · rw [hrest id' hid, hensured.others id' hid']

theorem ensureProcess_ensured (pid : ℤ) (name : Option String) :
    (ensureProcessTrack io pid name).Post c (Ensured c (.process pid)) (Quiet c) :=
  (ensureProcessTrack_extends io c pid name).mono (fun _ _ h => h.1) (fun _ h => h)

/-- The result is what the map has for the track afterwards. -/
theorem eventTrack_extends (id : TrackId) :
    (eventTrack io id).Post c (fun r t => t.trackMap id = r ∧ Quiet c t) (Quiet c) := by
  apply Op.post_get_bind
  cases hm : c.trackMap id with
  | some u => exact Op.post_pure ⟨hm, .refl c⟩
  | none =>
    cases id with
    | thread tid pid =>
      refine (ensure_insert_extends c some (ensureThreadTrack_extends io c pid tid none)).mono
        (fun r t ht => ?_) (fun _ h => h)
      obtain ⟨u, rfl, hu⟩ := ht
      exact ⟨hu.mapped, hu.quiet⟩
    | process pid =>
      refine (ensure_insert_extends c some (ensureProcess_ensured io c pid none)).mono
        (fun r t ht => ?_) (fun _ h => h)
      obtain ⟨u, rfl, hu⟩ := ht
      exact ⟨hu.mapped, hu.quiet⟩
    | _ => exact Op.post_pure ⟨hm, .refl c⟩

/-- The uuid of the parent, if the parent exists or comes into being with the track. -/
def parentUuid (known : TrackId → Bool) (map : TrackId → Option ℕ) (t : Track) : ℕ :=
  match t.parent with
  | none => 0
  | some p => if known p.toId || !isOther p.toId then (map p.toId).getD 0 else 0

/-- The parent is the same with any later map. -/
theorem parentTrack_extends (t : Track) :
    (parentTrack io t.parent).Post c (fun parent d =>
      (∀ map : TrackId → Option ℕ, (∀ id u, d.trackMap id = some u → map id = some u) →
        parentUuid (fun id => (c.trackMap id).isSome) map t = parent) ∧
      (∀ id, isOther id = true → d.trackMap id = c.trackMap id) ∧ Quiet c d) (Quiet c) := by
  unfold parentUuid
  cases t.parent with
  | none => exact Op.post_pure ⟨fun _ _ => rfl, fun _ _ => rfl, .refl c⟩
  | some parent =>
    have hensured : ∀ {u : ℕ} {d : PerfettoConverter}, isOther parent.toId = false →
        Ensured c parent.toId u d → ∀ map : TrackId → Option ℕ,
        (∀ id u, d.trackMap id = some u → map id = some u) →
        (if (c.trackMap parent.toId).isSome || !isOther parent.toId then
          (map parent.toId).getD 0 else 0) = u := by
      intro u d hid h map hmap
      simp [hid, hmap _ _ h.mapped]
    apply Op.post_get_bind
    cases hm : c.trackMap parent.toId with
    | some u =>
      exact Op.post_pure ⟨fun map hmap => by simp [hm, hmap _ _ hm], fun _ _ => rfl, .refl c⟩
    | none =>
      cases parent with
      | thread tid pid =>
        refine (ensure_insert_extends c id (ensureThreadTrack_extends io c pid tid none)).mono
          (fun r d hd => ?_) (fun _ h => h)
        obtain ⟨u, rfl, hu⟩ := hd
        exact ⟨hensured rfl hu, hu.others, hu.quiet⟩
      | process pid =>
        refine (ensure_insert_extends c id (ensureProcess_ensured io c pid none)).mono
          (fun r d hd => ?_) (fun _ h => h)
        obtain ⟨u, rfl, hu⟩ := hd
        exact ⟨hensured rfl hu, hu.others, hu.quiet⟩
      | _ =>
        refine Op.post_pure ⟨fun map _ => if_neg ?_, fun _ _ => rfl, .refl c⟩
        simp only [hm]
        exact Bool.false_ne_true

/-- A counter without a parent gets the parent 0, another track none. -/
def describe (track : Track) (parent uuid : ℕ) : TrackDescriptor :=
  match track.trackType with
  | .counter _ unit =>
    { uuid := uuid, parentUuid := some parent, name := some track.name, counter := some ⟨unit⟩ }
  | _ =>
    { uuid := uuid, parentUuid := if 0 < parent then some parent else none
      name := some track.name }

/-- The uuid of a track's own descriptor does not clash with the map. -/
theorem ownTrack_extends (track : Track) (parent : ℕ)
    (hnone : isOther track.trackType.toId = true → c.trackMap track.trackType.toId = none) :
    (ownTrack io track parent).Post c
      (fun u t => (∀ v, t.trackMap track.trackType.toId = some v → v = u) ∧
        (∀ id, isOther id = true → t.trackMap id = c.trackMap id) ∧
        Extends c t [] fun id =>
          if track.trackType.toId = id then [describe track parent u] else [])
      (Quiet c) := by
  have hnew : ∀ descriptor : ℕ → TrackDescriptor, isOther track.trackType.toId = true →
      (∀ u, descriptor u = describe track parent u) →
      (writeNewTrack io track.trackType.toId descriptor).Post c
        (fun u t => (∀ v, t.trackMap track.trackType.toId = some v → v = u) ∧
          (∀ id, isOther id = true → t.trackMap id = c.trackMap id) ∧
          Extends c t [] fun id =>
            if track.trackType.toId = id then [describe track parent u] else [])
        (Quiet c) := by
    intro descriptor hother hdescriptor
    refine (writeNewTrack_extends io c _ descriptor).mono (fun u t ht => ?_) (fun _ h => h)
    obtain ⟨hmap, hext⟩ := ht
    refine ⟨by simp [hmap, hnone hother], fun id _ => by rw [hmap], ?_⟩
    rw [← hdescriptor u]
    exact hext
  have hold : ∀ {u : ℕ} {t : PerfettoConverter} {id : TrackId}, isOther id = false →
      Ensured c id u t → (∀ v, t.trackMap id = some v → v = u) ∧
        (∀ id', isOther id' = true → t.trackMap id' = c.trackMap id') ∧
        Extends c t [] fun id' => if id = id' then [describe track parent u] else [] := by
    intro u t id hid h
    refine ⟨by simp [h.mapped], h.others, h.quiet.congr fun id' hid' => ?_⟩
    rw [if_neg (by rintro rfl; rw [hid] at hid'; cases hid')]
  unfold ownTrack
  cases htype : track.trackType with
  | cpu n =>
    rw [htype] at hnew
    exact hnew _ rfl fun u => by simp [describe, htype]
  | custom n =>
    rw [htype] at hnew
    exact hnew _ rfl fun u => by simp [describe, htype]
  | counter n unit =>
    rw [htype] at hnew
    exact hnew _ rfl fun u => by simp [describe, htype]
  | thread tid pid =>
    exact (ensureThreadTrack_extends io c pid tid (some track.name)).mono
      (fun _ _ ht => hold rfl ht) (fun _ h => h)
  | process pid =>
    exact (ensureProcess_ensured io c pid (some track.name)).mono
      (fun _ _ ht => hold rfl ht) (fun _ h => h)

/-- The descriptor that an event leads to, when it is converted from `c` to `t`. -/
def saidBy (c t : PerfettoConverter) (event : Event) (id : TrackId) : List TrackDescriptor :=
  match event with
  | .track track =>
    if track.trackType.toId = id ∧ c.trackMap id = none then
      [describe track (parentUuid (fun id => (c.trackMap id).isSome) t.trackMap track)
        ((t.trackMap id).getD 0)]
    else []
  | _ => []

theorem convertTrack_extends (track : Track) :
    (convertTrack io track).Post c (fun _ t => (t.trackMap track.trackType.toId).isSome ∧
      (∀ id, isOther id = true → id ≠ track.trackType.toId → t.trackMap id = c.trackMap id) ∧
      Extends c t [] (saidBy c t (.track track))) (Quiet c) := by
  apply Op.post_get_bind
  cases hm : c.trackMap track.trackType.toId with
  | some u =>
    refine Op.post_pure ⟨by simp [hm], fun _ _ _ => rfl, (Quiet.refl c).congr fun id _ => ?_⟩
    have hskip : ¬ (track.trackType.toId = id ∧ c.trackMap id = none) := by
      rintro ⟨rfl, hnone⟩
      rw [hm] at hnone
      cases hnone
    rw [saidBy, if_neg hskip]
  | none =>
    apply (parentTrack_extends io c track).bind
    intro parent t hpost
    obtain ⟨hparent, hother, ht⟩ := hpost
    have hown := ownTrack_extends io t track parent (fun hid => by rw [hother _ hid, hm])
    apply (hown.mono (fun _ _ h => h) (fun _ h => ht.trans h)).bind
    intro u t' hpost'
    obtain ⟨hu, hother', ht'⟩ := hpost'
    refine (insertTrack_extends t' hu).mono (fun _ t'' h => ?_) (fun _ h => h)
    obtain ⟨hmapped, hrest, hquiet⟩ := h
    have hext := (ht.extends ht').draw hquiet
    refine ⟨by simp [hmapped], fun id hid hne => ?_, hext.congr fun id hid => ?_⟩
    · rw [hrest id hne, hother' id hid, hother id hid]
    · simp only [saidBy]
      by_cases hid' : track.trackType.toId = id
      · subst hid'
        have hsame : parentUuid (fun id => (c.trackMap id).isSome) t''.trackMap track = parent :=
          hparent t''.trackMap fun id v hv => hquiet.keeps id v (ht'.keeps id v hv)
        rw [if_pos rfl, if_pos ⟨rfl, hm⟩, hmapped, hsame]
        rfl
      · rw [if_neg hid', if_neg fun h => hid' h.1]

end Operations

/-- A conversion that fails may leave the beginning of a slice behind. -/
inductive Fails (c : PerfettoConverter) : Event → PerfettoConverter → Prop
  | silent {event : Event} {t : PerfettoConverter} (h : Quiet c t) : Fails c event t
  | open {s : Span} {t : PerfettoConverter} {u : ℕ}
    (h : Extends c t [sliceBegin u s] fun _ => []) : Fails c (.span s) t

theorem convertEvent_extends (io : ℕ → Bool) (c : PerfettoConverter) (event : Event)
    (streamId : Option ℕ) :
    (convertEvent io event streamId).Post c
      (fun _ t => Extends c t
        (((trackOf event).bind t.trackMap).elim [] fun u => drawn u event) (saidBy c t event))
      (Fails c event) := by
  cases event with
  | internedData data =>
    exact (writePacket_extends io c none _ streamId).mono (fun _ _ h => h.2) (fun _ => .silent)
  | sample sample =>
    simp only [convertEvent]
    cases sample.trackId with
    | thread tid pid =>
      exact (writePacket_extends io c none _ streamId).mono (fun _ _ h => h.2) (fun _ => .silent)
    | _ => exact Op.post_pure (Quiet.refl c)
  | counter counter =>
    apply Op.post_get_bind
    cases hm : c.trackMap counter.trackId with
    | none =>
      have hnone : (trackOf (.counter counter)).bind c.trackMap = none := hm
      refine Op.post_pure ?_
      rw [hnone]
      exact Quiet.refl c
    | some u =>
      refine (writeTrackEvent_extends io c counter.trackId _ counter.timestamp).mono
        (fun _ t h => ?_) (fun _ => .silent)
      have hu : (trackOf (.counter counter)).bind t.trackMap = some u := by
        change t.trackMap counter.trackId = some u
        rw [h.1, hm]
      rw [hu]
      exact h.2
  | span span =>
    apply ((eventTrack_extends io c span.trackId).mono (fun _ _ h => h) fun _ => .silent).bind
    rintro (_ | u) t ⟨hu, ht⟩
    · have hnone : (trackOf (.span span)).bind t.trackMap = none := hu
      refine Op.post_pure ?_
      rw [hnone]
      exact ht
    · have hbegin := writeTrackEvent_extends io t span.trackId (sliceBegin u span).2
        span.startTimestamp
      apply (hbegin.mono (fun _ _ h => h) fun _ h => .silent (ht.trans h)).bind
      intro _ t' hex
      obtain ⟨hmap, ht'⟩ := hex
      have hopen : Extends c t' [sliceBegin u span] fun _ => [] := ht.extends ht'
      have hend := writeTrackEvent_extends io t' span.trackId (sliceEnd u span).2
        span.endTimestamp
      refine hend.mono (fun _ t'' h => ?_) fun t'' h => .open (hopen.draw h)
      have hu'' : (trackOf (.span span)).bind t''.trackMap = some u := by
        change t''.trackMap span.trackId = some u
        rw [h.1, hmap, hu]
      rw [hu'']
      exact hopen.draw h.2
  | instant instant =>
    apply ((eventTrack_extends io c instant.trackId).mono (fun _ _ h => h) fun _ => .silent).bind
    rintro (_ | u) t ⟨hu, ht⟩
    · have hnone : (trackOf (.instant instant)).bind t.trackMap = none := hu
      refine Op.post_pure ?_
      rw [hnone]
      exact ht
    · refine (writeTrackEvent_extends io t instant.trackId _ instant.timestamp).mono
        (fun _ t' h => ?_) fun _ h => .silent (ht.trans h)
      have hu' : (trackOf (.instant instant)).bind t'.trackMap = some u := by
        change t'.trackMap instant.trackId = some u
        rw [h.1, hu]
      rw [hu']
      exact ht.extends h.2
  | track track =>
    exact (convertTrack_extends io c track).mono (fun _ _ h => h.2.2) (fun _ => .silent)

/-! ## Whole runs -/

theorem Fails.keeps {c t : PerfettoConverter} {event : Event} (h : Fails c event t)
    {id : TrackId} {u : ℕ} (hu : c.trackMap id = some u) : t.trackMap id = some u := by
  cases h with
  | silent hext => exact hext.keeps id u hu
  | «open» hext => exact hext.keeps id u hu

section Runs
variable (io : ℕ → Bool)

theorem final_keeps (c : PerfettoConverter) (messages : List Message) {id : TrackId} {u : ℕ}
    (h : c.trackMap id = some u) : ((converter io).final c messages).trackMap id = some u := by
  refine Machine.invariant (M := converter io) (G := fun _ _ => True)
    (I := fun t => t.trackMap id = some u) (fun t m ht _ => ?_) h
    (Machine.meets_of_forall (P := fun _ => True) (fun _ _ => trivial) c)
  have hpost := convertEvent_extends io t m.event m.streamId
  exact (hpost.mono (fun _ _ h' => h'.keeps id u ht) (fun _ h' => h'.keeps ht)).always

theorem step_lists {c : PerfettoConverter} {known : List TrackId} (hl : Lists known c)
    (hn : Nested c) (m : Message) (hok : (convertEvent io m.event m.streamId c).1 = .ok ()) :
    Lists (known ++ created known m.event) ((converter io).step c m).1 ∧
      Nested ((converter io).step c m).1 := by
  have hadds := (convertEvent_adds io hl hn m.event m.streamId).ok hok
  refine ⟨fun id => ?_, hadds.nested hn fun _ _ => process_mem_created⟩
  rw [List.mem_append, hl id]
  exact (hadds.keys id).symm

theorem run_lists {c : PerfettoConverter} {known : List TrackId} (hl : Lists known c)
    (hn : Nested c) (messages : List Message)
    (hok : ∀ r ∈ (converter io).outputs c messages, r = .ok ()) :
    Lists ((messages.map fun m => m.event).foldl (fun known e => known ++ created known e) known)
      ((converter io).final c messages) := by
  induction messages generalizing c known with
  | nil => exact hl
  | cons m messages ih =>
    have hfirst : (convertEvent io m.event m.streamId c).1 = .ok () :=
      hok _ (by simp [converter])
    obtain ⟨hl', hn'⟩ := step_lists io hl hn m hfirst
    exact ih hl' hn' fun r hr => hok r (by
      rw [Machine.outputs_cons]
      exact List.mem_append_right _ hr)

/-- The events of one conversion that succeeds, with any later map. -/
theorem step_rendered {c : PerfettoConverter} {known : List TrackId} (hl : Lists known c)
    (hn : Nested c) (m : Message) (hok : (convertEvent io m.event m.streamId c).1 = .ok ())
    {map : TrackId → Option ℕ}
    (hmap : ∀ id u, (convertEvent io m.event m.streamId c).2.trackMap id = some u →
      map id = some u) :
    trackEvents (convertEvent io m.event m.streamId c).2 = trackEvents c ++
      ((visible known m.event).bind map).elim [] fun u => drawn u m.event := by
  have hext := (convertEvent_extends io c m.event m.streamId).ok hok
  have hadds := (convertEvent_adds io hl hn m.event m.streamId).ok hok
  rw [hext.events]
  unfold visible
  cases hid : trackOf m.event with
  | none => rfl
  | some id =>
    have hkeys := hadds.keys id
    rw [← hl id, ← List.mem_append] at hkeys
    cases hu : (convertEvent io m.event m.streamId c).2.trackMap id with
    | none =>
      have hnot : id ∉ known ++ created known m.event := by simpa [hu] using hkeys
      simp only [Option.bind_some, hu, Option.filter_some, decide_eq_true_iff, if_neg hnot]
      rfl
    | some u =>
      have hmem : id ∈ known ++ created known m.event := by simpa [hu] using hkeys
      simp only [Option.bind_some, hu, Option.filter_some, decide_eq_true_iff, if_pos hmem,
        hmap id u hu]

theorem run_rendered {c : PerfettoConverter} {known : List TrackId} (hl : Lists known c)
    (hn : Nested c) (messages : List Message)
    (hok : ∀ r ∈ (converter io).outputs c messages, r = .ok ()) :
    trackEvents ((converter io).final c messages) = trackEvents c ++
      rendered ((converter io).final c messages).trackMap known
        (messages.map fun m => m.event) := by
  induction messages generalizing c known with
  | nil => simp [rendered]
  | cons m messages ih =>
    have hfirst : (convertEvent io m.event m.streamId c).1 = .ok () :=
      hok _ (by simp [converter])
    obtain ⟨hl', hn'⟩ := step_lists io hl hn m hfirst
    have hrest := ih hl' hn' fun r hr => hok r (by
      rw [Machine.outputs_cons]
      exact List.mem_append_right _ hr)
    have hstep := step_rendered io hl hn m hfirst
      fun id u hu => final_keeps io ((converter io).step c m).1 messages hu
    change trackEvents ((converter io).step c m).1 = _ at hstep
    rw [Machine.final_cons, hrest, hstep, List.append_assoc]
    rfl

end Runs

/-- On the timeline of one track there are the events of that track alone. -/
theorem filter_rendered {map : TrackId → Option ℕ}
    (hinj : ∀ id id' u, map id = some u → map id' = some u → id = id') {id : TrackId} {u : ℕ}
    (hu : map id = some u) (known : List TrackId) (es : List Event) :
    (rendered map known es).filter (fun e => e.2.trackUuid = u) =
      (shown id known es).flatMap (drawn u) := by
  induction es generalizing known with
  | nil => rfl
  | cons e es ih =>
    rw [rendered, shown, List.filter_append, List.flatMap_append, ih]
    congr 1
    by_cases hid : visible known e = some id
    · have hall : ∀ x ∈ drawn u e, decide (x.2.trackUuid = u) = true := fun x hx =>
        decide_eq_true (uuid_of_mem_drawn hx)
      rw [if_pos hid, hid, Option.bind_some, hu]
      simpa using List.filter_eq_self.mpr hall
    · rw [if_neg hid, List.flatMap_nil, List.filter_eq_nil_iff]
      intro x hx
      cases hv : (visible known e).bind map with
      | none => simp [hv] at hx
      | some v =>
        obtain ⟨id', hid', hv'⟩ := Option.bind_eq_some_iff.mp hv
        rw [hv] at hx
        rw [decide_eq_true_iff, uuid_of_mem_drawn hx]
        rintro rfl
        exact hid (hinj id' id v hv' hu ▸ hid')

theorem lists_new : Lists [] PerfettoConverter.new := by
  intro id
  simp [PerfettoConverter.new]

theorem nested_new : Nested PerfettoConverter.new := by
  intro tid pid h
  simp [PerfettoConverter.new] at h

/-- If all writes succeed, the trace has exactly the events that find their tracks, in their
order, and each track has exactly its own. -/
theorem events_preserved (io : ℕ → Bool) (messages : List Message)
    (hok : ∀ r ∈ (converter io).outputs .new messages, r = .ok ()) :
    let c := (converter io).final .new messages
    trackEvents c = rendered c.trackMap [] (messages.map fun m => m.event) ∧
      ∀ id u, c.trackMap id = some u →
        timeline c u = (shown id [] (messages.map fun m => m.event)).flatMap (drawn u) := by
  intro c
  have hall : trackEvents c = rendered c.trackMap [] (messages.map fun m => m.event) :=
    run_rendered io lists_new nested_new messages hok
  refine ⟨hall, fun id u hu => ?_⟩
  unfold timeline
  rw [hall]
  exact filter_rendered (run_inv io messages).injective hu [] _

/-- A counter comes before its track, and again after it; a span makes its thread. -/
def lateTrack : List Message :=
  let counter : Event := .counter ⟨"load", 0, 10, .counter 4, ⟨[], [], [], []⟩, none⟩
  [⟨counter, none⟩, ⟨.track ⟨"load", .counter 4 none, none⟩, none⟩, ⟨counter, none⟩,
    ⟨.span ⟨"work", 1, 20, 30, .thread 7 3, ⟨[], [], [], []⟩⟩, none⟩]

theorem events_preserved_lateTrack :
    (trackEvents ((converter fun _ => true).final .new lateTrack)).length = 3 ∧
      trackEvents ((converter fun _ => true).final .new lateTrack) =
        rendered ((converter fun _ => true).final .new lateTrack).trackMap []
          (lateTrack.map fun m => m.event) :=
  ⟨by decide, (events_preserved (fun _ => true) lateTrack (by decide)).1⟩

end Manytrace.Converter
