import Manytrace.Core.Log
import Manytrace.Converter.Converter

/-! The packets of the converter are referentially closed: what an event or a descriptor
refers to has been declared before, and a uuid belongs to one track. -/
namespace Manytrace.Converter
open Manytrace.Core Manytrace.Protocol

/-- The uuids a packet needs: the track of an event, the parent of a track. -/
def PacketData.refs : PacketData → List ℕ
  | .trackEvent e => [e.trackUuid]
  | .trackDescriptor d => d.parentUuid.toList.filter (· ≠ 0)
  | _ => []

/-- The uuid of the track a packet is about. -/
def PacketData.uuid? : PacketData → Option ℕ
  | .trackEvent e => some e.trackUuid
  | .trackDescriptor d => some d.uuid
  | _ => none

def PacketData.declares? : PacketData → Option ℕ
  | .trackDescriptor d => some d.uuid
  | _ => none

def declared (ps : List (Option TrackId × TracePacket)) : List ℕ :=
  ps.filterMap fun p => p.2.data.declares?

theorem declared_append (ps qs : List (Option TrackId × TracePacket)) :
    declared (ps ++ qs) = declared ps ++ declared qs :=
  List.filterMap_append ..

/-- Every packet needs only what was declared before it. -/
def Closed (ps : List (Option TrackId × TracePacket)) : Prop :=
  ∀ pre p post, ps = pre ++ p :: post → ∀ u ∈ p.2.data.refs, u ∈ declared pre

theorem closed_concat {ps : List (Option TrackId × TracePacket)}
    {p : Option TrackId × TracePacket} (h : Closed ps)
    (hp : ∀ u ∈ p.2.data.refs, u ∈ declared ps) : Closed (ps ++ [p]) :=
  forall_split_concat h hp

structure Inv (c : PerfettoConverter) : Prop where
  closed : Closed c.packets
  owned : ∀ p ∈ c.packets, ∀ u, p.2.data.uuid? = some u →
    ∃ id, p.1 = some id ∧ c.trackMap id = some u
  mapped : ∀ id u, c.trackMap id = some u → u ∈ declared c.packets
  injective : ∀ id id' u, c.trackMap id = some u → c.trackMap id' = some u → id = id'
  bounded : ∀ id u, c.trackMap id = some u → u < c.trackUuidCounter

theorem inv_new : Inv PerfettoConverter.new where
  closed := by
    intro pre p post h
    simp [PerfettoConverter.new] at h
  owned := by simp [PerfettoConverter.new]
  mapped := by simp [PerfettoConverter.new]
  injective := by simp [PerfettoConverter.new]
  bounded := by simp [PerfettoConverter.new]

section Writes
variable (io : ℕ → Bool) {c : PerfettoConverter}

/-- A packet can be written if its references are declared and its track is known. -/
theorem Inv.write (h : Inv c) {owner : Option TrackId} {p : TracePacket}
    (hrefs : ∀ u ∈ p.data.refs, u ∈ declared c.packets)
    (howner : ∀ u, p.data.uuid? = some u → ∃ id, owner = some id ∧ c.trackMap id = some u)
    (n : ℕ) : Inv { c with packets := c.packets ++ [(owner, p)], writes := n } where
  closed := closed_concat h.closed hrefs
  owned := by
    intro q hq u hu
    rcases List.mem_append.mp hq with hq | hq
    · exact h.owned q hq u hu
    · obtain rfl := List.mem_singleton.mp hq
      exact howner u hu
  mapped := by
    intro id u hid
    change u ∈ declared (c.packets ++ [(owner, p)])
    rw [declared_append]
    exact List.mem_append_left _ (h.mapped id u hid)
  injective := h.injective
  bounded := h.bounded

theorem Inv.attempt (h : Inv c) (n : ℕ) : Inv { c with writes := n } :=
  ⟨h.closed, h.owned, h.mapped, h.injective, h.bounded⟩

/-- The map is not touched by a write. -/
theorem writePacket_post (h : Inv c) {owner : Option TrackId} {p : TracePacket}
    (streamId : Option ℕ) (hrefs : ∀ u ∈ p.data.refs, u ∈ declared c.packets)
    (howner : ∀ u, p.data.uuid? = some u → ∃ id, owner = some id ∧ c.trackMap id = some u) :
    (writePacket io owner p streamId).Post c (fun _ t => Inv t ∧ t.trackMap = c.trackMap) Inv := by
  unfold Op.Post writePacket
  by_cases hio : io c.writes = true
  · simp only [if_pos hio]
    exact ⟨h.write (p := { p with trustedPacketSequenceId := streamId.getD (2 ^ 32 - 1) })
      hrefs howner _, trivial⟩
  · simp only [if_neg hio]
    exact h.attempt _

/-- A track that is declared and put into the map under a new uuid. -/
theorem Inv.declare (h : Inv c) {id : TrackId} {p : TracePacket} {d : TrackDescriptor}
    (hid : c.trackMap id = none) (hp : p.data = .trackDescriptor d)
    (hd : d.uuid = c.trackUuidCounter) (hrefs : ∀ u ∈ p.data.refs, u ∈ declared c.packets)
    (n : ℕ) :
    Inv ⟨c.trackUuidCounter + 1, Function.update c.trackMap id (some c.trackUuidCounter),
      c.packets ++ [(some id, p)], n⟩ := by
  have hold : ∀ {id' u}, id' ≠ id →
      Function.update c.trackMap id (some c.trackUuidCounter) id' = some u →
      c.trackMap id' = some u := by
    intro id' u hne hu
    rwa [Function.update_of_ne hne] at hu
  have hnew : ∀ {u}, Function.update c.trackMap id (some c.trackUuidCounter) id = some u →
      u = c.trackUuidCounter := by
    intro u hu
    rw [Function.update_self] at hu
    exact (Option.some.inj hu).symm
  refine ⟨closed_concat h.closed hrefs, ?_, ?_, ?_, ?_⟩
  · intro q hq u hu
    rcases List.mem_append.mp hq with hq | hq
    · obtain ⟨id', ho, hm⟩ := h.owned q hq u hu
      have hne : id' ≠ id := by
        rintro rfl
        rw [hid] at hm
        cases hm
      exact ⟨id', ho, by simpa only [Function.update_of_ne hne] using hm⟩
    · obtain rfl := List.mem_singleton.mp hq
      have hud : d.uuid = u := by simpa [hp, PacketData.uuid?] using hu
      exact ⟨id, rfl, by simp [← hud, hd]⟩
  · intro id' u hu
    change u ∈ declared (c.packets ++ [(some id, p)])
    rw [declared_append]
    by_cases hne : id' = id
    · subst hne
      rw [hnew hu]
      exact List.mem_append_right _ (by simp [declared, hp, PacketData.declares?, hd])
    · exact List.mem_append_left _ (h.mapped id' u (hold hne hu))
  · intro id₁ id₂ u h₁ h₂
    by_cases hne₁ : id₁ = id <;> by_cases hne₂ : id₂ = id
    · rw [hne₁, hne₂]
    · subst hne₁
      have hlt := h.bounded id₂ u (hold hne₂ h₂)
      rw [hnew h₁] at hlt
      omega
    · subst hne₂
      have hlt := h.bounded id₁ u (hold hne₁ h₁)
      rw [hnew h₂] at hlt
      omega
    · exact h.injective id₁ id₂ u (hold hne₁ h₁) (hold hne₂ h₂)
  · intro id' u hu
    change u < c.trackUuidCounter + 1
    by_cases hne : id' = id
    · subst hne
      rw [hnew hu]
      exact Nat.lt_succ_self _
    · exact Nat.lt_succ_of_lt (h.bounded id' u (hold hne hu))

/-- A new track: once it is in the map the invariant holds, and until then the map has not
changed. -/
theorem writeNewTrack_post (h : Inv c) {id : TrackId} (descriptor : ℕ → TrackDescriptor)
    (hid : c.trackMap id = none) (huuid : ∀ u, (descriptor u).uuid = u)
    (hrefs : ∀ u, ∀ v ∈ (PacketData.trackDescriptor (descriptor u)).refs, v ∈ declared c.packets) :
    (writeNewTrack io id descriptor).Post c
      (fun u t => Inv { t with trackMap := Function.update t.trackMap id (some u) } ∧
        t.trackMap = c.trackMap) Inv := by
  have hnext : nextTrackUuid.Post c (fun u t => u = c.trackUuidCounter ∧
      t = { c with trackUuidCounter := c.trackUuidCounter + 1 }) Inv := by
    unfold Op.Post nextTrackUuid
    by_cases hlt : c.trackUuidCounter + 1 < 2 ^ 64
    · simp only [if_pos hlt]
      exact ⟨trivial, trivial⟩
    · simp only [if_neg hlt]
      exact h
  apply hnext.bind
  intro u t hpost
  obtain ⟨rfl, rfl⟩ := hpost
  unfold Op.Post writeDescriptor writePacket
  dsimp only [Bind.bind, Op.bind, Pure.pure, Op.pure]
  by_cases hio : io c.writes = true
  · simp only [if_pos hio]
    exact ⟨h.declare hid rfl (huuid _) (hrefs _) _, trivial⟩
  · simp only [if_neg hio]
    exact ⟨h.closed, h.owned, h.mapped, h.injective,
      fun id' u hu => Nat.lt_succ_of_lt (h.bounded id' u hu)⟩

theorem insertTrack_post {id : TrackId} {u : ℕ}
    (h : Inv { c with trackMap := Function.update c.trackMap id (some u) }) :
    (insertTrack id u).Post c (fun _ t => Inv t ∧ t.trackMap id = some u ∧
      ∀ id', id' ≠ id → t.trackMap id' = c.trackMap id') Inv :=
  Op.post_modify ⟨h, by simp, fun id' hne => by simp [Function.update_of_ne hne]⟩

/-- Inserting what the map has already changes nothing. -/
theorem Inv.update_self (h : Inv c) {id : TrackId} {u : ℕ} (hu : c.trackMap id = some u) :
    Inv { c with trackMap := Function.update c.trackMap id (some u) } := by
  have he : Function.update c.trackMap id (some u) = c.trackMap := by
    rw [← hu, Function.update_eq_self]
  rw [he]
  exact h

end Writes

section Tracks
variable (io : ℕ → Bool) {c : PerfettoConverter}

/-- A track that does not live in a process. -/
def isOther : TrackId → Bool
  | .thread _ _ | .process _ => false
  | _ => true

/-- The process track is in the map afterwards, and no other track is touched. -/
theorem ensureProcessTrack_post (h : Inv c) (pid : ℤ) (name : Option String) :
    (ensureProcessTrack io pid name).Post c (fun u t => Inv t ∧
      t.trackMap (.process pid) = some u ∧
        ∀ id, id ≠ .process pid → t.trackMap id = c.trackMap id) Inv := by
  apply Op.post_get_bind
  cases hm : c.trackMap (.process pid) with
  | some u => exact Op.post_pure ⟨h, hm, fun _ _ => rfl⟩
  | none =>
    have hwrite := writeNewTrack_post io h
      (fun uuid => { uuid := uuid, process := some ⟨pid, name⟩ }) hm
      (fun _ => rfl) (fun u v hv => by simp [PacketData.refs] at hv)
    apply hwrite.bind
    intro u t ht
    apply (insertTrack_post ht.1).bind
    intro _ t' hex
    obtain ⟨hinv, hself, hother⟩ := hex
    exact Op.post_pure ⟨hinv, hself, fun id hne => by rw [hother id hne, ht.2]⟩

theorem refs_threadDescriptor {pid tid : ℤ} {name : Option String} {parent u v : ℕ}
    (hv : v ∈ (PacketData.trackDescriptor (threadDescriptor pid tid name parent u)).refs) :
    v = parent := by
  have hmem := List.mem_of_mem_filter hv
  simpa [threadDescriptor] using hmem

/-- The thread track is in the map afterwards; besides it only its process is touched. -/
theorem ensureThreadTrack_post (h : Inv c) (pid tid : ℤ) (name : Option String) :
    (ensureThreadTrack io pid tid name).Post c (fun u t => Inv t ∧
      t.trackMap (.thread tid pid) = some u ∧
        ∀ id, id ≠ .thread tid pid → id ≠ .process pid → t.trackMap id = c.trackMap id) Inv := by
  have hproc := ensureProcessTrack_post io h pid none
  apply Op.post_get_bind
  cases hm : c.trackMap (.thread tid pid) with
  | some u =>
    by_cases hn : name.isSome = true
    · simp only [if_pos hn]
      apply hproc.bind
      intro parent t hpost
      obtain ⟨hinv, hparent, hother⟩ := hpost
      have hu : t.trackMap (.thread tid pid) = some u := by rw [hother _ (by simp), hm]
      have hwrite : (writeThreadDescriptorWithUuid io u pid tid name parent).Post t
          (fun _ t' => Inv t' ∧ t'.trackMap = t.trackMap) Inv := by
        apply writePacket_post io hinv none
        · intro v hv
          rw [refs_threadDescriptor hv]
          exact hinv.mapped _ _ hparent
        · intro v hv
          cases hv
          exact ⟨_, rfl, hu⟩
      apply hwrite.bind
      intro _ t' hex
      obtain ⟨hinv', hmap⟩ := hex
      exact Op.post_pure ⟨hinv', by rw [hmap, hu], fun id _ hne => by rw [hmap, hother id hne]⟩
    · simp only [if_neg hn]
      exact Op.post_pure ⟨h, hm, fun _ _ _ => rfl⟩
  | none =>
    apply hproc.bind
    intro parent t hpost
    obtain ⟨hinv, hparent, hother⟩ := hpost
    have hnone : t.trackMap (.thread tid pid) = none := by rw [hother _ (by simp), hm]
    have hwrite := writeNewTrack_post io hinv (threadDescriptor pid tid name parent) hnone
      (fun _ => rfl) (fun u v hv => by
        rw [refs_threadDescriptor hv]
        exact hinv.mapped _ _ hparent)
    apply hwrite.bind
    intro u t' ht'
    apply (insertTrack_post ht'.1).bind
    intro _ t'' hex
    obtain ⟨hinv'', hself, hother'⟩ := hex
    exact Op.post_pure ⟨hinv'', hself,
      fun id hne hne' => by rw [hother' id hne, ht'.2, hother id hne']⟩

/-- The insertion after an `ensure` repeats the one inside it. -/
theorem insertTrack_again (h : Inv c) {id : TrackId} {u : ℕ} (hu : c.trackMap id = some u) :
    (insertTrack id u).Post c (fun _ t => Inv t ∧ t.trackMap = c.trackMap) Inv := by
  have he : Function.update c.trackMap id (some u) = c.trackMap := by
    rw [← hu, Function.update_eq_self]
  exact Op.post_modify ⟨h.update_self hu, he⟩

theorem eventTrack_post (h : Inv c) (id : TrackId) :
    (eventTrack io id).Post c
      (fun r t => Inv t ∧ ∀ u, r = some u → t.trackMap id = some u) Inv := by
  apply Op.post_get_bind
  cases hm : c.trackMap id with
  | some u =>
    apply Op.post_pure
    refine ⟨h, fun v hv => ?_⟩
    rw [hm, hv]
  | none =>
    cases id with
    | thread tid pid =>
      apply (ensureThreadTrack_post io h pid tid none).bind
      intro u t hpost
      obtain ⟨hinv, hu, -⟩ := hpost
      apply (insertTrack_again hinv hu).bind
      intro _ t' hex
      obtain ⟨hinv', hmap⟩ := hex
      exact Op.post_pure ⟨hinv', fun v hv => by rw [hmap, hu, hv]⟩
    | process pid =>
      apply (ensureProcessTrack_post io h pid none).bind
      intro u t hpost
      obtain ⟨hinv, hu, -⟩ := hpost
      apply (insertTrack_again hinv hu).bind
      intro _ t' hex
      obtain ⟨hinv', hmap⟩ := hex
      exact Op.post_pure ⟨hinv', fun v hv => by rw [hmap, hu, hv]⟩
    | _ => exact Op.post_pure ⟨h, by simp⟩

/-- A parent is declared when its uuid is used, and only threads and processes are created
on the way. -/
theorem parentTrack_post (h : Inv c) (parent : Option TrackType) :
    (parentTrack io parent).Post c (fun u t => Inv t ∧ (u ≠ 0 → u ∈ declared t.packets) ∧
      ∀ id, isOther id = true → t.trackMap id = c.trackMap id) Inv := by
  cases parent with
  | none => exact Op.post_pure ⟨h, by simp, fun _ _ => rfl⟩
  | some parent =>
    apply Op.post_get_bind
    cases hm : c.trackMap parent.toId with
    | some u => exact Op.post_pure ⟨h, fun _ => h.mapped _ _ hm, fun _ _ => rfl⟩
    | none =>
      cases parent with
      | thread tid pid =>
        apply (ensureThreadTrack_post io h pid tid none).bind
        intro u t hpost
        obtain ⟨hinv, hu, hother⟩ := hpost
        apply (insertTrack_again hinv hu).bind
        intro _ t' hex
        obtain ⟨hinv', hmap⟩ := hex
        refine Op.post_pure ⟨hinv', fun _ => hinv'.mapped _ u (by rw [hmap, hu]), ?_⟩
        intro id hid
        rw [hmap, hother id (by rintro rfl; cases hid) (by rintro rfl; cases hid)]
      | process pid =>
        apply (ensureProcessTrack_post io h pid none).bind
        intro u t hpost
        obtain ⟨hinv, hu, hother⟩ := hpost
        apply (insertTrack_again hinv hu).bind
        intro _ t' hex
        obtain ⟨hinv', hmap⟩ := hex
        refine Op.post_pure ⟨hinv', fun _ => hinv'.mapped _ u (by rw [hmap, hu]), ?_⟩
        intro id hid
        rw [hmap, hother id (by rintro rfl; cases hid)]
      | _ => exact Op.post_pure ⟨h, by simp, fun _ _ => rfl⟩

/-- The own descriptor of a track, before it is inserted. -/
theorem ownTrack_post (h : Inv c) (track : Track) {parent : ℕ}
    (hnone : isOther track.trackType.toId = true → c.trackMap track.trackType.toId = none)
    (hparent : parent ≠ 0 → parent ∈ declared c.packets) :
    (ownTrack io track parent).Post c (fun u t => Inv { t with
      trackMap := Function.update t.trackMap track.trackType.toId (some u) }) Inv := by
  have hrefs : ∀ d : TrackDescriptor, (∀ v ∈ d.parentUuid, v = parent) →
      ∀ v ∈ (PacketData.trackDescriptor d).refs, v ∈ declared c.packets := by
    intro d hd v hv
    obtain ⟨hmem, hne⟩ := List.mem_filter.mp hv
    obtain rfl : v = parent := hd v (by simpa using hmem)
    exact hparent (by simpa using hne)
  have hnew : ∀ (descriptor : ℕ → TrackDescriptor), isOther track.trackType.toId = true →
      (∀ u, (descriptor u).uuid = u) → (∀ u, ∀ v ∈ (descriptor u).parentUuid, v = parent) →
      (writeNewTrack io track.trackType.toId descriptor).Post c (fun u t => Inv { t with
        trackMap := Function.update t.trackMap track.trackType.toId (some u) }) Inv := by
    intro descriptor hother huuid hd
    have hpost := writeNewTrack_post io h descriptor (hnone hother) huuid
      (fun u => hrefs _ (hd u))
    exact hpost.mono (fun _ _ ht => ht.1) (fun _ => id)
  unfold ownTrack
  cases htype : track.trackType with
  | cpu n =>
    rw [htype] at hnew
    exact hnew _ rfl (fun _ => rfl) (by simp)
  | custom n =>
    rw [htype] at hnew
    exact hnew _ rfl (fun _ => rfl) (by simp)
  | counter n unit =>
    rw [htype] at hnew
    exact hnew _ rfl (fun _ => rfl) (by simp)
  | thread tid pid =>
    exact (ensureThreadTrack_post io h pid tid (some track.name)).mono
      (fun _ _ ht => ht.1.update_self ht.2.1) (fun _ => id)
  | process pid =>
    exact (ensureProcessTrack_post io h pid (some track.name)).mono
      (fun _ _ ht => ht.1.update_self ht.2.1) (fun _ => id)

theorem convertTrack_post (h : Inv c) (track : Track) :
    (convertTrack io track).Post c (fun _ => Inv) Inv := by
  apply Op.post_get_bind
  cases hm : c.trackMap track.trackType.toId with
  | some u => exact Op.post_pure h
  | none =>
    apply (parentTrack_post io h track.parent).bind
    intro parent t hpost
    obtain ⟨hinv, hparent, hother⟩ := hpost
    have hown := ownTrack_post io hinv track (fun ho => by rw [hother _ ho, hm]) hparent
    apply hown.bind
    intro u t' ht'
    exact Op.post_modify ht'

/-- An event of a known track can be written. -/
theorem writeTrackEvent_post (h : Inv c) {id : TrackId} {e : TrackEvent} (timestamp : ℕ)
    (he : c.trackMap id = some e.trackUuid) :
    (writeTrackEvent io id e timestamp).Post c
      (fun _ t => Inv t ∧ t.trackMap = c.trackMap) Inv := by
  apply writePacket_post io h none
  · intro u hu
    obtain rfl : u = e.trackUuid := by simpa [PacketData.refs] using hu
    exact h.mapped id _ he
  · intro u hu
    cases hu
    exact ⟨id, rfl, he⟩

/-- Samples and interned data concern no track. -/
theorem writeUntracked_post (h : Inv c) (p : TracePacket) (streamId : Option ℕ)
    (hrefs : p.data.refs = []) (huuid : p.data.uuid? = none) :
    (writePacket io none p streamId).Post c (fun _ => Inv) Inv := by
  have hpost : (writePacket io none p streamId).Post c
      (fun _ t => Inv t ∧ t.trackMap = c.trackMap) Inv :=
    writePacket_post io h streamId (by simp [hrefs]) (by simp [huuid])
  exact hpost.mono (fun _ _ ht => ht.1) (fun _ => id)

theorem convertEvent_post (h : Inv c) (event : Event) (streamId : Option ℕ) :
    (convertEvent io event streamId).Post c (fun _ => Inv) Inv := by
  cases event with
  | internedData data => exact writeUntracked_post io h _ streamId rfl rfl
  | sample sample =>
    simp only [convertEvent]
    cases sample.trackId with
    | thread tid pid => exact writeUntracked_post io h _ streamId rfl rfl
    | _ => exact Op.post_pure h
  | counter counter =>
    apply Op.post_get_bind
    cases hm : c.trackMap counter.trackId with
    | none => exact Op.post_pure h
    | some u =>
      exact (writeTrackEvent_post io h counter.timestamp hm).mono (fun _ _ ht => ht.1) (fun _ => id)
  | span span =>
    apply (eventTrack_post io h span.trackId).bind
    rintro (_ | u) t ⟨hinv, hu⟩
    · exact Op.post_pure hinv
    · apply (writeTrackEvent_post io hinv span.startTimestamp (hu u rfl)).bind
      intro _ t' hex
      obtain ⟨hinv', hmap⟩ := hex
      exact (writeTrackEvent_post io hinv' span.endTimestamp (by rw [hmap]; exact hu u rfl)).mono
        (fun _ _ ht => ht.1) (fun _ => id)
  | instant instant =>
    apply (eventTrack_post io h instant.trackId).bind
    rintro (_ | u) t ⟨hinv, hu⟩
    · exact Op.post_pure hinv
    · exact (writeTrackEvent_post io hinv instant.timestamp (hu u rfl)).mono
        (fun _ _ ht => ht.1) (fun _ => id)
  | track track => exact convertTrack_post io h track

/-- The invariant along every sequence of conversions, failed ones included. -/
theorem run_inv (messages : List Message) :
    Inv ((converter io).final PerfettoConverter.new messages) :=
  Machine.invariant (I := Inv) (G := fun _ _ => True)
    (fun _ m hs _ => (convertEvent_post io hs m.event m.streamId).always) inv_new
    (Machine.meets_of_forall (fun _ _ => trivial) _)

end Tracks

/-- A sequence of packets, each with its track, that a trace reader can resolve. -/
structure ReferentiallyClosed (ps : List (Option TrackId × TracePacket)) : Prop where
  events : ∀ pre owner p post e, ps = pre ++ (owner, p) :: post → p.data = .trackEvent e →
    ∃ q ∈ pre, ∃ d, q.2.data = .trackDescriptor d ∧ d.uuid = e.trackUuid
  parents : ∀ pre owner p post d u, ps = pre ++ (owner, p) :: post →
    p.data = .trackDescriptor d → d.parentUuid = some u → u ≠ 0 →
    ∃ q ∈ pre, ∃ d', q.2.data = .trackDescriptor d' ∧ d'.uuid = u
  owned : ∀ owner p u, (owner, p) ∈ ps → p.data.uuid? = some u → ∃ id, owner = some id
  one_track : ∀ id id' p p' u, (some id, p) ∈ ps → (some id', p') ∈ ps →
    p.data.uuid? = some u → p'.data.uuid? = some u → id = id'
  one_uuid : ∀ id p p' u u', (some id, p) ∈ ps → (some id, p') ∈ ps →
    p.data.uuid? = some u → p'.data.uuid? = some u' → u = u'

theorem mem_declared {ps : List (Option TrackId × TracePacket)} {u : ℕ} (h : u ∈ declared ps) :
    ∃ q ∈ ps, ∃ d, q.2.data = .trackDescriptor d ∧ d.uuid = u := by
  obtain ⟨q, hq, hu⟩ := List.mem_filterMap.mp h
  refine ⟨q, hq, ?_⟩
  cases hd : q.2.data with
  | trackDescriptor d => exact ⟨d, rfl, by simpa [hd, PacketData.declares?] using hu⟩
  | _ => simp [hd, PacketData.declares?] at hu

/-- Whatever is converted and whichever writes fail, the packets written are
referentially closed. -/
theorem converter_referentially_closed (io : ℕ → Bool) (messages : List Message) :
    ReferentiallyClosed ((converter io).final PerfettoConverter.new messages).packets := by
  have h := run_inv io messages
  have hmap : ∀ id p u, (some id, p) ∈ ((converter io).final .new messages).packets →
      p.data.uuid? = some u → ((converter io).final .new messages).trackMap id = some u := by
    intro id p u hp hu
    obtain ⟨id', he, hm⟩ := h.owned _ hp u hu
    rwa [Option.some.inj he]
  refine ⟨?_, ?_, ?_, ?_, ?_⟩
  · intro pre owner p post e hs he
    exact mem_declared (h.closed pre (owner, p) post hs _ (by simp [he, PacketData.refs]))
  · intro pre owner p post d u hs hd hu hne
    exact mem_declared (h.closed pre (owner, p) post hs u (by simp [hd, PacketData.refs, hu, hne]))
  · intro owner p u hp hu
    obtain ⟨id, he, -⟩ := h.owned _ hp u hu
    exact ⟨id, he⟩
  · intro id id' p p' u hp hp' hu hu'
    exact h.injective id id' u (hmap id p u hp hu) (hmap id' p' u hp' hu')
  · intro id p p' u u' hp hp' hu hu'
    have he := (hmap id p u hp hu).symm.trans (hmap id p' u' hp' hu')
    exact Option.some.inj he

end Manytrace.Converter
