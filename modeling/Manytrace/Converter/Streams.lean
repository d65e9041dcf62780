import Manytrace.Converter.Closure

/-! The packets of a stream have a sequence of their own, and nothing else gets into it. -/
namespace Manytrace.Converter
open Manytrace.Core Manytrace.Protocol

/-- The sequence of everything that has no stream. -/
def sharedSequence : ℕ := 2 ^ 32 - 1

/-- What a reader finds under the sequence id. -/
def sequencePackets (id : ℕ) (c : PerfettoConverter) : List TracePacket :=
  (c.packets.map Prod.snd).filter fun p => p.trustedPacketSequenceId = id

/-- The packet of a message of the stream. -/
def streamed (id : ℕ) (m : Message) : Option TracePacket :=
  if m.streamId = some id then
    match m.event with
    | .internedData d => some
      { data := .internedData d (if d.continuation then .seqNeedsIncrementalState
          else .seqIncrementalStateCleared)
        trustedPacketSequenceId := id }
    | .sample s =>
      match s.trackId with
      | .thread tid pid => some
        { data := .perfSample ⟨s.cpu, asU32 pid, asU32 tid, s.callstackIid, 1⟩
          timestamp := some s.timestamp
          trustedPid := some pid
          trustedPacketSequenceId := id }
      | _ => none
    | _ => none
  else none

/-- A property that does not depend on the tracks, nor on the packets that are written for them. -/
structure TrackBlind (I : PerfettoConverter → Prop) : Prop where
  counter : ∀ c n, I c → I { c with trackUuidCounter := n }
  insert : ∀ c map, I c → I { c with trackMap := map }
  attempt : ∀ c n, I c → I { c with writes := n }
  write : ∀ c owner (p : TracePacket), p.trustedPacketSequenceId = sharedSequence → I c →
    I { c with packets := c.packets ++ [(owner, p)] }

namespace TrackBlind
variable {I : PerfettoConverter → Prop} (h : TrackBlind I) (io : ℕ → Bool)
  {c : PerfettoConverter}
include h

theorem writePacket (hc : I c) (owner : Option TrackId) (p : TracePacket) :
    (Converter.writePacket io owner p none).Keeps I c := by
  unfold Op.Keeps Op.Post Converter.writePacket
  by_cases hio : io c.writes = true
  · simp only [if_pos hio]
    exact h.attempt _ _ (h.write c owner _ rfl hc)
  · simp only [if_neg hio]
    exact h.attempt c _ hc

theorem writeNewTrack (hc : I c) (owner : TrackId) (descriptor : ℕ → TrackDescriptor) :
    (Converter.writeNewTrack io owner descriptor).Keeps I c := by
  have hnext : nextTrackUuid.Keeps I c := by
    unfold Op.Keeps Op.Post nextTrackUuid
    by_cases hlt : c.trackUuidCounter + 1 < 2 ^ 64
    · simp only [if_pos hlt]
      exact h.counter c _ hc
    · simp only [if_neg hlt]
      exact hc
  apply hnext.bind
  intro u t ht
  apply (h.writePacket io ht _ _).bind
  intro _ t' ht'
  exact Op.keeps_pure ht'

theorem insertTrack (hc : I c) (id : TrackId) (u : ℕ) : (Converter.insertTrack id u).Keeps I c :=
  Op.keeps_modify (h.insert c _ hc)

/-- A new track, entered under its id. -/
theorem insert_after {id : TrackId} {x : ConvertOp ℕ} {α : Type} (f : ℕ → α)
    (hx : x.Keeps I c) :
    (x >>= fun u => Converter.insertTrack id u >>= fun _ => pure (f u)).Keeps I c := by
  apply hx.bind
  intro u t ht
  apply (h.insertTrack ht id u).bind
  intro _ t' ht'
  exact Op.keeps_pure ht'

theorem ensureProcessTrack (hc : I c) (pid : ℤ) (name : Option String) :
    (Converter.ensureProcessTrack io pid name).Keeps I c := by
  apply Op.keeps_get_bind
  cases c.trackMap (.process pid) with
  | some u => exact Op.keeps_pure hc
  | none => exact h.insert_after id (h.writeNewTrack io hc _ _)

theorem ensureThreadTrack (hc : I c) (pid tid : ℤ) (name : Option String) :
    (Converter.ensureThreadTrack io pid tid name).Keeps I c := by
  apply Op.keeps_get_bind
  cases c.trackMap (.thread tid pid) with
  | some u =>
    by_cases hname : name.isSome = true
    · simp only [if_pos hname]
      apply (h.ensureProcessTrack io hc pid none).bind
      intro parent t ht
      apply (h.writePacket io ht _ _).bind
      intro _ t' ht'
      exact Op.keeps_pure ht'
    · simp only [if_neg hname]
      exact Op.keeps_pure hc
  | none =>
    apply (h.ensureProcessTrack io hc pid none).bind
    intro parent t ht
    exact h.insert_after id (h.writeNewTrack io ht _ _)

theorem eventTrack (hc : I c) (id : TrackId) : (Converter.eventTrack io id).Keeps I c := by
  apply Op.keeps_get_bind
  cases c.trackMap id with
  | some u => exact Op.keeps_pure hc
  | none =>
    cases id with
    | thread tid pid => exact h.insert_after some (h.ensureThreadTrack io hc pid tid none)
    | process pid => exact h.insert_after some (h.ensureProcessTrack io hc pid none)
    | _ => exact Op.keeps_pure hc

theorem parentTrack (hc : I c) (parent : Option TrackType) :
    (Converter.parentTrack io parent).Keeps I c := by
  cases parent with
  | none => exact Op.keeps_pure hc
  | some parent =>
    apply Op.keeps_get_bind
    cases c.trackMap parent.toId with
    | some u => exact Op.keeps_pure hc
    | none =>
      cases parent with
      | thread tid pid => exact h.insert_after id (h.ensureThreadTrack io hc pid tid none)
      | process pid => exact h.insert_after id (h.ensureProcessTrack io hc pid none)
      | _ => exact Op.keeps_pure hc

theorem ownTrack (hc : I c) (track : Track) (parent : ℕ) :
    (Converter.ownTrack io track parent).Keeps I c := by
  unfold Converter.ownTrack
  cases track.trackType with
  | thread tid pid => exact h.ensureThreadTrack io hc pid tid _
  | process pid => exact h.ensureProcessTrack io hc pid _
  | _ => exact h.writeNewTrack io hc _ _

theorem convertTrack (hc : I c) (track : Track) : (Converter.convertTrack io track).Keeps I c := by
  apply Op.keeps_get_bind
  by_cases hm : (c.trackMap track.trackType.toId).isSome = true
  · simp only [if_pos hm]
    exact Op.keeps_pure hc
  · simp only [if_neg hm]
    apply (h.parentTrack io hc track.parent).bind
    intro parent t ht
    apply (h.ownTrack io ht track parent).bind
    intro u t' ht'
    exact h.insertTrack ht' _ u

/-- The events that are drawn on tracks. -/
theorem convertEvent (hc : I c) {event : Event} (streamId : Option ℕ)
    (hdata : ∀ d, event ≠ .internedData d) (hsample : ∀ s, event ≠ .sample s) :
    (Converter.convertEvent io event streamId).Keeps I c := by
  cases event with
  | internedData d => exact absurd rfl (hdata d)
  | sample s => exact absurd rfl (hsample s)
  | track track => exact h.convertTrack io hc track
  | counter counter =>
    apply Op.keeps_get_bind
    cases c.trackMap counter.trackId with
    | none => exact Op.keeps_pure hc
    | some u => exact h.writePacket io hc _ _
  | span span =>
    apply (h.eventTrack io hc span.trackId).bind
    intro r t ht
    cases r with
    | none => exact Op.keeps_pure ht
    | some u =>
      apply (h.writePacket io ht _ _).bind
      intro _ t' ht'
      exact h.writePacket io ht' _ _
  | instant instant =>
    apply (h.eventTrack io hc instant.trackId).bind
    intro r t ht
    cases r with
    | none => exact Op.keeps_pure ht
    | some u => exact h.writePacket io ht _ _

end TrackBlind

/-- The sequence of a stream is not touched by what is drawn on tracks. -/
theorem trackBlind_sequencePackets {id : ℕ} (hid : id ≠ sharedSequence) (ps : List TracePacket) :
    TrackBlind fun c => sequencePackets id c = ps where
  counter _ _ hc := hc
  insert _ _ hc := hc
  attempt _ _ hc := hc
  write c owner p hp hc := by
    have hne : ¬ p.trustedPacketSequenceId = id := by
      rw [hp]
      exact Ne.symm hid
    rw [← hc]
    simp [sequencePackets, List.filter_append, hne]

section Stream
variable (io : ℕ → Bool) {id : ℕ}

/-- Only a packet of the stream goes into its sequence. -/
theorem writePacket_sequence (hid : id ≠ sharedSequence) (c : PerfettoConverter)
    (p : TracePacket) (streamId : Option ℕ) :
    (writePacket io none p streamId).Post c
      (fun _ t => sequencePackets id t = sequencePackets id c ++
        if streamId = some id then [{ p with trustedPacketSequenceId := id }] else [])
      (fun t => sequencePackets id t = sequencePackets id c) := by
  unfold Op.Post writePacket
  by_cases hio : io c.writes = true
  · simp only [if_pos hio]
    by_cases hs : streamId = some id
    · simp [sequencePackets, List.filter_append, hs]
    · have hne : streamId.getD 4294967295 ≠ id := by
        cases streamId with
        | none => exact Ne.symm hid
        | some s =>
          rintro rfl
          exact hs rfl
      simp [sequencePackets, List.filter_append, hs, hne]
  · simp only [if_neg hio]
    rfl

/-- The packet of the message is added, or the conversion fails and nothing is. -/
theorem convertEvent_sequence (hid : id ≠ sharedSequence) (c : PerfettoConverter) (m : Message) :
    (convertEvent io m.event m.streamId).Post c
      (fun _ t => sequencePackets id t = sequencePackets id c ++ (streamed id m).toList)
      (fun t => sequencePackets id t = sequencePackets id c) := by
  obtain ⟨event, streamId⟩ := m
  have hblind : (∀ d, event ≠ .internedData d) → (∀ s, event ≠ .sample s) →
      (convertEvent io event streamId).Post c
        (fun _ t => sequencePackets id t = sequencePackets id c ++
          (streamed id ⟨event, streamId⟩).toList)
        (fun t => sequencePackets id t = sequencePackets id c) := by
    intro hdata hsample
    have hnone : streamed id ⟨event, streamId⟩ = none := by
      unfold streamed
      cases event with
      | internedData d => exact absurd rfl (hdata d)
      | sample s => exact absurd rfl (hsample s)
      | _ => exact ite_self _
    rw [hnone, Option.toList_none, List.append_nil]
    exact (trackBlind_sequencePackets hid _).convertEvent io rfl streamId hdata hsample
  cases event with
  | internedData d =>
    refine (writePacket_sequence io hid c _ streamId).mono (fun _ t ht => ?_) (fun _ h => h)
    rw [ht]
    by_cases hs : streamId = some id
    · rw [if_pos hs, streamed, if_pos hs]
      rfl
    · rw [if_neg hs, streamed, if_neg hs]
      rfl
  | sample s =>
    simp only [convertEvent]
    cases htrack : s.trackId with
    | thread tid pid =>
      refine (writePacket_sequence io hid c _ streamId).mono (fun _ t ht => ?_) (fun _ h => h)
      rw [ht]
      by_cases hs : streamId = some id
      · rw [if_pos hs, streamed, if_pos hs]
        simp only [htrack]
        rfl
      · rw [if_neg hs, streamed, if_neg hs]
        rfl
    | _ =>
      refine Op.post_pure ?_
      simp [streamed, htrack]
  | _ => exact hblind (by simp) (by simp)

theorem filterMap_streamed (messages : List Message) :
    messages.filterMap (streamed id) =
      (messages.filter fun m => m.streamId = some id).filterMap (streamed id) := by
  rw [List.filterMap_filter]
  congr 1
  funext m
  by_cases hs : m.streamId = some id
  · simp [hs]
  · simp [streamed, hs]

/-- The messages of the stream are converted without failure; others may fail. -/
def StreamWritten (id : ℕ) (c : PerfettoConverter) (messages : List Message) : Prop :=
  (converter io).Meets (fun t m => m.streamId = some id →
    (convertEvent io m.event m.streamId t).1 = .ok ()) c messages

theorem run_sequence (hid : id ≠ sharedSequence) {c : PerfettoConverter}
    {messages : List Message} (hwritten : StreamWritten io id c messages) :
    sequencePackets id ((converter io).final c messages) =
      sequencePackets id c ++ messages.filterMap (streamed id) := by
  induction messages generalizing c with
  | nil => simp
  | cons m messages ih =>
    obtain ⟨hm, hrest⟩ := hwritten
    have hpost := convertEvent_sequence io hid c m
    have hstep : sequencePackets id ((converter io).step c m).1 =
        sequencePackets id c ++ (streamed id m).toList := by
      change sequencePackets id (convertEvent io m.event m.streamId c).2 = _
      by_cases hs : m.streamId = some id
      · exact hpost.ok (hm hs)
      · have hnone : streamed id m = none := by simp [streamed, hs]
        rw [hnone, Option.toList_none, List.append_nil] at hpost ⊢
        exact hpost.always
    rw [Machine.final_cons, ih hrest, hstep, List.append_assoc]
    cases hs : streamed id m <;> simp [hs]

end Stream
end Manytrace.Converter
