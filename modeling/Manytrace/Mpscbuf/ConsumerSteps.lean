import Manytrace.Mpscbuf.ProducerSteps

/-! Every atomic step of the consumer preserves the invariant, and so does every step of
the machine that does not lay a record over a discarded header. -/
namespace Manytrace.Mpscbuf
open Manytrace.Core Manytrace.Core.MirroredMemory

variable {ι : Type*} {M : Memory} {s : State ι}

/-- Steps that only move the consumer along. -/
theorem Inv.reader_step (h : Inv M s) (pc : ConsumerPc) (d : List (List UInt8)) (e : ℕ)
    (hok : ReaderOk M { s with delivered := d } pc) :
    Inv M { s.setReader pc with delivered := d, eventfd := e } where
  released := h.released
  live := h.live
  space := h.space
  small := h.small
  stored := h.stored
  lock := h.lock
  pcs := fun q => (h.pcs q).frame le_rfl (fun _ => rfl) (fun _ _ hm => hm)
    (fun _ _ _ => Agree.refl _ _ _) (fun _ _ hst => hst.apart)
  fresh := h.fresh
  reader := hok.frame rfl rfl rfl (fun _ rest hl _ => ⟨rest, hl⟩) (fun hl => hl)
  settled := h.settled

/-- Storing the consumer position gives the oldest record back. -/
theorem Inv.release_step (h : Inv M s) {r : Reservation ι} {rest : List (Reservation ι)}
    (hl : s.live = r :: rest) (hr : ∀ p, r.status ≠ .busy p) {pc : ConsumerPc}
    (hok : ReaderOk M (s.release (s.consumer + r.total)) pc) :
    Inv M ((s.release (s.consumer + r.total)).setReader pc) := by
  have hlive := h.live
  rw [hl] at hlive
  obtain ⟨hpos, hrest⟩ := hlive
  have hlive' : (s.release (s.consumer + r.total)).live = rest := by simp [State.release, hl]
  have hrel' : (s.release (s.consumer + r.total)).released = s.released ++ [r] := by
    simp [State.release, hl]
  have hsub : ∀ t ∈ rest, t ∈ s.live := fun t ht => hl ▸ List.mem_cons_of_mem r ht
  have hspace := h.space
  refine ⟨?_, ?_, ?_, ?_, ?_, h.lock, ?_, h.fresh, ?_, ?_⟩
  · change Tiles 0 (s.release (s.consumer + r.total)).released (s.consumer + r.total)
    rw [hrel', tiles_concat, hpos]
    exact ⟨h.released, rfl⟩
  · change Tiles (s.consumer + r.total) (s.release (s.consumer + r.total)).live s.producer
    rwa [hlive']
  · change s.producer < s.consumer + r.total + M.dataSize
    omega
  · intro t ht
    exact h.small t (hsub t (hlive' ▸ ht))
  · intro t ht
    exact h.stored t (hsub t (hlive' ▸ ht))
  · intro q
    refine (h.pcs q).frame (Nat.le_add_right _ _) (fun _ => rfl) ?_ (fun _ _ _ => Agree.refl _ _ _)
      (fun b _ hst t ht => hst.apart t (hsub t (hlive' ▸ ht)))
    -- a busy record is not the one that was released
    intro pos size hm
    change _ ∈ (s.release (s.consumer + r.total)).live
    rw [hlive']
    rw [hl] at hm
    rcases List.mem_cons.mp hm with he | hm
    · exact absurd (congrArg Reservation.status he).symm (hr q)
    · exact hm
  · exact hok.frame rfl rfl rfl (fun t ts ht _ => ⟨ts, ht⟩) (fun hne => hne)
  · intro t ht
    change t ∈ (s.release (s.consumer + r.total)).released at ht
    rw [hrel'] at ht
    rcases List.mem_append.mp ht with ht | ht
    · exact h.settled t ht
    · rw [List.mem_singleton.mp ht]
      exact hr

/-- With records waiting, the consumer position is that of the oldest one. -/
theorem Inv.head (h : Inv M s) (hne : s.live ≠ []) :
    ∃ r rest, s.live = r :: rest ∧ r.position = s.consumer ∧ r.size < 2 ^ 32 ∧
      Stored M s.mem r := by
  obtain ⟨r, rest, hl⟩ := List.exists_cons_of_ne_nil hne
  have hmem : r ∈ s.live := hl ▸ List.mem_cons_self
  have hlive := h.live
  rw [hl] at hlive
  exact ⟨r, rest, hl, hlive.1, h.small r hmem, h.stored r hmem⟩

/-- What the header load does depends on the oldest record only. -/
theorem Inv.loadHeader_eq (h : Inv M s) {c : ℕ} (hpc : s.reader = .loadedProducer c) :
    ∃ r rest, s.live = r :: rest ∧ consumerStep M s .loadHeader =
      match r.status with
      | .busy _ => (s.setReader .drained, [.returned none])
      | .discarded => (s.setReader (.skipping (s.consumer + r.total)), [])
      | .committed bs =>
        ({ s.setReader (.holding ⟨s.consumer % M.dataSize + headerSize, r.size,
              s.consumer + r.total⟩) with delivered := s.delivered ++ [bs] },
          [.returned (some bs)]) := by
  have hr := h.reader
  rw [hpc] at hr
  obtain ⟨rfl, hne, -⟩ := hr
  obtain ⟨r, rest, hl, hpos, hsize, hst⟩ := h.head hne
  refine ⟨r, rest, hl, ?_⟩
  simp only [consumerStep, hpc, M.and_sizeMask, M.loadHeader_mod, ← hpos]
  unfold Stored at hst
  cases hs : r.status with
  | busy p =>
    simp only [hs] at hst
    simp [hst, RecordHeader.isBusy_new]
  | discarded =>
    simp only [hs] at hst
    simp [hst, RecordHeader.isBusy_discard, RecordHeader.isDiscarded_discard,
      RecordHeader.len_discard, RecordHeader.len_new hsize, Reservation.total]
  | committed bs =>
    simp only [hs] at hst
    obtain ⟨hw, hdata⟩ := hst
    simp [hw, RecordHeader.isBusy_commit, RecordHeader.isDiscarded_commit,
      RecordHeader.len_commit, RecordHeader.len_new hsize, load_mod_add, hdata,
      Reservation.total]

/-- The ring is empty exactly when the consumer has caught up. -/
theorem Inv.live_eq_nil_iff (h : Inv M s) : s.live = [] ↔ s.producer ≤ s.consumer := by
  have hlive := h.live
  cases hl : s.live with
  | nil =>
    rw [hl] at hlive
    exact iff_of_true rfl (Nat.le_of_eq hlive.symm)
  | cons r rest =>
    have hmem := hlive.mem (hl ▸ List.mem_cons_self : r ∈ s.live)
    have hpos := r.total_pos
    refine iff_of_false (List.cons_ne_nil r rest) ?_
    omega

theorem payloads_append_singleton (rs : List (Reservation ι)) (r : Reservation ι) :
    payloads (rs ++ [r]) = payloads rs ++ r.status.payload?.toList := by
  cases hp : r.status.payload? <;> simp [payloads, List.filterMap_append, hp]

theorem consumerStep_inv [DecidableEq ι] (h : Inv M s) (a : ConsumerAct) :
    Inv M (consumerStep M s a).1 := by
  have hr := h.reader
  cases a with
  | loadConsumer =>
    simp only [consumerStep]
    cases hpc : s.reader with
    | idle =>
      exact h.reader_step (.loadedConsumer s.consumer) _ _
        ⟨rfl, by simpa only [hpc, ReaderOk] using hr⟩
    | drained =>
      exact h.reader_step (.loadedConsumer s.consumer) _ _
        ⟨rfl, by simpa only [hpc, ReaderOk] using hr⟩
    | looping =>
      exact h.reader_step (.loadedConsumer s.consumer) _ _
        ⟨rfl, by simpa only [hpc, ReaderOk] using hr⟩
    | _ => exact h
  | loadProducer =>
    simp only [consumerStep]
    cases hpc : s.reader with
    | loadedConsumer c =>
      obtain ⟨rfl, hd⟩ : c = s.consumer ∧ s.delivered = payloads s.released := by
        simpa only [hpc, ReaderOk] using hr
      by_cases hle : s.producer ≤ s.consumer
      · simp only [if_pos hle]
        exact h.reader_step .drained _ _ hd
      · simp only [if_neg hle]
        exact h.reader_step (.loadedProducer s.consumer) _ _
          ⟨rfl, fun hnil => hle (h.live_eq_nil_iff.mp hnil), hd⟩
    | _ => exact h
  | loadHeader =>
    cases hpc : s.reader with
    | loadedProducer c =>
      have hd : s.delivered = payloads s.released := by
        rw [hpc] at hr
        exact hr.2.2
      obtain ⟨r, rest, hl, hstep⟩ := h.loadHeader_eq hpc
      rw [hstep]
      cases hs : r.status with
      | busy p => exact h.reader_step .drained _ _ hd
      | discarded => exact h.reader_step (.skipping _) _ _ ⟨⟨r, rest, hl, hs, rfl⟩, hd⟩
      | committed bs =>
        exact h.reader_step (.holding _) _ _ ⟨r, rest, bs, hl, hs, rfl, by rw [hd]⟩
    | _ =>
      simp only [consumerStep, hpc]
      exact h
  | advanceConsumer =>
    simp only [consumerStep]
    cases hpc : s.reader with
    | skipping n =>
      obtain ⟨⟨r, rest, hl, hs, rfl⟩, hd⟩ : (∃ r rest, s.live = r :: rest ∧
          r.status = .discarded ∧ n = s.consumer + r.total) ∧
          s.delivered = payloads s.released := by
        simpa only [hpc, ReaderOk] using hr
      refine h.release_step hl (by simp [hs]) ?_
      have hp := payloads_append_singleton s.released r
      simpa [ReaderOk, State.release, hl, hp, hs, Status.payload?] using hd
    | _ => exact h
  | dropRecord =>
    simp only [consumerStep]
    cases hpc : s.reader with
    | holding rec =>
      obtain ⟨r, rest, bs, hl, hs, rfl, hd⟩ : ∃ r rest bs, s.live = r :: rest ∧
          r.status = .committed bs ∧
          rec = ⟨s.consumer % M.dataSize + headerSize, r.size, s.consumer + r.total⟩ ∧
          s.delivered = payloads s.released ++ [bs] := by
        simpa only [hpc, ReaderOk] using hr
      refine h.release_step hl (by simp [hs]) ?_
      have hp := payloads_append_singleton s.released r
      simpa [ReaderOk, State.release, hl, hp, hs, Status.payload?] using hd
    | _ => exact h
  | wait =>
    simp only [consumerStep]
    cases hpc : s.reader with
    | idle => exact h.reader_step .waiting _ _ (by simpa only [hpc, ReaderOk] using hr)
    | drained => exact h.reader_step .waiting _ _ (by simpa only [hpc, ReaderOk] using hr)
    | _ => exact h
  | wake =>
    simp only [consumerStep]
    cases hpc : s.reader with
    | waiting =>
      by_cases he : 0 < s.eventfd
      · simp only [if_pos he]
        exact h.reader_step .idle s.delivered 0 (by simpa only [hpc, ReaderOk] using hr)
      · simp only [if_neg he]
        exact h
    | _ => exact h

variable [DecidableEq ι] (wakeup : ι → WakeupStrategy)

theorem step_inv (h : Inv M s) (a : Act ι) (hG : SparesDiscarded M s a) :
    Inv M ((ringBuf M wakeup).step s a).1 := by
  cases a with
  | producer p a => exact producerStep_inv wakeup h p a hG
  | consumer a => exact consumerStep_inv h a

/-- The invariant along whole runs. -/
theorem run_inv {acts : List (Act ι)}
    (hG : (ringBuf M wakeup).Meets (SparesDiscarded M) State.init acts) :
    Inv M ((ringBuf M wakeup).final State.init acts) :=
  Machine.invariant (I := Inv M) (fun _ a hs hg => step_inv wakeup hs a hg) (inv_init M) hG

end Manytrace.Mpscbuf
