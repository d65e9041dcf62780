import Manytrace.Mpscbuf.Delivery

/-! How many records there are. Without discards every record that has been reserved has been
handed out or is still in the ring. -/
namespace Manytrace.Mpscbuf
open Manytrace.Core

variable {ι : Type*}

section Ring
variable [DecidableEq ι] {M : Memory} {wakeup : ι → WakeupStrategy} {s : State ι} {p q : ι}

theorem producerStep_procs_of_ne (a : ProducerAct) (hq : q ≠ p) :
    (producerStep M wakeup s p a).1.procs q = s.procs q := by
  have hmove := producerStep_move M wakeup s p a
  generalize producerStep M wakeup s p a = r at hmove ⊢
  cases hmove with
  | stay | overflow | incrementDropped => rfl
  | _ => exact Function.update_of_ne hq _ _

theorem producerStep_dropped {a : ProducerAct} (ha : a ≠ .incrementDropped) :
    (producerStep M wakeup s p a).1.dropped = s.dropped := by
  have hmove := producerStep_move M wakeup s p a
  generalize producerStep M wakeup s p a = r at hmove ⊢
  cases hmove with
  | incrementDropped => exact absurd rfl ha
  | _ => rfl

omit [DecidableEq ι] in
theorem length_setStatus (pos : ℕ) (st : Status ι) (rs : List (Reservation ι)) :
    (Reservation.setStatus pos st rs).length = rs.length :=
  List.length_map _

theorem length_reservations_producerStep {a : ProducerAct} (ha : a ≠ .storeProducer) :
    (producerStep M wakeup s p a).1.reservations.length = s.reservations.length := by
  have hmove := producerStep_move M wakeup s p a
  generalize producerStep M wakeup s p a = r at hmove ⊢
  cases hmove with
  | publish => exact absurd rfl ha
  | discardStore => simp [State.setPc, State.reservations, length_setStatus]
  | @commitStore b =>
    cases hb : b.discarded <;> simp [State.setPc, State.reservations, length_setStatus]
  | _ => rfl

omit [DecidableEq ι] in
theorem consumerStep_frame (a : ConsumerAct) :
    (consumerStep M s a).1.dropped = s.dropped ∧
      (consumerStep M s a).1.reservations.length = s.reservations.length := by
  cases a with
  | advanceConsumer =>
    simp only [consumerStep]
    cases s.reader with
    | skipping pos => exact ⟨rfl, congrArg List.length (s.reservations_release pos)⟩
    | _ => exact ⟨rfl, rfl⟩
  | dropRecord =>
    simp only [consumerStep]
    cases s.reader with
    | holding r => exact ⟨rfl, congrArg List.length (s.reservations_release r.totalLen)⟩
    | _ => exact ⟨rfl, rfl⟩
  | _ =>
    simp only [consumerStep]
    repeat' split
    all_goals exact ⟨rfl, rfl⟩

/-- Nothing has been discarded. -/
def Kept (s : State ι) : Prop := ∀ r ∈ s.reservations, r.status ≠ .discarded

theorem Kept.producerStep (h : Kept s) (hplain : (s.procs p).Plain) (a : ProducerAct) :
    Kept (producerStep M wakeup s p a).1 := by
  have hmove := producerStep_move M wakeup s p a
  generalize Mpscbuf.producerStep M wakeup s p a = r at hmove ⊢
  cases hmove with
  | publish hpc =>
    intro r hr
    simp only [State.reservations, State.setPc, ← List.append_assoc, List.mem_append,
      List.mem_singleton] at hr
    rcases hr with hr | rfl
    · exact h r (List.mem_append.mpr hr)
    · simp
  | discardStore hpc =>
    rw [hpc] at hplain
    exact hplain.elim
  | commitStore hpc =>
    intro r hr
    rcases List.mem_append.mp hr with hr | hr
    · exact h r (List.mem_append_left _ hr)
    · dsimp only at hr
      split_ifs at hr
      · exact h r (List.mem_append_right _ hr)
      · obtain ⟨t, ht, rfl⟩ := List.mem_map.mp hr
        split_ifs
        · simp
        · exact h t (List.mem_append_right _ ht)
  | _ => exact h

omit [DecidableEq ι] in
theorem Kept.consumerStep (h : Kept s) (a : ConsumerAct) : Kept (consumerStep M s a).1 := by
  have hrelease : ∀ pos pc, Kept ((s.release pos).setReader pc) := by
    intro pos pc r hr
    exact h r (s.reservations_release pos ▸ hr)
  cases a <;> simp only [Mpscbuf.consumerStep] <;> repeat' split
  all_goals first | exact h | exact hrelease _ _

omit [DecidableEq ι] in
theorem length_payloads {rs : List (Reservation ι)} (hkept : ∀ r ∈ rs, r.status ≠ .discarded)
    (hsettled : ∀ r ∈ rs, ∀ p, r.status ≠ .busy p) : (payloads rs).length = rs.length := by
  rw [payloads, List.length_filterMap_eq_countP, List.countP_eq_length]
  intro r hr
  cases hstatus : r.status with
  | busy p => exact absurd hstatus (hsettled r hr p)
  | committed bs => rfl
  | discarded => exact absurd hstatus (hkept r hr)

end Ring

section Delivered

/-- The records in the ring that have not been handed out. -/
def unread (s : State ι) : ℕ :=
  match s.reader with
  | .holding _ => s.live.length - 1
  | _ => s.live.length

/-- Every record has been handed out or is still there. -/
theorem Kept.delivered_add_unread {M : Memory} {s : State ι} (h : Kept s) (hinv : Inv M s) :
    s.delivered.length + unread s = s.reservations.length := by
  have hlen : (payloads s.released).length = s.released.length :=
    length_payloads (fun r hr => h r (List.mem_append_left _ hr)) hinv.settled
  have hreservations : s.reservations.length = s.released.length + s.live.length :=
    List.length_append
  have hreader := hinv.reader
  unfold unread
  cases hpc : s.reader with
  | holding rec =>
    rw [hpc] at hreader
    obtain ⟨r, rest, bs, hlive, -, -, hdelivered⟩ := hreader
    rw [hdelivered, hreservations, hlive, List.length_append, hlen]
    simp
    omega
  | loadedConsumer c =>
    rw [hpc] at hreader
    rw [hreader.2, hlen, hreservations]
  | loadedProducer c =>
    rw [hpc] at hreader
    rw [hreader.2.2, hlen, hreservations]
  | skipping c =>
    rw [hpc] at hreader
    rw [hreader.2, hlen, hreservations]
  | _ =>
    rw [hpc] at hreader
    have hdelivered : s.delivered = payloads s.released := hreader
    rw [hdelivered, hlen, hreservations]

end Delivered

section Ring
variable [DecidableEq ι] {M : Memory} {wakeup : ι → WakeupStrategy} {s : State ι} {p q : ι}

/-- A step of the ring that takes the reservation of `p` to `pc` and adds `n` records. -/
structure RingMove (s : State ι) (p : ι) (s' : State ι) (pc : ProducerPc) (n : ℕ) : Prop where
  others : ∀ q, q ≠ p → s'.procs q = s.procs q
  own : s'.procs p = pc
  dropped : s'.dropped = s.dropped
  length : s'.reservations.length = s.reservations.length + n

theorem ringMove_producerStep {a : ProducerAct} {pc : ProducerPc} (ha : a ≠ .incrementDropped)
    (hstore : a ≠ .storeProducer) (hpc : (producerStep M wakeup s p a).1.procs p = pc) :
    RingMove s p (producerStep M wakeup s p a).1 pc 0 :=
  ⟨fun _ => producerStep_procs_of_ne a, hpc, producerStep_dropped ha,
    length_reservations_producerStep hstore⟩

theorem ringMove_storeProducer {size producerPos newProdPos : ℕ}
    (hpc : s.procs p = .headerWritten size producerPos newProdPos) :
    RingMove s p (producerStep M wakeup s p .storeProducer).1 (.published size producerPos) 1 := by
  refine ⟨fun _ => producerStep_procs_of_ne _, ?_, producerStep_dropped (by simp), ?_⟩
  · simp [producerStep, hpc, State.setPc]
  · simp only [producerStep, hpc, State.setPc, State.reservations, List.length_append,
      List.length_singleton]
    omega

end Ring

section Runs
variable [DecidableEq ι] {M : Memory} {wakeup : ι → WakeupStrategy} {acts : List (Act ι)}

theorem kept_of_commitsOnly (h : ∀ a ∈ acts, CommitsOnly a) :
    Kept ((ringBuf M wakeup).final State.init acts) := by
  refine Machine.invariant (I := Kept) ?_ ?_ (meets_commitsOnly h)
  · rintro s a hs ⟨hplain, -⟩
    cases a with
    | producer p a => exact hs.producerStep (hplain p) a
    | consumer a => exact hs.consumerStep a
  · exact fun r hr => by cases hr

theorem delivered_add_unread (M : Memory) (wakeup : ι → WakeupStrategy)
    (h : ∀ a ∈ acts, CommitsOnly a) :
    ((ringBuf M wakeup).final State.init acts).delivered.length +
        unread ((ringBuf M wakeup).final State.init acts) =
      ((ringBuf M wakeup).final State.init acts).reservations.length :=
  (kept_of_commitsOnly h).delivered_add_unread (inv_of_commitsOnly h)

end Runs
end Manytrace.Mpscbuf
