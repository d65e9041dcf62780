import Mathlib.Data.Finset.Card
import Manytrace.Agent.SubmitSteps
import Manytrace.Agent.SubmitRing

/-! Where the submitted records go. Nobody counts a record that found no space. -/
namespace Manytrace.Agent
open Manytrace.Core Manytrace.Mpscbuf

variable {ι : Type*}

/-- The submissions are in the ring, have failed, or are still pending. Nothing counts as
dropped. -/
structure Accounted (s : Submitting ι) : Prop where
  coupled : ∀ p, Coupled (s.threads p) (s.ring.procs p) = true
  dropped : s.ring.dropped = 0
  balance : ∃ P : Finset ι, (∀ p, p ∈ P ↔ pending (s.threads p) (s.ring.procs p) = true) ∧
    s.tally.attempted + s.tally.cut =
      s.ring.reservations.length + s.tally.noSpace + s.tally.failed + P.card

/-- No record has been lost, and none is about to be. -/
def Lossless (s : Submitting ι) : Prop :=
  s.tally.noSpace = 0 ∧ s.tally.cut = 0 ∧
    ∀ p, marked (s.threads p) (s.ring.procs p) = false

/-- The condition on the steps of the threads. -/
def SparesRecords (M : Memory) (s : Submitting ι) : SubmitAct ι → Prop
  | .advance p _ => Spares M s p
  | _ => True

instance (M : Memory) (s : Submitting ι) (p : ι) : Decidable (Spares M s p) := by
  unfold Spares RoomFor Serialized
  refine @instDecidableAnd _ _ ?_ ?_ <;> split <;> infer_instance

instance (M : Memory) (s : Submitting ι) : DecidablePred (SparesRecords M s)
  | .advance p _ => inferInstanceAs (Decidable (Spares M s p))
  | .submit _ _ | .handleSubmit _ _ _ | .consumer _ => .isTrue trivial

theorem lossless_iff (s : Submitting ι) (p : ι) :
    Lossless s ↔ ¬ s.Lossy p ∧ ∀ q, q ≠ p → marked (s.threads q) (s.ring.procs q) = false := by
  classical
  unfold Lossless Submitting.Lossy
  simp only [not_or, Nat.pos_iff_ne_zero, not_not, Bool.not_eq_true, and_assoc]
  refine and_congr_right fun _ => and_congr_right fun _ => ?_
  constructor
  · exact fun h => ⟨h p, fun q _ => h q⟩
  · rintro ⟨hp, hother⟩ q
    by_cases hq : q = p
    · exact hq ▸ hp
    · exact hother q hq

theorem ThreadStep.lossless_iff {s s' : Submitting ι} {p : ι} {ok : Prop}
    (h : ThreadStep s p s' ok) : Lossless s' ↔ Lossless s ∧ ok := by
  have hother : (∀ q, q ≠ p → marked (s'.threads q) (s'.ring.procs q) = false) ↔
      ∀ q, q ≠ p → marked (s.threads q) (s.ring.procs q) = false := by
    refine forall₂_congr fun q hq => ?_
    rw [h.threads q hq, h.procs q hq]
  rw [Agent.lossless_iff s' p, Agent.lossless_iff s p, h.lossy, hother, not_or, not_not]
  exact and_right_comm

/-- A finite set that is changed at one place. -/
theorem exists_finset_update {b b' : ι → Bool} {P : Finset ι} {p : ι}
    (hP : ∀ q, q ∈ P ↔ b q = true) (hb : ∀ q, q ≠ p → b' q = b q) :
    ∃ P' : Finset ι, (∀ q, q ∈ P' ↔ b' q = true) ∧
      P'.card + (b p).toNat = P.card + (b' p).toNat := by
  classical
  have hother : ∀ q, q ≠ p → (q ∈ P ↔ b' q = true) := fun q hq => by rw [hP, hb q hq]
  cases hp' : b' p with
  | true =>
    refine ⟨insert p P, ?_, ?_⟩
    · intro q
      by_cases hq : q = p
      · simp [hq, hp']
      · rw [Finset.mem_insert, or_iff_right hq, hother q hq]
    · cases hp : b p with
      | true => rw [Finset.insert_eq_of_mem ((hP p).mpr hp)]
      | false =>
        have hnot : p ∉ P := by rw [hP, hp]; exact Bool.false_ne_true
        rw [Finset.card_insert_of_notMem hnot]
        rfl
  | false =>
    refine ⟨P.erase p, ?_, ?_⟩
    · intro q
      by_cases hq : q = p
      · simp [hq, hp']
      · rw [Finset.mem_erase, and_iff_right hq, hother q hq]
    · cases hp : b p with
      | true => exact Finset.card_erase_add_one ((hP p).mpr hp)
      | false =>
        have hnot : p ∉ P := by rw [hP, hp]; exact Bool.false_ne_true
        rw [Finset.erase_eq_of_notMem hnot]

theorem Accounted.threadStep {s s' : Submitting ι} {p : ι} {ok : Prop} (h : Accounted s)
    (hstep : ThreadStep s p s' ok) : Accounted s' := by
  obtain ⟨P, hP, hbalance⟩ := h.balance
  refine ⟨?_, hstep.dropped.trans h.dropped, ?_⟩
  · intro q
    by_cases hq : q = p
    · exact hq ▸ hstep.coupled
    · rw [hstep.threads q hq, hstep.procs q hq]
      exact h.coupled q
  · have hother : ∀ q, q ≠ p → pending (s'.threads q) (s'.ring.procs q) =
        pending (s.threads q) (s.ring.procs q) :=
      fun q hq => by rw [hstep.threads q hq, hstep.procs q hq]
    obtain ⟨P', hP', hcard⟩ := exists_finset_update hP hother
    refine ⟨P', hP', ?_⟩
    have hsteady := hstep.steady
    simp only [Submitting.account] at hsteady
    omega

section Runs
variable [DecidableEq ι] {M : Memory} {wakeup : ι → WakeupStrategy} {s : Submitting ι}

theorem handleSubmit_step {p : ι} (hth : s.threads p = .idle) (hpc : s.ring.procs p = .idle)
    (track : Option Submission) (x : Submission) :
    ThreadStep s p (s.handleSubmit M wakeup p track x).1 True := by
  have hsubmit : ∀ nameSent y next, ThreadStep s p
      (Submitting.submit M wakeup { s with nameSent := nameSent } p y next).1 True :=
    fun nameSent y next =>
      submit_named_step hpc (by rw [hth]; rfl) (by rw [hth]; rfl) y next nameSent
  unfold Submitting.handleSubmit
  split_ifs
  · exact hsubmit s.nameSent x none
  · cases track with
    | some t => exact hsubmit s.nameSent t (some x)
    | none => exact hsubmit _ x none

omit [DecidableEq ι] in
theorem consumer_step (h : Accounted s) (a : ConsumerAct) :
    Accounted { s with ring := (consumerStep M s.ring a).1 } ∧
      (Lossless { s with ring := (consumerStep M s.ring a).1 } ↔ Lossless s) := by
  have hprocs : (consumerStep M s.ring a).1.procs = s.ring.procs := consumerStep_procs s.ring a
  obtain ⟨hdropped, hlength⟩ := consumerStep_frame (M := M) (s := s.ring) a
  constructor
  · refine ⟨?_, hdropped.trans h.dropped, ?_⟩
    · dsimp only
      rw [hprocs]
      exact h.coupled
    · dsimp only
      rw [hprocs, hlength]
      exact h.balance
  · unfold Lossless
    dsimp only
    rw [hprocs]

/-- Every step keeps the account, and it loses a record exactly if it does not spare it. -/
theorem submission_step (h : Accounted s) (a : SubmitAct ι) :
    Accounted ((submission M wakeup).step s a).1 ∧
      (Lossless ((submission M wakeup).step s a).1 ↔ Lossless s ∧ SparesRecords M s a) := by
  have hself : Accounted s ∧ (Lossless s ↔ Lossless s ∧ True) := ⟨h, (and_true _).symm ▸ Iff.rfl⟩
  have hthread : ∀ {p s' ok}, ThreadStep s p s' ok →
      Accounted s' ∧ (Lossless s' ↔ Lossless s ∧ ok) :=
    fun hstep => ⟨h.threadStep hstep, hstep.lossless_iff⟩
  cases a with
  | submit p x =>
    simp only [submission]
    split_ifs with hth
    · have hpc : s.ring.procs p = .idle := eq_idle_of_coupled (hth ▸ h.coupled p)
      exact hthread (submit_step hpc (by rw [hth]; rfl) (by rw [hth]; rfl) x none)
    · exact hself
  | handleSubmit p track x =>
    simp only [submission]
    split_ifs with hth
    · have hpc : s.ring.procs p = .idle := eq_idle_of_coupled (hth ▸ h.coupled p)
      exact hthread (handleSubmit_step hth hpc track x)
    · exact hself
  | advance p timeout => exact hthread (advance_step (h.coupled p) timeout)
  | consumer a =>
    obtain ⟨haccounted, hlossless⟩ := consumer_step (M := M) h a
    exact ⟨haccounted, hlossless.trans (and_true _).symm.to_iff⟩

end Runs

/-! ## Balance -/

def Submitting.Quiet (s : Submitting ι) : Prop := ∀ p, s.threads p = .idle

/-- The records that failed for lack of space are those counted as dropped, and every attempt
has been consumed, is in the ring, was dropped or failed for another reason. -/
structure Balanced (s : Submitting ι) : Prop where
  dropped : s.tally.noSpace = s.ring.dropped
  attempted : s.tally.attempted =
    s.ring.delivered.length + unread s.ring + s.ring.dropped + s.tally.failed

section Balance

theorem accounted_init : Accounted (Submitting.init : Submitting ι) :=
  ⟨fun _ => rfl, rfl, ∅, by simp [Submitting.init], rfl⟩

theorem lossless_init : Lossless (Submitting.init : Submitting ι) := ⟨rfl, rfl, fun _ => rfl⟩

/-- When no submission is under way the account is balanced exactly if no record was lost. -/
theorem Accounted.balanced_iff {s : Submitting ι} (h : Accounted s) (hquiet : s.Quiet)
    (hring : s.ring.delivered.length + unread s.ring = s.ring.reservations.length) :
    Balanced s ↔ Lossless s := by
  obtain ⟨P, hP, hbalance⟩ := h.balance
  have hempty : P.card = 0 := by
    refine Finset.card_eq_zero.mpr (Finset.eq_empty_of_forall_notMem fun p hp => ?_)
    rw [hP, hquiet p] at hp
    cases hp
  have hdropped := h.dropped
  constructor
  · intro hb
    have hnoSpace := hb.dropped
    have hattempted := hb.attempted
    exact ⟨by omega, by omega, fun p => by rw [hquiet p]; rfl⟩
  · rintro ⟨hnoSpace, hcut, -⟩
    exact ⟨by omega, by omega⟩

/-- In a run of records below 4 GiB, whenever no submission is under way, the accounts balance
exactly if every reservation so far has found space and every event was serialized. -/
theorem accounts_balance_iff [DecidableEq ι] (M : Memory) (wakeup : ι → WakeupStrategy)
    (acts : List (SubmitAct ι)) (hsmall : ∀ a ∈ acts, SmallRecords a)
    (hquiet : ((submission M wakeup).final .init acts).Quiet) :
    Balanced ((submission M wakeup).final .init acts) ↔
      (submission M wakeup).Meets (SparesRecords M) .init acts := by
  have hany : (submission M wakeup).Meets (fun _ _ => True) .init acts :=
    Machine.meets_of_forall (P := fun _ => True) (fun _ _ => trivial) _
  have haccounted : Accounted ((submission M wakeup).final .init acts) :=
    Machine.invariant (I := Accounted) (fun _ a hs _ => (submission_step hs a).1) accounted_init
      hany
  obtain ⟨hring, hcommits⟩ := submission_ring M wakeup hsmall
  have hcount := delivered_add_unread M wakeup hcommits
  rw [← hring] at hcount
  rw [haccounted.balanced_iff hquiet hcount]
  have hfinal : Lossless ((submission M wakeup).final .init acts) ↔ Lossless .init ∧
      (submission M wakeup).Meets (SparesRecords M) .init acts :=
    Machine.final_iff (J := Accounted) (fun _ a hs _ => (submission_step hs a).1)
      (fun _ a hs _ => (submission_step hs a).2) accounted_init hany
  exact hfinal.trans (and_iff_right lossless_init)

end Balance

/-- Thread `true` submits its name and an event while the other one gives up at the lock; the
name is consumed and the event is not. -/
def namedThread : List (SubmitAct Bool) :=
  let track : Submission := ⟨some 2, [(0, 65), (1, 66)], true⟩
  let event : Submission := ⟨some 1, [(0, 67)], true⟩
  .handleSubmit true (some track) event :: .submit false event ::
    List.replicate 3 (.advance true false) ++ .advance false true ::
    List.replicate 18 (.advance true false) ++
    [.consumer .loadConsumer, .consumer .loadProducer, .consumer .loadHeader]

theorem accounts_balance_named_thread :
    let s := (submission pageRing fun _ => .noWakeup).final .init namedThread
    s.tally = ⟨3, 0, 1, 0⟩ ∧ s.ring.delivered = [[65, 66]] ∧ unread s.ring = 1 ∧
      Balanced s := by
  intro s
  have hquiet : s.Quiet := by
    unfold Submitting.Quiet
    decide
  refine ⟨by decide, by decide, by decide, ?_⟩
  exact (accounts_balance_iff pageRing _ namedThread (by decide) hquiet).mpr (by decide)

/-- The second event finds no space behind the first. -/
def overfull : List (SubmitAct Unit) :=
  .submit () ⟨some 4000, [], true⟩ :: List.replicate 9 (.advance () false) ++
    .submit () ⟨some 100, [], true⟩ :: List.replicate 3 (.advance () false)

/-- It is lost, and nobody counts it. -/
theorem lost_event_not_counted :
    let s := (submission pageRing fun _ => .noWakeup).final .init overfull
    s.Quiet ∧ s.tally = ⟨2, 1, 0, 0⟩ ∧ s.ring.dropped = 0 ∧ s.ring.delivered = [] ∧
      unread s.ring = 1 ∧ ¬ Balanced s := by
  intro s
  have hdropped : s.ring.dropped = 0 := by decide
  have htally : s.tally = ⟨2, 1, 0, 0⟩ := by decide
  refine ⟨?_, htally, hdropped, by decide, by decide, fun h => ?_⟩
  · rintro ⟨⟩
    decide
  · have hlost := h.dropped
    rw [htally, hdropped] at hlost
    cases hlost

end Manytrace.Agent
