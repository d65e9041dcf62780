import Manytrace.Mpscbuf.Accounts
import Manytrace.Agent.Submit

/-! What a step of a submitting thread changes: the submissions that are counted, and whether
a record is lost. -/
namespace Manytrace.Agent
open Manytrace.Core Manytrace.Mpscbuf

variable {ι : Type*}

/-- A reservation is refused for lack of space if the new position is a position and too far
from the consumer. -/
theorem spaceCheck_lacksSpace_iff (M : Memory) (producerPos consumerPos total : ℕ) :
    (∃ f, spaceCheck .checked M producerPos consumerPos total = .error f ∧
        lacksSpace f = true) ↔
      ¬ (producerPos + total < 2 ^ 64 → producerPos + total ≤ consumerPos + M.sizeMask) := by
  rw [Classical.not_imp, not_le]
  have hcheck : spaceCheck .checked M producerPos consumerPos total =
      if producerPos + total < 2 ^ 64 then
        if consumerPos ≤ producerPos + total then
          if M.sizeMask < producerPos + total - consumerPos then
            .error (.error (.insufficientSpace (producerPos + total) consumerPos M.sizeMask))
          else .ok (producerPos + total)
        else .error .panic
      else .error .panic := by
    unfold spaceCheck OverflowMode.add OverflowMode.sub
    dsimp only
    split_ifs <;> simp [*]
  rw [hcheck]
  by_cases hlt : producerPos + total < 2 ^ 64
  · rw [if_pos hlt]
    by_cases hfar : consumerPos + M.sizeMask < producerPos + total
    · rw [if_pos (by omega), if_pos (by omega)]
      exact iff_of_true ⟨_, rfl, rfl⟩ ⟨hlt, hfar⟩
    · refine iff_of_false ?_ fun h => hfar h.2
      rintro ⟨f, h, hf⟩
      split_ifs at h with hle hused
      · omega
      · cases h
        cases hf
  · rw [if_neg hlt]
    refine iff_of_false ?_ fun h => hlt h.1
    rintro ⟨f, h, hf⟩
    cases h
    cases hf

/-- What a thread is doing fits what its reservation has done. -/
def Coupled : SubmitPc → ProducerPc → Bool
  | .idle, .idle => true
  | .reserving _ _, .loadedConsumer _ _ _ | .reserving _ _, .locked _ _ _
  | .reserving _ _, .admitted _ _ _ | .reserving _ _, .headerWritten _ _ _
  | .reserving _ _, .published _ _ | .reserving _ _, .refused _ => true
  | .serializing _ _ _, .owning _ => true
  | .dropping _ _, .committing _ | .dropping _ _, .commitLoaded _ _
  | .dropping _ _, .notifying | .dropping _ _, .idle => true
  | _, _ => false

theorem eq_idle_of_coupled {pc : ProducerPc} (h : Coupled .idle pc = true) : pc = .idle := by
  cases pc with
  | idle => rfl
  | _ => cases h

/-- The submission is neither refused yet nor in the ring. -/
def pending : SubmitPc → ProducerPc → Bool
  | .reserving _ _, .published _ _ => false
  | .reserving _ _, _ => true
  | _, _ => false

/-- The submission is going to fail for lack of space, or leaves a record that it takes for
a failure. -/
def marked : SubmitPc → ProducerPc → Bool
  | .reserving _ _, .refused f => lacksSpace f
  | .dropping false _, _ => true
  | _, _ => false

section Pcs
variable (pc : ProducerPc) (serialized : Bool) (next : Option Submission)

@[simp] theorem pending_idle : pending .idle pc = false := rfl

@[simp] theorem pending_serializing (stores : List (ℕ × UInt8)) :
    pending (.serializing stores serialized next) pc = false := rfl

@[simp] theorem pending_dropping : pending (.dropping serialized next) pc = false := rfl

@[simp] theorem marked_idle : marked .idle pc = false := rfl

@[simp] theorem marked_serializing (stores : List (ℕ × UInt8)) :
    marked (.serializing stores serialized next) pc = false := rfl

@[simp] theorem marked_dropping : marked (.dropping serialized next) pc = !serialized := by
  cases serialized <;> rfl

end Pcs

namespace Submitting

/-- The records in the ring and the failures, with the submission of `p` that is neither. -/
def account (s : Submitting ι) (p : ι) : ℕ :=
  s.ring.reservations.length + s.tally.noSpace + s.tally.failed +
    (pending (s.threads p) (s.ring.procs p)).toNat

/-- A record has been lost, or is about to be as far as `p` knows. -/
def Lossy (s : Submitting ι) (p : ι) : Prop :=
  0 < s.tally.noSpace ∨ 0 < s.tally.cut ∨ marked (s.threads p) (s.ring.procs p) = true

end Submitting

/-- What a step of `p` changes; `ok` is what keeps it from losing a record. -/
structure ThreadStep (s : Submitting ι) (p : ι) (s' : Submitting ι) (ok : Prop) : Prop where
  threads : ∀ q, q ≠ p → s'.threads q = s.threads q
  procs : ∀ q, q ≠ p → s'.ring.procs q = s.ring.procs q
  coupled : Coupled (s'.threads p) (s'.ring.procs p) = true
  dropped : s'.ring.dropped = s.ring.dropped
  steady : s'.tally.attempted + s'.tally.cut + s.account p =
    s.tally.attempted + s.tally.cut + s'.account p
  lossy : s'.Lossy p ↔ s.Lossy p ∨ ¬ ok

section Threads
variable {s s₁ s' : Submitting ι} {p : ι} {ok : Prop}

theorem ThreadStep.refl (h : Coupled (s.threads p) (s.ring.procs p) = true) (hok : ok) :
    ThreadStep s p s ok :=
  ⟨fun _ _ => rfl, fun _ _ => rfl, h, rfl, rfl, by simp [hok]⟩

theorem ThreadStep.of_true (h : ThreadStep s p s' True) (hok : ok) : ThreadStep s p s' ok :=
  { h with lossy := by simpa [hok] using h.lossy }

theorem ThreadStep.trans (h : ThreadStep s p s₁ True) (h' : ThreadStep s₁ p s' ok) :
    ThreadStep s p s' ok where
  threads := fun q hq => (h'.threads q hq).trans (h.threads q hq)
  procs := fun q hq => (h'.procs q hq).trans (h.procs q hq)
  coupled := h'.coupled
  dropped := h'.dropped.trans h.dropped
  steady := by
    have hs := h.steady
    have hs' := h'.steady
    omega
  lossy := by
    have hs := h.lossy
    rw [not_true, or_false] at hs
    rw [h'.lossy, hs]

/-- A step of the ring by `p`, with what else it changes about `p`. -/
theorem threadStep_of_move {th : SubmitPc} {pc : ProducerPc} {n : ℕ}
    (hmove : RingMove s.ring p s'.ring pc n) (hthreads : ∀ q, q ≠ p → s'.threads q = s.threads q)
    (hth : s'.threads p = th) (hcoupled : Coupled th pc = true)
    (hsteady : s'.tally.attempted + s'.tally.cut + s.account p =
      s.tally.attempted + s.tally.cut + (s.ring.reservations.length + n + s'.tally.noSpace +
        s'.tally.failed + (pending th pc).toNat))
    (hlossy : (0 < s'.tally.noSpace ∨ 0 < s'.tally.cut ∨ marked th pc = true) ↔
      s.Lossy p ∨ ¬ ok) : ThreadStep s p s' ok := by
  have hown := hmove.own
  subst hth hown
  refine ⟨hthreads, hmove.others, hcoupled, hmove.dropped, ?_, hlossy⟩
  rw [hsteady, Submitting.account, hmove.length]

/-- A step of `p` that ends no submission. -/
theorem threadStep_of_same_tally {th th' : SubmitPc} {pc pc' : ProducerPc} {n : ℕ}
    (hth : s.threads p = th) (hpc : s.ring.procs p = pc)
    (hmove : RingMove s.ring p s'.ring pc' n) (htally : s'.tally = s.tally)
    (hthreads : ∀ q, q ≠ p → s'.threads q = s.threads q) (hth' : s'.threads p = th')
    (hcoupled : Coupled th' pc' = true)
    (hpending : n + (pending th' pc').toNat = (pending th pc).toNat)
    (hmarked : marked th' pc' = true ↔ marked th pc = true ∨ ¬ ok) : ThreadStep s p s' ok := by
  refine threadStep_of_move hmove hthreads hth' hcoupled ?_ ?_
  · rw [htally, Submitting.account, hth, hpc]
    omega
  · rw [htally, hmarked, Submitting.Lossy, hth, hpc, or_assoc, or_assoc]

theorem fail_tally (t : Tally) (f : Failure) :
    (t.fail f).attempted = t.attempted ∧ (t.fail f).cut = t.cut ∧
      (t.fail f).noSpace + (t.fail f).failed = t.noSpace + t.failed + 1 ∧
        (0 < (t.fail f).noSpace ↔ 0 < t.noSpace ∨ lacksSpace f = true) := by
  unfold Tally.fail
  split_ifs with hf
  · exact ⟨rfl, rfl, by dsimp only; omega, by simp [hf]⟩
  · exact ⟨rfl, rfl, by dsimp only; omega, by simp [hf]⟩

variable [DecidableEq ι] {M : Memory} {wakeup : ι → WakeupStrategy}

/-- The submission of `p` ends with an error of `reserve`. -/
theorem fail_step {f : Failure} (hmove : RingMove s.ring p s'.ring .idle 0)
    (hthreads : s'.threads = s.threads)
    (hsteady : s'.tally.attempted + s'.tally.cut + s.account p = s.tally.attempted +
      s.tally.cut + (s.ring.reservations.length + s'.tally.noSpace + s'.tally.failed + 1))
    (hlossy : (0 < s'.tally.noSpace ∨ lacksSpace f = true ∨ 0 < s'.tally.cut) ↔ s.Lossy p) :
    ThreadStep s p (s'.fail p f) True := by
  obtain ⟨hattempted, hcut, hsum, hpos⟩ := fail_tally s'.tally f
  have hidle : (s'.fail p f).threads p = .idle := Function.update_self ..
  have hmove' : RingMove s.ring p (s'.fail p f).ring .idle 0 := hmove
  refine threadStep_of_move hmove' ?_ hidle rfl ?_ ?_
  · intro q hq
    change Function.update s'.threads p _ q = _
    rw [Function.update_of_ne hq, hthreads]
  · change (s'.tally.fail f).attempted + (s'.tally.fail f).cut + _ = _ +
      (_ + 0 + (s'.tally.fail f).noSpace + (s'.tally.fail f).failed + 0)
    rw [hattempted, hcut, hsteady]
    omega
  · change (0 < (s'.tally.fail f).noSpace ∨ 0 < (s'.tally.fail f).cut ∨ _) ↔ _
    rw [hpos, hcut, ← hlossy]
    simp [or_assoc]

/-- A submission begins where none is under way. -/
theorem submit_step (hpc : s.ring.procs p = .idle) (hpending : pending (s.threads p) .idle = false)
    (hmarked : marked (s.threads p) .idle = false) (x : Submission) (next : Option Submission) :
    ThreadStep s p (s.submit M wakeup p x next).1 True := by
  have haccount : s.account p = s.ring.reservations.length + s.tally.noSpace + s.tally.failed := by
    simp [Submitting.account, hpc, hpending]
  have hlossy : s.Lossy p ↔ 0 < s.tally.noSpace ∨ 0 < s.tally.cut := by
    simp [Submitting.Lossy, hpc, hmarked]
  unfold Submitting.submit
  cases x.length with
  | none =>
    dsimp only
    have hmove : RingMove s.ring p s.ring .idle 0 := ⟨fun _ _ => rfl, hpc, rfl, rfl⟩
    refine threadStep_of_move hmove (fun _ hq => Function.update_of_ne hq _ _)
      (Function.update_self ..) rfl ?_ ?_
    · rw [haccount]
      dsimp only [Submitting.setThread, pending_idle, Bool.toNat_false]
      omega
    · rw [hlossy]
      simp [Submitting.setThread]
  | some size =>
    cases htotal : totalSize .checked size with
    | none =>
      have hstep : producerStep M wakeup s.ring p (.reserve size) =
          (s.ring, [.failed p .panic]) := by
        simp only [producerStep, hpc, htotal]
      have hmove : RingMove s.ring p s.ring .idle 0 := ⟨fun _ _ => rfl, hpc, rfl, rfl⟩
      simp only [hstep, failure?]
      refine fail_step hmove rfl ?_ ?_
      · rw [haccount]
        dsimp only
        omega
      · rw [hlossy]
        simp [lacksSpace]
    | some total =>
      have hstep : producerStep M wakeup s.ring p (.reserve size) =
          (s.ring.setPc p (.loadedConsumer size total s.ring.consumer), []) := by
        simp only [producerStep, hpc, htotal]
      have hmove := ringMove_producerStep (M := M) (s := s.ring) (a := .reserve size)
        (by simp) (by simp) (congrArg (fun r => r.1.procs p) hstep)
      rw [hstep] at hmove
      have hown : (s.ring.setPc p (.loadedConsumer size total s.ring.consumer)).procs p =
          .loadedConsumer size total s.ring.consumer := Function.update_self ..
      rw [hown] at hmove
      simp only [hstep, failure?, List.findSome?_nil]
      refine threadStep_of_move hmove (fun _ hq => Function.update_of_ne hq _ _)
        (Function.update_self ..) rfl ?_ ?_
      · rw [haccount]
        dsimp only [Submitting.setThread, pending, Bool.toNat_true]
        omega
      · rw [hlossy]
        simp [Submitting.setThread, marked]

theorem submit_named_step (hpc : s.ring.procs p = .idle)
    (hpending : pending (s.threads p) .idle = false)
    (hmarked : marked (s.threads p) .idle = false) (x : Submission) (next : Option Submission)
    (nameSent : ι → Bool) :
    ThreadStep s p (Submitting.submit M wakeup { s with nameSent := nameSent } p x next).1
      True := by
  have h : ThreadStep { s with nameSent := nameSent } p
      (Submitting.submit M wakeup { s with nameSent := nameSent } p x next).1 True :=
    submit_step (s := { s with nameSent := nameSent }) hpc hpending hmarked x next
  exact ⟨h.threads, h.procs, h.coupled, h.dropped, h.steady, h.lossy⟩

/-- The reservation of `p` is about to find space, if its new position is one. -/
def RoomFor (M : Memory) (s : Submitting ι) (p : ι) : Prop :=
  match s.ring.procs p with
  | .locked _ total consumerPos => s.ring.producer + total < 2 ^ 64 →
      s.ring.producer + total ≤ consumerPos + M.sizeMask
  | _ => True

omit [DecidableEq ι] in
theorem roomFor_of_ne (h : ∀ a b c, s.ring.procs p ≠ .locked a b c) : RoomFor M s p := by
  unfold RoomFor
  split
  · exact absurd (by assumption) (h _ _ _)
  · trivial

section Reserving
variable {x : Submission} {next : Option Submission} {r : State ι × List (Event ι)}
  {pc pc' : ProducerPc} {n : ℕ}

theorem reserved_going (hth : s.threads p = .reserving x next) (hpc : s.ring.procs p = pc)
    (hfailure : failure? r.2 = none) (hmove : RingMove s.ring p r.1 pc' n)
    (hcoupled : Coupled (.reserving x next) pc' = true)
    (hpending : n + (pending (.reserving x next) pc').toNat =
      (pending (.reserving x next) pc).toNat)
    (hmarked : marked (.reserving x next) pc' = true ↔
      marked (.reserving x next) pc = true ∨ ¬ ok) :
    ThreadStep s p (s.reserved p x next r) ok := by
  have hr : s.reserved p x next r = { s with ring := r.1 } := by
    unfold Submitting.reserved
    simp only [hfailure, hmove.own]
    cases pc' with
    | owning b => cases hcoupled
    | _ => rfl
  rw [hr]
  exact threadStep_of_same_tally hth hpc hmove rfl (fun _ _ => rfl) hth hcoupled hpending hmarked

theorem reserved_failed (hth : s.threads p = .reserving x next) (hpc : s.ring.procs p = pc)
    {f : Failure} (hfailure : failure? r.2 = some f) (hmove : RingMove s.ring p r.1 .idle 0)
    (hpending : pending (.reserving x next) pc = true)
    (hmarked : marked (.reserving x next) pc = lacksSpace f) :
    ThreadStep s p (s.reserved p x next r) True := by
  have hr : s.reserved p x next r = Submitting.fail { s with ring := r.1 } p f := by
    unfold Submitting.reserved
    simp only [hfailure]
  rw [hr]
  refine fail_step hmove rfl ?_ ?_
  · rw [Submitting.account, hth, hpc, hpending]
    rfl
  · rw [Submitting.Lossy, hth, hpc, hmarked]
    exact ⟨fun h => by tauto, fun h => by tauto⟩

theorem reserved_owning (hth : s.threads p = .reserving x next) {size producerPos : ℕ}
    (hpc : s.ring.procs p = .published size producerPos) {b : ReservedBuffer}
    (hfailure : failure? r.2 = none) (hmove : RingMove s.ring p r.1 (.owning b) 0) :
    ThreadStep s p (s.reserved p x next r) True := by
  have hr : s.reserved p x next r =
      Submitting.setThread { s with ring := r.1 } p (.serializing x.stores x.serialized next) := by
    unfold Submitting.reserved
    simp only [hfailure, hmove.own]
  rw [hr]
  exact threadStep_of_same_tally hth hpc hmove rfl (fun _ hq => Function.update_of_ne hq _ _)
    (Function.update_self ..) rfl rfl (by simp [marked])

end Reserving

omit [DecidableEq ι] in
theorem roomFor_iff {size total consumerPos : ℕ}
    (hpc : s.ring.procs p = .locked size total consumerPos) :
    RoomFor M s p ↔ (s.ring.producer + total < 2 ^ 64 →
      s.ring.producer + total ≤ consumerPos + M.sizeMask) := by
  simp only [RoomFor, hpc]

section ReservingSteps
variable {x : Submission} {next : Option Submission} {size total c : ℕ}

/-- The lock is taken, still held by another or given up. -/
theorem reserved_lock (hth : s.threads p = .reserving x next)
    (hpc : s.ring.procs p = .loadedConsumer size total c) (timeout : Bool) :
    ThreadStep s p (s.reserved p x next (producerStep M wakeup s.ring p
      (reserveAct timeout (.loadedConsumer size total c)))) True := by
  cases timeout with
  | true =>
    have hfailure : failure? (producerStep M wakeup s.ring p .timeout).2 =
        some (.error .lockTimeout) := by simp [producerStep, hpc, failure?]
    have hmove : RingMove s.ring p (producerStep M wakeup s.ring p .timeout).1 .idle 0 :=
      ringMove_producerStep (by simp) (by simp) (by simp [producerStep, hpc, State.setPc])
    exact reserved_failed hth hpc hfailure hmove rfl rfl
  | false =>
    have hfailure : failure? (producerStep M wakeup s.ring p .lock).2 = none := by
      cases hlock : s.ring.spinlock <;> simp [producerStep, hpc, hlock, failure?]
    cases hlock : s.ring.spinlock with
    | none =>
      have hmove : RingMove s.ring p (producerStep M wakeup s.ring p .lock).1
          (.locked size total c) 0 :=
        ringMove_producerStep (by simp) (by simp) (by simp [producerStep, hpc, hlock, State.setPc])
      exact reserved_going hth hpc hfailure hmove rfl rfl (by simp [marked])
    | some q =>
      have hmove : RingMove s.ring p (producerStep M wakeup s.ring p .lock).1
          (.loadedConsumer size total c) 0 :=
        ringMove_producerStep (by simp) (by simp) (by simp [producerStep, hpc, hlock])
      exact reserved_going hth hpc hfailure hmove rfl rfl (by simp [marked])

/-- The only step that decides about the space. -/
theorem reserved_loadProducer (hth : s.threads p = .reserving x next)
    (hpc : s.ring.procs p = .locked size total c) :
    ThreadStep s p (s.reserved p x next (producerStep M wakeup s.ring p .loadProducer))
      (RoomFor M s p) := by
  have hiff := spaceCheck_lacksSpace_iff M s.ring.producer c total
  rw [← roomFor_iff hpc] at hiff
  have hfailure : failure? (producerStep M wakeup s.ring p .loadProducer).2 = none := by
    cases hcheck : spaceCheck .checked M s.ring.producer c total <;>
      simp [producerStep, hpc, hcheck, failure?]
  cases hcheck : spaceCheck .checked M s.ring.producer c total with
  | ok np =>
    have hmove : RingMove s.ring p (producerStep M wakeup s.ring p .loadProducer).1
        (.admitted size s.ring.producer np) 0 :=
      ringMove_producerStep (by simp) (by simp) (by simp [producerStep, hpc, hcheck, State.setPc])
    refine reserved_going hth hpc hfailure hmove rfl rfl ?_
    rw [← hiff, hcheck]
    simp [marked]
  | error f =>
    have hmove : RingMove s.ring p (producerStep M wakeup s.ring p .loadProducer).1
        (.refused f) 0 :=
      ringMove_producerStep (by simp) (by simp) (by simp [producerStep, hpc, hcheck, State.setPc])
    refine reserved_going hth hpc hfailure hmove rfl rfl ?_
    rw [← hiff, hcheck]
    simp [marked]

end ReservingSteps

theorem advance_reserving {x : Submission} {next : Option Submission}
    (hth : s.threads p = .reserving x next)
    (hc : Coupled (.reserving x next) (s.ring.procs p) = true) (timeout : Bool) :
    ThreadStep s p (s.advance M wakeup p timeout).1 (RoomFor M s p) := by
  have hadvance : (s.advance M wakeup p timeout).1 = s.reserved p x next
      (producerStep M wakeup s.ring p (reserveAct timeout (s.ring.procs p))) := by
    simp only [Submitting.advance, hth]
  rw [hadvance]
  cases hpc : s.ring.procs p with
  | loadedConsumer size total c =>
    exact (reserved_lock hth hpc timeout).of_true (roomFor_of_ne (by simp [hpc]))
  | locked size total c => exact reserved_loadProducer hth hpc
  | admitted size pp np =>
    have hfailure : failure? (producerStep M wakeup s.ring p .writeHeader).2 = none := by
      simp [producerStep, hpc, failure?]
    have hmove : RingMove s.ring p (producerStep M wakeup s.ring p .writeHeader).1
        (.headerWritten size pp np) 0 :=
      ringMove_producerStep (by simp) (by simp) (by simp [producerStep, hpc, State.setPc])
    have hok : RoomFor M s p := roomFor_of_ne (by simp [hpc])
    exact reserved_going hth hpc hfailure hmove rfl rfl (by simp [marked, hok])
  | headerWritten size pp np =>
    have hfailure : failure? (producerStep M wakeup s.ring p .storeProducer).2 = none := by
      simp [producerStep, hpc, failure?]
    have hok : RoomFor M s p := roomFor_of_ne (by simp [hpc])
    exact reserved_going hth hpc hfailure (ringMove_storeProducer hpc) rfl rfl
      (by simp [marked, hok])
  | published size pp =>
    have hfailure : failure? (producerStep M wakeup s.ring p .unlock).2 = none := by
      simp [producerStep, hpc, failure?]
    have hmove : RingMove s.ring p (producerStep M wakeup s.ring p .unlock).1
        (.owning (newBuffer M s.ring size pp)) 0 :=
      ringMove_producerStep (by simp) (by simp) (by simp [producerStep, hpc, State.setPc])
    exact (reserved_owning hth hpc hfailure hmove).of_true (roomFor_of_ne (by simp [hpc]))
  | refused f =>
    have hfailure : failure? (producerStep M wakeup s.ring p .unlock).2 = some f := by
      simp [producerStep, hpc, failure?]
    have hmove : RingMove s.ring p (producerStep M wakeup s.ring p .unlock).1 .idle 0 :=
      ringMove_producerStep (by simp) (by simp) (by simp [producerStep, hpc, State.setPc])
    exact (reserved_failed hth hpc hfailure hmove rfl rfl).of_true (roomFor_of_ne (by simp [hpc]))
  | _ =>
    rw [hpc] at hc
    cases hc

theorem advance_serializing {stores : List (ℕ × UInt8)} {serialized : Bool}
    {next : Option Submission} (hth : s.threads p = .serializing stores serialized next)
    (hc : Coupled (.serializing stores serialized next) (s.ring.procs p) = true)
    (timeout : Bool) :
    ThreadStep s p (s.advance M wakeup p timeout).1 (stores = [] → serialized = true) := by
  cases hpc : s.ring.procs p with
  | owning b =>
    cases stores with
    | cons v stores =>
      obtain ⟨i, v⟩ := v
      have hown : ∃ b', (producerStep M wakeup s.ring p (.write i v)).1.procs p = .owning b' := by
        simp only [producerStep, hpc]
        split_ifs
        · exact ⟨_, Function.update_self ..⟩
        · exact ⟨b, hpc⟩
      obtain ⟨b', hb'⟩ := hown
      have hmove : RingMove s.ring p (producerStep M wakeup s.ring p (.write i v)).1
          (.owning b') 0 := ringMove_producerStep (by simp) (by simp) hb'
      simp only [Submitting.advance, hth]
      exact threadStep_of_same_tally hth hpc hmove rfl
        (fun _ hq => Function.update_of_ne hq _ _) (Function.update_self ..) rfl rfl (by simp)
    | nil =>
      have hown : ∃ pc, (producerStep M wakeup s.ring p .drop).1.procs p = pc ∧
          Coupled (.dropping serialized next) pc = true := by
        simp only [producerStep, hpc]
        split_ifs
        · exact ⟨.notifying, Function.update_self .., rfl⟩
        · exact ⟨.committing b, Function.update_self .., rfl⟩
      obtain ⟨pc, hpc', hcoupled⟩ := hown
      have hmove : RingMove s.ring p (producerStep M wakeup s.ring p .drop).1 pc 0 :=
        ringMove_producerStep (by simp) (by simp) hpc'
      simp only [Submitting.advance, hth]
      exact threadStep_of_same_tally hth hpc hmove rfl
        (fun _ hq => Function.update_of_ne hq _ _) (Function.update_self ..) hcoupled (by simp)
        (by simp)
  | _ =>
    rw [hpc] at hc
    cases hc

/-- `Producer::submit` returns, and the event behind a track is submitted. -/
theorem finish_step {serialized : Bool} {next : Option Submission}
    (hth : s.threads p = .dropping serialized next) (hpc : s.ring.procs p = .idle) :
    ThreadStep s p (s.finish M wakeup p serialized next).1 True := by
  have hmove : RingMove s.ring p s.ring .idle 0 := ⟨fun _ _ => rfl, hpc, rfl, rfl⟩
  unfold Submitting.finish
  cases serialized with
  | false =>
    rw [if_neg Bool.false_ne_true]
    refine threadStep_of_move hmove (fun _ hq => Function.update_of_ne hq _ _)
      (Function.update_self ..) rfl ?_ ?_
    · rw [Submitting.account, hth, hpc]
      dsimp only [Submitting.setThread, pending_idle, pending_dropping, Bool.toNat_false]
      omega
    · rw [Submitting.Lossy, hth]
      simp
  | true =>
    rw [if_pos rfl]
    cases next with
    | none =>
      exact threadStep_of_same_tally hth hpc hmove rfl
        (fun _ hq => Function.update_of_ne hq _ _) (Function.update_self ..) rfl rfl (by simp)
    | some x =>
      exact submit_named_step hpc (by rw [hth]; rfl) (by rw [hth]; rfl) x none _

theorem advance_dropping {serialized : Bool} {next : Option Submission}
    (hth : s.threads p = .dropping serialized next)
    (hc : Coupled (.dropping serialized next) (s.ring.procs p) = true) (timeout : Bool) :
    ThreadStep s p (s.advance M wakeup p timeout).1 True := by
  have hreturn : ∀ a, dropAct (s.ring.procs p) = a →
      RingMove s.ring p (producerStep M wakeup s.ring p a).1 .idle 0 →
        ThreadStep s p (s.advance M wakeup p timeout).1 True := by
    intro a ha hmove
    have hadvance : (s.advance M wakeup p timeout).1 = (Submitting.finish M wakeup
        { s with ring := (producerStep M wakeup s.ring p a).1 } p serialized next).1 := by
      simp only [Submitting.advance, hth, ha, hmove.own]
    have hring : ThreadStep s p { s with ring := (producerStep M wakeup s.ring p a).1 } True :=
      threadStep_of_same_tally hth rfl hmove rfl (fun _ _ => rfl) hth rfl rfl (by simp)
    rw [hadvance]
    exact hring.trans (finish_step hth hmove.own)
  have hstay : ∀ a pc, dropAct (s.ring.procs p) = a → pc ≠ .idle →
      Coupled (.dropping serialized next) pc = true →
      RingMove s.ring p (producerStep M wakeup s.ring p a).1 pc 0 →
        ThreadStep s p (s.advance M wakeup p timeout).1 True := by
    intro a pc ha hne hcoupled hmove
    have hadvance : (s.advance M wakeup p timeout).1 =
        { s with ring := (producerStep M wakeup s.ring p a).1 } := by
      simp only [Submitting.advance, hth, ha, hmove.own]
    rw [hadvance]
    exact threadStep_of_same_tally hth rfl hmove rfl (fun _ _ => rfl) hth hcoupled rfl (by simp)
  cases hpc : s.ring.procs p with
  | committing b =>
    refine hstay .commitLoad (.commitLoaded b (M.loadHeader s.ring.mem b.recordPos))
      (by rw [hpc]; rfl) (by simp) rfl ?_
    exact ringMove_producerStep (by simp) (by simp) (by simp [producerStep, hpc, State.setPc])
  | commitLoaded b current =>
    refine hstay .commitStore .notifying (by rw [hpc]; rfl) (by simp) rfl ?_
    exact ringMove_producerStep (by simp) (by simp) (by simp [producerStep, hpc, State.setPc])
  | notifying =>
    refine hreturn .notify (by rw [hpc]; rfl) (ringMove_producerStep (by simp) (by simp) ?_)
    cases hw : wakeup p <;> simp [producerStep, hpc, hw, State.setPc]
  | idle =>
    refine hreturn .notify (by rw [hpc]; rfl) (ringMove_producerStep (by simp) (by simp) ?_)
    simp [producerStep, hpc]
  | _ =>
    rw [hpc] at hc
    cases hc

/-- The event of `p` has been serialized when its buffer is dropped. -/
def Serialized (s : Submitting ι) (p : ι) : Prop :=
  match s.threads p with
  | .serializing [] serialized _ => serialized = true
  | _ => True

/-- What keeps the next step of `p` from losing a record. -/
def Spares (M : Memory) (s : Submitting ι) (p : ι) : Prop := RoomFor M s p ∧ Serialized s p

theorem advance_step (hc : Coupled (s.threads p) (s.ring.procs p) = true) (timeout : Bool) :
    ThreadStep s p (s.advance M wakeup p timeout).1 (Spares M s p) := by
  cases hth : s.threads p with
  | idle =>
    have hpc : s.ring.procs p = .idle := eq_idle_of_coupled (hth ▸ hc)
    have hadvance : (s.advance M wakeup p timeout).1 = s := by
      simp only [Submitting.advance, hth]
    rw [hadvance]
    exact .refl hc ⟨roomFor_of_ne (by simp [hpc]), by simp [Serialized, hth]⟩
  | reserving x next =>
    rw [hth] at hc
    have h : ThreadStep s p (s.advance M wakeup p timeout).1 (RoomFor M s p) :=
      advance_reserving hth hc timeout
    have hiff : Spares M s p ↔ RoomFor M s p := and_iff_left (by simp [Serialized, hth])
    exact { h with lossy := by rw [hiff]; exact h.lossy }
  | serializing stores serialized next =>
    rw [hth] at hc
    have h : ThreadStep s p (s.advance M wakeup p timeout).1 (stores = [] → serialized = true) :=
      advance_serializing hth hc timeout
    have hnot : ∀ a b c, s.ring.procs p ≠ .locked a b c := by
      intro a b c hpc
      rw [hpc] at hc
      cases hc
    have hiff : Spares M s p ↔ (stores = [] → serialized = true) := by
      unfold Spares Serialized
      rw [and_iff_right (roomFor_of_ne hnot), hth]
      cases stores <;> simp
    exact { h with lossy := by rw [hiff]; exact h.lossy }
  | dropping serialized next =>
    rw [hth] at hc
    refine (advance_dropping hth hc timeout).of_true
      ⟨roomFor_of_ne ?_, by simp [Serialized, hth]⟩
    intro a b c hpc
    rw [hpc] at hc
    cases hc

end Threads

end Manytrace.Agent
