import Manytrace.Mpscbuf.Delivery

/-! The ring buffer with its spinlock taken apart: `try_lock` as single accesses to the lock
word, with failures of the weak exchange and the limit on the spins. This level refines
`ringBuf`, where a lock is taken in one step and a timeout may come at any time. -/
namespace Manytrace.Mpscbuf
open Manytrace.Core Manytrace.Core.MirroredMemory

/-- `SPIN_LIMIT` of `try_lock`. -/
def spinLimit : ℕ := 100000

/-- The next access of a `try_lock` and its count of iterations. -/
inductive Attempt
  /-- `compare_exchange_weak`. -/
  | exchange (iterations : ℕ)
  /-- The load in the inner loop. -/
  | spin (iterations : ℕ)
deriving DecidableEq, Repr

/-- The holder of the lock in `ring` is history: no step below reads it. -/
structure SpinState (ι : Type*) where
  lock : Bool
  attempts : ι → Attempt
  ring : State ι

/-- A step of the ring other than its lock and its timeout, or the next access of a
`try_lock`. A weak exchange may fail although the lock is free. -/
inductive SpinAct (ι : Type*)
  | ring (a : Act ι)
  | tryLock (p : ι) (spurious : Bool)
deriving DecidableEq

variable {ι : Type*}

def SpinState.init : SpinState ι := ⟨false, fun _ => .exchange 0, State.init⟩

def SpinAct.CommitsOnly : SpinAct ι → Prop
  | .ring a => Mpscbuf.CommitsOnly a
  | .tryLock _ _ => True

section Steps
variable [DecidableEq ι] (M : Memory) (wakeup : ι → WakeupStrategy)

namespace SpinState

def setAttempt (s : SpinState ι) (p : ι) (a : Attempt) : SpinState ι :=
  { s with attempts := Function.update s.attempts p a }

/-- `try_lock` returns `None`, and `reserve` fails. -/
def giveUp (s : SpinState ι) (p : ι) : SpinState ι × List (Event ι) :=
  ({ s with ring := s.ring.setPc p .idle }, [.failed p (.error .lockTimeout)])

/-- One more iteration that has not got the lock. -/
def iterate (s : SpinState ι) (p : ι) (iterations : ℕ) : SpinState ι × List (Event ι) :=
  if spinLimit ≤ iterations + 1 then s.giveUp p
  else (s.setAttempt p (.spin (iterations + 1)), [])

def tryLock (s : SpinState ι) (p : ι) (spurious : Bool) : SpinState ι × List (Event ι) :=
  match s.ring.procs p with
  | .loadedConsumer size total consumerPos =>
    match s.attempts p with
    | .exchange iterations =>
      if !s.lock && !spurious then
        ({ s with
            lock := true
            ring := { s.ring.setPc p (.locked size total consumerPos) with spinlock := some p } },
          [])
      else s.iterate p iterations
    | .spin iterations =>
      if s.lock then s.iterate p iterations else (s.setAttempt p (.exchange iterations), [])
  | _ => (s, [])

/-- A `reserve` enters `try_lock` with no iterations. The drop of the guard stores `false`. -/
def ringStep (s : SpinState ι) (a : Act ι) : SpinState ι × List (Event ι) :=
  let r := (ringBuf M wakeup).step s.ring a
  match a with
  | .producer _ .lock | .producer _ .timeout => (s, [])
  | .producer p (.reserve _) =>
    ({ s with
        ring := r.1
        attempts :=
          if s.ring.procs p = .idle then Function.update s.attempts p (.exchange 0)
          else s.attempts }, r.2)
  | .producer p .unlock =>
    ({ s with
        ring := r.1
        lock := match s.ring.procs p with
          | .published _ _ | .refused _ => false
          | _ => s.lock }, r.2)
  | _ => ({ s with ring := r.1 }, r.2)

end SpinState

def spinning : Machine (SpinState ι) (SpinAct ι) (Event ι) where
  step s
    | .ring a => s.ringStep M wakeup a
    | .tryLock p spurious => s.tryLock p spurious

end Steps

def ProducerPc.waits : ProducerPc → Bool
  | .loadedConsumer .. => true
  | _ => false

/-- How many accesses a `try_lock` can still make. -/
def Attempt.remaining : Attempt → ℕ
  | .exchange iterations => 2 * (spinLimit - iterations) - 1
  | .spin iterations => 2 * (spinLimit - iterations)

section Locks
variable {s : State ι} {p : ι}

/-- The holder of the lock is who is between lock and unlock. -/
def Locks (s : State ι) : Prop := ∀ p, (s.procs p).holdsLock = true ↔ s.spinlock = some p

variable [DecidableEq ι] {M : Memory} {wakeup : ι → WakeupStrategy}

/-- A step of `p` that changes the holder for nobody else. -/
theorem Locks.move (h : Locks s) {pc : ProducerPc} {l : Option ι}
    (hp : pc.holdsLock = true ↔ l = some p)
    (hothers : ∀ q, q ≠ p → (l = some q ↔ s.spinlock = some q)) (q : ι) :
    (Function.update s.procs p pc q).holdsLock = true ↔ l = some q := by
  by_cases hq : q = p
  · subst hq
    rw [Function.update_self, hp]
  · rw [Function.update_of_ne hq, hothers q hq, h q]

theorem Locks.setPc (h : Locks s) {pc : ProducerPc}
    (hpc : pc.holdsLock = (s.procs p).holdsLock) (q : ι) :
    (Function.update s.procs p pc q).holdsLock = true ↔ s.spinlock = some q :=
  h.move (by rw [hpc, h p]) (fun _ _ => Iff.rfl) q

theorem Locks.release (h : Locks s) {pc : ProducerPc} (hheld : (s.procs p).holdsLock = true)
    (hpc : pc.holdsLock = false) (q : ι) :
    (Function.update s.procs p pc q).holdsLock = true ↔ none = some q := by
  refine h.move (by simp [hpc]) (fun q hq => ?_) q
  rw [(h p).mp hheld]
  simpa using hq.symm

variable (M wakeup) in
theorem Locks.producerStep (h : Locks s) (p : ι) (a : ProducerAct) :
    Locks (producerStep M wakeup s p a).1 := by
  have hmove := producerStep_move M wakeup s p a
  generalize Mpscbuf.producerStep M wakeup s p a = r at hmove ⊢
  cases hmove with
  | stay | overflow | incrementDropped => exact h
  | lock hpc hlock =>
    refine fun q => h.move (by simp [ProducerPc.holdsLock]) (fun q hq => ?_) q
    simpa [hlock] using hq.symm
  | own hpc => exact fun q => h.release (by rw [hpc]; rfl) rfl q
  | fail hpc => exact fun q => h.release (by rw [hpc]; rfl) rfl q
  | dropDiscarded hpc hd | drop hpc hd =>
    exact fun q => h.setPc (by rcases hpc with hpc | hpc <;> rw [hpc] <;> rfl) q
  | reserve hpc | timeout hpc | admitted hpc | refuse hpc | writeHeader hpc | publish hpc
  | write _ hpc | discard hpc | discardStore hpc | commitLoad hpc | commitStore hpc
  | notify hpc | finish hpc => exact fun q => h.setPc (by rw [hpc]; rfl) q

omit [DecidableEq ι] in
theorem consumerStep_spinlock (s : State ι) (a : ConsumerAct) :
    (consumerStep M s a).1.spinlock = s.spinlock := by
  cases a with
  | loadConsumer | advanceConsumer | dropRecord | wait =>
    simp only [consumerStep]
    cases s.reader <;> rfl
  | loadProducer | loadHeader | wake =>
    simp only [consumerStep]
    cases s.reader <;> first | rfl | (dsimp only; split_ifs <;> rfl)

variable (M wakeup) in
theorem Locks.step (h : Locks s) (a : Act ι) : Locks ((ringBuf M wakeup).step s a).1 := by
  cases a with
  | producer p a => exact h.producerStep M wakeup p a
  | consumer a =>
    intro p
    change ((consumerStep M s a).1.procs p).holdsLock = true ↔
      (consumerStep M s a).1.spinlock = some p
    rw [consumerStep_procs, consumerStep_spinlock]
    exact h p

end Locks

section Moves
variable [DecidableEq ι] {s : SpinState ι} {p : ι}

/-- What one access of a `try_lock` can do. -/
inductive TryMove (s : SpinState ι) (p : ι) : SpinState ι × List (Event ι) → Prop
  | stay (hpc : (s.ring.procs p).waits = false) : TryMove s p (s, [])
  | take {size total c : ℕ} (hpc : s.ring.procs p = .loadedConsumer size total c)
    (hfree : s.lock = false) :
    TryMove s p ({ s with
      lock := true
      ring := { s.ring.setPc p (.locked size total c) with spinlock := some p } }, [])
  | giveUp {size total c : ℕ} (hpc : s.ring.procs p = .loadedConsumer size total c) :
    TryMove s p (s.giveUp p)
  | again {size total c : ℕ} {a : Attempt} (hpc : s.ring.procs p = .loadedConsumer size total c)
    (hpos : 0 < a.remaining) (hless : a.remaining < (s.attempts p).remaining) :
    TryMove s p (s.setAttempt p a, [])

theorem iterate_move {size total c iterations : ℕ}
    (hpc : s.ring.procs p = .loadedConsumer size total c)
    (hle : 2 * (spinLimit - iterations) - 1 ≤ (s.attempts p).remaining) :
    TryMove s p (s.iterate p iterations) := by
  unfold SpinState.iterate
  split_ifs with hlimit
  · exact .giveUp hpc
  · have hspin : (Attempt.spin (iterations + 1)).remaining =
        2 * (spinLimit - (iterations + 1)) := rfl
    exact .again hpc (by omega) (by omega)

theorem tryLock_move (hpos : 0 < (s.attempts p).remaining) (spurious : Bool) :
    TryMove s p (s.tryLock p spurious) := by
  unfold SpinState.tryLock
  cases hpc : s.ring.procs p with
  | loadedConsumer size total c =>
    dsimp only
    cases hattempt : s.attempts p with
    | exchange iterations =>
      have hrem : (s.attempts p).remaining = 2 * (spinLimit - iterations) - 1 := by
        rw [hattempt]
        rfl
      dsimp only
      split_ifs with hfree
      · rw [Bool.and_eq_true, Bool.not_eq_true'] at hfree
        exact .take hpc hfree.1
      · exact iterate_move hpc hrem.ge
    | spin iterations =>
      have hrem : (s.attempts p).remaining = 2 * (spinLimit - iterations) := by
        rw [hattempt]
        rfl
      have hex : (Attempt.exchange iterations).remaining =
          2 * (spinLimit - iterations) - 1 := rfl
      dsimp only
      split_ifs
      · exact iterate_move hpc (by omega)
      · exact .again hpc (by omega) (by omega)
  | _ => exact .stay (by rw [hpc]; rfl)

end Moves

/-- What holds between any two accesses. -/
structure SpinInv (s : SpinState ι) : Prop where
  locks : Locks s.ring
  word : s.lock = s.ring.spinlock.isSome
  attempts : ∀ p, 0 < (s.attempts p).remaining

theorem spinInv_init : SpinInv (SpinState.init : SpinState ι) where
  locks := by simp [Locks, SpinState.init, State.init, ProducerPc.holdsLock]
  word := rfl
  attempts := fun _ => by simp [SpinState.init, Attempt.remaining, spinLimit]

section Simulation
variable [DecidableEq ι] {M : Memory} {wakeup : ι → WakeupStrategy} {s : SpinState ι}

theorem attempts_update (h : ∀ p, 0 < (s.attempts p).remaining) {a : Attempt}
    (ha : 0 < a.remaining) (p q : ι) : 0 < (Function.update s.attempts p a q).remaining := by
  by_cases hq : q = p
  · subst hq
    rwa [Function.update_self]
  · rw [Function.update_of_ne hq]
    exact h q

/-- A step that the ring matches by some steps of its own. -/
def Matched (M : Memory) (wakeup : ι → WakeupStrategy) (s : SpinState ι) (a : SpinAct ι)
    (r : SpinState ι × List (Event ι)) : Prop :=
  SpinInv r.1 ∧ ∃ bs : List (Act ι), (a.CommitsOnly → ∀ b ∈ bs, CommitsOnly b) ∧
    (ringBuf M wakeup).exec s.ring bs = (r.1.ring, r.2)

variable (M wakeup) in
theorem tryLock_matched (h : SpinInv s) (p : ι) (spurious : Bool) :
    Matched M wakeup s (.tryLock p spurious) (s.tryLock p spurious) := by
  have hmove := tryLock_move (h.attempts p) spurious
  generalize s.tryLock p spurious = r at hmove ⊢
  cases hmove with
  | stay hpc => exact ⟨h, [], by simp, rfl⟩
  | @take size total c hpc hfree =>
    have hnone : s.ring.spinlock = none := by simpa [hfree] using h.word
    have hexec : (ringBuf M wakeup).step s.ring (.producer p .lock) =
        ({ s.ring.setPc p (.locked size total c) with spinlock := some p }, []) := by
      simp only [ringBuf, producerStep, hpc, hnone]
    refine ⟨⟨?_, rfl, h.attempts⟩, [.producer p .lock], by simp [CommitsOnly], ?_⟩
    · have hlocks := h.locks.step M wakeup (.producer p .lock)
      rwa [hexec] at hlocks
    · simp [Machine.exec, hexec]
  | giveUp hpc =>
    have hexec : (ringBuf M wakeup).step s.ring (.producer p .timeout) =
        (s.ring.setPc p .idle, [.failed p (.error .lockTimeout)]) := by
      simp only [ringBuf, producerStep, hpc]
    refine ⟨⟨?_, h.word, h.attempts⟩, [.producer p .timeout], by simp [CommitsOnly], ?_⟩
    · have hlocks := h.locks.step M wakeup (.producer p .timeout)
      rwa [hexec] at hlocks
    · simp [Machine.exec, hexec, SpinState.giveUp]
  | again hpc hpos hless =>
    exact ⟨⟨h.locks, h.word, attempts_update h.attempts hpos p⟩, [], by simp, rfl⟩

/-- Only lock and unlock change the holder. -/
theorem producerStep_spinlock (st : State ι) (p : ι) {a : ProducerAct} (hlock : a ≠ .lock)
    (hunlock : a ≠ .unlock) : (producerStep M wakeup st p a).1.spinlock = st.spinlock := by
  have hmove := producerStep_move M wakeup st p a
  generalize producerStep M wakeup st p a = r at hmove ⊢
  cases hmove with
  | lock => exact absurd rfl hlock
  | own | fail => exact absurd rfl hunlock
  | _ => rfl

/-- A step of the ring that touches neither the lock nor an attempt. -/
theorem ring_matched (h : SpinInv s) {a : Act ι} {attempts : ι → Attempt}
    (hattempts : ∀ p, 0 < (attempts p).remaining)
    (hlock : ((ringBuf M wakeup).step s.ring a).1.spinlock = s.ring.spinlock) :
    Matched M wakeup s (.ring a)
      (⟨s.lock, attempts, ((ringBuf M wakeup).step s.ring a).1⟩,
        ((ringBuf M wakeup).step s.ring a).2) := by
  refine ⟨⟨h.locks.step M wakeup a, ?_, hattempts⟩, [a], ?_, ?_⟩
  · rw [hlock]
    exact h.word
  · simp [SpinAct.CommitsOnly]
  · simp [Machine.exec]

theorem unlock_matched (h : SpinInv s) (p : ι) :
    Matched M wakeup s (.ring (.producer p .unlock))
      (s.ringStep M wakeup (.producer p .unlock)) := by
  refine ⟨⟨h.locks.step M wakeup _, ?_, h.attempts⟩, [.producer p .unlock], by simp [CommitsOnly],
    by simp [Machine.exec, SpinState.ringStep]⟩
  simp only [SpinState.ringStep, ringBuf, producerStep]
  cases s.ring.procs p with
  | published | refused => rfl
  | _ => exact h.word

theorem ringStep_matched (h : SpinInv s) (a : Act ι) :
    Matched M wakeup s (.ring a) (s.ringStep M wakeup a) := by
  cases a with
  | consumer a => exact ring_matched h h.attempts (consumerStep_spinlock s.ring a)
  | producer p a =>
    cases a with
    | lock | timeout => exact ⟨h, [], by simp, rfl⟩
    | unlock => exact unlock_matched h p
    | reserve size =>
      refine ring_matched h (fun q => ?_)
        (producerStep_spinlock s.ring p (by simp) (by simp))
      split_ifs
      · exact attempts_update h.attempts (by simp [Attempt.remaining, spinLimit]) p q
      · exact h.attempts q
    | _ => exact ring_matched h h.attempts (producerStep_spinlock s.ring p (by simp) (by simp))

theorem spinning_matched (h : SpinInv s) (a : SpinAct ι) :
    Matched M wakeup s a ((spinning M wakeup).step s a) := by
  cases a with
  | ring a => exact ringStep_matched h a
  | tryLock p spurious => exact tryLock_matched M wakeup h p spurious

variable (M wakeup)

/-- However the accesses to the lock word interleave, at most one reservation is between lock
and unlock, the word is set exactly while one is, and the ring goes through a run of `ringBuf`.
So the consumer receives what was committed in the order of the positions. -/
theorem spinning_refines_ring (acts : List (SpinAct ι)) :
    let s := (spinning M wakeup).final SpinState.init acts
    let events := (spinning M wakeup).outputs SpinState.init acts
    (∃ steps, (ringBuf M wakeup).exec State.init steps = (s.ring, events)) ∧
      (∀ p q, (s.ring.procs p).holdsLock = true → (s.ring.procs q).holdsLock = true → p = q) ∧
      (s.lock = true ↔ ∃ p, (s.ring.procs p).holdsLock = true) ∧
      ((∀ a ∈ acts, a.CommitsOnly) → DeliversInOrder M s.ring events) := by
  intro s events
  obtain ⟨hinv, steps, hsteps, hexec⟩ := Machine.exec_simulated (M := spinning M wakeup)
    (N := ringBuf M wakeup) (I := SpinInv) (P := SpinAct.CommitsOnly) (Q := CommitsOnly)
    SpinState.ring (fun _ a hs => spinning_matched hs a) spinInv_init acts
  refine ⟨⟨steps, hexec⟩, ?_, ?_, fun hacts => ?_⟩
  · intro p q hp hq
    have he := ((hinv.locks p).mp hp).symm.trans ((hinv.locks q).mp hq)
    exact Option.some.inj he
  · rw [hinv.word, Option.isSome_iff_exists]
    exact exists_congr fun p => (hinv.locks p).symm
  · have hfinal : (ringBuf M wakeup).final State.init steps = s.ring := congrArg Prod.fst hexec
    have houts : (ringBuf M wakeup).outputs State.init steps = events := congrArg Prod.snd hexec
    have hrun : Inv M ((ringBuf M wakeup).final State.init steps) :=
      inv_of_commitsOnly (hsteps hacts)
    have hag := (run_refines wakeup (M := M)
      (sparesDiscarded_of_commitsOnly (hsteps hacts))).agrees
    have hdelivers := hrun.deliversInOrder hag (run_no_void wakeup (hsteps hacts))
    rwa [hfinal, houts] at hdelivers

end Simulation

section Bound
variable [DecidableEq ι] {M : Memory} {wakeup : ι → WakeupStrategy} {s : SpinState ι} {p : ι}

/-- The accesses of the `try_lock` of `p`. -/
def SpinAct.isTry (p : ι) : SpinAct ι → Bool
  | .tryLock q _ => q = p
  | .ring _ => false

/-- The reservation `p` waits, with at most `n` accesses to go. -/
structure Waits (p : ι) (n : ℕ) (s : SpinState ι) : Prop where
  inv : SpinInv s
  pc : (s.ring.procs p).waits = true
  remaining : (s.attempts p).remaining ≤ n

theorem remaining_le (a : Attempt) : a.remaining ≤ 2 * spinLimit := by
  cases a <;> simp only [Attempt.remaining] <;> omega

/-- No step of the ring moves a reservation that waits. -/
theorem producerStep_waits (st : State ι) (hpc : (st.procs p).waits = true) (q : ι)
    {a : ProducerAct} (hlock : a ≠ .lock) (htimeout : a ≠ .timeout) :
    (producerStep M wakeup st q a).1.procs p = st.procs p := by
  have hmove := producerStep_move M wakeup st q a
  generalize producerStep M wakeup st q a = r at hmove ⊢
  by_cases hq : p = q
  · subst hq
    cases hmove with
    | stay | overflow | incrementDropped => rfl
    | lock => exact absurd rfl hlock
    | timeout => exact absurd rfl htimeout
    | dropDiscarded h | drop h => rcases h with h | h <;> simp [h, ProducerPc.waits] at hpc
    | reserve h | admitted h | refuse h | writeHeader h | publish h | own h | fail h | write _ h
    | discard h | discardStore h | commitLoad h | commitStore h | notify h | finish h =>
      simp [h, ProducerPc.waits] at hpc
  · cases hmove with
    | stay | overflow | incrementDropped => rfl
    | _ => exact Function.update_of_ne hq _ _

theorem ringStep_waits (hpc : (s.ring.procs p).waits = true) (a : Act ι) :
    (s.ringStep M wakeup a).1.ring.procs p = s.ring.procs p ∧
      (s.ringStep M wakeup a).1.attempts p = s.attempts p := by
  cases a with
  | consumer a => exact ⟨congrFun (consumerStep_procs s.ring a) p, rfl⟩
  | producer q a =>
    cases a with
    | lock | timeout => exact ⟨rfl, rfl⟩
    | reserve size =>
      refine ⟨producerStep_waits s.ring hpc q (by simp) (by simp), ?_⟩
      simp only [SpinState.ringStep]
      split_ifs with hidle
      · have hne : p ≠ q := by
          rintro rfl
          simp [hidle, ProducerPc.waits] at hpc
        exact Function.update_of_ne hne _ _
      · rfl
    | _ => exact ⟨producerStep_waits s.ring hpc q (by simp) (by simp), rfl⟩

theorem tryLock_waits_other {q : ι} (hpos : 0 < (s.attempts q).remaining) (hq : p ≠ q)
    (spurious : Bool) : (s.tryLock q spurious).1.ring.procs p = s.ring.procs p ∧
      (s.tryLock q spurious).1.attempts p = s.attempts p := by
  have hmove := tryLock_move hpos spurious
  generalize s.tryLock q spurious = r at hmove ⊢
  cases hmove with
  | stay => exact ⟨rfl, rfl⟩
  | take | giveUp => exact ⟨Function.update_of_ne hq _ _, rfl⟩
  | again => exact ⟨rfl, Function.update_of_ne hq _ _⟩

/-- The outcome of a `try_lock` after a run. -/
def Returns (M : Memory) (wakeup : ι → WakeupStrategy) (s : SpinState ι) (p : ι)
    (acts : List (SpinAct ι)) : Prop :=
  (∃ size total c, ((spinning M wakeup).final s acts).ring.procs p = .locked size total c) ∨
    .failed p (.error .lockTimeout) ∈ (spinning M wakeup).outputs s acts

/-- An access of `p` ends its wait or shortens it. -/
theorem tryLock_waits_self {n : ℕ} (h : Waits p (n + 1) s) (spurious : Bool) :
    Returns M wakeup s p [.tryLock p spurious] ∨ Waits p n (s.tryLock p spurious).1 := by
  have hinv := (tryLock_matched M wakeup h.inv p spurious).1
  have hmove := tryLock_move (h.inv.attempts p) spurious
  unfold Returns
  simp only [Machine.final_cons, Machine.final_nil, Machine.outputs_cons, Machine.outputs_nil,
    List.append_nil, spinning]
  generalize s.tryLock p spurious = r at hmove hinv ⊢
  cases hmove with
  | stay hpc => simp [h.pc] at hpc
  | take hpc hfree => exact .inl (.inl ⟨_, _, _, Function.update_self _ _ _⟩)
  | giveUp hpc => exact .inl (.inr (by simp [SpinState.giveUp]))
  | @again _ _ _ a hpc hpos hless =>
    have hattempt : (s.setAttempt p a).attempts p = a := Function.update_self _ _ _
    have hle := h.remaining
    exact .inr ⟨hinv, h.pc, by rw [hattempt]; omega⟩

theorem Returns.cons {a : SpinAct ι} {acts : List (SpinAct ι)}
    (h : Returns M wakeup ((spinning M wakeup).step s a).1 p acts) :
    Returns M wakeup s p (a :: acts) :=
  h.imp id fun hm => List.mem_append.mpr (.inr hm)

/-- A step that is not an access of `p` leaves its wait as it is. -/
theorem Waits.step_other {n : ℕ} (h : Waits p n s) {a : SpinAct ι} (ha : a.isTry p = false) :
    Waits p n ((spinning M wakeup).step s a).1 := by
  have hsame : ((spinning M wakeup).step s a).1.ring.procs p = s.ring.procs p ∧
      ((spinning M wakeup).step s a).1.attempts p = s.attempts p := by
    cases a with
    | ring a => exact ringStep_waits h.pc a
    | tryLock q spurious =>
      have hq : p ≠ q := by simpa [SpinAct.isTry, eq_comm] using ha
      exact tryLock_waits_other (h.inv.attempts q) hq spurious
  refine ⟨(spinning_matched h.inv a).1, ?_, ?_⟩
  · rw [hsame.1]
    exact h.pc
  · rw [hsame.2]
    exact h.remaining

theorem Waits.run {n : ℕ} (h : Waits p n s) (acts : List (SpinAct ι))
    (hcount : n ≤ acts.countP (SpinAct.isTry p)) :
    ∃ bs cs, acts = bs ++ cs ∧ Returns M wakeup s p bs := by
  induction acts generalizing s n with
  | nil =>
    have hpos := h.inv.attempts p
    have hle := h.remaining
    rw [List.countP_nil] at hcount
    omega
  | cons a acts ih =>
    cases ha : a.isTry p with
    | false =>
      rw [List.countP_cons_of_neg (by simp [ha])] at hcount
      obtain ⟨bs, cs, rfl, hret⟩ := ih (h.step_other ha) hcount
      exact ⟨a :: bs, cs, rfl, hret.cons⟩
    | true =>
      rw [List.countP_cons_of_pos ha] at hcount
      cases a with
      | ring a => simp [SpinAct.isTry] at ha
      | tryLock q spurious =>
        obtain rfl : q = p := by simpa [SpinAct.isTry] using ha
        cases n with
        | zero => exact absurd h.remaining (Nat.not_le_of_lt (h.inv.attempts q))
        | succ n =>
          rcases tryLock_waits_self h spurious with hret | hwaits
          · exact ⟨[.tryLock q spurious], acts, rfl, hret⟩
          · obtain ⟨bs, cs, rfl, hret⟩ := ih hwaits (by omega)
            exact ⟨.tryLock q spurious :: bs, cs, rfl, hret.cons⟩

/-- Whatever the other parties do, a reservation that waits for the lock has it or has failed
after at most `2 * spinLimit` accesses of its own. It does not depend on the holder. -/
theorem tryLock_returns (M : Memory) (wakeup : ι → WakeupStrategy) (before acts : List (SpinAct ι))
    (p : ι)
    (hwaits : (((spinning M wakeup).final SpinState.init before).ring.procs p).waits = true)
    (hcount : 2 * spinLimit ≤ acts.countP (SpinAct.isTry p)) :
    ∃ bs cs, acts = bs ++ cs ∧
      Returns M wakeup ((spinning M wakeup).final SpinState.init before) p bs := by
  have hinv : SpinInv ((spinning M wakeup).final SpinState.init before) :=
    Machine.invariant (M := spinning M wakeup) (G := fun _ _ => True) (I := SpinInv)
      (fun _ a hs _ => (spinning_matched hs a).1) spinInv_init
      (Machine.meets_of_forall (fun _ _ => trivial) _)
  exact Waits.run ⟨hinv, hwaits, remaining_le _⟩ acts hcount

/-- The holder has stopped between lock and unlock, and another reservation spins. -/
theorem tryLock_returns_stalledHolder :
    let before : List (SpinAct ℕ) := [.ring (.producer 0 (.reserve 8)), .tryLock 0 false,
      .ring (.producer 1 (.reserve 8))]
    let s := (spinning pageRing fun _ => .forced).final SpinState.init before
    (s.ring.procs 0).holdsLock = true ∧ (s.ring.procs 1).waits = true ∧
      ∃ bs cs, List.replicate (2 * spinLimit) (.tryLock 1 false) = bs ++ cs ∧
        Returns pageRing (fun _ => .forced) s 1 bs := by
  refine ⟨by decide, by decide, ?_⟩
  refine tryLock_returns pageRing (fun _ => .forced) _ _ 1 (by decide) ?_
  rw [List.countP_replicate]
  simp [SpinAct.isTry]

end Bound

end Manytrace.Mpscbuf
