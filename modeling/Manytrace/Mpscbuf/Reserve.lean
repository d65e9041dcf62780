import Manytrace.Mpscbuf.Space

/-! `Producer::reserve` as one function of the shared words, in both overflow modes, and the
sizes for which its wrapping arithmetic is exact. -/
namespace Manytrace.Mpscbuf
open Manytrace.Core

/-- What `reserve` reads and writes. `consumer` is the position it loads before the lock. -/
structure Shared where
  producer : ℕ
  consumer : ℕ
  mem : ℕ → UInt8

/-- `locked` says whether `try_lock` gets the spinlock. The result is the offset of the record
and the length of the slice. -/
def reserve (o : OverflowMode) (M : Memory) (locked : Bool) (size : ℕ) (s : Shared) :
    Except Failure (ℕ × ℕ) × Shared :=
  match totalSize o size with
  | none => (.error .panic, s)
  | some total =>
    if locked then
      match spaceCheck o M s.producer s.consumer total with
      | .error f => (.error f, s)
      | .ok newProdPos =>
        let offset := s.producer &&& M.sizeMask
        (.ok (offset, size),
          { s with
            mem := M.storeHeader s.mem offset (RecordHeader.new size)
            producer := newProdPos })
    else (.error (.error .lockTimeout), s)

section Outcome
variable {o : OverflowMode} {M : Memory} {size total : ℕ} {s : Shared}

theorem reserve_refused {f : Failure} (htotal : totalSize o size = some total)
    (hcheck : spaceCheck o M s.producer s.consumer total = .error f) :
    reserve o M true size s = (.error f, s) := by
  simp [reserve, htotal, hcheck]

theorem reserve_admitted {newProdPos : ℕ} (htotal : totalSize o size = some total)
    (hcheck : spaceCheck o M s.producer s.consumer total = .ok newProdPos) :
    reserve o M true size s = (.ok (s.producer &&& M.sizeMask, size),
      { s with
        mem := M.storeHeader s.mem (s.producer &&& M.sizeMask) (RecordHeader.new size)
        producer := newProdPos }) := by
  simp [reserve, htotal, hcheck]

theorem reserve_timeout (htotal : totalSize o size = some total) :
    reserve o M false size s = (.error (.error .lockTimeout), s) := by
  simp [reserve, htotal]

end Outcome

section Machine
variable {ι : Type*} [DecidableEq ι] (M : Memory) (wakeup : ι → WakeupStrategy)

def State.shared (s : State ι) : Shared := ⟨s.producer, s.consumer, s.mem⟩

/-- The answer to the caller, as an event of the ring. -/
def replyEvent (p : ι) (position : ℕ) : Except Failure (ℕ × ℕ) → Event ι
  | .ok (_, size) => .reserved p position size
  | .error f => .failed p f

/-- The steps of an undisturbed reservation are the function. -/
theorem run_reserveActs {s : State ι} {p : ι} (hpc : s.procs p = .idle)
    (hlock : s.spinlock = none) (size : ℕ) :
    ((ringBuf M wakeup).final s (reserveActs p size)).shared =
        (reserve .checked M true size s.shared).2 ∧
      (ringBuf M wakeup).outputs s (reserveActs p size) =
        [replyEvent p s.producer (reserve .checked M true size s.shared).1] := by
  cases htotal : totalSize .checked size with
  | none =>
    simp [reserveActs, ringBuf, producerStep, hpc, htotal, reserve, replyEvent,
      Machine.final_cons, Machine.outputs_cons]
  | some total =>
    cases hcheck : spaceCheck .checked M s.producer s.consumer total with
    | error f =>
      simp [reserveActs, ringBuf, producerStep, hpc, hlock, htotal, hcheck, reserve, replyEvent,
        State.setPc, State.shared, Machine.final_cons, Machine.outputs_cons]
    | ok np =>
      simp [reserveActs, ringBuf, producerStep, hpc, hlock, htotal, hcheck, reserve, replyEvent,
        State.setPc, State.shared, Machine.final_cons, Machine.outputs_cons]

end Machine

/-! ## Wrapping arithmetic -/

theorem totalSize_wrapping (size : ℕ) :
    totalSize .wrapping size = some (totalLen size % 2 ^ 64) := by
  simp only [totalSize, OverflowMode.add, Option.bind_some, roundUpTo8, OverflowMode.mul,
    Option.some.injEq]
  unfold totalLen divCeil headerSize
  split_ifs <;> omega

/-- The bytes between the two positions, which are words that may have wrapped. -/
def Shared.used (s : Shared) : ℕ := (s.producer + 2 ^ 64 - s.consumer) % 2 ^ 64

theorem Shared.used_of_le {s : Shared} (hle : s.consumer ≤ s.producer)
    (hlt : s.producer < 2 ^ 64) : s.used = s.producer - s.consumer := by
  unfold used
  omega

/-- What is in the ring once a record of `size` bytes is added, without wrap-around. -/
def Shared.usedWith (s : Shared) (size : ℕ) : ℕ := totalLen size + s.used

section Wrapping
variable {M : Memory} {s : Shared} {size : ℕ}

theorem spaceCheck_wrapping (size : ℕ) (hc : s.consumer < 2 ^ 64) :
    spaceCheck .wrapping M s.producer s.consumer (totalLen size % 2 ^ 64) =
      if M.sizeMask < s.usedWith size % 2 ^ 64 then
        .error (.error (.insufficientSpace ((s.producer + totalLen size) % 2 ^ 64) s.consumer
          M.sizeMask))
      else .ok ((s.producer + totalLen size) % 2 ^ 64) := by
  have hnew : (s.producer + totalLen size % 2 ^ 64) % 2 ^ 64 =
      (s.producer + totalLen size) % 2 ^ 64 := by omega
  have hused : ((s.producer + totalLen size) % 2 ^ 64 + 2 ^ 64 - s.consumer) % 2 ^ 64 =
      s.usedWith size % 2 ^ 64 := by
    unfold Shared.usedWith Shared.used
    omega
  simp only [spaceCheck, OverflowMode.add, OverflowMode.sub, hnew, hused]

/-- A `reserve` of the release build that holds the lock. -/
theorem reserve_wrapping (size : ℕ) (hc : s.consumer < 2 ^ 64) :
    reserve .wrapping M true size s =
      if M.sizeMask < s.usedWith size % 2 ^ 64 then
        (.error (.error (.insufficientSpace ((s.producer + totalLen size) % 2 ^ 64) s.consumer
          M.sizeMask)), s)
      else (.ok (s.producer &&& M.sizeMask, size),
        { s with
          mem := M.storeHeader s.mem (s.producer &&& M.sizeMask) (RecordHeader.new size)
          producer := (s.producer + totalLen size) % 2 ^ 64 }) := by
  have hcheck := spaceCheck_wrapping (M := M) size hc
  by_cases hfull : M.sizeMask < s.usedWith size % 2 ^ 64
  · rw [if_pos hfull] at hcheck ⊢
    exact reserve_refused (totalSize_wrapping size) hcheck
  · rw [if_neg hfull] at hcheck ⊢
    exact reserve_admitted (totalSize_wrapping size) hcheck

/-- The header of the record that a consumer at `position` reads. -/
def headerAt (M : Memory) (s : Shared) (position : ℕ) : ℕ :=
  M.loadHeader s.mem (position &&& M.sizeMask)

/-- The arithmetic of one `reserve` is that of unbounded numbers. -/
structure ReservesExactly (M : Memory) (size : ℕ) (s : Shared) : Prop where
  ok_iff : (reserve .wrapping M true size s).1.isOk ↔ s.usedWith size ≤ M.sizeMask
  -- the length in the header, and the length the consumer computes from it
  length : ∀ r s', reserve .wrapping M true size s = (.ok r, s') →
    RecordHeader.len (headerAt M s' s.producer) = size ∧
      roundUpTo8 .wrapping (headerSize + RecordHeader.len (headerAt M s' s.producer)) =
        OverflowMode.wrapping.sub s'.producer s.producer
  unchanged : ∀ locked f s', reserve .wrapping M locked size s = (.error f, s') → s' = s

theorem reserve_unchanged {locked : Bool} {f : Failure} {s' : Shared}
    (hc : s.consumer < 2 ^ 64) (h : reserve .wrapping M locked size s = (.error f, s')) :
    s' = s := by
  cases locked with
  | false =>
    rw [reserve_timeout (totalSize_wrapping size)] at h
    exact (Prod.mk.inj h).2.symm
  | true =>
    rw [reserve_wrapping size hc] at h
    split_ifs at h
    · exact (Prod.mk.inj h).2.symm
    · cases (Prod.mk.inj h).1

theorem Memory.sizeMask_add_one (M : Memory) : M.sizeMask + 1 = M.dataSize :=
  Nat.sub_add_cancel M.dataSize_pos

theorem headerAt_reserve (mem : ℕ → UInt8) (producer consumer position size : ℕ) :
    RecordHeader.len (headerAt M ⟨producer, consumer,
      M.storeHeader mem (position &&& M.sizeMask) (RecordHeader.new size)⟩ position) =
      size % 2 ^ 32 := by
  rw [headerAt, M.loadHeader_storeHeader _ _ (RecordHeader.new_lt size), RecordHeader.len,
    RecordHeader.lenAndFlags_new]

/-- A record shorter than `2 ^ 32` has the length that the consumer computes. -/
theorem length_of_lt (hsize : size < 2 ^ 32) (hp : s.producer < 2 ^ 64) :
    roundUpTo8 .wrapping (headerSize + size) =
      OverflowMode.wrapping.sub ((s.producer + totalLen size) % 2 ^ 64) s.producer := by
  have hb := totalLen_bounds size
  rw [roundUpTo8_header _ hsize]
  simp only [OverflowMode.sub, Option.some.injEq]
  unfold headerSize at hb
  omega

/-- A refusal is exact if the unwrapped amount does not fit either. -/
theorem reservesExactly_refused (hc : s.consumer < 2 ^ 64)
    (hfull : M.sizeMask < s.usedWith size % 2 ^ 64) : ReservesExactly M size s := by
  have hrefused := reserve_wrapping (M := M) size hc
  rw [if_pos hfull] at hrefused
  refine ⟨?_, ?_, fun _ _ _ h => reserve_unchanged hc h⟩
  · rw [hrefused]
    simp only [Except.isOk, Except.toBool, Bool.false_eq_true, false_iff]
    omega
  · intro r s' h
    rw [hrefused] at h
    cases (Prod.mk.inj h).1

theorem reservesExactly_admitted (hp : s.producer < 2 ^ 64) (hc : s.consumer < 2 ^ 64)
    (hsize : size < 2 ^ 32) (hM : M.sizeMask < 2 ^ 64) (hfits : s.usedWith size ≤ M.sizeMask) :
    ReservesExactly M size s := by
  have hadmitted := reserve_wrapping (M := M) size hc
  rw [if_neg (by omega)] at hadmitted
  refine ⟨?_, ?_, fun _ _ _ h => reserve_unchanged hc h⟩
  · rw [hadmitted]
    exact iff_of_true rfl hfits
  · intro r s' hok
    rw [hadmitted] at hok
    obtain ⟨-, rfl⟩ := Prod.mk.inj hok
    have hlen : size % 2 ^ 32 = size := Nat.mod_eq_of_lt hsize
    rw [headerAt_reserve, hlen]
    exact ⟨rfl, length_of_lt hsize hp⟩

/-- An exact `reserve` that succeeds has room for its record and a length that fits. -/
theorem ReservesExactly.fits (h : ReservesExactly M size s) (hc : s.consumer < 2 ^ 64)
    (hroom : s.usedWith size % 2 ^ 64 ≤ M.sizeMask) :
    s.usedWith size ≤ M.sizeMask ∧ size < 2 ^ 32 := by
  have hadmitted := reserve_wrapping (M := M) size hc
  rw [if_neg (Nat.not_lt.mpr hroom)] at hadmitted
  have hlen := (h.length _ _ hadmitted).1
  rw [headerAt_reserve] at hlen
  constructor
  · rw [← h.ok_iff, hadmitted]
    rfl
  · omega

/-- The arithmetic is exact if the new amount does not wrap and, unless the record is refused,
its length fits the header. A wrapped amount is exact only if it is still refused. -/
theorem reserves_exactly_iff (M : Memory) (hM : M.dataSize < 2 ^ 64) {size : ℕ}
    (hsize : size < 2 ^ 64) (s : Shared) (hp : s.producer < 2 ^ 64) (hc : s.consumer < 2 ^ 64) :
    ReservesExactly M size s ↔
      (s.usedWith size < 2 ^ 64 ∧ (size < 2 ^ 32 ∨ M.dataSize ≤ s.usedWith size)) ∨
      (2 ^ 64 + M.dataSize ≤ s.usedWith size ∧ s.usedWith size < 2 ^ 65) := by
  have hmask := M.sizeMask_add_one
  have hpage : 4096 ≤ M.dataSize := M.page_le
  have hbound : s.usedWith size < 2 ^ 65 + 16 := by
    have hb := totalLen_bounds size
    unfold Shared.usedWith Shared.used
    unfold headerSize at hb
    omega
  by_cases hfull : M.sizeMask < s.usedWith size % 2 ^ 64
  · refine iff_of_true (reservesExactly_refused hc hfull) ?_
    omega
  · constructor
    · intro h
      obtain ⟨hfits, hlen⟩ := h.fits hc (Nat.not_lt.mp hfull)
      left
      omega
    · intro h
      exact reservesExactly_admitted hp hc (by omega) (by omega) (by omega)

end Wrapping

/-- In a ring of one page: a record that fits, one whose total wraps around and is refused
nevertheless, and one that does not fit. -/
theorem reserves_exactly_in_page :
    ReservesExactly pageRing 9 ⟨24, 0, fun _ => 0⟩ ∧
      ReservesExactly pageRing (2 ^ 64 - 1) ⟨4088, 0, fun _ => 0⟩ ∧
      ReservesExactly pageRing 4080 ⟨24, 0, fun _ => 0⟩ :=
  ⟨(reserves_exactly_iff pageRing (by decide) (by decide) _ (by decide) (by decide)).mpr
      (by decide),
    (reserves_exactly_iff pageRing (by decide) (by decide) _ (by decide) (by decide)).mpr
      (by decide),
    (reserves_exactly_iff pageRing (by decide) (by decide) _ (by decide) (by decide)).mpr
      (by decide)⟩

/-- In an empty ring of one page `reserve` hands out `2 ^ 64 - 1` bytes and moves the
producer position by 8; in `hugeRing` a record of `2 ^ 32` bytes gets the length 0. -/
theorem reserve_wraps_around :
    (pageRing.sizeMask < Shared.usedWith ⟨0, 0, fun _ => 0⟩ (2 ^ 64 - 1) ∧
      (reserve .wrapping pageRing true (2 ^ 64 - 1) ⟨0, 0, fun _ => 0⟩).1 =
        .ok (0, 2 ^ 64 - 1) ∧
      (reserve .wrapping pageRing true (2 ^ 64 - 1) ⟨0, 0, fun _ => 0⟩).2.producer = 8) ∧
    (reserve .wrapping hugeRing true (2 ^ 32) ⟨0, 0, fun _ => 0⟩).1 = .ok (0, 2 ^ 32) ∧
      RecordHeader.len (headerAt hugeRing
        (reserve .wrapping hugeRing true (2 ^ 32) ⟨0, 0, fun _ => 0⟩).2 0) = 0 := by
  refine ⟨⟨by decide, by decide, by decide⟩, by decide, by decide⟩

/-! ## The positions of a run -/

section Reached
variable {ι : Type*} [DecidableEq ι] {M : Memory} {wakeup : ι → WakeupStrategy} {s : State ι}

/-- The position that a reservation is about to store is a 64-bit word. -/
def ProducerPc.WordSized : ProducerPc → Prop
  | .admitted _ _ newProdPos | .headerWritten _ _ newProdPos => newProdPos < 2 ^ 64
  | _ => True

structure WordSized (s : State ι) : Prop where
  producer : s.producer < 2 ^ 64
  next : ∀ p, (s.procs p).WordSized

omit [DecidableEq ι] in
theorem consumerStep_producer (s : State ι) (a : ConsumerAct) :
    (consumerStep M s a).1.producer = s.producer := by
  cases a <;> simp only [consumerStep] <;> repeat' split
  all_goals rfl

theorem spaceCheck_checked_lt {producerPos consumerPos total newProdPos : ℕ}
    (h : spaceCheck .checked M producerPos consumerPos total = .ok newProdPos) :
    newProdPos < 2 ^ 64 := by
  unfold spaceCheck at h
  cases hadd : OverflowMode.checked.add producerPos total with
  | none => simp [hadd] at h
  | some np =>
    have hlt : np < 2 ^ 64 := by
      have hsum := OverflowMode.checked_add_eq_some hadd
      simp only [OverflowMode.add] at hadd
      split_ifs at hadd with hsmall
      rw [hsum]
      exact hsmall
    cases hsub : OverflowMode.checked.sub np consumerPos with
    | none => simp [hadd, hsub] at h
    | some used =>
      simp only [hadd, hsub] at h
      split_ifs at h
      cases h
      exact hlt

theorem WordSized.setPc (h : WordSized s) (p : ι) {pc : ProducerPc} (hpc : pc.WordSized) :
    ∀ q, ((s.setPc p pc).procs q).WordSized := by
  intro q
  by_cases hq : q = p
  · subst hq
    simpa [State.setPc] using hpc
  · simpa [State.setPc, Function.update_of_ne hq] using h.next q

theorem WordSized.producerStep (h : WordSized s) (p : ι) (a : ProducerAct) :
    WordSized (producerStep M wakeup s p a).1 := by
  have hp := h.next p
  have hmove := producerStep_move M wakeup s p a
  generalize Mpscbuf.producerStep M wakeup s p a = r at hmove ⊢
  cases hmove with
  | stay | overflow => exact h
  | incrementDropped => exact ⟨h.producer, h.next⟩
  | admitted hpc hcheck => exact ⟨h.producer, h.setPc p (spaceCheck_checked_lt hcheck)⟩
  | writeHeader hpc =>
    rw [hpc] at hp
    exact ⟨h.producer, h.setPc p hp⟩
  | publish hpc =>
    rw [hpc] at hp
    exact ⟨hp, h.setPc p trivial⟩
  | _ => exact ⟨h.producer, h.setPc p trivial⟩

theorem WordSized.step (h : WordSized s) (a : Act ι) :
    WordSized ((ringBuf M wakeup).step s a).1 := by
  cases a with
  | producer p a => exact h.producerStep p a
  | consumer a =>
    refine ⟨?_, ?_⟩
    · change (consumerStep M s a).1.producer < 2 ^ 64
      rw [consumerStep_producer]
      exact h.producer
    · intro p
      change ((consumerStep M s a).1.procs p).WordSized
      rw [consumerStep_procs]
      exact h.next p

/-- In every state of a run whose records are committed and fit their headers, the next such
record is reserved exactly. -/
theorem reserves_exactly_of_run (hM : M.dataSize < 2 ^ 64) {acts : List (Act ι)}
    (h : ∀ a ∈ acts, CommitsOnly a) {size : ℕ} (hsize : size < 2 ^ 32) :
    ReservesExactly M size ((ringBuf M wakeup).final State.init acts).shared := by
  have hspace := ring_space M wakeup acts h
  have hword : WordSized ((ringBuf M wakeup).final State.init acts) :=
    Machine.invariant (fun s a hs _ => hs.step a) ⟨Nat.two_pow_pos 64, fun _ => trivial⟩
      (Machine.meets_of_forall h State.init)
  generalize (ringBuf M wakeup).final State.init acts = s at hspace hword ⊢
  have hle : s.shared.consumer ≤ s.shared.producer := hspace.consumer_le
  have hlt : s.shared.producer < 2 ^ 64 := hword.producer
  have hused := Shared.used_of_le hle hlt
  have hfilled := hspace.producer_le
  have hpow : M.dataSize ≤ 2 ^ 63 := by
    obtain ⟨k, hk⟩ := M.isPowerOfTwo
    rw [hk] at hM ⊢
    have hk64 : k < 64 := (Nat.pow_lt_pow_iff_right (by decide)).mp hM
    exact Nat.pow_le_pow_right (by decide) (by omega)
  have hb := totalLen_bounds size
  have hwith : s.shared.usedWith size < 2 ^ 64 := by
    unfold Shared.usedWith
    rw [hused]
    simp only [State.shared]
    unfold headerSize at hb
    omega
  have hmask := M.sizeMask_add_one
  by_cases hfits : s.shared.usedWith size ≤ M.sizeMask
  · exact reservesExactly_admitted hlt (Nat.lt_of_le_of_lt hle hlt) hsize (by omega) hfits
  · exact reservesExactly_refused (Nat.lt_of_le_of_lt hle hlt) (by omega)

end Reached
end Manytrace.Mpscbuf
