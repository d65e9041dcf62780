import Mathlib.Data.Nat.Bitwise
import Manytrace.Core.MirroredMemory

/-! Record headers, machine arithmetic and the validated data area of the ring buffer. -/
namespace Manytrace.Mpscbuf
open Manytrace.Core.MirroredMemory

def headerSize : ℕ := 8

def busyFlag : ℕ := 1 <<< 31

def discardFlag : ℕ := 1 <<< 30

/-! A header is one 64-bit word: the length in the low half, the flags in the high half. -/
namespace RecordHeader

def new (len : ℕ) : ℕ := len % 2 ^ 32 ||| busyFlag <<< 32

def discard (current : ℕ) : ℕ := current % 2 ^ 32 ||| discardFlag <<< 32

def commit (current : ℕ) : ℕ := current % 2 ^ 32

def lenAndFlags (current : ℕ) : ℕ × ℕ := (current % 2 ^ 32, (current >>> 32) % 2 ^ 32)

def isDiscarded (current : ℕ) : Bool := (lenAndFlags current).2 &&& discardFlag != 0

def isBusy (current : ℕ) : Bool := (lenAndFlags current).2 &&& busyFlag != 0

def len (current : ℕ) : ℕ := (lenAndFlags current).1

private theorem or_flag (n f : ℕ) : n % 2 ^ 32 ||| f <<< 32 = n % 2 ^ 32 + f * 2 ^ 32 := by
  rw [Nat.or_comm, ← Nat.shiftLeft_add_eq_or_of_lt (Nat.mod_lt n (by decide)),
    Nat.shiftLeft_eq, Nat.add_comm]

private theorem lenAndFlags_add (n f : ℕ) (hf : f < 2 ^ 32) :
    lenAndFlags (n % 2 ^ 32 + f * 2 ^ 32) = (n % 2 ^ 32, f) := by
  simp only [lenAndFlags, Nat.shiftRight_eq_div_pow, Prod.mk.injEq]
  omega

@[simp] theorem lenAndFlags_new (n : ℕ) : lenAndFlags (new n) = (n % 2 ^ 32, busyFlag) := by
  rw [new, or_flag, lenAndFlags_add n _ (by decide)]

@[simp] theorem lenAndFlags_discard (n : ℕ) :
    lenAndFlags (discard n) = (n % 2 ^ 32, discardFlag) := by
  rw [discard, or_flag, lenAndFlags_add n _ (by decide)]

@[simp] theorem lenAndFlags_commit (n : ℕ) : lenAndFlags (commit n) = (n % 2 ^ 32, 0) := by
  simpa [commit] using lenAndFlags_add n 0 (by decide)

theorem new_lt (n : ℕ) : new n < 2 ^ 64 := by
  have hf : busyFlag = 2 ^ 31 := by decide
  rw [new, or_flag, hf]
  omega

theorem discard_lt (n : ℕ) : discard n < 2 ^ 64 := by
  have hf : discardFlag = 2 ^ 30 := by decide
  rw [discard, or_flag, hf]
  omega

theorem commit_lt (n : ℕ) : commit n < 2 ^ 64 := by
  unfold commit
  omega

theorem isBusy_new (n : ℕ) : isBusy (new n) = true := by
  simp only [isBusy, lenAndFlags_new]
  decide

theorem isDiscarded_new (n : ℕ) : isDiscarded (new n) = false := by
  simp only [isDiscarded, lenAndFlags_new]
  decide

theorem isBusy_discard (n : ℕ) : isBusy (discard n) = false := by
  simp only [isBusy, lenAndFlags_discard]
  decide

theorem isDiscarded_discard (n : ℕ) : isDiscarded (discard n) = true := by
  simp only [isDiscarded, lenAndFlags_discard]
  decide

theorem isBusy_commit (n : ℕ) : isBusy (commit n) = false := by
  simp only [isBusy, lenAndFlags_commit]
  decide

theorem isDiscarded_commit (n : ℕ) : isDiscarded (commit n) = false := by
  simp only [isDiscarded, lenAndFlags_commit]
  decide

theorem len_new {n : ℕ} (hn : n < 2 ^ 32) : len (new n) = n := by
  rw [len, lenAndFlags_new, Nat.mod_eq_of_lt hn]

theorem len_discard (n : ℕ) : len (discard n) = len n := by
  rw [len, lenAndFlags_discard, len, lenAndFlags]

theorem len_commit (n : ℕ) : len (commit n) = len n := by
  rw [len, lenAndFlags_commit, len, lenAndFlags]

end RecordHeader

/-- What `+`, `-` and `*` do out of the range of a 64-bit word. The dev and test
profiles check and panic, the release profile wraps. -/
inductive OverflowMode
  | checked
  | wrapping
deriving DecidableEq, Repr

namespace OverflowMode

/-- `none` is the panic. -/
def add : OverflowMode → ℕ → ℕ → Option ℕ
  | .checked, a, b => if a + b < 2 ^ 64 then some (a + b) else none
  | .wrapping, a, b => some ((a + b) % 2 ^ 64)

def sub : OverflowMode → ℕ → ℕ → Option ℕ
  | .checked, a, b => if b ≤ a then some (a - b) else none
  | .wrapping, a, b => some ((a + 2 ^ 64 - b) % 2 ^ 64)

def mul : OverflowMode → ℕ → ℕ → Option ℕ
  | .checked, a, b => if a * b < 2 ^ 64 then some (a * b) else none
  | .wrapping, a, b => some (a * b % 2 ^ 64)

theorem add_of_lt (o : OverflowMode) {a b : ℕ} (h : a + b < 2 ^ 64) :
    o.add a b = some (a + b) := by
  cases o with
  | checked => exact if_pos h
  | wrapping => exact congrArg some (Nat.mod_eq_of_lt h)

theorem checked_add_eq_some {a b c : ℕ} (h : checked.add a b = some c) : c = a + b := by
  simp only [add] at h
  split_ifs at h
  exact (Option.some.inj h).symm

theorem checked_sub_eq_some {a b c : ℕ} (h : checked.sub a b = some c) : b ≤ a ∧ c = a - b := by
  simp only [sub] at h
  split_ifs at h with hle
  exact ⟨hle, (Option.some.inj h).symm⟩

theorem checked_mul_eq_some {a b c : ℕ} (h : checked.mul a b = some c) : c = a * b := by
  simp only [mul] at h
  split_ifs at h
  exact (Option.some.inj h).symm

end OverflowMode

def divCeil (a b : ℕ) : ℕ := if a % b = 0 then a / b else a / b + 1

def roundUpTo8 (o : OverflowMode) (len : ℕ) : Option ℕ := o.mul (divCeil len 8) 8

/-- The room a record of `len` payload bytes takes, in unbounded arithmetic. -/
def totalLen (len : ℕ) : ℕ := divCeil (headerSize + len) 8 * 8

theorem totalLen_bounds (len : ℕ) :
    headerSize + len ≤ totalLen len ∧ totalLen len < headerSize + len + 8 ∧
      8 ∣ totalLen len := by
  unfold totalLen divCeil headerSize
  split_ifs <;> omega

/-- `total_size` of `Producer::reserve`. -/
def totalSize (o : OverflowMode) (size : ℕ) : Option ℕ :=
  (o.add size headerSize).bind (roundUpTo8 o)

theorem totalSize_checked {size t : ℕ} (h : totalSize .checked size = some t) :
    t = totalLen size := by
  obtain ⟨n, hn, ht⟩ := Option.bind_eq_some_iff.mp h
  rw [OverflowMode.checked_mul_eq_some ht, OverflowMode.checked_add_eq_some hn, Nat.add_comm]
  rfl

/-- The total length the consumer computes from a 32-bit record length; the sum stays
far below the range of `usize`, so no profile can overflow here. -/
theorem roundUpTo8_header (o : OverflowMode) {len : ℕ} (h : len < 2 ^ 32) :
    roundUpTo8 o (headerSize + len) = some (totalLen len) := by
  have hb := totalLen_bounds len
  have hlt : totalLen len < 2 ^ 64 := by
    unfold headerSize at hb
    omega
  unfold totalLen at hlt
  cases o with
  | checked => simp only [roundUpTo8, OverflowMode.mul, if_pos hlt, totalLen]
  | wrapping => simp only [roundUpTo8, OverflowMode.mul, Nat.mod_eq_of_lt hlt, totalLen]

inductive MpscBufError
  | sizeTooSmall (pageSize : ℕ)
  | sizeNotAligned (dataSize : ℕ)
  | mmapFailed
  | insufficientSpace (producerPos consumerPos sizeMask : ℕ)
  | lockTimeout
deriving DecidableEq, Repr

/-- The smallest page size Linux runs with. A larger one only accepts fewer sizes. -/
def getPageSize : ℕ := 4096

/-- The data area of a ring buffer, as `Memory::new` and `Memory::from_fd` let it through. -/
structure Memory where
  dataSize : ℕ
  isPowerOfTwo : dataSize.isPowerOfTwo
  page_le : getPageSize ≤ dataSize

namespace Memory
variable (M : Memory)

def sizeMask : ℕ := M.dataSize - 1

theorem dataSize_pos : 0 < M.dataSize :=
  lt_of_lt_of_le (by decide) M.page_le

/-- Masking a position is reducing it modulo the size of the data area. -/
theorem and_sizeMask (pos : ℕ) : pos &&& M.sizeMask = pos % M.dataSize := by
  obtain ⟨k, hk⟩ := M.isPowerOfTwo
  rw [sizeMask, hk, Nat.and_two_pow_sub_one_eq_mod]

theorem eight_dvd_dataSize : 8 ∣ M.dataSize := by
  obtain ⟨k, hk⟩ := M.isPowerOfTwo
  have hp : getPageSize ≤ 2 ^ k := hk ▸ M.page_le
  have h3 : 3 ≤ k := by
    by_contra h
    have hlt : 2 ^ k < 2 ^ 3 := Nat.pow_lt_pow_right (by decide) (by omega)
    unfold getPageSize at hp
    omega
  rw [hk]
  exact pow_dvd_pow 2 h3

theorem eight_dvd_mod {pos : ℕ} (h : 8 ∣ pos) : 8 ∣ pos % M.dataSize :=
  (Nat.dvd_mod_iff M.eight_dvd_dataSize).mpr h

/-- A header at a multiple of eight never runs over the end of the data area. -/
theorem header_fits {pos : ℕ} (h : 8 ∣ pos) : pos % M.dataSize + headerSize ≤ M.dataSize := by
  have hlt := Nat.mod_lt pos M.dataSize_pos
  have hd := M.eight_dvd_mod h
  have hD := M.eight_dvd_dataSize
  unfold headerSize
  omega

/-- The header word at a virtual offset. -/
def loadHeader (mem : ℕ → UInt8) (offset : ℕ) : ℕ :=
  ofBytes (load M.dataSize mem offset headerSize)

def storeHeader (mem : ℕ → UInt8) (offset word : ℕ) : ℕ → UInt8 :=
  store M.dataSize mem offset (toBytes headerSize word)

theorem headerSize_le : headerSize ≤ M.dataSize :=
  le_trans (by decide) M.page_le

theorem loadHeader_storeHeader (mem : ℕ → UInt8) (offset : ℕ) {word : ℕ} (h : word < 2 ^ 64) :
    M.loadHeader (M.storeHeader mem offset word) offset = word := by
  have hl := load_store_self mem offset (toBytes headerSize word)
    (by simpa using M.headerSize_le)
  rw [length_toBytes] at hl
  rw [loadHeader, storeHeader, hl, ofBytes_toBytes]
  exact Nat.mod_eq_of_lt (by simpa [headerSize] using h)

theorem loadHeader_mod (mem : ℕ → UInt8) (pos : ℕ) :
    M.loadHeader mem (pos % M.dataSize) = M.loadHeader mem pos := by
  rw [loadHeader, load_mod, loadHeader]

theorem storeHeader_mod (mem : ℕ → UInt8) (pos word : ℕ) :
    M.storeHeader mem (pos % M.dataSize) word = M.storeHeader mem pos word :=
  store_mod mem pos _

end Memory
end Manytrace.Mpscbuf
