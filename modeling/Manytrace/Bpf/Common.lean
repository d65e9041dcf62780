import Mathlib.Algebra.Group.Nat.Defs

/-! Errors of the trackers, and how numbers are read. -/
namespace Manytrace.Bpf

inductive BpfError
  | loadError (msg : String)
  | attachError (msg : String)
  | mapError (msg : String)
deriving DecidableEq, Repr

inductive ParseIntError
  | empty
  | invalidDigit
  | posOverflow
deriving DecidableEq, Repr

def ParseIntError.message : ParseIntError → String
  | .empty => "cannot parse integer from empty string"
  | .invalidDigit => "invalid digit found in string"
  | .posOverflow => "number too large to fit in target type"

def parseDigits : ℕ → List Char → Except ParseIntError ℕ
  | result, [] => .ok result
  | result, c :: digits =>
    if !c.isDigit then .error .invalidDigit
    else
      let next := 10 * result + (c.toNat - '0'.toNat)
      if next < 2 ^ 64 then parseDigits next digits else .error .posOverflow

def parseU64 : List Char → Except ParseIntError ℕ
  | [] => .error .empty
  | ['+'] => .error .invalidDigit
  | '+' :: digits => parseDigits 0 digits
  | digits => parseDigits 0 digits

theorem le_ofDigitChars (digits : List Char) (n : ℕ) : n ≤ Nat.ofDigitChars 10 digits n := by
  induction digits generalizing n with
  | nil => exact Nat.le_refl n
  | cons c digits ih =>
    rw [Nat.ofDigitChars_cons]
    exact Nat.le_trans (by omega) (ih _)

theorem parseDigits_eq {digits : List Char} (hdigits : ∀ c ∈ digits, c.isDigit = true) {n : ℕ}
    (hlt : Nat.ofDigitChars 10 digits n < 2 ^ 64) :
    parseDigits n digits = .ok (Nat.ofDigitChars 10 digits n) := by
  induction digits generalizing n with
  | nil => rfl
  | cons c digits ih =>
    have hc : c.isDigit = true := hdigits c List.mem_cons_self
    rw [Nat.ofDigitChars_cons] at hlt ⊢
    have hnext : 10 * n + (c.toNat - '0'.toNat) < 2 ^ 64 :=
      Nat.lt_of_le_of_lt (le_ofDigitChars digits _) hlt
    rw [parseDigits, hc]
    dsimp only
    rw [if_neg (by decide), if_pos hnext]
    exact ih (fun d hd => hdigits d (List.mem_cons_of_mem c hd)) hlt

/-- A number is read back as it is printed. -/
theorem parseU64_toDigits {n : ℕ} (h : n < 2 ^ 64) : parseU64 (Nat.toDigits 10 n) = .ok n := by
  have hdigits : ∀ c ∈ Nat.toDigits 10 n, c.isDigit = true :=
    fun c hc => Nat.isDigit_of_mem_toDigits (by decide) (by decide) hc
  have hvalue : Nat.ofDigitChars 10 (Nat.toDigits 10 n) 0 = n := Nat.ofDigitChars_ten_toDigits
  have hparse := parseDigits_eq hdigits (n := 0) (by rwa [hvalue])
  rw [hvalue] at hparse
  cases hd : Nat.toDigits 10 n with
  | nil => exact absurd hd Nat.toDigits_ne_nil
  | cons c digits =>
    have hplus : c ≠ '+' := by
      rintro rfl
      exact absurd (hdigits '+' (by rw [hd]; exact List.mem_cons_self)) (by decide)
    rw [hd] at hparse
    unfold parseU64
    split
    · next heq => cases heq
    · next heq => exact absurd (List.cons.inj heq).1 hplus
    · next heq => exact absurd (List.cons.inj heq).1 hplus
    · exact hparse

end Manytrace.Bpf
