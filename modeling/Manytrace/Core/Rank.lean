import Mathlib.Algebra.BigOperators.Group.Finset.Basic
import Mathlib.Algebra.Order.Ring.Nat
import Mathlib.Order.Defs.LinearOrder
import Mathlib.Order.Monotone.Defs

/-! Order statistics by counting: the element of a given rank is below a bound exactly if
enough elements are. -/
namespace Manytrace.Core
variable {α κ : Type*}

section Sorted
variable [LinearOrder κ]

theorem countP_le_eq_zero {ks : List κ} {b : κ} (h : ∀ k ∈ ks, b < k) :
    ks.countP (· ≤ b) = 0 := by
  rw [List.countP_eq_zero]
  intro k hk
  simpa using h k hk

/-- The elements below a bound come first in a sorted list. -/
theorem getElem_le_iff {ks : List κ} (hsorted : ks.Pairwise (· ≤ ·)) (b : κ) {i : ℕ}
    (hi : i < ks.length) : ks[i] ≤ b ↔ i < ks.countP (· ≤ b) := by
  induction ks generalizing i with
  | nil => exact absurd hi (Nat.not_lt_zero i)
  | cons k ks ih =>
    obtain ⟨hle, hrest⟩ := List.pairwise_cons.mp hsorted
    by_cases hk : k ≤ b
    · rw [List.countP_cons_of_pos (by simpa using hk)]
      cases i with
      | zero => simpa using hk
      | succ i =>
        rw [List.getElem_cons_succ, ih hrest, Nat.add_lt_add_iff_right]
    · have hlt : ∀ k' ∈ k :: ks, b < k' := by
        intro k' hk'
        rcases List.mem_cons.mp hk' with rfl | hmem
        · exact not_le.mp hk
        · exact lt_of_lt_of_le (not_le.mp hk) (hle k' hmem)
      rw [countP_le_eq_zero hlt]
      have hnot : ¬ (k :: ks)[i] ≤ b := not_le.mpr (hlt _ (List.getElem_mem hi))
      exact ⟨fun h => absurd h hnot, fun h => absurd h (Nat.not_lt_zero i)⟩

end Sorted

section Ranked
variable [LinearOrder α] [LinearOrder κ] {xs : List α} {x : α} {r : ℕ}

/-- The element of rank `r`, counted from 1. -/
def ranked (xs : List α) (r : ℕ) : Option α := (xs.mergeSort (· ≤ ·))[r - 1]?

theorem exists_ranked (xs : List α) (hpos : 0 < r) (hr : r ≤ xs.length) :
    ∃ x, ranked xs r = some x := by
  have hi : r - 1 < (xs.mergeSort (· ≤ ·)).length := by
    rw [List.length_mergeSort]
    omega
  exact ⟨_, List.getElem?_eq_getElem hi⟩

theorem mem_of_ranked (h : ranked xs r = some x) : x ∈ xs :=
  List.mem_mergeSort.mp (List.mem_of_getElem? h)

theorem sorted_mergeSort (xs : List α) : (xs.mergeSort (· ≤ ·)).Pairwise (· ≤ ·) := by
  have htrans : ∀ a b c : α, decide (a ≤ b) = true → decide (b ≤ c) = true →
      decide (a ≤ c) = true := by
    intro a b c hab hbc
    exact decide_eq_true (le_trans (of_decide_eq_true hab) (of_decide_eq_true hbc))
  have htotal : ∀ a b : α, (decide (a ≤ b) || decide (b ≤ a)) = true := by
    intro a b
    simpa using le_total a b
  simpa using List.pairwise_mergeSort htrans htotal xs

/-- A monotone key of the element of rank `r` is below a bound exactly if `r` elements are. -/
theorem ranked_le_iff {f : α → κ} (hf : Monotone f) (hpos : 0 < r) (h : ranked xs r = some x)
    (b : κ) : f x ≤ b ↔ r ≤ xs.countP fun y => f y ≤ b := by
  obtain ⟨hi, hx⟩ := List.getElem?_eq_some_iff.mp h
  have hkeys : ((xs.mergeSort (· ≤ ·)).map f).Pairwise (· ≤ ·) :=
    (sorted_mergeSort xs).map f fun _ _ hab => hf hab
  have hcount : ((xs.mergeSort (· ≤ ·)).map f).countP (· ≤ b) =
      xs.countP fun y => f y ≤ b := by
    rw [List.countP_map]
    exact (List.mergeSort_perm xs _).countP_eq _
  have hiff := getElem_le_iff hkeys b (i := r - 1) (by simpa using hi)
  rw [hcount, List.getElem_map, hx] at hiff
  rw [hiff]
  omega

end Ranked

/-! ## The nearest rank -/

/-- The rank of the `p`-th percentile of `n` elements, `⌈n * p / 100⌉`. -/
def nearestRank (p n : ℕ) : ℕ := (n * p + 99) / 100

section NearestRank
variable {p q n : ℕ}

theorem nearestRank_pos (hp : 0 < p) (hn : 0 < n) : 0 < nearestRank p n := by
  have hpos : 0 < n * p := Nat.mul_pos hn hp
  unfold nearestRank
  omega

theorem nearestRank_le (hp : p ≤ 100) (n : ℕ) : nearestRank p n ≤ n := by
  have hle : n * p ≤ n * 100 := Nat.mul_le_mul_left n hp
  unfold nearestRank
  omega

theorem nearestRank_mono (hpq : p ≤ q) (n : ℕ) : nearestRank p n ≤ nearestRank q n := by
  have hle : n * p ≤ n * q := Nat.mul_le_mul_left n hpq
  unfold nearestRank
  omega

end NearestRank

/-! ## Histograms -/

theorem countP_lt_succ (f : α → ℕ) (xs : List α) (b : ℕ) :
    xs.countP (fun x => f x < b + 1) =
      xs.countP (fun x => f x < b) + xs.countP fun x => f x = b := by
  induction xs with
  | nil => rfl
  | cons x xs ih =>
    simp only [List.countP_cons, decide_eq_true_eq]
    split_ifs <;> omega

/-- What is in the first `b` buckets. -/
theorem sum_countP_eq (f : α → ℕ) (xs : List α) (b : ℕ) :
    ∑ j ∈ Finset.range b, xs.countP (fun x => f x = j) = xs.countP fun x => f x < b := by
  induction b with
  | zero => simp
  | succ b ih => rw [Finset.sum_range_succ, ih, countP_lt_succ]

end Manytrace.Core
