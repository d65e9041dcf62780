import Mathlib.Algebra.Order.Ring.Nat
import Mathlib.Data.List.Pairwise
import Mathlib.Order.Interval.Finset.Nat

/-! Intervals of natural numbers that do not overlap, and lists that merge several streams. -/
namespace Manytrace.Core

/-- One of two intervals `[lo, hi)` ends before the other begins. -/
def NoOverlap (x y : ℕ × ℕ) : Prop := x.2 ≤ y.1 ∨ y.2 ≤ x.1

theorem NoOverlap.mono {x y x' y' : ℕ × ℕ} (h : NoOverlap x y) (hx₁ : x.1 ≤ x'.1)
    (hx₂ : x'.2 ≤ x.2) (hy₁ : y.1 ≤ y'.1) (hy₂ : y'.2 ≤ y.2) : NoOverlap x' y' := by
  unfold NoOverlap at h ⊢
  omega

/-- All points of a list of intervals. -/
def covered : List (ℕ × ℕ) → Finset ℕ
  | [] => ∅
  | x :: l => Finset.Ico x.1 x.2 ∪ covered l

theorem disjoint_covered {x : ℕ × ℕ} {l : List (ℕ × ℕ)} (h : ∀ y ∈ l, NoOverlap x y) :
    Disjoint (Finset.Ico x.1 x.2) (covered l) := by
  induction l with
  | nil => exact Finset.disjoint_empty_right _
  | cons y l ih =>
    have hy : NoOverlap x y := h y List.mem_cons_self
    have hdisj : Disjoint (Finset.Ico x.1 x.2) (Finset.Ico y.1 y.2) := by
      rw [Finset.disjoint_left]
      intro n hn hn'
      rw [Finset.mem_Ico] at hn hn'
      unfold NoOverlap at hy
      omega
    exact Finset.disjoint_union_right.mpr ⟨hdisj, ih fun z hz => h z (List.mem_cons_of_mem y hz)⟩

theorem card_covered {l : List (ℕ × ℕ)} (h : l.Pairwise NoOverlap) :
    (covered l).card = (l.map fun x => x.2 - x.1).sum := by
  induction l with
  | nil => rfl
  | cons x l ih =>
    obtain ⟨hx, hl⟩ := List.pairwise_cons.mp h
    rw [covered, Finset.card_union_of_disjoint (disjoint_covered hx), Nat.card_Ico, ih hl,
      List.map_cons, List.sum_cons]

theorem covered_subset {l : List (ℕ × ℕ)} {lo hi : ℕ} (h : ∀ x ∈ l, lo ≤ x.1 ∧ x.2 ≤ hi) :
    covered l ⊆ Finset.Ico lo hi := by
  induction l with
  | nil => exact Finset.empty_subset _
  | cons x l ih =>
    obtain ⟨hlo, hhi⟩ := h x List.mem_cons_self
    exact Finset.union_subset (Finset.Ico_subset_Ico hlo hhi)
      (ih fun y hy => h y (List.mem_cons_of_mem x hy))

/-- Intervals that do not overlap are together no longer than what they lie in. -/
theorem sum_lengths_le {l : List (ℕ × ℕ)} {lo hi : ℕ} (h : l.Pairwise NoOverlap)
    (hin : ∀ x ∈ l, lo ≤ x.1 ∧ x.2 ≤ hi) : (l.map fun x => x.2 - x.1).sum ≤ hi - lo := by
  have hcard := Finset.card_le_card (covered_subset hin)
  rwa [card_covered h, Nat.card_Ico] at hcard

section Merge
variable {α κ : Type*} [DecidableEq κ] {key : α → κ} {l : List α} {streams : κ → List α}

theorem mem_stream (h : ∀ k, (l.filter fun a => key a = k).Sublist (streams k)) {a : α}
    (ha : a ∈ l) : a ∈ streams (key a) :=
  (h (key a)).subset (List.mem_filter.mpr ⟨ha, by simp⟩)

/-- What holds in every stream in its order, and between any two streams, holds in every
merge of them that keeps the order of each, even if elements are lost. -/
theorem pairwise_of_streams {R : α → α → Prop}
    (h : ∀ k, (l.filter fun a => key a = k).Sublist (streams k))
    (hsame : ∀ k, (streams k).Pairwise R)
    (hcross : ∀ j k, j ≠ k → ∀ a ∈ streams j, ∀ b ∈ streams k, R a b) : l.Pairwise R := by
  rw [List.pairwise_iff_forall_sublist]
  intro a b hab
  have ha : a ∈ l := hab.subset List.mem_cons_self
  have hb : b ∈ l := hab.subset (List.mem_cons_of_mem a List.mem_cons_self)
  by_cases hk : key a = key b
  · have hpair : [a, b].filter (fun x => key x = key b) = [a, b] := by simp [hk]
    have hsub : [a, b].Sublist (streams (key b)) :=
      hpair ▸ (hab.filter _).trans (h (key b))
    exact List.pairwise_iff_forall_sublist.mp (hsame (key b)) hsub
  · exact hcross _ _ hk a (mem_stream h ha) b (mem_stream h hb)

end Merge
end Manytrace.Core
