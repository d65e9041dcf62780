import Mathlib.Data.List.Basic
import Mathlib.Data.Nat.Notation

/-! Lists of ranges that lie one after the other without a gap. -/
namespace Manytrace.Core

/-- The ranges from `lo` to `hi` follow each other from `a` to `b`. -/
def Tiling {α : Type*} (lo hi : α → ℕ) : ℕ → List α → ℕ → Prop
  | a, [], b => a = b
  | a, x :: xs, b => lo x = a ∧ Tiling lo hi (hi x) xs b

namespace Tiling
variable {α : Type*} {lo hi : α → ℕ} {a b c : ℕ} {xs ys : List α} {x y : α}

theorem append_iff :
    Tiling lo hi a (xs ++ ys) c ↔ ∃ b, Tiling lo hi a xs b ∧ Tiling lo hi b ys c := by
  induction xs generalizing a with
  | nil => simp [Tiling]
  | cons x xs ih => simp only [List.cons_append, Tiling, ih, exists_and_left, and_assoc]

theorem concat_iff : Tiling lo hi a (xs ++ [x]) c ↔ Tiling lo hi a xs (lo x) ∧ hi x = c := by
  rw [append_iff]
  constructor
  · intro hex
    obtain ⟨b, hb, hx, hc⟩ := hex
    subst hx
    exact ⟨hb, hc⟩
  · intro hex
    obtain ⟨hb, hc⟩ := hex
    exact ⟨lo x, hb, rfl, hc⟩

theorem map_iff {β : Type*} {f : β → α} {ys : List β} :
    Tiling lo hi a (ys.map f) b ↔ Tiling (fun y => lo (f y)) (fun y => hi (f y)) a ys b := by
  induction ys generalizing a with
  | nil => exact Iff.rfl
  | cons y ys ih => simp only [List.map_cons, Tiling, ih]

theorem le (h : Tiling lo hi a xs b) (hle : ∀ x ∈ xs, lo x ≤ hi x) : a ≤ b := by
  induction xs generalizing a with
  | nil => exact Nat.le_of_eq h
  | cons x xs ih =>
    obtain ⟨hx, hxs⟩ := h
    obtain ⟨hlx, hrest⟩ := List.forall_mem_cons.mp hle
    have := ih hxs hrest
    omega

theorem mem (h : Tiling lo hi a xs b) (hle : ∀ x ∈ xs, lo x ≤ hi x) (hx : x ∈ xs) :
    a ≤ lo x ∧ hi x ≤ b := by
  induction xs generalizing a with
  | nil => simp at hx
  | cons y xs ih =>
    obtain ⟨hy, hxs⟩ := h
    obtain ⟨hly, hrest⟩ := List.forall_mem_cons.mp hle
    rcases List.mem_cons.mp hx with rfl | hx
    · exact ⟨Nat.le_of_eq hy.symm, hxs.le hrest⟩
    · obtain ⟨hlo, hhi⟩ := ih hxs hrest hx
      exact ⟨by omega, hhi⟩

theorem pairwise (h : Tiling lo hi a xs b) (hle : ∀ x ∈ xs, lo x ≤ hi x) :
    xs.Pairwise fun x y => hi x ≤ lo y := by
  induction xs generalizing a with
  | nil => exact List.Pairwise.nil
  | cons x xs ih =>
    obtain ⟨-, hrest⟩ := List.forall_mem_cons.mp hle
    exact List.pairwise_cons.mpr ⟨fun y hy => (h.2.mem hrest hy).1, ih h.2 hrest⟩

theorem separated (h : Tiling lo hi a xs b) (hle : ∀ x ∈ xs, lo x ≤ hi x) (hx : x ∈ xs)
    (hy : y ∈ xs) : x = y ∨ hi x ≤ lo y ∨ hi y ≤ lo x := by
  induction xs generalizing a with
  | nil => simp at hx
  | cons z xs ih =>
    obtain ⟨-, hrest⟩ := List.forall_mem_cons.mp hle
    rcases List.mem_cons.mp hx with hx' | hx' <;> rcases List.mem_cons.mp hy with hy' | hy'
    · exact Or.inl (hx'.trans hy'.symm)
    · exact Or.inr (Or.inl (hx' ▸ (h.2.mem hrest hy').1))
    · exact Or.inr (Or.inr (hy' ▸ (h.2.mem hrest hx').1))
    · exact ih h.2 hrest hx' hy'

/-- Every point between the ends lies in one of the ranges. -/
theorem exists_mem (h : Tiling lo hi a xs b) {t : ℕ} (hat : a ≤ t) (htb : t < b) :
    ∃ x ∈ xs, lo x ≤ t ∧ t < hi x := by
  induction xs generalizing a with
  | nil =>
    have hab : a = b := h
    omega
  | cons x xs ih =>
    obtain ⟨hx, hxs⟩ := h
    by_cases ht : t < hi x
    · exact ⟨x, List.mem_cons_self, by omega, ht⟩
    · obtain ⟨y, hy, hty⟩ := ih hxs (by omega)
      exact ⟨y, List.mem_cons_of_mem x hy, hty⟩

end Tiling
end Manytrace.Core
