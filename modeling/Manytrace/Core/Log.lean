import Mathlib.Data.List.Basic
import Mathlib.Data.Nat.Notation
import Mathlib.Logic.Function.Basic

/-! Append-only logs, and tables that hand out consecutive ids for the keys put into them. -/
namespace Manytrace.Core

/-- What every entry of a log has with respect to the entries before it stays true when the
new entry has it too. -/
theorem forall_split_concat {α : Type*} {P : List α → α → Prop} {l : List α} {x : α}
    (h : ∀ pre a post, l = pre ++ a :: post → P pre a) (hx : P l x) :
    ∀ pre a post, l ++ [x] = pre ++ a :: post → P pre a := by
  intro pre a post heq
  rcases List.eq_nil_or_concat post with rfl | ⟨post', b, rfl⟩
  · obtain ⟨rfl, hax⟩ := List.append_inj' heq rfl
    cases hax
    exact hx
  · have hcat : l ++ [x] = (pre ++ a :: post') ++ [b] := by simpa using heq
    exact h pre a post' (List.append_inj' hcat rfl).1

/-- The entries of a log carry distinct ids below `n`. -/
structure Numbered {α : Type*} (iid : α → ℕ) (l : List α) (n : ℕ) : Prop where
  lt : ∀ x ∈ l, iid x < n
  nodup : (l.map iid).Nodup

section Numbered
variable {α : Type*} {iid : α → ℕ} {l : List α} {x : α} {n : ℕ}

theorem numbered_nil (iid : α → ℕ) (n : ℕ) : Numbered iid [] n := ⟨by simp, by simp⟩

theorem Numbered.concat (h : Numbered iid l n) (hx : iid x = n) :
    Numbered iid (l ++ [x]) (n + 1) where
  lt := by
    intro y hy
    rcases List.mem_append.mp hy with hy | hy
    · exact Nat.lt_succ_of_lt (h.lt y hy)
    · rw [List.mem_singleton.mp hy, hx]
      exact Nat.lt_succ_self n
  nodup := by
    rw [List.map_append, List.map_singleton, hx]
    refine List.nodup_append.mpr ⟨h.nodup, by simp, ?_⟩
    intro a ha b hb
    obtain ⟨y, hy, rfl⟩ := List.mem_map.mp ha
    rw [List.mem_singleton.mp hb]
    exact Nat.ne_of_lt (h.lt y hy)

/-- A new entry is found under its id. -/
theorem Numbered.find?_concat (h : Numbered iid l n) (hx : iid x = n) :
    (l ++ [x]).find? (fun y => iid y == n) = some x := by
  have hnone : l.find? (fun y => iid y == n) = none := by
    rw [List.find?_eq_none]
    intro y hy
    simpa using Nat.ne_of_lt (h.lt y hy)
  simp [List.find?_append, hnone, hx]

/-- An entry that is found stays found. -/
theorem find?_append_of_some {p : α → Bool} (h : l.find? p = some x) (l' : List α) :
    (l ++ l').find? p = some x := by
  simp [List.find?_append, h]

end Numbered

/-- Ids are given out in order, so that no two keys share one. -/
structure Interner (κ : Type*) where
  ids : κ → Option ℕ
  next : ℕ
  ids_lt : ∀ k i, ids k = some i → i < next
  ids_injective : ∀ k l i, ids k = some i → ids l = some i → k = l

namespace Interner
variable {κ : Type*} [DecidableEq κ]

def empty : Interner κ where
  ids := fun _ => none
  next := 0
  ids_lt := by simp
  ids_injective := by simp

/-- The table with a new key under the next id. -/
def add (t : Interner κ) (k : κ) : Interner κ where
  ids := Function.update t.ids k (some t.next)
  next := t.next + 1
  ids_lt := by
    intro l i hl
    by_cases hlk : l = k
    · subst hlk
      rw [Function.update_self] at hl
      exact Option.some.inj hl ▸ Nat.lt_succ_self _
    · rw [Function.update_of_ne hlk] at hl
      exact Nat.lt_succ_of_lt (t.ids_lt l i hl)
  ids_injective := by
    intro l l' i hl hl'
    -- an old key with the next id would break the bound
    have hold : ∀ m, t.ids m ≠ some t.next := fun m hm => Nat.lt_irrefl _ (t.ids_lt m _ hm)
    simp only [Function.update_apply] at hl hl'
    split_ifs at hl hl' with h₁ h₂ h₂
    · rw [h₁, h₂]
    · exact absurd (hl'.trans hl.symm) (hold l')
    · exact absurd (hl.trans hl'.symm) (hold l)
    · exact t.ids_injective l l' i hl hl'

/-- The id of a key, which is a new one if the key has none. -/
def reserve (t : Interner κ) (k : κ) : ℕ × Interner κ :=
  match t.ids k with
  | some i => (i, t)
  | none => (t.next, t.add k)

variable {t : Interner κ} {k l : κ} {i : ℕ}

theorem reserve_of_some (h : t.ids k = some i) : t.reserve k = (i, t) := by
  simp [reserve, h]

theorem reserve_of_none (h : t.ids k = none) : t.reserve k = (t.next, t.add k) := by
  simp [reserve, h]

@[simp] theorem add_ids_self (t : Interner κ) (k : κ) : (t.add k).ids k = some t.next :=
  Function.update_self ..

theorem add_ids_of_ne (t : Interner κ) (h : l ≠ k) : (t.add k).ids l = t.ids l :=
  Function.update_of_ne h ..

theorem ids_add_of_some (hk : t.ids k = none) (h : t.ids l = some i) :
    (t.add k).ids l = some i := by
  have hne : l ≠ k := by
    rintro rfl
    rw [hk] at h
    cases h
  rw [add_ids_of_ne t hne, h]

end Interner
end Manytrace.Core
