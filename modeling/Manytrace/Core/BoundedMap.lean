import Mathlib.Data.List.Nodup
import Mathlib.Data.Nat.Notation

/-! Maps with room for a fixed number of entries, and how many of their entries have a
property. -/
namespace Manytrace.Core

structure BoundedMap (κ ν : Type*) (capacity : ℕ) where
  entries : List (κ × ν)
  nodup : (entries.map Prod.fst).Nodup
  size_le : entries.length ≤ capacity

namespace BoundedMap
variable {κ ν : Type*} {capacity : ℕ}

def empty : BoundedMap κ ν capacity := ⟨[], List.nodup_nil, Nat.zero_le _⟩

/-- The number of entries whose value satisfies `p`. -/
def count (p : ν → Bool) (m : BoundedMap κ ν capacity) : ℕ := m.entries.countP fun e => p e.2

theorem count_le (p : ν → Bool) (m : BoundedMap κ ν capacity) : m.count p ≤ capacity :=
  Nat.le_trans List.countP_le_length m.size_le

variable [DecidableEq κ]

def lookup (m : BoundedMap κ ν capacity) (k : κ) : Option ν := m.entries.lookup k

/-- A new entry, if the key is not there and there is room. -/
def insertNew (m : BoundedMap κ ν capacity) (k : κ) (v : ν) : Option (BoundedMap κ ν capacity) :=
  if h : k ∉ m.entries.map Prod.fst ∧ m.entries.length < capacity then
    some ⟨(k, v) :: m.entries, List.nodup_cons.mpr ⟨h.1, m.nodup⟩, h.2⟩
  else none

def update (k : κ) (f : ν → ν) (e : κ × ν) : κ × ν := if e.1 = k then (k, f e.2) else e

theorem map_fst_update (k : κ) (f : ν → ν) (l : List (κ × ν)) :
    (l.map (update k f)).map Prod.fst = l.map Prod.fst := by
  rw [List.map_map]
  refine List.map_congr_left fun e _ => ?_
  by_cases he : e.1 = k <;> simp [update, he]

/-- Change the value of a key, if it has one. -/
def modify (m : BoundedMap κ ν capacity) (k : κ) (f : ν → ν) : BoundedMap κ ν capacity where
  entries := m.entries.map (update k f)
  nodup := by
    rw [map_fst_update]
    exact m.nodup
  size_le := by
    rw [List.length_map]
    exact m.size_le

def delete (m : BoundedMap κ ν capacity) (k : κ) : BoundedMap κ ν capacity where
  entries := m.entries.filter fun e => e.1 ≠ k
  nodup := m.nodup.sublist (List.filter_sublist.map _)
  size_le := Nat.le_trans (List.length_filter_le _ _) m.size_le

variable {m m' : BoundedMap κ ν capacity} {k l : κ} {v w : ν}

/-- A key that is found stands in one place. -/
theorem exists_split (h : m.lookup k = some v) :
    ∃ l₁ l₂, m.entries = l₁ ++ (k, v) :: l₂ ∧ (∀ e ∈ l₁, e.1 ≠ k) ∧ ∀ e ∈ l₂, e.1 ≠ k := by
  have hnodup := m.nodup
  unfold lookup at h
  obtain ⟨l₁, l₂, hl, hl₁⟩ := List.lookup_eq_some_iff.mp h
  rw [hl] at hnodup
  have hl₂ : k ∉ l₂.map Prod.fst := by
    rw [List.map_append] at hnodup
    exact (List.nodup_cons.mp (List.Nodup.of_append_right hnodup)).1
  refine ⟨l₁, l₂, hl, fun e he hek => ?_, fun e he hek => ?_⟩
  · simpa [hek] using hl₁ e he
  · exact hl₂ (List.mem_map.mpr ⟨e, he, hek⟩)

theorem lookup_eq_none_iff : m.lookup k = none ↔ k ∉ m.entries.map Prod.fst := by
  unfold lookup
  rw [List.lookup_eq_none_iff]
  simp only [List.mem_map, not_exists, not_and]
  exact forall₂_congr fun e _ => by rw [bne_iff_ne, ne_comm]

theorem map_update_of_ne {f : ν → ν} {l : List (κ × ν)} (h : ∀ e ∈ l, e.1 ≠ k) :
    l.map (update k f) = l := by
  conv_rhs => rw [← List.map_id l]
  exact List.map_congr_left fun e he => by simp [update, h e he]

theorem lookup_of_split (l₁ l₂ : List (κ × ν)) (h : m.entries = l₁ ++ (k, v) :: l₂)
    (hl₁ : ∀ e ∈ l₁, e.1 ≠ k) : m.lookup k = some v := by
  unfold lookup
  have hnone : l₁.lookup k = none :=
    List.lookup_eq_none_iff.mpr fun e he => by simpa using (hl₁ e he).symm
  simp [h, List.lookup_append, hnone]

theorem modify_of_none (h : m.lookup k = none) (f : ν → ν) : m.modify k f = m := by
  have hne : ∀ e ∈ m.entries, e.1 ≠ k := fun e he hek =>
    lookup_eq_none_iff.mp h (List.mem_map.mpr ⟨e, he, hek⟩)
  unfold modify
  simp only [map_update_of_ne hne]

theorem lookup_modify (h : m.lookup k = some v) (f : ν → ν) :
    (m.modify k f).lookup k = some (f v) := by
  obtain ⟨l₁, l₂, hl, hl₁, hl₂⟩ := exists_split h
  refine lookup_of_split l₁ l₂ ?_ hl₁
  simp [modify, hl, map_update_of_ne hl₁, map_update_of_ne hl₂, update]

theorem lookup_modify_of_ne (h : l ≠ k) (f : ν → ν) : (m.modify k f).lookup l = m.lookup l := by
  change (m.entries.map (update k f)).lookup l = m.entries.lookup l
  induction m.entries with
  | nil => rfl
  | cons e es ih =>
    obtain ⟨k', v⟩ := e
    by_cases he : k' = k
    · have hl : (l == k) = false := by simpa using h
      subst he
      simpa only [List.map_cons, update, if_true, List.lookup_cons, hl] using ih
    · simp only [List.map_cons, update, if_neg he, List.lookup_cons, ih]

/-- What is found after a change, for any key. -/
theorem lookup_modify_eq (m : BoundedMap κ ν capacity) (k l : κ) (f : ν → ν) :
    (m.modify k f).lookup l = if l = k then (m.lookup k).map f else m.lookup l := by
  by_cases h : l = k
  · subst h
    rw [if_pos rfl]
    cases hl : m.lookup l with
    | none => rw [modify_of_none hl, hl, Option.map_none]
    | some v => rw [lookup_modify hl, Option.map_some]
  · rw [if_neg h, lookup_modify_of_ne h]

theorem lookup_delete (m : BoundedMap κ ν capacity) (k l : κ) :
    (m.delete k).lookup l = if l = k then none else m.lookup l := by
  change (m.entries.filter fun e => e.1 ≠ k).lookup l =
    if l = k then none else m.entries.lookup l
  induction m.entries with
  | nil => simp
  | cons e es ih =>
    obtain ⟨k', v⟩ := e
    by_cases he : k' = k
    · rw [List.filter_cons_of_neg (by simpa using he), ih]
      by_cases hl : l = k
      · simp only [if_pos hl]
      · have hne : (l == k') = false := by simpa [he] using hl
        simp only [if_neg hl, List.lookup_cons, hne]
    · rw [List.filter_cons_of_pos (by simpa using he)]
      by_cases hl : l = k
      · have hne : (l == k') = false := by simpa [hl] using Ne.symm he
        simpa only [List.lookup_cons, hne, if_pos hl] using ih
      · simp only [List.lookup_cons, ih, if_neg hl]

theorem insertNew_eq_some (h : m.insertNew k v = some m') :
    m.lookup k = none ∧ m'.entries = (k, v) :: m.entries := by
  unfold insertNew at h
  split_ifs at h with hk
  cases h
  exact ⟨lookup_eq_none_iff.mpr hk.1, rfl⟩

theorem lookup_insertNew (h : m.insertNew k v = some m') : m'.lookup k = some v := by
  unfold lookup
  rw [(insertNew_eq_some h).2]
  simp

theorem lookup_insertNew_of_ne (h : m.insertNew k v = some m') (hl : l ≠ k) :
    m'.lookup l = m.lookup l := by
  unfold lookup
  rw [(insertNew_eq_some h).2, List.lookup_cons]
  have hne : (l == k) = false := by simpa using hl
  simp only [hne]

/-- A new key is taken whenever there is room. -/
theorem insertNew_isSome_iff (m : BoundedMap κ ν capacity) (k : κ) (v : ν) :
    (m.insertNew k v).isSome = true ↔ m.lookup k = none ∧ m.entries.length < capacity := by
  unfold insertNew
  rw [lookup_eq_none_iff]
  split_ifs with h
  · exact iff_of_true rfl h
  · exact iff_of_false Bool.false_ne_true h

theorem count_insertNew (p : ν → Bool) (h : m.insertNew k v = some m') :
    m'.count p = m.count p + (p v).toNat := by
  unfold count
  rw [(insertNew_eq_some h).2, List.countP_cons]
  cases p v <;> rfl

theorem count_modify (p : ν → Bool) (h : m.lookup k = some v) (f : ν → ν) :
    (m.modify k f).count p + (p v).toNat = m.count p + (p (f v)).toNat := by
  obtain ⟨l₁, l₂, hl, hl₁, hl₂⟩ := exists_split h
  unfold count modify
  simp only [hl, List.map_append, List.map_cons, map_update_of_ne hl₁, map_update_of_ne hl₂,
    update, if_true, List.countP_append, List.countP_cons]
  cases p v <;> cases p (f v) <;> simp <;> omega

theorem count_delete (p : ν → Bool) (h : m.lookup k = some v) :
    (m.delete k).count p + (p v).toNat = m.count p := by
  obtain ⟨l₁, l₂, hl, hl₁, hl₂⟩ := exists_split h
  have hf₁ : l₁.filter (fun e => e.1 ≠ k) = l₁ := List.filter_eq_self.mpr (by simpa using hl₁)
  have hf₂ : l₂.filter (fun e => e.1 ≠ k) = l₂ := List.filter_eq_self.mpr (by simpa using hl₂)
  unfold count delete
  simp only [hl, List.filter_append, List.filter_cons, hf₁, hf₂, List.countP_append,
    List.countP_cons]
  cases p v with
  | false => simp
  | true =>
    simp
    omega

end BoundedMap
end Manytrace.Core
