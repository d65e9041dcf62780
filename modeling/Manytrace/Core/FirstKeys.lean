import Mathlib.Data.List.Basic
import Mathlib.Data.Nat.Notation

/-! Sets with room for a fixed number of keys, from which nothing is removed. They hold the keys
that came first. -/
namespace Manytrace.Core

section FirstKeys
variable {α : Type*} [DecidableEq α]

/-- Put a key into the set, which may be there already; `none` if there is no room. -/
def addKey (capacity : ℕ) (s : List α) (k : α) : Option (List α) :=
  if k ∈ s then some s else if s.length < capacity then some (s ++ [k]) else none

/-- The set after an attempt to put the key into it. -/
def tryKey (capacity : ℕ) (s : List α) (k : α) : List α := (addKey capacity s k).getD s

/-- The first keys, each once. -/
def firstKeys (capacity : ℕ) (ks : List α) : List α := ks.eraseDups.take capacity

variable {capacity : ℕ} {ks : List α} {k : α}

theorem eraseDups_concat_of_mem (h : k ∈ ks) : (ks ++ [k]).eraseDups = ks.eraseDups := by
  simp [List.eraseDups_append, List.removeAll, h]

theorem eraseDups_concat_of_not_mem (h : k ∉ ks) :
    (ks ++ [k]).eraseDups = ks.eraseDups ++ [k] := by
  simp [List.eraseDups_append, List.eraseDups_cons, List.removeAll, h]

/-- As long as there is room left, every key is in the set. -/
theorem mem_firstKeys (hroom : (firstKeys capacity ks).length < capacity) (h : k ∈ ks) :
    k ∈ firstKeys capacity ks := by
  unfold firstKeys at hroom ⊢
  rw [List.length_take] at hroom
  rw [List.take_of_length_le (by omega)]
  exact List.mem_eraseDups.mpr h

theorem firstKeys_concat (capacity : ℕ) (ks : List α) (k : α) :
    firstKeys capacity (ks ++ [k]) = tryKey capacity (firstKeys capacity ks) k := by
  unfold tryKey addKey firstKeys
  by_cases hk : k ∈ ks
  · rw [eraseDups_concat_of_mem hk]
    by_cases hfirst : k ∈ ks.eraseDups.take capacity
    · rw [if_pos hfirst]
      rfl
    · -- the key came after the set was full
      have hfull : ¬ (ks.eraseDups.take capacity).length < capacity := fun hlt =>
        hfirst (mem_firstKeys hlt hk)
      rw [if_neg hfirst, if_neg hfull]
      rfl
  · have hfirst : k ∉ ks.eraseDups.take capacity := fun h =>
      hk (List.mem_eraseDups.mp (List.mem_of_mem_take h))
    rw [eraseDups_concat_of_not_mem hk, if_neg hfirst]
    by_cases hlt : ks.eraseDups.length < capacity
    · have htake : ks.eraseDups.take capacity = ks.eraseDups :=
        List.take_of_length_le (by omega)
      rw [htake, if_pos hlt, List.take_of_length_le (by simp; omega)]
      rfl
    · have hfull : ¬ (ks.eraseDups.take capacity).length < capacity := by
        rw [List.length_take]
        omega
      rw [if_neg hfull, List.take_append_of_le_length (by omega)]
      rfl

/-- As long as there is room for all keys, none is refused. -/
theorem addKey_isSome (h : (ks ++ [k]).eraseDups.length ≤ capacity) :
    (addKey capacity (firstKeys capacity ks) k).isSome := by
  unfold addKey
  split_ifs with hmem hlt
  · rfl
  · rfl
  · exfalso
    have hk : k ∉ ks := by
      intro hk
      rw [eraseDups_concat_of_mem hk] at h
      apply hmem
      rw [firstKeys, List.take_of_length_le h]
      exact List.mem_eraseDups.mpr hk
    rw [eraseDups_concat_of_not_mem hk, List.length_append, List.length_singleton] at h
    apply hlt
    rw [firstKeys, List.length_take]
    omega

end FirstKeys
end Manytrace.Core
