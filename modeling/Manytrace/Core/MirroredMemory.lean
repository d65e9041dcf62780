import Mathlib.Data.List.Basic
import Mathlib.Data.Nat.ModEq
import Mathlib.Logic.Function.Basic

/-! A memory of `D` cells mapped twice in a row: the virtual offset `v` reaches the
cell `v % D`, so a range that runs over the end continues at the beginning. Ranges are
compared by the cells behind them. -/
namespace Manytrace.Core.MirroredMemory

variable {β : Type*} (D : ℕ)

def load (m : ℕ → β) (v n : ℕ) : List β := (List.range n).map fun i => m ((v + i) % D)

def store : (ℕ → β) → ℕ → List β → ℕ → β
  | m, _, [] => m
  | m, v, b :: bs => store (Function.update m (v % D) b) (v + 1) bs

/-- No cell lies behind both ranges. -/
def Apart (v n w k : ℕ) : Prop := ∀ i < n, ∀ j < k, (v + i) % D ≠ (w + j) % D

instance (v n w k : ℕ) : Decidable (Apart D v n w k) :=
  inferInstanceAs (Decidable (∀ i < n, ∀ j < k, (v + i) % D ≠ (w + j) % D))

variable {D}

theorem mod_ne_of_window {x y : ℕ} (hlt : x < y) (hwin : y < x + D) : x % D ≠ y % D := by
  intro he
  have hd : D ∣ y - x := (Nat.modEq_iff_dvd' hlt.le).mp he
  have hle := Nat.le_of_dvd (by omega) hd
  omega

/-- Ranges one after the other inside a window of `D` positions. -/
theorem apart_of_le {v n w k : ℕ} (h : v + n ≤ w) (hw : w + k ≤ v + D) : Apart D v n w k :=
  fun _ _ _ _ => mod_ne_of_window (by omega) (by omega)

theorem Apart.symm {v n w k : ℕ} (h : Apart D v n w k) : Apart D w k v n :=
  fun i hi j hj => (h j hj i hi).symm

theorem Apart.mono {v n w k v' n' w' k' : ℕ} (h : Apart D v n w k)
    (hv : v ≤ v') (hn : v' + n' ≤ v + n) (hw : w ≤ w') (hk : w' + k' ≤ w + k) :
    Apart D v' n' w' k' := by
  intro i hi j hj
  have hij := h (v' - v + i) (by omega) (w' - w + j) (by omega)
  rwa [show v + (v' - v + i) = v' + i by omega, show w + (w' - w + j) = w' + j by omega] at hij

theorem apart_mod_left {v n w k : ℕ} : Apart D (v % D) n w k ↔ Apart D v n w k := by
  simp only [Apart, Nat.mod_add_mod]

@[simp] theorem length_load (m : ℕ → β) (v n : ℕ) : (load D m v n).length = n := by
  simp [load]

theorem load_mod_add (m : ℕ → β) (v i n : ℕ) : load D m (v % D + i) n = load D m (v + i) n := by
  simp only [load, Nat.add_assoc, Nat.mod_add_mod]

theorem load_mod (m : ℕ → β) (v n : ℕ) : load D m (v % D) n = load D m v n :=
  load_mod_add m v 0 n

/-- The two memories hold the same in every cell of the range. -/
def Agree (D : ℕ) (m m' : ℕ → β) (v n : ℕ) : Prop :=
  ∀ i < n, m ((v + i) % D) = m' ((v + i) % D)

theorem Agree.refl (m : ℕ → β) (v n : ℕ) : Agree D m m v n := fun _ _ => rfl

theorem Agree.load_eq {m m' : ℕ → β} {v n w k : ℕ} (h : Agree D m m' v n)
    (hv : v ≤ w) (hk : w + k ≤ v + n) : load D m w k = load D m' w k := by
  apply List.map_congr_left
  intro i hi
  have hi' := List.mem_range.mp hi
  have hc := h (w - v + i) (by omega)
  rwa [show v + (w - v + i) = w + i by omega] at hc

theorem store_mod_add (m : ℕ → β) (v i : ℕ) (bs : List β) :
    store D m (v % D + i) bs = store D m (v + i) bs := by
  induction bs generalizing m i with
  | nil => rfl
  | cons b bs ih => simp only [store, Nat.mod_add_mod, Nat.add_assoc, ih]

theorem store_mod (m : ℕ → β) (v : ℕ) (bs : List β) : store D m (v % D) bs = store D m v bs :=
  store_mod_add m v 0 bs

theorem store_apply_of_ne (m : ℕ → β) (v : ℕ) (bs : List β) (a : ℕ)
    (h : ∀ j < bs.length, (v + j) % D ≠ a) : store D m v bs a = m a := by
  induction bs generalizing m v with
  | nil => rfl
  | cons b bs ih =>
    have h0 : v % D ≠ a := h 0 (by simp)
    have hs : ∀ j < bs.length, (v + 1 + j) % D ≠ a := fun j hj => by
      rw [Nat.add_assoc, Nat.add_comm 1]
      exact h (j + 1) (by simpa using hj)
    rw [store, ih _ _ hs, Function.update_of_ne h0.symm]

theorem store_apply (m : ℕ → β) (v : ℕ) (bs : List β) (hD : bs.length ≤ D) (i : ℕ)
    (hi : i < bs.length) : store D m v bs ((v + i) % D) = bs[i] := by
  induction bs generalizing m v i with
  | nil => simp at hi
  | cons b bs ih =>
    simp only [List.length_cons] at hD hi
    cases i with
    | zero =>
      -- the cells behind the tail never come back to the first one
      have hne : ∀ j < bs.length, (v + 1 + j) % D ≠ v % D := fun j hj =>
        (mod_ne_of_window (by omega) (by omega)).symm
      simp only [store, Nat.add_zero, List.getElem_cons_zero]
      rw [store_apply_of_ne _ _ _ _ hne, Function.update_self]
    | succ i =>
      rw [store, show v + (i + 1) = v + 1 + i by omega, ih _ _ (by omega) i (by omega)]
      simp

theorem load_store_self (m : ℕ → β) (v : ℕ) (bs : List β) (hD : bs.length ≤ D) :
    load D (store D m v bs) v bs.length = bs := by
  apply List.ext_getElem (by simp)
  intro i hi hi'
  simp only [load, List.getElem_map, List.getElem_range]
  exact store_apply m v bs hD i hi'

/-- A store changes nothing outside its range. -/
theorem store_agree (m : ℕ → β) {v w n : ℕ} {bs : List β} (h : Apart D w n v bs.length) :
    Agree D (store D m v bs) m w n :=
  fun i hi => store_apply_of_ne m v bs _ fun j hj => (h i hi j hj).symm

/-- Writing one cell of a range sets one element of what the range reads. -/
theorem load_store_single (m : ℕ → β) {v n i : ℕ} (b : β) (hi : i < n) (hD : n ≤ D) :
    load D (store D m (v + i) [b]) v n = (load D m v n).set i b := by
  apply List.ext_getElem (by simp)
  intro j hj _
  simp only [length_load] at hj
  simp only [load, store, List.getElem_map, List.getElem_range, List.getElem_set]
  by_cases he : i = j
  · subst j
    simp
  · rw [if_neg he, Function.update_of_ne]
    rcases Nat.lt_or_gt_of_ne he with h | h
    · exact (mod_ne_of_window (by omega) (by omega)).symm
    · exact mod_ne_of_window (by omega) (by omega)

/-- The `k` low bytes of a number, least significant first. -/
def toBytes : ℕ → ℕ → List UInt8
  | 0, _ => []
  | k + 1, n => UInt8.ofNat n :: toBytes k (n / 256)

def ofBytes : List UInt8 → ℕ
  | [] => 0
  | b :: bs => b.toNat + 256 * ofBytes bs

@[simp] theorem length_toBytes (k n : ℕ) : (toBytes k n).length = k := by
  induction k generalizing n with
  | zero => rfl
  | succ k ih => simp [toBytes, ih]

theorem ofBytes_toBytes (k n : ℕ) : ofBytes (toBytes k n) = n % 256 ^ k := by
  induction k generalizing n with
  | zero => simp [toBytes, ofBytes, Nat.mod_one]
  | succ k ih =>
    have hb : (UInt8.ofNat n).toNat = n % 256 := by simp
    rw [toBytes, ofBytes, ih, hb, Nat.pow_succ', Nat.mod_mul]

end Manytrace.Core.MirroredMemory
