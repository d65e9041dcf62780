import Mathlib.Algebra.BigOperators.Fin
import Mathlib.Algebra.Order.BigOperators.Group.Finset
import Mathlib.Algebra.Order.Ring.Nat

/-! Records of counters with the times of their first and last update. They grow while a reader
copies them word by word, and the reader reports the differences between its copies. -/
namespace Manytrace.Core

section Copy
variable {W : Type*}

/-- A copy that is being made word by word. -/
structure Copy (W : Type*) where
  got : W → ℕ
  left : List W

def Copy.start (order : List W) : Copy W := ⟨fun _ => 0, order⟩

def Copy.read [DecidableEq W] (mem : W → ℕ) (r : Copy W) : Copy W :=
  match r.left with
  | [] => r
  | w :: rest => ⟨Function.update r.got w (mem w), rest⟩

/-- Of the words in `G`, the copy holds none above the record, and none that it has read
below `lo`. -/
structure Copy.Within (G : W → Prop) (lo mem : W → ℕ) (r : Copy W) : Prop where
  le : ∀ w, G w → r.got w ≤ mem w
  ge : ∀ w, G w → w ∉ r.left → lo w ≤ r.got w

variable {G : W → Prop} {lo mem mem' : W → ℕ} {r : Copy W} {order : List W}

theorem Copy.within_start (h : ∀ w, G w → w ∈ order) : (start order).Within G lo mem where
  le w _ := Nat.zero_le (mem w)
  ge w hw hleft := absurd (h w hw) hleft

theorem Copy.Within.grow (h : r.Within G lo mem) (hle : ∀ w, G w → mem w ≤ mem' w) :
    r.Within G lo mem' where
  le w hw := (h.le w hw).trans (hle w hw)
  ge := h.ge

theorem Copy.Within.read [DecidableEq W] (h : r.Within G lo mem)
    (hlo : ∀ w, G w → lo w ≤ mem w) : (r.read mem).Within G lo mem := by
  obtain ⟨got, left⟩ := r
  cases left with
  | nil => exact h
  | cons x rest =>
    constructor
    · intro w hw
      change Function.update got x (mem x) w ≤ mem w
      by_cases hx : w = x
      · rw [hx, Function.update_self]
      · rw [Function.update_of_ne hx]
        exact h.le w hw
    · intro w hw hleft
      change lo w ≤ Function.update got x (mem x) w
      by_cases hx : w = x
      · rw [hx, Function.update_self]
        exact hx ▸ hlo w hw
      · rw [Function.update_of_ne hx]
        exact h.ge w hw fun hmem => (List.mem_cons.mp hmem).elim hx hleft

end Copy

inductive Word (C : Type*)
  | count (c : C)
  | first
  | last
deriving DecidableEq

def Word.IsCount {C : Type*} : Word C → Prop
  | .count _ => True
  | _ => False

/-- The counters, and after them the two times. -/
def Word.order {C : Type*} (cs : List C) : List (Word C) := cs.map .count ++ [.first, .last]

/-- A word for every counter, and the times of the first and of the last update. -/
abbrev Tally (C : Type*) := Word C → ℕ

namespace Tally
variable {C : Type*}

def zero : Tally C := fun _ => 0

/-- `a` can be an earlier state of `b`: no counter was above, and the time of the first update
was the same unless nothing had been counted. -/
structure Precedes (a b : Tally C) : Prop where
  le : ∀ c, a (.count c) ≤ b (.count c)
  first : a .first = b .first ∨ ∀ c, a (.count c) = 0

variable {a b t lo mem mem' : Tally C} {r : Copy (Word C)}

theorem Precedes.refl (a : Tally C) : Precedes a a := ⟨fun _ => le_rfl, .inl rfl⟩

theorem Precedes.trans (hab : Precedes a b) (hbt : Precedes b t) : Precedes a t where
  le c := (hab.le c).trans (hbt.le c)
  first := by
    rcases hab.first with hfirst | hzero
    · rcases hbt.first with hfirst' | hzero
      · exact .inl (hfirst.trans hfirst')
      · exact .inr fun c => Nat.le_zero.mp ((hab.le c).trans_eq (hzero c))
    · exact .inr hzero

theorem zero_precedes (b : Tally C) : Precedes zero b := ⟨fun _ => Nat.zero_le _, .inr fun _ => rfl⟩

/-! ## Copies -/

/-- A copy of `mem` that was begun no earlier than `lo`, and reads the time of the first update
after all counters. -/
structure Copying (lo mem : Tally C) (r : Copy (Word C)) : Prop where
  precedes : Precedes lo mem
  within : r.Within Word.IsCount lo mem
  stage : (∃ cs : List C, r.left = Word.order cs) ∨
    (∀ w ∈ r.left, w = .last) ∧ (r.got .first = mem .first ∨ ∀ c, r.got (.count c) = 0)

theorem copying_start {cs : List C} (hcs : ∀ c, c ∈ cs) (h : Precedes lo mem) :
    Copying lo mem (.start (Word.order cs)) where
  precedes := h
  within := by
    refine Copy.within_start fun w hw => ?_
    cases w with
    | count c => exact List.mem_append_left _ (List.mem_map_of_mem (hcs c))
    | first => exact hw.elim
    | last => exact hw.elim
  stage := .inl ⟨cs, rfl⟩

theorem Copying.grow (h : Copying lo mem r) (hm : Precedes mem mem') : Copying lo mem' r where
  precedes := h.precedes.trans hm
  within := h.within.grow fun w hw => by
    cases w with
    | count c => exact hm.le c
    | first => exact hw.elim
    | last => exact hw.elim
  stage := by
    rcases h.stage with hcs | ⟨hleft, hfirst⟩
    · exact .inl hcs
    · refine .inr ⟨hleft, ?_⟩
      -- the time of the first update changes only while nothing is counted
      rcases hm.first with hkeep | hzero
      · rwa [← hkeep]
      · exact .inr fun c => Nat.le_zero.mp ((h.within.le (.count c) trivial).trans_eq (hzero c))

theorem Copying.read [DecidableEq C] (h : Copying lo mem r) : Copying lo mem (r.read mem) where
  precedes := h.precedes
  within := h.within.read fun w hw => by
    cases w with
    | count c => exact h.precedes.le c
    | first => exact hw.elim
    | last => exact hw.elim
  stage := by
    obtain ⟨got, left⟩ := r
    rcases h.stage with ⟨cs, rfl⟩ | ⟨hleft, hfirst⟩
    · cases cs with
      | nil => exact .inr ⟨by simp [Copy.read, Word.order], .inl (by simp [Copy.read, Word.order])⟩
      | cons c cs => exact .inl ⟨cs, rfl⟩
    · cases left with
      | nil => exact .inr ⟨hleft, hfirst⟩
      | cons w rest =>
        have hw : w = .last := hleft w List.mem_cons_self
        subst hw
        exact .inr ⟨fun w hw => hleft w (List.mem_cons_of_mem _ hw), hfirst⟩

/-- A finished copy is a state the record can have had since the copy was begun. -/
theorem Copying.finished (h : Copying lo mem r) (hleft : r.left = []) :
    Precedes lo r.got ∧ Precedes r.got mem := by
  have hge : ∀ c, lo (.count c) ≤ r.got (.count c) :=
    fun c => h.within.ge (.count c) trivial (by simp [hleft])
  have hgot : r.got .first = mem .first ∨ ∀ c, r.got (.count c) = 0 := by
    rcases h.stage with ⟨cs, hcs⟩ | ⟨-, hfirst⟩
    · simp [hleft, Word.order] at hcs
    · exact hfirst
  refine ⟨⟨hge, ?_⟩, ⟨fun c => h.within.le (.count c) trivial, hgot⟩⟩
  rcases hgot with hgot | hzero
  · rw [hgot]
    exact h.precedes.first
  · exact .inr fun c => Nat.le_zero.mp ((hge c).trans_eq (hzero c))

/-! ## Differences -/

def sub (cur prev : Tally C) : Tally C
  | .count c => cur (.count c) - prev (.count c)
  | w => cur w

/-- What has been added since the previous copy. A copy with another time of the first update
belongs to an earlier record and is not subtracted. -/
def delta (cur : Tally C) (prev : Option (Tally C)) : Tally C :=
  match prev.filter fun p => p .first == cur .first with
  | some p => cur.sub p
  | none => cur

theorem delta_count_add {cur : Tally C} {prev : Option (Tally C)}
    (h : Precedes (prev.getD zero) cur) (c : C) :
    cur.delta prev (.count c) + prev.getD zero (.count c) = cur (.count c) := by
  cases prev with
  | none => rfl
  | some p =>
    have hle : p (.count c) ≤ cur (.count c) := h.le c
    by_cases hfirst : p .first = cur .first
    · have hdelta : cur.delta (some p) = cur.sub p := by
        simp [delta, Option.filter, hfirst]
      rw [hdelta]
      exact Nat.sub_add_cancel hle
    · have hdelta : cur.delta (some p) = cur := by
        simp [delta, Option.filter, hfirst]
      have hzero : p (.count c) = 0 := h.first.resolve_left hfirst c
      rw [hdelta]
      change cur (.count c) + p (.count c) = cur (.count c)
      rw [hzero, Nat.add_zero]

/-! ## Updates -/

/-- What an update does to a record of 64 bit words. -/
inductive Write (C : Type*)
  | seen (now : ℕ)
  | add (c : C) (n : ℕ)
deriving DecidableEq, Repr

variable [DecidableEq C]

def Write.apply (t : Tally C) : Write C → Tally C
  | .seen now => Function.update t .last now
  | .add c n => Function.update t (.count c) ((t (.count c) + n) % 2 ^ 64)

def Write.amount (c : C) : Write C → ℕ
  | .seen _ => 0
  | .add c' n => if c' = c then n else 0

/-- What a list of updates adds to a counter. -/
def amounts (c : C) (ws : List (Write C)) : ℕ := (ws.map (Write.amount c)).sum

@[simp] theorem amounts_nil (c : C) : amounts c [] = 0 := rfl

@[simp] theorem amounts_cons (c : C) (w : Write C) (ws : List (Write C)) :
    amounts c (w :: ws) = w.amount c + amounts c ws := rfl

@[simp] theorem amounts_append (c : C) (ws ws' : List (Write C)) :
    amounts c (ws ++ ws') = amounts c ws + amounts c ws' := by
  simp [amounts]

@[simp] theorem Write.apply_first (t : Tally C) (w : Write C) : w.apply t .first = t .first := by
  cases w <;> simp [apply]

theorem Write.apply_count {t : Tally C} {w : Write C} {c : C}
    (h : t (.count c) + w.amount c < 2 ^ 64) :
    w.apply t (.count c) = t (.count c) + w.amount c := by
  cases w with
  | seen now => simp [apply, amount]
  | add c' n =>
    by_cases hc : c' = c
    · subst hc
      have hn : (Write.add c' n).amount c' = n := if_pos rfl
      rw [hn] at h ⊢
      rw [apply, Function.update_self, Nat.mod_eq_of_lt h]
    · have hn : (Write.add c' n).amount c = 0 := if_neg hc
      rw [hn, apply, Function.update_of_ne (by simpa using Ne.symm hc), Nat.add_zero]

theorem foldl_apply_count {ws : List (Write C)} {t : Tally C} {c : C}
    (h : t (.count c) + amounts c ws < 2 ^ 64) :
    ws.foldl Write.apply t (.count c) = t (.count c) + amounts c ws := by
  induction ws generalizing t with
  | nil => rfl
  | cons w ws ih =>
    rw [amounts_cons] at h ⊢
    have hw : w.apply t (.count c) = t (.count c) + w.amount c := w.apply_count (by omega)
    rw [List.foldl_cons, ih (by omega), hw, Nat.add_assoc]

/-- An update that stays below the bound only moves the record forward. -/
theorem precedes_apply {t : Tally C} {w : Write C}
    (h : ∀ c, t (.count c) + w.amount c < 2 ^ 64) : Precedes t (w.apply t) where
  le c := by
    rw [w.apply_count (h c)]
    exact Nat.le_add_right _ _
  first := .inl (w.apply_first t).symm

end Tally

/-- A sum over all parties when one of them changes. -/
theorem sum_update_add {ι σ : Type*} [Fintype ι] [DecidableEq ι] (f : σ → ℕ) (s : ι → σ) (i : ι)
    (v : σ) : ∑ j, f (Function.update s i v j) + f (s i) = ∑ j, f (s j) + f v := by
  have hrest : ∑ j ∈ Finset.univ.erase i, f (Function.update s i v j) =
      ∑ j ∈ Finset.univ.erase i, f (s j) := by
    refine Finset.sum_congr rfl fun j hj => ?_
    rw [Function.update_of_ne (Finset.ne_of_mem_erase hj)]
  rw [← Finset.add_sum_erase _ _ (Finset.mem_univ i), ← Finset.add_sum_erase _ (fun j => f (s j))
    (Finset.mem_univ i), hrest, Function.update_self]
  omega

end Manytrace.Core
