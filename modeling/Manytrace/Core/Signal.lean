import Mathlib.Algebra.BigOperators.Intervals
import Mathlib.Algebra.Order.BigOperators.Group.Finset

/-! Quantities that change at events and are constant in between, and their integrals over
time. Times are whole numbers, so an integral is a sum over the instants of an interval. -/
namespace Manytrace.Core

/-- What an event does to the state, and when it happens. -/
structure Signal (ε σ : Type*) where
  time : ε → ℕ
  next : σ → ε → σ
  start : σ

namespace Signal
variable {ε σ : Type*} (S : Signal ε σ) (g : σ → ℕ) {es es' : List ε} {a b m : ℕ}

def state (es : List ε) : σ := es.foldl S.next S.start

/-- The state after all events that are not later. -/
def stateAt (es : List ε) (t : ℕ) : σ := S.state (es.filter fun e => S.time e ≤ t)

def integral (es : List ε) (a b : ℕ) : ℕ := ∑ t ∈ Finset.Ico a b, g (S.stateAt es t)

variable {S g}

theorem stateAt_of_le {t : ℕ} (h : ∀ e ∈ es, S.time e ≤ t) : S.stateAt es t = S.state es := by
  unfold stateAt
  rw [List.filter_eq_self.mpr fun e he => decide_eq_true (h e he)]

/-- Later events do not change what was before. -/
theorem stateAt_append {t : ℕ} (h : ∀ e ∈ es', t < S.time e) :
    S.stateAt (es ++ es') t = S.stateAt es t := by
  unfold stateAt
  have hnone : es'.filter (fun e => S.time e ≤ t) = [] := by
    rw [List.filter_eq_nil_iff]
    intro e he
    simpa using h e he
  rw [List.filter_append, hnone, List.append_nil]

theorem integral_add (ham : a ≤ m) (hmb : m ≤ b) :
    S.integral g es a m + S.integral g es m b = S.integral g es a b :=
  Finset.sum_Ico_consecutive _ ham hmb

@[simp] theorem integral_self (a : ℕ) : S.integral g es a a = 0 := by
  simp [integral]

/-- After the last event the state stays. -/
theorem integral_after (h : ∀ e ∈ es, S.time e ≤ m) :
    S.integral g es m b = (b - m) * g (S.state es) := by
  unfold integral
  have hconst : ∀ t ∈ Finset.Ico m b, g (S.stateAt es t) = g (S.state es) := by
    intro t ht
    rw [stateAt_of_le fun e he => (h e he).trans (Finset.mem_Ico.mp ht).1]
  rw [Finset.sum_const_nat hconst, Nat.card_Ico]

theorem integral_append (h : ∀ e ∈ es', b ≤ S.time e) :
    S.integral g (es ++ es') a b = S.integral g es a b := by
  refine Finset.sum_congr rfl fun t ht => ?_
  rw [stateAt_append fun e he => (Finset.mem_Ico.mp ht).2.trans_le (h e he)]

theorem integral_le (hg : ∀ s, g s ≤ 1) (es : List ε) (a b : ℕ) :
    S.integral g es a b ≤ b - a := by
  calc S.integral g es a b ≤ ∑ t ∈ Finset.Ico a b, 1 := Finset.sum_le_sum fun t _ => hg _
    _ = b - a := by rw [← Finset.card_eq_sum_ones, Nat.card_Ico]

end Signal
end Manytrace.Core
