import Mathlib.Data.List.Basic
import Mathlib.Data.Prod.Basic

/-! Deterministic machines with outputs: whole runs, runs restricted by a condition on
each step, the invariant and history rules, and projection onto a smaller machine. -/
namespace Manytrace.Core

/-- Every input is answered by a new state and the outputs made on the way. An input
that is not enabled leaves the state alone and outputs nothing. -/
structure Machine (σ α ο : Type*) where
  step : σ → α → σ × List ο

namespace Machine
variable {σ α ο τ β π : Type*} (M : Machine σ α ο)

def exec : σ → List α → σ × List ο
  | s, [] => (s, [])
  | s, a :: as =>
    let r := M.step s a
    let t := exec r.1 as
    (t.1, r.2 ++ t.2)

def final (s : σ) (as : List α) : σ := (M.exec s as).1

def outputs (s : σ) (as : List α) : List ο := (M.exec s as).2

/-- Every step of the run is taken from a state and with an input that satisfy `G`. -/
def Meets (G : σ → α → Prop) : σ → List α → Prop
  | _, [] => True
  | s, a :: as => G s a ∧ Meets G (M.step s a).1 as

instance decidableMeets (G : σ → α → Prop) [∀ s a, Decidable (G s a)] :
    ∀ s as, Decidable (M.Meets G s as)
  | _, [] => .isTrue trivial
  | s, a :: as =>
    haveI := decidableMeets G (M.step s a).1 as
    inferInstanceAs (Decidable (G s a ∧ M.Meets G (M.step s a).1 as))

@[simp] theorem final_nil (s : σ) : M.final s [] = s := rfl

@[simp] theorem final_cons (s : σ) (a : α) (as : List α) :
    M.final s (a :: as) = M.final (M.step s a).1 as := rfl

@[simp] theorem outputs_nil (s : σ) : M.outputs s [] = [] := rfl

@[simp] theorem outputs_cons (s : σ) (a : α) (as : List α) :
    M.outputs s (a :: as) = (M.step s a).2 ++ M.outputs (M.step s a).1 as := rfl

@[simp] theorem meets_nil (G : σ → α → Prop) (s : σ) : M.Meets G s [] := trivial

@[simp] theorem meets_cons (G : σ → α → Prop) (s : σ) (a : α) (as : List α) :
    M.Meets G s (a :: as) ↔ G s a ∧ M.Meets G (M.step s a).1 as := Iff.rfl

theorem final_append (s : σ) (as bs : List α) :
    M.final s (as ++ bs) = M.final (M.final s as) bs := by
  induction as generalizing s with
  | nil => rfl
  | cons a as ih => simp only [List.cons_append, final_cons, ih]

theorem outputs_append (s : σ) (as bs : List α) :
    M.outputs s (as ++ bs) = M.outputs s as ++ M.outputs (M.final s as) bs := by
  induction as generalizing s with
  | nil => rfl
  | cons a as ih => simp only [List.cons_append, outputs_cons, final_cons, ih, List.append_assoc]

theorem exec_append (s : σ) (as bs : List α) :
    M.exec s (as ++ bs) =
      ((M.exec (M.exec s as).1 bs).1, (M.exec s as).2 ++ (M.exec (M.exec s as).1 bs).2) :=
  Prod.ext (M.final_append s as bs) (M.outputs_append s as bs)

theorem meets_append (G : σ → α → Prop) (s : σ) (as bs : List α) :
    M.Meets G s (as ++ bs) ↔ M.Meets G s as ∧ M.Meets G (M.final s as) bs := by
  induction as generalizing s with
  | nil => simp
  | cons a as ih => simp only [List.cons_append, meets_cons, final_cons, ih, and_assoc]

variable {M}

/-- A condition on the inputs alone is a condition on the steps. -/
theorem meets_of_forall {P : α → Prop} {as : List α} (h : ∀ a ∈ as, P a) (s : σ) :
    M.Meets (fun _ a => P a) s as := by
  induction as generalizing s with
  | nil => trivial
  | cons a as ih =>
    exact ⟨h a List.mem_cons_self, ih (fun b hb => h b (List.mem_cons_of_mem a hb)) _⟩

theorem Meets.mono {G H : σ → α → Prop} (himp : ∀ s a, G s a → H s a) {s : σ} {as : List α}
    (hG : M.Meets G s as) : M.Meets H s as := by
  induction as generalizing s with
  | nil => trivial
  | cons a as ih => exact ⟨himp s a hG.1, ih hG.2⟩

theorem Meets.and {G H : σ → α → Prop} {s : σ} {as : List α} (hG : M.Meets G s as)
    (hH : M.Meets H s as) : M.Meets (fun s a => G s a ∧ H s a) s as := by
  induction as generalizing s with
  | nil => trivial
  | cons a as ih => exact ⟨⟨hG.1, hH.1⟩, ih hG.2 hH.2⟩

/-- A property that every admissible step preserves holds at the end of every
admissible run. -/
theorem invariant {G : σ → α → Prop} {I : σ → Prop}
    (hstep : ∀ s a, I s → G s a → I (M.step s a).1)
    {s : σ} {as : List α} (hs : I s) (hG : M.Meets G s as) : I (M.final s as) := by
  induction as generalizing s with
  | nil => exact hs
  | cons a as ih => exact ih (hstep s a hs hG.1) hG.2

/-- If a step keeps the property exactly when it is taken under `H`, then the property holds
in every state of a run exactly when every step is. -/
theorem forall_reached_iff {G H : σ → α → Prop} {I : σ → Prop}
    (hstep : ∀ s a, I s → G s a → (I (M.step s a).1 ↔ H s a))
    {s : σ} {as : List α} (hs : I s) (hG : M.Meets G s as) :
    (∀ pre post, as = pre ++ post → I (M.final s pre)) ↔ M.Meets H s as := by
  constructor
  · intro hall
    induction as generalizing s with
    | nil => trivial
    | cons a as ih =>
      have hI : I (M.step s a).1 := hall [a] as rfl
      refine ⟨(hstep s a hs hG.1).mp hI, ih hI hG.2 ?_⟩
      rintro pre post rfl
      exact hall (a :: pre) post rfl
  · rintro hH pre post rfl
    rw [meets_append] at hG hH
    have hGH : M.Meets (fun s a => G s a ∧ H s a) s pre := hG.1.and hH.1
    exact invariant (fun s a hI h => (hstep s a hI h.1).mpr h.2) hs hGH

/-- If a step keeps the property exactly when it is taken under `H` and never restores it, then
the property holds at the end of a run exactly when every step is. -/
theorem final_iff {G H : σ → α → Prop} {I J : σ → Prop}
    (hinv : ∀ s a, J s → G s a → J (M.step s a).1)
    (hstep : ∀ s a, J s → G s a → (I (M.step s a).1 ↔ I s ∧ H s a))
    {s : σ} {as : List α} (hs : J s) (hG : M.Meets G s as) :
    I (M.final s as) ↔ I s ∧ M.Meets H s as := by
  induction as generalizing s with
  | nil => simp
  | cons a as ih =>
    rw [final_cons, ih (hinv s a hs hG.1) hG.2, hstep s a hs hG.1, and_assoc, meets_cons]

/-- Conditions can be strengthened along a run by an invariant of that run. -/
theorem Meets.of_invariant {G H : σ → α → Prop} {I : σ → Prop}
    (hstep : ∀ s a, I s → G s a → I (M.step s a).1)
    (himp : ∀ s a, I s → G s a → H s a)
    {s : σ} {as : List α} (hs : I s) (hG : M.Meets G s as) : M.Meets H s as := by
  induction as generalizing s with
  | nil => trivial
  | cons a as ih => exact ⟨himp s a hs hG.1, ih (hstep s a hs hG.1) hG.2⟩

private theorem history_from {G : σ → α → Prop} {I : σ → List ο → Prop}
    (hstep : ∀ s os a, I s os → G s a → I (M.step s a).1 (os ++ (M.step s a).2))
    {s : σ} {os : List ο} {as : List α} (hs : I s os) (hG : M.Meets G s as) :
    I (M.final s as) (os ++ M.outputs s as) := by
  induction as generalizing s os with
  | nil => simpa using hs
  | cons a as ih =>
    have h := ih (hstep s os a hs hG.1) hG.2
    simpa only [final_cons, outputs_cons, List.append_assoc] using h

/-- The history rule: a relation between the state and all outputs made so far. -/
theorem history {G : σ → α → Prop} {I : σ → List ο → Prop}
    (hstep : ∀ s os a, I s os → G s a → I (M.step s a).1 (os ++ (M.step s a).2))
    {s : σ} {as : List α} (hs : I s []) (hG : M.Meets G s as) :
    I (M.final s as) (M.outputs s as) :=
  history_from hstep hs hG

/-- The history rule for runs without a condition. -/
theorem history_all {I : σ → List ο → Prop}
    (hstep : ∀ s os a, I s os → I (M.step s a).1 (os ++ (M.step s a).2))
    {s : σ} (hs : I s []) (as : List α) : I (M.final s as) (M.outputs s as) :=
  history (fun s os a h _ => hstep s os a h) hs
    (meets_of_forall (P := fun _ => True) (fun _ _ => trivial) s)

private theorem inputs_from {G : σ → α → Prop} {I : σ → List α → Prop}
    (hstep : ∀ s pre a, I s pre → G s a → I (M.step s a).1 (pre ++ [a]))
    {s : σ} {pre as : List α} (hs : I s pre) (hG : M.Meets G s as) :
    I (M.final s as) (pre ++ as) := by
  induction as generalizing s pre with
  | nil => simpa using hs
  | cons a as ih =>
    have h := ih (hstep s pre a hs hG.1) hG.2
    simpa only [final_cons, List.append_assoc, List.singleton_append] using h

/-- The history rule for a relation between the state and all inputs so far. -/
theorem history_inputs {G : σ → α → Prop} {I : σ → List α → Prop}
    (hstep : ∀ s pre a, I s pre → G s a → I (M.step s a).1 (pre ++ [a]))
    {s : σ} {as : List α} (hs : I s []) (hG : M.Meets G s as) : I (M.final s as) as :=
  inputs_from hstep hs hG

/-- If a view of the state and of the outputs follows a smaller machine step by step,
it follows it along whole runs. -/
theorem exec_project {N : Machine τ β π} (view : σ → τ) (proj : α → List β)
    (sel : ο → List π)
    (hstep : ∀ s a, N.exec (view s) (proj a) =
      (view (M.step s a).1, (M.step s a).2.flatMap sel))
    (s : σ) (as : List α) :
    N.final (view s) (as.flatMap proj) = view (M.final s as) ∧
      N.outputs (view s) (as.flatMap proj) = (M.outputs s as).flatMap sel := by
  induction as generalizing s with
  | nil => exact ⟨rfl, rfl⟩
  | cons a as ih =>
    have hf : N.final (view s) (proj a) = view (M.step s a).1 := congrArg Prod.fst (hstep s a)
    have ho : N.outputs (view s) (proj a) = (M.step s a).2.flatMap sel :=
      congrArg Prod.snd (hstep s a)
    obtain ⟨h₁, h₂⟩ := ih (M.step s a).1
    rw [List.flatMap_cons, final_append, outputs_append, hf, ho, h₁, h₂]
    simp only [final_cons, outputs_cons, List.flatMap_append, and_self]

/-- If every step can be matched by a run of another machine on a view of the state, then so
can every run. Inputs that satisfy `P` are matched by inputs that satisfy `Q`. -/
theorem exec_simulated {N : Machine τ β ο} (view : σ → τ) {I : σ → Prop} {P : α → Prop}
    {Q : β → Prop}
    (hstep : ∀ s a, I s → I (M.step s a).1 ∧ ∃ bs : List β, (P a → ∀ b ∈ bs, Q b) ∧
      N.exec (view s) bs = (view (M.step s a).1, (M.step s a).2))
    {s : σ} (hs : I s) (as : List α) :
    I (M.final s as) ∧ ∃ bs : List β, ((∀ a ∈ as, P a) → ∀ b ∈ bs, Q b) ∧
      N.exec (view s) bs = (view (M.final s as), M.outputs s as) := by
  induction as generalizing s with
  | nil => exact ⟨hs, [], by simp, rfl⟩
  | cons a as ih =>
    obtain ⟨hI, bs, hbs, hexec⟩ := hstep s a hs
    obtain ⟨hI', cs, hcs, hexec'⟩ := ih hI
    refine ⟨hI', bs ++ cs, fun has b hb => ?_, ?_⟩
    · rcases List.mem_append.mp hb with hb | hb
      · exact hbs (has a (by simp)) b hb
      · exact hcs (fun c hc => has c (by simp [hc])) b hb
    · rw [exec_append, hexec, hexec']
      rfl

/-! ## Sums along a run -/

section Total
variable (M) (g h : σ → α → ℕ)

/-- The sum of a quantity over the steps of a run. -/
def total (g : σ → α → ℕ) : σ → List α → ℕ
  | _, [] => 0
  | s, a :: as => g s a + total g (M.step s a).1 as

@[simp] theorem total_nil (s : σ) : M.total g s [] = 0 := rfl

@[simp] theorem total_cons (s : σ) (a : α) (as : List α) :
    M.total g s (a :: as) = g s a + M.total g (M.step s a).1 as := rfl

theorem total_append (s : σ) (as bs : List α) :
    M.total g s (as ++ bs) = M.total g s as + M.total g (M.final s as) bs := by
  induction as generalizing s with
  | nil => simp
  | cons a as ih => simp only [List.cons_append, total_cons, final_cons, ih, Nat.add_assoc]

variable {M g h}

theorem total_congr {s : σ} {as : List α} (hG : M.Meets (fun s a => g s a = h s a) s as) :
    M.total g s as = M.total h s as := by
  induction as generalizing s with
  | nil => rfl
  | cons a as ih => rw [total_cons, total_cons, hG.1, ih hG.2]

theorem total_eq_zero_iff {s : σ} {as : List α} :
    M.total g s as = 0 ↔ M.Meets (fun s a => g s a = 0) s as := by
  induction as generalizing s with
  | nil => simp
  | cons a as ih => rw [total_cons, meets_cons, ← ih, Nat.add_eq_zero_iff]

/-- Of two sums, one below the other step by step, one reaches the other exactly when it does so
at every step. -/
theorem total_eq_iff {s : σ} {as : List α} (hle : M.Meets (fun s a => g s a ≤ h s a) s as) :
    M.total g s as ≤ M.total h s as ∧
      (M.total g s as = M.total h s as ↔ M.Meets (fun s a => g s a = h s a) s as) := by
  induction as generalizing s with
  | nil => simp
  | cons a as ih =>
    obtain ⟨hrest, hiff⟩ := ih hle.2
    have hfirst := hle.1
    rw [total_cons, total_cons, meets_cons, ← hiff]
    omega

end Total

end Machine
end Manytrace.Core
