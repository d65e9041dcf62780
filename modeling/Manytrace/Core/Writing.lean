import Mathlib.Data.Nat.Notation

/-! Programs that write to a positional writer. A program only sees the positions that the
writer tells it, and ends at the first write that fails. -/
namespace Manytrace.Core

/-- A deterministic program over the alphabet `α`. -/
inductive WriteProgram (α : Type*)
  | done
  | fail
  | pos (k : ℕ → WriteProgram α)
  | write (xs : List α) (k : WriteProgram α)

/-- A failed write is `none` and leaves the writer as it was. -/
structure Writer (α σ : Type*) where
  pos : σ → ℕ
  write : σ → List α → Option σ

variable {α σ : Type*}

namespace WriteProgram

/-- Whether the program succeeds, and the writer at its end. -/
def drive (w : Writer α σ) : WriteProgram α → σ → Bool × σ
  | .done, s => (true, s)
  | .fail, s => (false, s)
  | .pos k, s => (k (w.pos s)).drive w s
  | .write xs k, s =>
    match w.write s xs with
    | some s' => k.drive w s'
    | none => (false, s)

/-- What the program does with a writer at position `n` that takes everything: whether it
succeeds, and what it writes. -/
def run : WriteProgram α → ℕ → Bool × List (List α)
  | .done, _ => (true, [])
  | .fail, _ => (false, [])
  | .pos k, n => (k n).run n
  | .write xs k, n =>
    let r := k.run (n + xs.length)
    (r.1, xs :: r.2)

end WriteProgram

namespace Writer
variable (w : Writer α σ)

/-- The writer takes the chunks and its position follows them. -/
inductive Takes : σ → List (List α) → σ → Prop
  | nil (s : σ) : Takes s [] s
  | cons {s s₁ s' : σ} {xs : List α} {cs : List (List α)} (hwrite : w.write s xs = some s₁)
    (hpos : w.pos s₁ = w.pos s + xs.length) (h : Takes s₁ cs s') : Takes s (xs :: cs) s'

/-- The writer fails at one of the chunks, and its position follows those before. -/
inductive Refuses : σ → List (List α) → Prop
  | here {s : σ} {xs : List α} {cs : List (List α)} (hwrite : w.write s xs = none) :
    Refuses s (xs :: cs)
  | later {s s₁ : σ} {xs : List α} {cs : List (List α)} (hwrite : w.write s xs = some s₁)
    (hpos : w.pos s₁ = w.pos s + xs.length) (h : Refuses s₁ cs) : Refuses s (xs :: cs)

/-- The position follows every write that succeeds. -/
def Tracked : Prop :=
  ∀ s xs s', w.write s xs = some s' → w.pos s' = w.pos s + xs.length

variable {w} {s s' : σ}

theorem Tracked.takes_or_refuses (h : w.Tracked) (s : σ) (cs : List (List α)) :
    (∃ s', w.Takes s cs s') ∨ w.Refuses s cs := by
  induction cs generalizing s with
  | nil => exact Or.inl ⟨s, .nil s⟩
  | cons xs cs ih =>
    cases hwrite : w.write s xs with
    | none => exact Or.inr (.here hwrite)
    | some s₁ =>
      have hpos := h s xs s₁ hwrite
      rcases ih s₁ with ⟨s', htakes⟩ | hrefuses
      · exact Or.inl ⟨s', .cons hwrite hpos htakes⟩
      · exact Or.inr (.later hwrite hpos hrefuses)

theorem Takes.pos_eq {cs : List (List α)} (h : w.Takes s cs s') :
    w.pos s' = w.pos s + cs.flatten.length := by
  induction h with
  | nil => rfl
  | cons _ hpos _ ih => rw [ih, hpos, List.flatten_cons, List.length_append, Nat.add_assoc]

/-- A writer that takes everything is in step with the unlimited one. -/
theorem Takes.drive {v : WriteProgram α} (h : w.Takes s (v.run (w.pos s)).2 s') :
    v.drive w s = ((v.run (w.pos s)).1, s') := by
  induction v generalizing s with
  | done | fail =>
    cases h
    rfl
  | pos k ih => exact ih _ h
  | write xs k ih =>
    cases h with
    | cons hwrite hpos hrest =>
      rw [← hpos] at hrest
      simp only [WriteProgram.drive, WriteProgram.run, hwrite]
      rw [ih hrest, hpos]

/-- A program does not survive a failed write. -/
theorem Refuses.drive {v : WriteProgram α} (h : w.Refuses s (v.run (w.pos s)).2) :
    (v.drive w s).1 = false := by
  induction v generalizing s with
  | done | fail => cases h
  | pos k ih => exact ih _ h
  | write xs k ih =>
    cases h with
    | here hwrite => simp only [WriteProgram.drive, hwrite]
    | later hwrite hpos hrest =>
      rw [← hpos] at hrest
      simp only [WriteProgram.drive, hwrite]
      exact ih hrest

/-- Writers that give the same positions and fail at the same writes end in step. -/
theorem drive_lockstep {τ : Type*} (w' : Writer α τ) {R : σ → τ → Prop}
    (hpos : ∀ s t, R s t → w.pos s = w'.pos t)
    (hwrite : ∀ s t xs, R s t →
      (w.write s xs = none ∧ w'.write t xs = none) ∨
        ∃ s' t', w.write s xs = some s' ∧ w'.write t xs = some t' ∧ R s' t')
    (v : WriteProgram α) {s : σ} {t : τ} (h : R s t) :
    (v.drive w s).1 = (v.drive w' t).1 ∧ R (v.drive w s).2 (v.drive w' t).2 := by
  induction v generalizing s t with
  | done | fail => exact ⟨rfl, h⟩
  | pos k ih =>
    have hk := ih (w.pos s) h
    rw [WriteProgram.drive, WriteProgram.drive, ← hpos s t h]
    exact hk
  | write xs k ih =>
    rcases hwrite s t xs h with ⟨hs, ht⟩ | ⟨s', t', hs, ht, hR⟩
    · simp only [WriteProgram.drive, hs, ht]
      exact ⟨trivial, h⟩
    · simp only [WriteProgram.drive, hs, ht]
      exact ih hR

end Writer
end Manytrace.Core
