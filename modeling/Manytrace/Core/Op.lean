import Mathlib.Order.Basic

/-! Stateful operations that may fail, and what is known after them. A failure keeps the
state the operation has reached. -/
namespace Manytrace.Core

def Op (σ ε α : Type) : Type := σ → Except ε α × σ

namespace Op
variable {σ ε α β : Type}

protected def pure (a : α) : Op σ ε α := fun s => (.ok a, s)

protected def bind (x : Op σ ε α) (f : α → Op σ ε β) : Op σ ε β := fun s =>
  match x s with
  | (.ok a, t) => f a t
  | (.error e, t) => (.error e, t)

instance : Monad (Op σ ε) where
  pure := Op.pure
  bind := Op.bind

def get : Op σ ε σ := fun s => (.ok s, s)

def modify (f : σ → σ) : Op σ ε Unit := fun s => (.ok (), f s)

/-- An outcome that does not depend on the state. -/
def lift (x : Except ε α) : Op σ ε α := fun s => (x, s)

def fail (e : ε) : Op σ ε α := fun s => (.error e, s)

section Apply
variable {s : σ} {f : α → Op σ ε β}

@[simp] theorem get_bind (f : σ → Op σ ε β) : (get >>= f) s = f s s := rfl

@[simp] theorem lift_ok_bind (a : α) : (lift (.ok a) >>= f) s = f a s := rfl

@[simp] theorem lift_error_bind (e : ε) : (lift (.error e) >>= f) s = (.error e, s) := rfl

theorem bind_ok {x : Op σ ε α} {a : α} {t : σ} (h : x s = (.ok a, t)) : (x >>= f) s = f a t := by
  change Op.bind x f s = _
  rw [Op.bind, h]

theorem bind_error {x : Op σ ε α} {e : ε} {t : σ} (h : x s = (.error e, t)) :
    (x >>= f) s = (.error e, t) := by
  change Op.bind x f s = _
  rw [Op.bind, h]

theorem bind_eq_ok {x : Op σ ε α} {b : β} {u : σ} :
    (x >>= f) s = (.ok b, u) ↔ ∃ a t, x s = (.ok a, t) ∧ f a t = (.ok b, u) := by
  change Op.bind x f s = _ ↔ _
  unfold Op.bind
  rcases x s with ⟨e | a, t⟩
  · constructor
    · intro h
      cases h
    · rintro ⟨a, t', h, -⟩
      cases h
  · constructor
    · intro h
      exact ⟨a, t, rfl, h⟩
    · rintro ⟨a', t', h, hf⟩
      cases h
      exact hf

protected theorem bind_assoc {γ : Type} (x : Op σ ε α) (f : α → Op σ ε β) (g : β → Op σ ε γ) :
    x >>= f >>= g = x >>= fun a => f a >>= g := by
  funext s
  change Op.bind (Op.bind x f) g s = Op.bind x (fun a => Op.bind (f a) g) s
  unfold Op.bind
  rcases x s with ⟨_ | a, t⟩ <;> rfl

end Apply

/-- From `s` the operation ends in `Q` if it succeeds and in `E` if it fails. -/
def Post (x : Op σ ε α) (s : σ) (Q : α → σ → Prop) (E : σ → Prop) : Prop :=
  match x s with
  | (.ok a, t) => Q a t
  | (.error _, t) => E t

section Rules
variable {s : σ} {x : Op σ ε α} {f : α → Op σ ε β} {Q : α → σ → Prop}
  {R : β → σ → Prop} {E : σ → Prop}

theorem post_pure {a : α} (h : Q a s) : Post (pure a : Op σ ε α) s Q E := h

theorem post_modify {f : σ → σ} {Q : Unit → σ → Prop} (h : Q () (f s)) :
    Post (modify f : Op σ ε Unit) s Q E := h

theorem Post.bind (hx : Post x s Q E) (hf : ∀ a t, Q a t → Post (f a) t R E) :
    Post (x >>= f) s R E := by
  unfold Post at hx
  change match Op.bind x f s with
    | (.ok a, t) => R a t
    | (.error _, t) => E t
  unfold Op.bind
  rcases hxs : x s with ⟨_ | a, t⟩
  · rw [hxs] at hx
    exact hx
  · rw [hxs] at hx
    exact hf a t hx

theorem post_get_bind {f : σ → Op σ ε β} (h : Post (f s) s R E) : Post (get >>= f) s R E := h

theorem Post.mono {Q' : α → σ → Prop} {E' : σ → Prop} (h : Post x s Q E)
    (hQ : ∀ a t, Q a t → Q' a t) (hE : ∀ t, E t → E' t) : Post x s Q' E' := by
  unfold Post at h ⊢
  rcases hxs : x s with ⟨_ | a, t⟩
  · rw [hxs] at h
    exact hE t h
  · rw [hxs] at h
    exact hQ a t h

theorem Post.ok (h : Post x s Q E) {a : α} (hx : (x s).1 = .ok a) : Q a (x s).2 := by
  unfold Post at h
  rcases hxs : x s with ⟨_ | b, t⟩
  · rw [hxs] at hx
    cases hx
  · rw [hxs] at hx h
    cases hx
    exact h

/-- Whatever the outcome, the state has what both outcomes promise. -/
theorem Post.always {I : σ → Prop} (h : Post x s (fun _ => I) I) : I (x s).2 := by
  unfold Post at h
  rcases hxs : x s with ⟨_ | a, t⟩ <;> rwa [hxs] at h

/-- From `s` the operation ends in `I`, whatever its outcome. -/
def Keeps (I : σ → Prop) (x : Op σ ε α) (s : σ) : Prop := x.Post s (fun _ => I) I

variable {I : σ → Prop}

theorem keeps_pure {a : α} (h : I s) : Keeps I (pure a : Op σ ε α) s := h

theorem keeps_modify {f : σ → σ} (h : I (f s)) : Keeps I (modify f : Op σ ε Unit) s := h

theorem keeps_get_bind {f : σ → Op σ ε β} (h : Keeps I (f s) s) : Keeps I (get >>= f) s := h

theorem Keeps.bind (hx : Keeps I x s) (hf : ∀ a t, I t → Keeps I (f a) t) :
    Keeps I (x >>= f) s :=
  Post.bind hx hf

end Rules
end Op
end Manytrace.Core
