import Mathlib.Data.List.Basic
import Mathlib.Data.List.Infix
import Mathlib.Order.Basic

/-! An ordered mailbox. Places are reserved in the order of their keys and settled in any
order; what is delivered is always the next value of the settled places at the front. -/
namespace Manytrace.Core

/-- What has become of a reserved place. -/
inductive Slot (α : Type*)
  | busy
  | ready (a : α)
  | void
deriving DecidableEq

namespace Slot
variable {α : Type*}

def settled : Slot α → Bool
  | .busy => false
  | _ => true

def value? : Slot α → Option α
  | .ready a => some a
  | _ => none

end Slot

structure Mailbox (κ α : Type*) where
  slots : List (κ × Slot α)
  delivered : List α

namespace Mailbox
variable {κ α : Type*}

inductive Label (κ α : Type*)
  | reserve (k : κ)
  | settle (k : κ) (st : Slot α)
  | deliver (a : α)
  | empty

def Label.reserved? : Label κ α → Option κ
  | .reserve k => some k
  | _ => none

def Label.delivered? : Label κ α → Option α
  | .deliver a => some a
  | _ => none

def init : Mailbox κ α := ⟨[], []⟩

/-- The values of the places in front of the first one that is still busy. -/
def available (slots : List (κ × Slot α)) : List α :=
  (slots.takeWhile fun e => e.2.settled).filterMap fun e => e.2.value?

def setSlot [DecidableEq κ] (k : κ) (st : Slot α) (slots : List (κ × Slot α)) :
    List (κ × Slot α) :=
  slots.map fun e => if e.1 = k then (k, st) else e

section Available

@[simp] theorem available_nil : available ([] : List (κ × Slot α)) = [] := rfl

@[simp] theorem available_cons_busy (k : κ) (es : List (κ × Slot α)) :
    available ((k, .busy) :: es) = [] := rfl

@[simp] theorem available_cons_ready (k : κ) (a : α) (es : List (κ × Slot α)) :
    available ((k, .ready a) :: es) = a :: available es := rfl

@[simp] theorem available_cons_void (k : κ) (es : List (κ × Slot α)) :
    available ((k, .void) :: es) = available es := rfl

theorem available_append {es : List (κ × Slot α)} (h : ∀ e ∈ es, e.2.settled = true)
    (fs : List (κ × Slot α)) :
    available (es ++ fs) = es.filterMap (fun e => e.2.value?) ++ available fs := by
  induction es with
  | nil => rfl
  | cons e es ih =>
    obtain ⟨k, st⟩ := e
    have ih' := ih fun e he => h e (List.mem_cons_of_mem _ he)
    cases st with
    | busy => exact absurd (h (k, .busy) List.mem_cons_self) (by simp [Slot.settled])
    | ready a => simp [ih', Slot.value?]
    | void => simp [ih', Slot.value?]

theorem available_prefix_append (es fs : List (κ × Slot α)) :
    available es <+: available (es ++ fs) := by
  induction es with
  | nil => exact List.nil_prefix
  | cons e es ih =>
    obtain ⟨k, st⟩ := e
    cases st with
    | busy => exact List.nil_prefix
    | ready a => exact List.cons_prefix_cons.mpr ⟨rfl, ih⟩
    | void => exact ih

theorem available_prefix_setSlot [DecidableEq κ] {k : κ} {st : Slot α}
    {es : List (κ × Slot α)} (h : ∀ e ∈ es, e.1 = k → e.2 = .busy) :
    available es <+: available (setSlot k st es) := by
  induction es with
  | nil => exact List.nil_prefix
  | cons e es ih =>
    obtain ⟨k', st'⟩ := e
    have ih' := ih fun e he => h e (List.mem_cons_of_mem _ he)
    have hk : st' ≠ .busy → k' ≠ k := fun hst he => hst (h (k', st') List.mem_cons_self he)
    cases st' with
    | busy => exact List.nil_prefix
    | ready a =>
      rw [setSlot, List.map_cons, if_neg (hk (by simp))]
      exact List.cons_prefix_cons.mpr ⟨rfl, ih'⟩
    | void =>
      rw [setSlot, List.map_cons, if_neg (hk (by simp))]
      exact ih'

/-- Without void places a value stands at the index of its place. -/
theorem getElem?_of_available {es : List (κ × Slot α)} (h : ∀ e ∈ es, e.2 ≠ .void) {i : ℕ}
    {a : α} (ha : (available es)[i]? = some a) : ∃ k, es[i]? = some (k, .ready a) := by
  induction es generalizing i with
  | nil => simp at ha
  | cons e es ih =>
    obtain ⟨k, st⟩ := e
    cases st with
    | busy => simp at ha
    | void => exact absurd rfl (h (k, .void) List.mem_cons_self)
    | ready b =>
      cases i with
      | zero => exact ⟨k, by simpa using ha⟩
      | succ i =>
        simpa using ih (fun e he => h e (List.mem_cons_of_mem _ he)) (i := i) (by simpa using ha)

theorem length_available {es : List (κ × Slot α)} (h : ∀ e ∈ es, ∃ a, e.2 = .ready a) :
    (available es).length = es.length := by
  induction es with
  | nil => rfl
  | cons e es ih =>
    obtain ⟨k, st⟩ := e
    obtain ⟨a, rfl⟩ := h (k, st) List.mem_cons_self
    rw [available_cons_ready, List.length_cons, List.length_cons,
      ih fun e he => h e (List.mem_cons_of_mem _ he)]

end Available

section Runs
variable [Preorder κ] [DecidableEq κ]

inductive Step : Mailbox κ α → Label κ α → Mailbox κ α → Prop
  | reserve {m : Mailbox κ α} {k : κ} (h : ∀ e ∈ m.slots, e.1 < k) :
    Step m (.reserve k) { m with slots := m.slots ++ [(k, .busy)] }
  | settle {m : Mailbox κ α} {k : κ} {st : Slot α} (h : (k, .busy) ∈ m.slots)
    (hst : st.settled = true) :
    Step m (.settle k st) { m with slots := setSlot k st m.slots }
  | deliver {m : Mailbox κ α} {a : α} (h : (available m.slots)[m.delivered.length]? = some a) :
    Step m (.deliver a) { m with delivered := m.delivered ++ [a] }
  | empty {m : Mailbox κ α} (h : (available m.slots).length ≤ m.delivered.length) :
    Step m .empty m

theorem Step.length_le_of_empty {m n : Mailbox κ α} (h : Step m .empty n) :
    (available m.slots).length ≤ m.delivered.length := by
  cases h with
  | empty hle => exact hle

/-- A sequence of labels, oldest first, that a mailbox can go through. -/
inductive Run : Mailbox κ α → List (Label κ α) → Mailbox κ α → Prop
  | nil (m : Mailbox κ α) : Run m [] m
  | snoc {m n o : Mailbox κ α} {ls : List (Label κ α)} {l : Label κ α} :
    Run m ls n → Step n l o → Run m (ls ++ [l]) o

/-- What a mailbox remembers of the labels it has gone through. -/
structure Agrees (ls : List (Label κ α)) (m : Mailbox κ α) : Prop where
  sorted : m.slots.Pairwise fun e f => e.1 < f.1
  reserved : ls.filterMap Label.reserved? = m.slots.map Prod.fst
  delivered : ls.filterMap Label.delivered? = m.delivered
  settled : ∀ k st, Label.settle k st ∈ ls ↔ (k, st) ∈ m.slots ∧ st.settled = true
  taken : m.delivered <+: available m.slots

omit [DecidableEq κ] in
theorem eq_of_key {es : List (κ × Slot α)} (h : es.Pairwise fun e f => e.1 < f.1)
    {e f : κ × Slot α} (he : e ∈ es) (hf : f ∈ es) (hk : e.1 = f.1) : e = f := by
  induction es with
  | nil => simp at he
  | cons g es ih =>
    obtain ⟨hg, hes⟩ := List.pairwise_cons.mp h
    rcases List.mem_cons.mp he with rfl | he' <;> rcases List.mem_cons.mp hf with rfl | hf'
    · rfl
    · exact absurd (hg f hf') (hk ▸ lt_irrefl _)
    · exact absurd (hg e he') (hk ▸ lt_irrefl _)
    · exact ih hes he' hf'

omit [DecidableEq κ] in
theorem Agrees.available_of_delivered {ls : List (Label κ α)} {m : Mailbox κ α}
    (h : Agrees ls m) {i : ℕ} {a : α} (ha : m.delivered[i]? = some a) :
    (available m.slots)[i]? = some a := by
  obtain ⟨rest, hrest⟩ := h.taken
  obtain ⟨hi, -⟩ := List.getElem?_eq_some_iff.mp ha
  rw [← hrest, List.getElem?_append_left hi]
  exact ha

omit [Preorder κ] in
theorem mem_setSlot {k k' : κ} {st st' : Slot α} {slots : List (κ × Slot α)}
    (hk : (k, .busy) ∈ slots) : (k', st') ∈ setSlot k st slots ↔
      (k' ≠ k ∧ (k', st') ∈ slots) ∨ (k' = k ∧ st' = st) := by
  simp only [setSlot, List.mem_map]
  constructor
  · intro hex
    obtain ⟨e, he, heq⟩ := hex
    split_ifs at heq with hek
    · obtain ⟨rfl, rfl⟩ := Prod.mk.inj heq
      exact Or.inr ⟨rfl, rfl⟩
    · subst heq
      exact Or.inl ⟨hek, he⟩
  · rintro (⟨hne, he⟩ | ⟨rfl, rfl⟩)
    · exact ⟨_, he, if_neg hne⟩
    · exact ⟨_, hk, if_pos rfl⟩

theorem Agrees.step {ls : List (Label κ α)} {l : Label κ α} {m n : Mailbox κ α}
    (h : Agrees ls m) (hstep : Step m l n) : Agrees (ls ++ [l]) n := by
  cases hstep with
  | @reserve k hk =>
    refine ⟨?_, ?_, ?_, ?_, ?_⟩
    · exact List.pairwise_append.mpr ⟨h.sorted, List.pairwise_singleton _ _,
        fun e he f hf => List.mem_singleton.mp hf ▸ hk e he⟩
    · simp [h.reserved, Label.reserved?]
    · simp [h.delivered, Label.delivered?]
    · intro k' st
      have hbusy : (k', st) = (k, .busy) → st.settled ≠ true := by
        rintro ⟨⟩
        simp [Slot.settled]
      simp only [List.mem_append, List.mem_singleton, h.settled k' st, reduceCtorEq, or_false]
      tauto
    · exact h.taken.trans (available_prefix_append _ _)
  | @settle k st hk hst =>
    have hkey : ∀ e ∈ m.slots, e.1 = k → e = (k, .busy) :=
      fun e he hek => eq_of_key h.sorted he hk hek
    have hfst : ∀ e : κ × Slot α, (if e.1 = k then (k, st) else e).1 = e.1 := by
      intro e
      split_ifs with he
      · exact he.symm
      · rfl
    refine ⟨?_, ?_, ?_, ?_, ?_⟩
    · simpa only [setSlot, List.pairwise_map, hfst] using h.sorted
    · simp [h.reserved, Label.reserved?, setSlot, Function.comp_def, hfst]
    · simp [h.delivered, Label.delivered?]
    · intro k' st'
      have hold : Label.settle k st' ∉ ls := by
        intro hin
        obtain ⟨hin, hs⟩ := (h.settled k st').mp hin
        obtain rfl : st' = .busy := (Prod.mk.inj (hkey _ hin rfl)).2
        simp [Slot.settled] at hs
      simp only [List.mem_append, List.mem_singleton, Label.settle.injEq, mem_setSlot hk]
      by_cases hkk : k' = k
      · subst hkk
        simp only [hold, false_or, ne_eq, not_true_eq_false, false_and, true_and]
        exact ⟨fun he => ⟨he, he ▸ hst⟩, fun he => he.1⟩
      · simp [hkk, h.settled k' st']
    · exact h.taken.trans (available_prefix_setSlot fun e he hek => by rw [hkey e he hek])
  | @deliver a ha =>
    refine ⟨h.sorted, ?_, ?_, ?_, ?_⟩
    · simp [h.reserved, Label.reserved?]
    · simp [h.delivered, Label.delivered?]
    · intro k st
      simp [h.settled k st]
    · obtain ⟨hlt, rfl⟩ := List.getElem?_eq_some_iff.mp ha
      exact List.concat_get_prefix h.taken hlt
  | empty hle =>
    refine ⟨h.sorted, ?_, ?_, ?_, h.taken⟩
    · simp [h.reserved, Label.reserved?]
    · simp [h.delivered, Label.delivered?]
    · intro k st
      simp [h.settled k st]

theorem Run.agrees {ls : List (Label κ α)} {m : Mailbox κ α} (h : Run init ls m) :
    Agrees ls m := by
  induction h with
  | nil => exact ⟨List.Pairwise.nil, rfl, rfl, by simp [init], List.nil_prefix⟩
  | snoc _ hstep ih => exact ih.step hstep

end Runs
end Mailbox
end Manytrace.Core
