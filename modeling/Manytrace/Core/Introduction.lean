import Mathlib.Data.List.Induction
import Mathlib.Logic.Function.Basic
import Manytrace.Core.Log
import Manytrace.Core.Machine

/-! Tables that introduce a key by a message of its own, before the first message about it. -/
namespace Manytrace.Core

section Introduced
variable {κ ι α ο : Type*} [DecidableEq κ]

/-- The table after the inputs, and what went out about each id: the message that introduces the
key, and then those of the inputs with this key. -/
structure Introduced (key : α → κ) (first : α → ι → ο) (each : α → ι → List ο)
    (about : ι → ο → Bool) (ids : κ → Option ι) (as : List α) (os : List ο) : Prop where
  absent : ∀ k, ids k = none → ∀ a ∈ as, key a ≠ k
  present : ∀ k i, ids k = some i → ∃ a rest, as.filter (fun a => key a = k) = a :: rest ∧
    os.filter (about i) = first a i :: (a :: rest).flatMap fun a => each a i
  injective : ∀ k k' i, ids k = some i → ids k' = some i → k = k'

variable {key : α → κ} {first : α → ι → ο} {each : α → ι → List ο} {about : ι → ο → Bool}
  {ids : κ → Option ι} {as : List α} {os : List ο}

theorem introduced_nil (key : α → κ) (first : α → ι → ο) (each : α → ι → List ο)
    (about : ι → ο → Bool) : Introduced key first each about (fun _ => none) [] [] where
  absent := by simp
  present := by simp
  injective := by simp

/-- Messages about none of the ids. -/
theorem Introduced.other (h : Introduced key first each about ids as os) {news : List ο}
    (hnews : ∀ m ∈ news, ∀ i, about i m = false) :
    Introduced key first each about ids as (os ++ news) := by
  refine ⟨h.absent, fun k i hk => ?_, h.injective⟩
  obtain ⟨a, rest, hrest, hout⟩ := h.present k i hk
  refine ⟨a, rest, hrest, ?_⟩
  rw [List.filter_append, hout, List.filter_eq_nil_iff.mpr fun m hm => by simp [hnews m hm i],
    List.append_nil]

variable [DecidableEq ι] (heach : ∀ a i, ∀ m ∈ each a i, ∀ j, about j m = decide (i = j))
include heach

theorem filter_each (a : α) (i j : ι) :
    (each a i).filter (about j) = if i = j then each a i else [] := by
  split_ifs with hij
  · exact List.filter_eq_self.mpr fun m hm => by simp [heach a i m hm j, hij]
  · exact List.filter_eq_nil_iff.mpr fun m hm => by simp [heach a i m hm j, hij]

/-- An input whose key has its id. -/
theorem Introduced.old (h : Introduced key first each about ids as os) {a : α} {i : ι}
    (hid : ids (key a) = some i) :
    Introduced key first each about ids (as ++ [a]) (os ++ each a i) := by
  refine ⟨fun k hk b hb => ?_, fun k j hj => ?_, h.injective⟩
  · rcases List.mem_append.mp hb with hb | hb
    · exact h.absent k hk b hb
    · rw [List.mem_singleton.mp hb]
      rintro rfl
      cases hid.symm.trans hk
  · obtain ⟨b, rest, hrest, hout⟩ := h.present k j hj
    by_cases hkey : key a = k
    · subst hkey
      obtain rfl : i = j := Option.some.inj (hid.symm.trans hj)
      refine ⟨b, rest ++ [a], by simp [List.filter_append, hrest], ?_⟩
      rw [List.filter_append, hout, filter_each heach, if_pos rfl]
      simp
    · have hne : i ≠ j := fun hij => hkey (h.injective _ _ _ hid (hij ▸ hj))
      refine ⟨b, rest, by simp [List.filter_append, hrest, hkey], ?_⟩
      rw [List.filter_append, hout, filter_each heach, if_neg hne, List.append_nil]

/-- An input with a new key, under an id that nothing was about. -/
theorem Introduced.new (h : Introduced key first each about ids as os)
    (hfirst : ∀ a i j, about j (first a i) = decide (i = j)) {a : α} {i : ι}
    (hnone : ids (key a) = none) (hfresh : os.filter (about i) = []) :
    Introduced key first each about (Function.update ids (key a) (some i)) (as ++ [a])
      (os ++ first a i :: each a i) := by
  have hunused : ∀ k, ids k ≠ some i := by
    intro k hk
    obtain ⟨b, rest, -, hout⟩ := h.present k i hk
    rw [hfresh] at hout
    cases hout
  refine ⟨fun k hk b hb => ?_, fun k j hj => ?_, fun k k' j hk hk' => ?_⟩
  · have hkey : k ≠ key a := by
      rintro rfl
      simp at hk
    rw [Function.update_of_ne hkey] at hk
    rcases List.mem_append.mp hb with hb | hb
    · exact h.absent k hk b hb
    · rw [List.mem_singleton.mp hb]
      exact Ne.symm hkey
  · by_cases hkey : k = key a
    · subst hkey
      obtain rfl : i = j := by simpa using hj
      have hno : as.filter (fun b => key b = key a) = [] :=
        List.filter_eq_nil_iff.mpr fun b hb => by simpa using h.absent _ hnone b hb
      refine ⟨a, [], by simp [List.filter_append, hno], ?_⟩
      rw [List.filter_append, hfresh, List.filter_cons_of_pos (by simp [hfirst]),
        filter_each heach, if_pos rfl]
      simp
    · rw [Function.update_of_ne hkey] at hj
      obtain ⟨b, rest, hrest, hout⟩ := h.present k j hj
      have hne : i ≠ j := fun hij => hunused k (hij ▸ hj)
      refine ⟨b, rest, by simp [List.filter_append, hrest, Ne.symm hkey], ?_⟩
      rw [List.filter_append, hout, List.filter_cons_of_neg (by simp [hfirst, hne]),
        filter_each heach, if_neg hne, List.append_nil]
  · by_cases hkey : k = key a
    · by_cases hkey' : k' = key a
      · rw [hkey, hkey']
      · rw [Function.update_of_ne hkey'] at hk'
        rw [hkey, Function.update_self] at hk
        exact absurd (hk'.trans hk.symm) (hunused k')
    · rw [Function.update_of_ne hkey] at hk
      by_cases hkey' : k' = key a
      · rw [hkey', Function.update_self] at hk'
        exact absurd (hk.trans hk'.symm) (hunused k)
      · rw [Function.update_of_ne hkey'] at hk'
        exact h.injective k k' j hk hk'

end Introduced

section Introducing
variable {κ α ο : Type*} [DecidableEq κ]

variable {key : α → κ} {first each : α → ℕ → ο}

end Introducing
end Manytrace.Core
