import Mathlib.Data.List.Forall2
import Mathlib.Data.List.GetD
import Mathlib.Data.List.Nodup
import Mathlib.Data.List.Range

/-! Lists with indices, and lists without repetition in which one entry matters. -/
namespace Manytrace.Core
variable {α β : Type*}

theorem getElem?_append_some {l l' : List α} {i : ℕ} {a : α} (h : l[i]? = some a) :
    (l ++ l')[i]? = some a := by
  obtain ⟨hi, -⟩ := List.getElem?_eq_some_iff.mp h
  rw [List.getElem?_append_left hi, h]

theorem zipIdx_eq_map_range (l : List α) (d : α) :
    l.zipIdx = (List.range l.length).map fun i => (l.getD i d, i) := by
  apply List.ext_getElem
  · simp
  · intro i h h'
    have hi : i < l.length := by simpa using h
    simp [hi]

theorem map_filter_zipIdx (l : List α) (d : α) (p : ℕ → Bool) (f : α → ℕ → β) :
    (l.zipIdx.filter fun y => p y.2).map (fun y => f y.1 y.2) =
      ((List.range l.length).filter p).map fun i => f (l.getD i d) i := by
  rw [zipIdx_eq_map_range l d, List.filter_map, List.map_map]
  rfl

theorem flatMap_eq_of_nodup {l : List α} (hl : l.Nodup) {a : α} (ha : a ∈ l) {f : α → List β}
    (hf : ∀ x ∈ l, x ≠ a → f x = []) : l.flatMap f = f a := by
  obtain ⟨before, after, rfl⟩ := List.append_of_mem ha
  rw [List.nodup_middle, List.nodup_cons, List.mem_append, not_or] at hl
  have hbefore : before.flatMap f = [] := by
    refine List.flatMap_eq_nil_iff.mpr fun x hx => hf x (by simp [hx]) ?_
    rintro rfl
    exact hl.1.1 hx
  have hafter : after.flatMap f = [] := by
    refine List.flatMap_eq_nil_iff.mpr fun x hx => hf x (by simp [hx]) ?_
    rintro rfl
    exact hl.1.2 hx
  rw [List.flatMap_append, List.flatMap_cons, hbefore, hafter, List.append_nil, List.nil_append]

/-- If no two entries have the same key, then a key picks out one entry. -/
theorem filter_eq_singleton [DecidableEq β] {f : α → β} {l : List α} (hl : (l.map f).Nodup)
    {a : α} (ha : a ∈ l) {key : β} (hkey : f a = key) :
    l.filter (fun b => f b = key) = [a] := by
  subst hkey
  obtain ⟨before, after, rfl⟩ := List.append_of_mem ha
  rw [List.map_append, List.map_cons, List.nodup_middle, List.nodup_cons, List.mem_append,
    not_or] at hl
  have hnone : ∀ l' : List α, f a ∉ l'.map f → l'.filter (fun b => f b = f a) = [] := by
    intro l' hl'
    rw [List.filter_eq_nil_iff]
    intro b hb heq
    exact hl' (List.mem_map.mpr ⟨b, hb, of_decide_eq_true heq⟩)
  rw [List.filter_append, List.filter_cons_of_pos (by simp), hnone before hl.1.1,
    hnone after hl.1.2]
  rfl

theorem exists_of_forall₂_right {R : α → β → Prop} {l : List α} {l' : List β}
    (h : List.Forall₂ R l l') : ∀ y ∈ l', ∃ x ∈ l, R x y := by
  induction h with
  | nil => simp
  | cons hxy _ ih =>
    intro y hy
    rcases List.mem_cons.mp hy with rfl | hrest
    · exact ⟨_, List.mem_cons_self, hxy⟩
    · obtain ⟨x, hx, hR⟩ := ih y hrest
      exact ⟨x, List.mem_cons_of_mem _ hx, hR⟩

end Manytrace.Core
