import Mathlib.Data.List.Infix

/-! Texts as lists: replacing a pattern everywhere, splitting at separators, and lines. -/
namespace Manytrace.Core
variable {α β : Type*}

/-! ## Replacing -/

section Replace
variable [DecidableEq α]

/-- Replaces the pattern from left to right, once `skip` more elements have been passed. -/
def replaceFrom (pat new : List α) : ℕ → List α → List α
  | _, [] => []
  | skip + 1, _ :: s => replaceFrom pat new skip s
  | 0, c :: s =>
    if pat <+: c :: s then new ++ replaceFrom pat new (pat.length - 1) s
    else c :: replaceFrom pat new 0 s

def replaceAll (pat new s : List α) : List α := replaceFrom pat new 0 s

variable {new : List α}

theorem replaceFrom_append (pat new xs s : List α) :
    replaceFrom pat new xs.length (xs ++ s) = replaceAll pat new s := by
  induction xs with
  | nil => rfl
  | cons x xs ih => exact ih

theorem replaceAll_match (b : α) (ds new s : List α) :
    replaceAll (b :: ds) new (b :: ds ++ s) = new ++ replaceAll (b :: ds) new s := by
  have hpat : b :: ds <+: b :: (ds ++ s) := List.prefix_append (b :: ds) s
  rw [replaceAll, List.cons_append, replaceFrom, if_pos hpat, List.length_cons,
    Nat.add_sub_cancel, replaceFrom_append]

theorem replaceAll_cons {b c : α} {ds s : List α} (h : ¬ b :: ds <+: c :: s) :
    replaceAll (b :: ds) new (c :: s) = c :: replaceAll (b :: ds) new s := by
  rw [replaceAll, replaceFrom, if_neg h]
  rfl

/-- A text without the first element of the pattern stays. -/
theorem replaceAll_append_of_notMem {b : α} {ds xs : List α} (h : b ∉ xs) (s : List α) :
    replaceAll (b :: ds) new (xs ++ s) = xs ++ replaceAll (b :: ds) new s := by
  induction xs with
  | nil => rfl
  | cons x xs ih =>
    have hx : ¬ b :: ds <+: x :: (xs ++ s) := by
      rw [List.cons_prefix_cons]
      rintro ⟨rfl, -⟩
      exact h List.mem_cons_self
    rw [List.cons_append, replaceAll_cons hx, ih fun hb => h (List.mem_cons_of_mem x hb),
      List.cons_append]

theorem mem_replaceFrom {pat s : List α} {skip : ℕ} {c : α}
    (h : c ∈ replaceFrom pat new skip s) : c ∈ s ∨ c ∈ new := by
  induction s generalizing skip with
  | nil => exact absurd h List.not_mem_nil
  | cons d s ih =>
    cases skip with
    | succ skip => exact (ih h).imp_left (List.mem_cons_of_mem d)
    | zero =>
      rw [replaceFrom] at h
      split at h
      · rcases List.mem_append.mp h with hnew | hrest
        · exact Or.inr hnew
        · exact (ih hrest).imp_left (List.mem_cons_of_mem d)
      · rcases List.mem_cons.mp h with rfl | hrest
        · exact Or.inl List.mem_cons_self
        · exact (ih hrest).imp_left (List.mem_cons_of_mem d)

theorem mem_replaceAll {pat s : List α} {c : α} (h : c ∈ replaceAll pat new s) :
    c ∈ s ∨ c ∈ new :=
  mem_replaceFrom h

/-- One code word is a single symbol, or the escape symbol `b` with `n` more. -/
def IsCode (b : α) (n : ℕ) (w : List α) : Prop :=
  (∃ c, w = [c] ∧ c ≠ b) ∨ ∃ ds, w = b :: ds ∧ ds.length = n ∧ b ∉ ds

/-- In a text of code words, replacing one that starts with the escape symbol touches no other. -/
theorem replaceAll_flatMap {b : α} {ds : List α} {enc : β → List α}
    (henc : ∀ c, IsCode b ds.length (enc c)) (new : List α) (s : List β) :
    replaceAll (b :: ds) new (s.flatMap enc) =
      s.flatMap fun c => if enc c = b :: ds then new else enc c := by
  induction s with
  | nil => rfl
  | cons c s ih =>
    rw [List.flatMap_cons, List.flatMap_cons, ← ih]
    rcases henc c with ⟨x, hx, hne⟩ | ⟨es, hes, hlen, hmem⟩
    · have hnot : enc c ≠ b :: ds := by
        rw [hx]
        rintro ⟨⟩
        exact hne rfl
      have hxs : b ∉ [x] := by
        rw [List.mem_singleton]
        exact hne.symm
      rw [if_neg hnot, hx, replaceAll_append_of_notMem hxs]
    · by_cases heq : es = ds
      · subst heq
        rw [hes, if_pos rfl, replaceAll_match]
      · have hnot : enc c ≠ b :: ds := by
          rw [hes]
          exact fun h => heq (List.cons.inj h).2
        have hpat : ¬ b :: ds <+: b :: (es ++ s.flatMap enc) := by
          rw [List.cons_prefix_cons]
          rintro ⟨-, hpre⟩
          exact heq (List.IsPrefix.eq_of_length
            (List.prefix_of_prefix_length_le (List.prefix_append es _) hpre (by omega)) hlen)
        rw [if_neg hnot, hes, List.cons_append, replaceAll_cons hpat,
          replaceAll_append_of_notMem hmem, List.cons_append]

end Replace

/-! ## Splitting -/

/-- The pieces between separators, without the empty ones. -/
def words (p : α → Bool) (s : List α) : List (List α) := (s.splitOnP p).filter fun w => !w.isEmpty

section Words
variable {p : α → Bool} {s w : List α}

@[simp] theorem words_nil (p : α → Bool) : words p [] = [] := rfl

theorem words_append_cons (s t : List α) {c : α} (hc : p c = true) :
    words p (s ++ c :: t) = words p s ++ words p t := by
  unfold words
  rw [List.splitOnP_append_cons s t hc, List.filter_append]

theorem words_concat (s : List α) {c : α} (hc : p c = true) : words p (s ++ [c]) = words p s := by
  rw [words_append_cons s [] hc, words_nil, List.append_nil]

theorem words_intercalate {c : α} (hc : p c = true) (ls : List (List α)) :
    words p ([c].intercalate ls) = ls.flatMap (words p) := by
  induction ls with
  | nil => rfl
  | cons l ls ih =>
    cases ls with
    | nil => simp
    | cons l' ls =>
      rw [List.intercalate_cons_cons, List.append_assoc, List.singleton_append,
        words_append_cons l _ hc, ih]
      exact List.flatMap_cons.symm

theorem words_eq_singleton (hs : s ≠ []) (h : ∀ c ∈ s, p c = false) : words p s = [s] := by
  unfold words
  rw [List.splitOnP_eq_singleton h]
  simp [hs]

theorem splitOnP_append (h : ∀ c ∈ s, p c = false) (t : List α) :
    (s ++ t).splitOnP p = (t.splitOnP p).modifyHead (s ++ ·) := by
  induction s with
  | nil =>
    cases hsplit : t.splitOnP p with
    | nil => exact absurd hsplit (List.splitOnP_ne_nil p t)
    | cons w ws => simp [hsplit]
  | cons c s ih =>
    have hc : p c = false := h c List.mem_cons_self
    rw [List.cons_append, List.splitOnP_cons_eq_if_modifyHead, hc, if_neg Bool.false_ne_true,
      ih fun d hd => h d (List.mem_cons_of_mem c hd), List.modifyHead_modifyHead]
    rfl

theorem forall_mem_splitOnP (s : List α) :
    ∀ w ∈ s.splitOnP p, ∀ c ∈ w, c ∈ s ∧ p c = false := by
  induction s with
  | nil => simp
  | cons a s ih =>
    rw [List.splitOnP_cons_eq_if_modifyHead]
    intro w hw c hc
    cases ha : p a with
    | true =>
      rw [ha, if_pos rfl] at hw
      rcases List.mem_cons.mp hw with rfl | hw
      · exact absurd hc List.not_mem_nil
      · obtain ⟨hmem, hpc⟩ := ih w hw c hc
        exact ⟨List.mem_cons_of_mem a hmem, hpc⟩
    | false =>
      rw [ha, if_neg Bool.false_ne_true] at hw
      cases hsplit : s.splitOnP p with
      | nil => exact absurd hsplit (List.splitOnP_ne_nil p s)
      | cons v vs =>
        rw [hsplit] at ih hw
        rcases List.mem_cons.mp hw with rfl | hw
        · rcases List.mem_cons.mp hc with rfl | hc
          · exact ⟨List.mem_cons_self, ha⟩
          · obtain ⟨hmem, hpc⟩ := ih v List.mem_cons_self c hc
            exact ⟨List.mem_cons_of_mem a hmem, hpc⟩
        · obtain ⟨hmem, hpc⟩ := ih w (List.mem_cons_of_mem v hw) c hc
          exact ⟨List.mem_cons_of_mem a hmem, hpc⟩

theorem ne_nil_of_mem_words (hw : w ∈ words p s) : w ≠ [] := by
  have h := (List.mem_filter.mp hw).2
  simpa using h

theorem of_mem_words (hw : w ∈ words p s) : ∀ c ∈ w, c ∈ s ∧ p c = false :=
  forall_mem_splitOnP s w (List.mem_filter.mp hw).1

/-- A code that keeps the separators splits like the text. -/
theorem words_flatMap {q : β → Bool} {enc : β → List α}
    (hsep : ∀ c, q c = true → ∃ d, enc c = [d] ∧ p d = true)
    (hcode : ∀ c, q c = false → enc c ≠ [] ∧ ∀ d ∈ enc c, p d = false) (s : List β) :
    words p (s.flatMap enc) = (words q s).map fun w => w.flatMap enc := by
  have hsplit : (s.flatMap enc).splitOnP p = (s.splitOnP q).map fun w => w.flatMap enc := by
    induction s with
    | nil => rfl
    | cons c s ih =>
      rw [List.flatMap_cons, List.splitOnP_cons_eq_if_modifyHead]
      cases hc : q c with
      | true =>
        obtain ⟨d, hd, hpd⟩ := hsep c hc
        rw [hd, List.singleton_append, List.splitOnP_cons_eq_if_modifyHead, hpd, if_pos rfl,
          if_pos rfl, ih]
        rfl
      | false =>
        rw [splitOnP_append (hcode c hc).2, ih, if_neg Bool.false_ne_true]
        cases s.splitOnP q with
        | nil => rfl
        | cons w ws => rfl
  unfold words
  rw [hsplit, List.filter_map]
  congr 1
  refine List.filter_congr fun w hw => ?_
  cases w with
  | nil => rfl
  | cons c w =>
    have hc := (forall_mem_splitOnP s _ hw c List.mem_cons_self).2
    simp [(hcode c hc).1]

theorem notMem_intercalate {sep : List α} {ls : List (List α)} {c : α} (hsep : c ∉ sep)
    (h : ∀ l ∈ ls, c ∉ l) : c ∉ sep.intercalate ls := by
  induction ls with
  | nil => exact List.not_mem_nil
  | cons l ls ih =>
    have hl := h l List.mem_cons_self
    have hls := ih fun l' hl' => h l' (List.mem_cons_of_mem l hl')
    cases ls with
    | nil => simpa [List.intercalate] using hl
    | cons l' ls =>
      rw [List.intercalate_cons_cons]
      simp only [List.mem_append, not_or]
      exact ⟨⟨hl, hsep⟩, hls⟩

end Words

/-! ## Lines -/

def stripCr (line : List Char) : List Char :=
  if line.getLast? = some '\r' then line.dropLast else line

/-- The lines of a text, each with its line feed, or a carriage return and a line feed, taken off.
The last line need not be ended. -/
def lines (s : List Char) : List (List Char) :=
  let parts := s.splitOn '\n'
  let rest := parts.getLastD []
  parts.dropLast.map stripCr ++ if rest.isEmpty then [] else [rest]

theorem splitOn_flatMap_line {ls : List (List Char)} (h : ∀ l ∈ ls, '\n' ∉ l) :
    (ls.flatMap fun l => l ++ ['\n']).splitOn '\n' = ls ++ [[]] := by
  induction ls with
  | nil => rfl
  | cons l ls ih =>
    rw [List.flatMap_cons, List.append_assoc, List.singleton_append,
      List.splitOn_append_cons_self, List.splitOn_eq_singleton (h l List.mem_cons_self),
      ih fun l' hl' => h l' (List.mem_cons_of_mem l hl')]
    rfl

theorem lines_flatMap {ls : List (List Char)} (h : ∀ l ∈ ls, '\n' ∉ l) :
    lines (ls.flatMap fun l => l ++ ['\n']) = ls.map stripCr := by
  unfold lines
  dsimp only
  rw [splitOn_flatMap_line h, List.dropLast_concat, List.getLastD_concat]
  exact List.append_nil _

end Manytrace.Core
