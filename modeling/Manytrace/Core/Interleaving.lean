import Mathlib.Data.List.Infix
import Mathlib.Data.List.Nodup
import Mathlib.Data.List.Zip

/-! Lists that several owners fill by tickets: an owner draws a ticket, settles it with a value,
and only then draws the next one. Whoever takes the values in the order of the tickets gets an
interleaving of what the owners have settled, each of them in order. -/
namespace Manytrace.Core

variable {ι κ α : Type*} [DecidableEq ι]

/-- The entries of one owner. -/
def entriesOf (p : ι) (es : List (ι × α)) : List α :=
  es.filterMap fun e => if e.1 = p then some e.2 else none

theorem entriesOf_append (p : ι) (es es' : List (ι × α)) :
    entriesOf p (es ++ es') = entriesOf p es ++ entriesOf p es' :=
  List.filterMap_append

@[simp] theorem entriesOf_singleton_self (p : ι) (x : α) : entriesOf p [(p, x)] = [x] := by
  simp [entriesOf]

theorem entriesOf_singleton_ne {p q : ι} (h : q ≠ p) (x : α) : entriesOf p [(q, x)] = [] := by
  simp [entriesOf, h]

theorem mem_entriesOf {p : ι} {es : List (ι × α)} {x : α} :
    x ∈ entriesOf p es ↔ (p, x) ∈ es := by
  simp only [entriesOf, List.mem_filterMap, Option.ite_none_right_eq_some, Option.some.injEq]
  constructor
  · rintro ⟨⟨q, y⟩, he, rfl, rfl⟩
    exact he
  · exact fun h => ⟨(p, x), h, rfl, rfl⟩

theorem entriesOf_map {β : Type*} (p : ι) (f : α → β) (es : List (ι × α)) :
    entriesOf p (es.map fun e => (e.1, f e.2)) = (entriesOf p es).map f := by
  unfold entriesOf
  rw [List.filterMap_map, List.map_filterMap]
  refine List.filterMap_congr fun e _ => ?_
  by_cases he : e.1 = p <;> simp [he]

/-- What only the entries of `p` have an image under `f` for. -/
theorem filterMap_entriesOf {β : Type*} (p : ι) (f : α → Option β) (es : List (ι × α))
    (h : ∀ e ∈ es, e.1 ≠ p → f e.2 = none) :
    (es.map Prod.snd).filterMap f = (entriesOf p es).filterMap f := by
  unfold entriesOf
  rw [List.filterMap_map, List.filterMap_filterMap]
  refine List.filterMap_congr fun e he => ?_
  by_cases hp : e.1 = p
  · simp [hp]
  · simp [hp, h e he hp]

theorem entriesOf_sublist (p : ι) (es : List (ι × α)) :
    (entriesOf p es).Sublist (es.map Prod.snd) := by
  induction es with
  | nil => exact .slnil
  | cons e es ih =>
    by_cases he : e.1 = p
    · simpa [entriesOf, he] using ih
    · simpa [entriesOf, he] using ih.cons e.2

/-- `ds` is put together from first parts of the lists of the owners. -/
def Interleaves (f : ι → List α) (ds : List α) : Prop :=
  ∃ tagged : List (ι × α), tagged.map Prod.snd = ds ∧ ∀ p, entriesOf p tagged <+: f p

/-- `ds` is put together from the lists of the owners, and nothing of them is missing. -/
def InterleavesAll (f : ι → List α) (ds : List α) : Prop :=
  ∃ tagged : List (ι × α), tagged.map Prod.snd = ds ∧ ∀ p, entriesOf p tagged = f p

omit [DecidableEq ι] in
/-- If the keys of `l` are the first of the keys of `s` and `rest`, and all of `l` is in `s`,
then `l` is a first part of `s`. -/
theorem prefix_of_keys {l s : List (κ × α)} {rest : List κ}
    (hkeys : l.map Prod.fst <+: s.map Prod.fst ++ rest) (hmem : ∀ e ∈ l, e ∈ s)
    (hnodup : (s.map Prod.fst ++ rest).Nodup) : l <+: s := by
  induction l generalizing s with
  | nil => exact List.nil_prefix
  | cons x l ih =>
    cases s with
    | nil => simpa using hmem x (by simp)
    | cons y s =>
      simp only [List.map_cons, List.cons_append, List.cons_prefix_cons] at hkeys hnodup
      obtain ⟨hkey, hrest⟩ := hkeys
      obtain ⟨hfresh, hnodup'⟩ := List.nodup_cons.mp hnodup
      have hnot : ∀ e ∈ s, e.1 ≠ y.1 := fun e he heq =>
        hfresh (List.mem_append_left _ (heq ▸ List.mem_map_of_mem he))
      have hxy : x = y := by
        rcases List.mem_cons.mp (hmem x (by simp)) with h | h
        · exact h
        · exact absurd hkey (hnot x h)
      subst hxy
      refine List.cons_prefix_cons.mpr ⟨rfl, ih hrest (fun e he => ?_) hnodup'⟩
      rcases List.mem_cons.mp (hmem e (by simp [he])) with h | h
      · have hin := hrest.subset (List.mem_map_of_mem he)
        exact absurd (h ▸ hin) hfresh
      · exact h

/-- The tickets that were drawn, those that are settled, and those of each owner that are not. -/
structure Ticketed (tickets : List (ι × κ)) (settled : List (ι × κ × α)) (pending : ι → List κ) :
    Prop where
  nodup : (tickets.map Prod.snd).Nodup
  own : ∀ p, entriesOf p tickets = (entriesOf p settled).map Prod.fst ++ pending p

section Taken
variable {tickets : List (ι × κ)} {settled : List (ι × κ × α)} {pending : ι → List κ}
  {ds : List α}

/-- The values were settled for the tickets at the same places. -/
def Settles (tickets : List (ι × κ)) (settled : List (ι × κ × α)) (ds : List α) : Prop :=
  ∀ (i : ℕ) d, ds[i]? = some d → ∃ p k, (tickets.map Prod.snd)[i]? = some k ∧ (p, k, d) ∈ settled

/-- The values with their tickets. -/
def claimed (tickets : List (ι × κ)) (ds : List α) : List (ι × κ × α) :=
  List.zipWith (fun t d => (t.1, t.2, d)) tickets ds

omit [DecidableEq ι] in
theorem claimed_tickets (tickets : List (ι × κ)) (ds : List α) :
    ((claimed tickets ds).map fun e => (e.1, e.2.1)) = tickets.take ds.length := by
  induction tickets generalizing ds with
  | nil => simp [claimed]
  | cons t tickets ih =>
    cases ds with
    | nil => rfl
    | cons d ds => simpa [claimed] using ih ds

omit [DecidableEq ι] in
theorem claimed_values (h : ds.length ≤ tickets.length) :
    ((claimed tickets ds).map fun e => (e.1, e.2.2)).map Prod.snd = ds := by
  induction tickets generalizing ds with
  | nil => simpa [claimed] using (List.length_eq_zero_iff.mp (Nat.le_zero.mp h)).symm
  | cons t tickets ih =>
    cases ds with
    | nil => rfl
    | cons d ds => simpa [claimed] using ih (Nat.le_of_succ_le_succ h)

omit [DecidableEq ι] in
theorem Settles.length_le (h : Settles tickets settled ds) : ds.length ≤ tickets.length := by
  by_contra hlt
  have hlast : ds[tickets.length]? = some (ds[tickets.length]) := List.getElem?_eq_getElem _
  obtain ⟨p, k, hk, -⟩ := h tickets.length _ hlast
  simp at hk

theorem Ticketed.mem_settled (h : Ticketed tickets settled pending)
    (hds : Settles tickets settled ds) {e : ι × κ × α} (he : e ∈ claimed tickets ds) :
    e ∈ settled := by
  obtain ⟨i, hi, rfl⟩ := List.mem_iff_getElem.mp he
  have hlt := hi
  rw [claimed, List.length_zipWith] at hlt
  obtain ⟨ht, hd⟩ := Nat.lt_min.mp hlt
  obtain ⟨p, k, hk, hmem⟩ := hds i _ (List.getElem?_eq_getElem hd)
  have hkey : tickets[i].2 = k := by simpa [ht] using hk
  -- The ticket was drawn by whoever has settled it.
  have hdrawn : (p, k) ∈ tickets := by
    rw [← mem_entriesOf, h.own p]
    exact List.mem_append_left _ (List.mem_map_of_mem (mem_entriesOf.mpr hmem))
  have howner : tickets[i] = (p, k) :=
    List.inj_on_of_nodup_map h.nodup (List.getElem_mem ht) hdrawn hkey
  simpa [claimed, howner] using hmem

theorem Ticketed.entriesOf_claimed (h : Ticketed tickets settled pending)
    (hds : Settles tickets settled ds) (p : ι) :
    entriesOf p (claimed tickets ds) <+: entriesOf p settled := by
  have hkeys : (entriesOf p (claimed tickets ds)).map Prod.fst <+: entriesOf p tickets := by
    rw [← entriesOf_map, claimed_tickets]
    exact (List.take_prefix _ _).filterMap _
  have hnodup : (entriesOf p tickets).Nodup := (entriesOf_sublist p tickets).nodup h.nodup
  rw [h.own p] at hkeys hnodup
  refine prefix_of_keys hkeys (fun e he => ?_) hnodup
  exact mem_entriesOf.mpr (h.mem_settled hds (mem_entriesOf.mp he))

/-- Values taken in the order of the tickets interleave what the owners have settled. -/
theorem Ticketed.interleaves (h : Ticketed tickets settled pending)
    (hds : Settles tickets settled ds) :
    Interleaves (fun p => (entriesOf p settled).map Prod.snd) ds := by
  refine ⟨_, claimed_values hds.length_le, fun p => ?_⟩
  rw [entriesOf_map]
  exact (h.entriesOf_claimed hds p).map _

/-- If there are as many values as tickets and none is pending, then nothing is missing. -/
theorem Ticketed.interleavesAll (h : Ticketed tickets settled pending)
    (hds : Settles tickets settled ds) (hlength : ds.length = tickets.length)
    (hpending : ∀ p, pending p = []) :
    InterleavesAll (fun p => (entriesOf p settled).map Prod.snd) ds := by
  refine ⟨_, claimed_values hds.length_le, fun p => ?_⟩
  rw [entriesOf_map]
  congr 1
  refine (h.entriesOf_claimed hds p).eq_of_length ?_
  have hkeys : (entriesOf p (claimed tickets ds)).map Prod.fst = entriesOf p tickets := by
    rw [← entriesOf_map, claimed_tickets, hlength, List.take_length]
  rw [h.own p, hpending p, List.append_nil] at hkeys
  simpa using congrArg List.length hkeys

end Taken

end Manytrace.Core
