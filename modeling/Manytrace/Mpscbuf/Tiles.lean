import Manytrace.Core.Tiling
import Manytrace.Mpscbuf.RingBuf

/-! The reservations in order leave no gap between the first and the last position, so
any two of them that fit into one lap of the ring use different cells. -/
namespace Manytrace.Mpscbuf
open Manytrace.Core Manytrace.Core.MirroredMemory

variable {ι : Type*}

theorem Reservation.header_le_total (r : Reservation ι) : headerSize + r.size ≤ r.total :=
  (totalLen_bounds r.size).1

theorem Reservation.total_pos (r : Reservation ι) : 0 < r.total := by
  have := r.header_le_total
  unfold headerSize at this
  omega

/-- The reservations lie one after the other from `a` to `b`. -/
def Tiles : ℕ → List (Reservation ι) → ℕ → Prop
  | a, [], b => a = b
  | a, r :: rs, b => r.position = a ∧ Tiles (a + r.total) rs b

theorem tiles_iff {a b : ℕ} {rs : List (Reservation ι)} :
    Tiles a rs b ↔
      Tiling (fun r => r.position) (fun r => r.position + r.total) a rs b := by
  induction rs generalizing a with
  | nil => rfl
  | cons r rs ih =>
    simp only [Tiles, Tiling]
    exact and_congr_right fun hr => by rw [ih, hr]

theorem tiles_append {a c : ℕ} {rs ts : List (Reservation ι)} :
    Tiles a (rs ++ ts) c ↔ ∃ b, Tiles a rs b ∧ Tiles b ts c := by
  simp only [tiles_iff, Tiling.append_iff]

theorem tiles_concat {a c : ℕ} {rs : List (Reservation ι)} {r : Reservation ι} :
    Tiles a (rs ++ [r]) c ↔ Tiles a rs r.position ∧ r.position + r.total = c := by
  rw [tiles_iff, tiles_iff, Tiling.concat_iff]

theorem Tiles.le {a b : ℕ} {rs : List (Reservation ι)} (h : Tiles a rs b) : a ≤ b :=
  (tiles_iff.mp h).le fun _ _ => Nat.le_add_right _ _

theorem Tiles.mem {a b : ℕ} {rs : List (Reservation ι)} (h : Tiles a rs b)
    {r : Reservation ι} (hr : r ∈ rs) : a ≤ r.position ∧ r.position + r.total ≤ b :=
  (tiles_iff.mp h).mem (fun _ _ => Nat.le_add_right _ _) hr

theorem Tiles.pairwise {a b : ℕ} {rs : List (Reservation ι)} (h : Tiles a rs b) :
    rs.Pairwise fun r t => r.position + r.total ≤ t.position :=
  (tiles_iff.mp h).pairwise fun _ _ => Nat.le_add_right _ _

theorem Tiles.separated {a b : ℕ} {rs : List (Reservation ι)} (h : Tiles a rs b)
    {r t : Reservation ι} (hr : r ∈ rs) (ht : t ∈ rs) :
    r = t ∨ r.position + r.total ≤ t.position ∨ t.position + t.total ≤ r.position :=
  (tiles_iff.mp h).separated (fun _ _ => Nat.le_add_right _ _) hr ht

theorem Tiles.eq_of_position {a b : ℕ} {rs : List (Reservation ι)} (h : Tiles a rs b)
    {r t : Reservation ι} (hr : r ∈ rs) (ht : t ∈ rs) (he : r.position = t.position) : r = t := by
  have hrp := r.total_pos
  have htp := t.total_pos
  rcases h.separated hr ht with h | h | h
  · exact h
  all_goals omega

theorem Tiles.eight_dvd {a b : ℕ} {rs : List (Reservation ι)} (h : Tiles a rs b)
    (ha : 8 ∣ a) : 8 ∣ b ∧ ∀ r ∈ rs, 8 ∣ r.position := by
  induction rs generalizing a with
  | nil => exact ⟨h ▸ ha, by simp⟩
  | cons r rs ih =>
    obtain ⟨hr, hrs⟩ := h
    obtain ⟨hb, hall⟩ := ih hrs (Nat.dvd_add ha (totalLen_bounds r.size).2.2)
    exact ⟨hb, fun t ht => (List.mem_cons.mp ht).elim (fun e => e ▸ hr ▸ ha) (hall t)⟩

/-- Two reservations of one lap share no cell. -/
theorem Tiles.apart {D a b : ℕ} {rs : List (Reservation ι)} (h : Tiles a rs b)
    (hlap : b ≤ a + D) {r t : Reservation ι} (hr : r ∈ rs) (ht : t ∈ rs) (hne : r ≠ t) :
    Apart D r.position r.total t.position t.total := by
  obtain ⟨hr₁, hr₂⟩ := h.mem hr
  obtain ⟨ht₁, ht₂⟩ := h.mem ht
  rcases h.separated hr ht with he | hle | hle
  · exact absurd he hne
  · exact apart_of_le hle (by omega)
  · exact (apart_of_le hle (by omega)).symm

/-- The next range after the reservations of a lap shares no cell with them either. -/
theorem Tiles.apart_next {D a b n : ℕ} {rs : List (Reservation ι)} (h : Tiles a rs b)
    (hlap : b + n ≤ a + D) {r : Reservation ι} (hr : r ∈ rs) :
    Apart D r.position r.total b n := by
  obtain ⟨hr₁, hr₂⟩ := h.mem hr
  exact apart_of_le hr₂ (by omega)

namespace Reservation

theorem tiles_setStatus {a b pos : ℕ} {st : Status ι} {rs : List (Reservation ι)} :
    Tiles a (setStatus pos st rs) b ↔ Tiles a rs b := by
  induction rs generalizing a with
  | nil => rfl
  | cons r rs ih =>
    have hp : (if r.position = pos then { r with status := st } else r).position =
        r.position := by split_ifs <;> rfl
    have ht : (if r.position = pos then { r with status := st } else r).total = r.total := by
      split_ifs <;> rfl
    simp only [setStatus, List.map_cons, Tiles, hp, ht] at ih ⊢
    rw [ih]

theorem mem_setStatus {pos : ℕ} {st : Status ι} {rs : List (Reservation ι)}
    {r : Reservation ι} (hr : r ∈ setStatus pos st rs) :
    (r.position ≠ pos ∧ r ∈ rs) ∨ ∃ t ∈ rs, t.position = pos ∧ r = { t with status := st } := by
  obtain ⟨t, ht, rfl⟩ := List.mem_map.mp hr
  by_cases hp : t.position = pos
  · exact Or.inr ⟨t, ht, hp, if_pos hp⟩
  · exact Or.inl (by simpa [if_neg hp] using ⟨hp, ht⟩)

theorem mem_setStatus_of_ne {pos : ℕ} {st : Status ι} {rs : List (Reservation ι)}
    {r : Reservation ι} (hr : r ∈ rs) (hp : r.position ≠ pos) : r ∈ setStatus pos st rs :=
  List.mem_map.mpr ⟨r, hr, if_neg hp⟩

theorem setStatus_cons_of_ne {pos : ℕ} {st : Status ι} {rs : List (Reservation ι)}
    {r : Reservation ι} (hp : r.position ≠ pos) :
    setStatus pos st (r :: rs) = r :: setStatus pos st rs := by
  simp [setStatus, hp]

end Reservation
end Manytrace.Mpscbuf
