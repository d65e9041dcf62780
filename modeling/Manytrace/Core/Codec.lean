import Mathlib.Data.Countable.Defs
import Mathlib.Data.List.TakeDrop
import Mathlib.Data.Nat.Pairing
import Manytrace.Core.Machine

/-! Messages on a byte stream without frames. The sender writes a message at once, the
receiver reads once into a buffer. -/
namespace Manytrace.Core

/-- A serialization of messages, and the reader that wants all of it. -/
structure Codec (μ β : Type*) where
  serialize : μ → List β
  access : List β → Option μ
  access_serialize : ∀ m, access (serialize m) = some m
  access_nil : access [] = none
  complete : ∀ m bytes, bytes <+: serialize m → access bytes = some m → bytes = serialize m

namespace Codec
variable {μ β : Type*} (C : Codec μ β)

theorem serialize_ne_nil (m : μ) : C.serialize m ≠ [] := by
  intro h
  have hm := C.access_serialize m
  rw [h, C.access_nil] at hm
  cases hm

/-- The stream after a message has been written and read. The stream takes `room` bytes of a
message, the buffer has `n`. -/
def turn (room n : ℕ) (stream : List β) (m : μ) : List β × List β :=
  let written := stream ++ (C.serialize m).take room
  (written.drop n, written.take n)

/-- Turn after turn, with what the reader is given. -/
def turns (room n : ℕ) : Machine (List β) μ (List β) where
  step stream m := let r := C.turn room n stream m; (r.1, [r.2])

variable {C} {room n : ℕ}

theorem turn_read_iff (hroom : n ≤ room) (m : μ) :
    (C.turn room n [] m).2 = C.serialize m ↔ (C.serialize m).length ≤ n := by
  change ((C.serialize m).take room).take n = C.serialize m ↔ _
  rw [List.take_take, min_eq_left hroom, List.take_eq_self_iff]

theorem turn_of_length_le (hroom : n ≤ room) {m : μ} (h : (C.serialize m).length ≤ n) :
    C.turn room n [] m = ([], C.serialize m) := by
  refine Prod.ext ?_ ((turn_read_iff hroom m).mpr h)
  change ((C.serialize m).take room).drop n = []
  rw [List.drop_eq_nil_iff, List.length_take]
  omega

/-- A message that is cut is not taken for the message. -/
theorem access_turn_iff (hroom : n ≤ room) (m : μ) :
    C.access (C.turn room n [] m).2 = some m ↔ (C.serialize m).length ≤ n := by
  rw [← turn_read_iff hroom]
  constructor
  · have hwritten := List.take_prefix room (C.serialize m)
    have hread := List.take_prefix n ((C.serialize m).take room)
    exact C.complete m _ (hread.trans hwritten)
  · intro h
    rw [h]
    exact C.access_serialize m

/-- Every message is read whole exactly if every message fits into the buffer. -/
theorem turns_read_iff (hroom : n ≤ room) (ms : List μ) :
    (C.turns room n).outputs [] ms = ms.map C.serialize ↔
      ∀ m ∈ ms, (C.serialize m).length ≤ n := by
  induction ms with
  | nil => simp
  | cons m ms ih =>
    have hcons : (C.turns room n).outputs [] (m :: ms) =
        (C.turn room n [] m).2 :: (C.turns room n).outputs (C.turn room n [] m).1 ms := rfl
    rw [hcons, List.map_cons, List.cons.injEq, turn_read_iff hroom, List.forall_mem_cons]
    refine and_congr_right fun hm => ?_
    rw [turn_of_length_le hroom hm, ih]

/-- Messages can be told apart by the number of their bytes alone. -/
theorem exists_of_lengths (b : β) {len : μ → ℕ} (hinj : Function.Injective len)
    (hpos : ∀ m, 0 < len m) : ∃ C : Codec μ β, ∀ m, (C.serialize m).length = len m := by
  classical
  let serialize : μ → List β := fun m => List.replicate (len m) b
  have hlength : ∀ m, (serialize m).length = len m := fun m => List.length_replicate
  have hserialize : Function.Injective serialize := by
    intro m m' h
    apply hinj
    rw [← hlength m, ← hlength m', h]
  refine ⟨⟨serialize, fun bytes => if h : ∃ m, serialize m = bytes then some h.choose else none,
    ?_, ?_, ?_⟩, hlength⟩
  · intro m
    have hm : ∃ m', serialize m' = serialize m := ⟨m, rfl⟩
    rw [dif_pos hm, hserialize hm.choose_spec]
  · refine dif_neg ?_
    rintro ⟨m, hm⟩
    have hlt := hpos m
    rw [← hlength m, hm] at hlt
    exact absurd hlt (Nat.lt_irrefl 0)
  · intro m bytes _ hbytes
    split at hbytes
    · rename_i h
      cases hbytes
      exact h.choose_spec.symm
    · cases hbytes

/-- There is a codec for any countable type of messages, with any lower bound on the lengths,
and with any length of one message that the bound allows. -/
theorem exists_length_le [Countable μ] (b : β) (size : μ → ℕ) {m₀ : μ} {n : ℕ} (hn : 0 < n)
    (hsize : size m₀ ≤ n) :
    ∃ C : Codec μ β, (∀ m, size m ≤ (C.serialize m).length) ∧ (C.serialize m₀).length = n := by
  classical
  obtain ⟨f, hf⟩ := exists_injective_nat μ
  -- all other messages are longer than the chosen one
  let len : μ → ℕ := fun m => if m = m₀ then n else n + 1 + Nat.pair (f m) (size m)
  have hchosen : len m₀ = n := if_pos rfl
  have hother : ∀ m, m ≠ m₀ → len m = n + 1 + Nat.pair (f m) (size m) := fun m hm => if_neg hm
  have hpos : ∀ m, 0 < len m := by
    intro m
    by_cases hm : m = m₀
    · rw [hm, hchosen]
      exact hn
    · rw [hother m hm]
      omega
  have hinj : Function.Injective len := by
    intro m m' h
    by_cases hm : m = m₀ <;> by_cases hm' : m' = m₀
    · rw [hm, hm']
    · rw [hm, hchosen, hother m' hm'] at h
      omega
    · rw [hm', hchosen, hother m hm] at h
      omega
    · rw [hother m hm, hother m' hm', Nat.add_left_cancel_iff, Nat.pair_eq_pair] at h
      exact hf h.1
  obtain ⟨C, hC⟩ := exists_of_lengths b hinj hpos
  refine ⟨C, fun m => ?_, (hC m₀).trans hchosen⟩
  rw [hC]
  by_cases hm : m = m₀
  · rw [hm, hchosen]
    exact hsize
  · rw [hother m hm]
    have hle := Nat.right_le_pair (f m) (size m)
    omega

end Codec
end Manytrace.Core
