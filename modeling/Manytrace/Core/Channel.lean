import Mathlib.Data.Nat.Notation
import Mathlib.Data.List.Basic

/-! Two queues between one caller and one server. The requests are numbered here, and each
reply carries the numbers of the requests it was made for; neither is seen by the two sides. -/
namespace Manytrace.Core

structure Channel (Q R : Type*) where
  requests : List (ℕ × Q)
  replies : List (List ℕ × R)
deriving DecidableEq

namespace Channel
variable {Q R : Type*}

def empty : Channel Q R := ⟨[], []⟩

def post (ch : Channel Q R) (number : ℕ) (q : Q) : Channel Q R :=
  { ch with requests := ch.requests ++ [(number, q)] }

/-- The server takes the oldest `n` requests and gives `answers` for them. -/
def serve (ch : Channel Q R) (n : ℕ) (answers : List R) : Channel Q R where
  requests := ch.requests.drop n
  replies := ch.replies ++ answers.map fun r => ((ch.requests.take n).map Prod.fst, r)

/-- The caller takes the oldest `n` replies. -/
def take (ch : Channel Q R) (n : ℕ) : Channel Q R := { ch with replies := ch.replies.drop n }

/-- The server leaves. -/
def hangUp (ch : Channel Q R) : Channel Q R := { ch with requests := [] }

/-- Nothing is under way but the request `number` or one reply to it. -/
structure Holds (number : ℕ) (ch : Channel Q R) : Prop where
  requests : ∀ q ∈ ch.requests, q.1 = number
  replies : ∀ r ∈ ch.replies, r.1 = [number]
  one : ch.requests.length + ch.replies.length ≤ 1

variable {ch : Channel Q R} {number n : ℕ}

theorem holds_empty : Holds number (empty : Channel Q R) := by
  constructor <;> simp [empty]

theorem holds_post (q : Q) : Holds number ((empty : Channel Q R).post number q) := by
  constructor <;> simp [empty, post]

@[simp] theorem serve_nil (ch : Channel Q R) : ch.serve 0 [] = ch := by
  simp [serve]

theorem Holds.hangUp (h : ch.Holds number) : ch.hangUp.Holds number := by
  refine ⟨by simp [Channel.hangUp], h.replies, ?_⟩
  have hone := h.one
  simp only [Channel.hangUp, List.length_nil]
  omega

/-- A request is answered at most once. -/
theorem Holds.serve (h : ch.Holds number) (hn : 0 < n) (hne : ch.requests ≠ [])
    {answers : List R} (hlen : answers.length ≤ 1) : (ch.serve n answers).Holds number := by
  obtain ⟨requests, replies⟩ := ch
  have hpos : 0 < requests.length := List.length_pos_iff.mpr hne
  have hone : requests.length + replies.length ≤ 1 := h.one
  obtain ⟨q, rfl⟩ := List.length_eq_one_iff.mp (show requests.length = 1 by omega)
  obtain rfl := List.eq_nil_of_length_eq_zero (show replies.length = 0 by omega)
  have hq : q.1 = number := h.requests q (by simp)
  obtain ⟨m, rfl⟩ := Nat.exists_eq_add_one.mpr hn
  refine ⟨by simp [Channel.serve], ?_, by simpa [Channel.serve] using hlen⟩
  intro r hr
  simp only [Channel.serve, List.nil_append, List.mem_map] at hr
  obtain ⟨a, -, rfl⟩ := hr
  simp [hq]

/-- Once a reply has been taken, nothing is under way. -/
theorem Holds.take_eq_empty (h : ch.Holds number) (hn : 0 < n)
    (hdone : ch.replies ≠ [] ∨ ch.requests = []) : ch.take n = empty := by
  obtain ⟨requests, replies⟩ := ch
  have hone : requests.length + replies.length ≤ 1 := h.one
  have hrequests : requests = [] := by
    rcases hdone with hreplies | hrequests
    · have hpos : 0 < replies.length := List.length_pos_iff.mpr hreplies
      exact List.eq_nil_of_length_eq_zero (by omega)
    · exact hrequests
  subst hrequests
  simp only [take, empty, List.drop_eq_nil_iff.mpr (show replies.length ≤ n by omega)]

end Channel
end Manytrace.Core
