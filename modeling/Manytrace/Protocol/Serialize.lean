import Manytrace.Core.Writing
import Manytrace.Mpscbuf.Common

/-! The two passes over an event: `compute_length` counts what `serialize_to_buf` writes. The
serializer is any deterministic program over the positions of its writer. -/
namespace Manytrace.Protocol
open Manytrace.Core Manytrace.Mpscbuf

/-- What the serializer of one value does. -/
abbrev Serializer := WriteProgram UInt8

structure CountingWriter where
  writeCount : ℕ
  totalBytes : ℕ
deriving DecidableEq, Repr

namespace CountingWriter

def new : CountingWriter := ⟨0, 0⟩

/-- Both counters are words of the machine. -/
def write (o : OverflowMode) (w : CountingWriter) (bytes : List UInt8) : Option CountingWriter := do
  let writeCount ← o.add w.writeCount 1
  let totalBytes ← o.add w.totalBytes bytes.length
  return ⟨writeCount, totalBytes⟩

def writer (o : OverflowMode) : Core.Writer UInt8 CountingWriter := ⟨totalBytes, write o⟩

end CountingWriter

structure SliceWriter where
  buf : List UInt8
  pos : ℕ
deriving DecidableEq, Repr

namespace SliceWriter

def new (buf : List UInt8) : SliceWriter := ⟨buf, 0⟩

/-- The sum does not overflow: both slices are shorter than `2 ^ 63`. -/
def write (w : SliceWriter) (bytes : List UInt8) : Option SliceWriter :=
  if w.buf.length < w.pos + bytes.length then none
  else some {
    buf := w.buf.take w.pos ++ bytes ++ w.buf.drop (w.pos + bytes.length)
    pos := w.pos + bytes.length }

def writer : Core.Writer UInt8 SliceWriter := ⟨pos, write⟩

end SliceWriter

/-- Whether the serializer succeeds, and the buffer afterwards. -/
def serializeToBuf (v : Serializer) (buf : List UInt8) : Bool × List UInt8 :=
  let r := v.drive SliceWriter.writer (.new buf)
  (r.1, r.2.buf)

def computeLength (o : OverflowMode) (v : Serializer) : Option ℕ :=
  let r := v.drive (CountingWriter.writer o) .new
  if r.1 then some r.2.totalBytes else none

/-- Everything the serializer writes if nothing stops it. -/
def serialization (v : Serializer) : List UInt8 := (v.run 0).2.flatten

/-- The counters of the first pass do not overflow. -/
structure CountsFit (v : Serializer) : Prop where
  writes : (v.run 0).2.length < 2 ^ 64
  bytes : (serialization v).length < 2 ^ 64

section Writers
variable {cs : List (List UInt8)}

theorem CountingWriter.takes (o : OverflowMode) (count total : ℕ)
    (hwrites : count + cs.length < 2 ^ 64) (hbytes : total + cs.flatten.length < 2 ^ 64) :
    (writer o).Takes ⟨count, total⟩ cs ⟨count + cs.length, total + cs.flatten.length⟩ := by
  induction cs generalizing count total with
  | nil => exact .nil _
  | cons bs cs ih =>
    simp only [List.length_cons, List.flatten_cons, List.length_append] at hwrites hbytes ⊢
    have hwrite : (writer o).write ⟨count, total⟩ bs = some ⟨count + 1, total + bs.length⟩ := by
      simp only [writer, CountingWriter.write,
        o.add_of_lt (show count + 1 < 2 ^ 64 by omega),
        o.add_of_lt (show total + bs.length < 2 ^ 64 by omega)]
      rfl
    have hrest := ih (count + 1) (total + bs.length) (by omega) (by omega)
    rw [Nat.add_assoc, Nat.add_assoc, Nat.add_comm 1] at hrest
    exact .cons hwrite rfl hrest

theorem CountingWriter.tracked : (writer .checked).Tracked := by
  intro w bs w' h
  obtain ⟨c, -, h⟩ := Option.bind_eq_some_iff.mp h
  obtain ⟨t, ht, h⟩ := Option.bind_eq_some_iff.mp h
  cases h
  exact OverflowMode.checked_add_eq_some ht

theorem SliceWriter.length_write {w w' : SliceWriter} {bs : List UInt8}
    (h : writer.write w bs = some w') :
    w'.buf.length = w.buf.length ∧ w'.pos = w.pos + bs.length ∧ w'.pos ≤ w'.buf.length := by
  change (if _ then _ else _) = _ at h
  split_ifs at h with hfull
  cases h
  simp only [List.length_append, List.length_take, List.length_drop, true_and]
  omega

/-- The writer at the end of `front`, with `back` still to be overwritten. -/
theorem SliceWriter.takes (front back : List UInt8) (h : cs.flatten.length ≤ back.length) :
    writer.Takes ⟨front ++ back, front.length⟩ cs
      ⟨front ++ cs.flatten ++ back.drop cs.flatten.length, (front ++ cs.flatten).length⟩ := by
  induction cs generalizing front back with
  | nil => simpa using Core.Writer.Takes.nil (w := writer) _
  | cons bs cs ih =>
    simp only [List.flatten_cons, List.length_append] at h
    have hwrite : writer.write ⟨front ++ back, front.length⟩ bs =
        some ⟨(front ++ bs) ++ back.drop bs.length, (front ++ bs).length⟩ := by
      change (if _ then _ else _) = _
      rw [if_neg (by simp only [List.length_append]; omega)]
      simp
    have hrest := ih (front ++ bs) (back.drop bs.length)
      (by rw [List.length_drop]; omega)
    rw [List.drop_drop, List.append_assoc front bs cs.flatten] at hrest
    rw [List.flatten_cons, List.length_append]
    exact .cons hwrite (List.length_append ..) hrest

theorem SliceWriter.refuses {w : SliceWriter} (hpos : w.pos ≤ w.buf.length)
    (h : w.buf.length < w.pos + cs.flatten.length) : writer.Refuses w cs := by
  induction cs generalizing w with
  | nil =>
    simp only [List.flatten_nil, List.length_nil] at h
    omega
  | cons bs cs ih =>
    simp only [List.flatten_cons, List.length_append] at h
    cases hwrite : writer.write w bs with
    | none => exact .here hwrite
    | some w' =>
      obtain ⟨hlen, hpos', hle⟩ := length_write hwrite
      exact .later hwrite hpos' (ih hle (by omega))

end Writers

/-! ## Agreement -/

section Agreement
variable {o : OverflowMode} {v : Serializer} {n : ℕ} {buf : List UInt8}

theorem computeLength_of_countsFit (h : CountsFit v) :
    computeLength o v = if (v.run 0).1 then some (serialization v).length else none := by
  have htakes := CountingWriter.takes o 0 0
    (by simpa using h.writes) (by simpa [serialization] using h.bytes)
  have hdrive := Core.Writer.Takes.drive (w := CountingWriter.writer o) (s := .new) htakes
  simp only [computeLength, hdrive, serialization, Nat.zero_add]
  rfl

theorem serializeToBuf_of_le (h : (serialization v).length ≤ buf.length) :
    serializeToBuf v buf =
      ((v.run 0).1, serialization v ++ buf.drop (serialization v).length) := by
  have hfits : (v.run 0).2.flatten.length ≤ buf.length := h
  have htakes := SliceWriter.takes [] buf hfits
  have hdrive := Core.Writer.Takes.drive (w := SliceWriter.writer) (s := .new buf) htakes
  rw [serializeToBuf, hdrive]
  rfl

theorem serializeToBuf_of_lt (h : buf.length < (serialization v).length) :
    (serializeToBuf v buf).1 = false := by
  have hrefuses : SliceWriter.writer.Refuses (.new buf) (v.run 0).2 :=
    SliceWriter.refuses (Nat.zero_le _) (by simpa [SliceWriter.new, serialization] using h)
  exact Core.Writer.Refuses.drive hrefuses

/-- The second pass writes the same `n` bytes into every buffer that has room for them, and
fails in every other one. -/
def WritesExactly (v : Serializer) (n : ℕ) : Prop :=
  ∃ bytes : List UInt8, bytes.length = n ∧
    (∀ buf : List UInt8, n ≤ buf.length → serializeToBuf v buf = (true, bytes ++ buf.drop n)) ∧
    ∀ buf : List UInt8, buf.length < n → (serializeToBuf v buf).1 = false

theorem writesExactly_iff :
    WritesExactly v n ↔ (v.run 0).1 = true ∧ (serialization v).length = n := by
  constructor
  · rintro ⟨bytes, rfl, hfits, hshort⟩
    have hself := congrArg Prod.fst (hfits bytes (Nat.le_refl _))
    have hle : (serialization v).length ≤ bytes.length := by
      by_contra hlt
      rw [serializeToBuf_of_lt (by omega)] at hself
      cases hself
    have hrun : (v.run 0).1 = true := by
      rw [serializeToBuf_of_le hle] at hself
      exact hself
    refine ⟨hrun, Nat.le_antisymm hle ?_⟩
    by_contra hlt
    have hfail := hshort (serialization v) (by omega)
    rw [serializeToBuf_of_le (Nat.le_refl _), hrun] at hfail
    cases hfail
  · rintro ⟨hrun, rfl⟩
    refine ⟨serialization v, rfl, ?_, ?_⟩
    · intro buf hbuf
      rw [serializeToBuf_of_le hbuf, hrun]
    · intro buf hbuf
      exact serializeToBuf_of_lt hbuf

/-- The two passes agree. -/
theorem computeLength_eq_some_iff (h : CountsFit v) :
    computeLength o v = some n ↔ WritesExactly v n := by
  rw [computeLength_of_countsFit h, writesExactly_iff]
  cases (v.run 0).1 <;> simp

/-- The debug build counts right whenever it counts to the end. -/
theorem computeLength_checked (h : computeLength .checked v = some n) :
    (v.run 0).1 = true ∧ (serialization v).length = n := by
  rcases CountingWriter.tracked.takes_or_refuses .new (v.run 0).2 with ⟨w, htakes⟩ | hrefuses
  · have hdrive := Core.Writer.Takes.drive (w := CountingWriter.writer .checked) (s := .new) htakes
    have hpos : w.totalBytes = 0 + (serialization v).length := htakes.pos_eq
    have hrun : (v.drive (CountingWriter.writer .checked) .new).1 = (v.run 0).1 :=
      congrArg Prod.fst hdrive
    simp only [computeLength, hrun] at h
    split_ifs at h with hok
    rw [hdrive] at h
    refine ⟨hok, ?_⟩
    rw [← Option.some.inj h, hpos, Nat.zero_add]
  · have hfalse :=
      Core.Writer.Refuses.drive (w := CountingWriter.writer .checked) (s := .new) hrefuses
    simp [computeLength, hfalse] at h

end Agreement

end Manytrace.Protocol
