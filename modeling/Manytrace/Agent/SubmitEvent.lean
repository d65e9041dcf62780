import Manytrace.Agent.SubmitSteps
import Manytrace.Agent.SubmitRing
import Manytrace.Protocol.Serialize

/-! Submission of events by their serializers: `Producer::submit` with the two passes in it, for
any number of threads. -/
namespace Manytrace.Agent
open Manytrace.Core Manytrace.Mpscbuf Manytrace.Protocol

/-- The stores of a copy to `pos`. -/
def copyStores (pos : ℕ) (bytes : List UInt8) : List (ℕ × UInt8) :=
  (List.range' pos bytes.length).zip bytes

def applyStore (buf : List UInt8) (st : ℕ × UInt8) : List UInt8 := buf.set st.1 st.2

/-- A `SliceWriter` over a buffer of `size` bytes that is seen through its stores. -/
def storeWriter (size : ℕ) : Core.Writer UInt8 (ℕ × List (ℕ × UInt8)) where
  pos w := w.1
  write w bytes :=
    if size < w.1 + bytes.length then none
    else some (w.1 + bytes.length, w.2 ++ copyStores w.1 bytes)

/-- The submission of an event: the buffer has the length that the first pass computes. -/
def Submission.ofEvent (v : Serializer) : Submission :=
  let length := computeLength .checked v
  let r := v.drive (storeWriter (length.getD 0)) (0, [])
  { length := length, stores := r.2.2, serialized := r.1 }

section Stores
variable {v : Serializer} {n : ℕ}

theorem foldl_copyStores (front bytes back : List UInt8) (h : bytes.length ≤ back.length) :
    (copyStores front.length bytes).foldl applyStore (front ++ back) =
      front ++ bytes ++ back.drop bytes.length := by
  induction bytes generalizing front back with
  | nil => simp [copyStores]
  | cons b bytes ih =>
    cases back with
    | nil => simp at h
    | cons c back =>
      have hrest := ih (front ++ [b]) back (by simpa using h)
      simp only [copyStores, List.length_cons, List.range'_succ, List.zip_cons_cons,
        List.foldl_cons, applyStore, List.set_append_right _ _ (Nat.le_refl _), Nat.sub_self,
        List.set_cons_zero, List.drop_succ_cons]
      simpa [copyStores] using hrest

theorem mem_copyStores {pos : ℕ} {bytes : List UInt8} {st : ℕ × UInt8}
    (h : st ∈ copyStores pos bytes) : st.1 < pos + bytes.length := by
  have hmem := (List.of_mem_zip h).1
  rw [List.mem_range'_1] at hmem
  exact hmem.2

/-- The stores so far have made the buffer what it is. -/
structure Seen (buf : List UInt8) (t : ℕ × List (ℕ × UInt8)) (w : SliceWriter) : Prop where
  pos : t.1 = w.pos
  le : w.pos ≤ w.buf.length
  length : w.buf.length = buf.length
  stores : t.2.foldl applyStore buf = w.buf
  inside : ∀ st ∈ t.2, st.1 < buf.length

theorem Seen.write {buf : List UInt8} {t : ℕ × List (ℕ × UInt8)} {w : SliceWriter}
    (h : Seen buf t w) (bytes : List UInt8) :
    ((storeWriter buf.length).write t bytes = none ∧ SliceWriter.writer.write w bytes = none) ∨
      ∃ t' w', (storeWriter buf.length).write t bytes = some t' ∧
        SliceWriter.writer.write w bytes = some w' ∧ Seen buf t' w' := by
  by_cases hfull : w.buf.length < w.pos + bytes.length
  · exact Or.inl ⟨if_pos (by rw [h.pos, ← h.length]; exact hfull), if_pos hfull⟩
  · refine Or.inr ⟨_, _, if_neg (by rw [h.pos, ← h.length]; exact hfull), if_neg hfull, ?_⟩
    have hlen : (w.buf.take w.pos).length = w.pos := by
      rw [List.length_take]
      exact Nat.min_eq_left h.le
    have hcopy := foldl_copyStores (w.buf.take w.pos) bytes (w.buf.drop w.pos)
      (by rw [List.length_drop]; omega)
    rw [hlen, List.take_append_drop, List.drop_drop] at hcopy
    refine ⟨congrArg (· + bytes.length) h.pos, ?_, ?_, ?_, ?_⟩
    · simp only [List.length_append, List.length_take, List.length_drop]
      omega
    · simp only [List.length_append, List.length_take, List.length_drop, ← h.length]
      omega
    · rw [List.foldl_append, h.stores, h.pos, hcopy]
    · intro st hst
      rcases List.mem_append.mp hst with hold | hnew
      · exact h.inside st hold
      · have hlt := mem_copyStores hnew
        rw [h.pos] at hlt
        rw [← h.length]
        omega

/-- Once the first pass has counted, the second one succeeds, stays inside its buffer, and
leaves the whole serialization there. -/
theorem ofEvent_spec (h : computeLength .checked v = some n) :
    (Submission.ofEvent v).length = some n ∧ (Submission.ofEvent v).serialized = true ∧
      (∀ st ∈ (Submission.ofEvent v).stores, st.1 < n) ∧
      ∀ buf : List UInt8, buf.length = n →
        (Submission.ofEvent v).stores.foldl applyStore buf = serialization v := by
  obtain ⟨hrun, hlen⟩ := computeLength_checked h
  have hstep : ∀ buf : List UInt8, buf.length = n →
      (Submission.ofEvent v).serialized = (serializeToBuf v buf).1 ∧
        (Submission.ofEvent v).stores.foldl applyStore buf = (serializeToBuf v buf).2 ∧
        ∀ st ∈ (Submission.ofEvent v).stores, st.1 < n := by
    rintro buf rfl
    have hlock := Core.Writer.drive_lockstep (w := storeWriter buf.length) SliceWriter.writer
      (R := Seen buf) (fun _ _ hs => hs.pos) (fun _ _ bytes hs => hs.write bytes) v
      (s := (0, [])) (t := .new buf) ⟨rfl, Nat.zero_le _, rfl, rfl, by simp⟩
    simp only [Submission.ofEvent, h, Option.getD_some]
    exact ⟨hlock.1, hlock.2.stores, hlock.2.inside⟩
  have hfull : ∀ buf : List UInt8, buf.length = n →
      serializeToBuf v buf = (true, serialization v) := by
    intro buf hbuf
    rw [serializeToBuf_of_le (by omega), hrun, List.drop_of_length_le (by omega),
      List.append_nil]
  have hself := hstep (serialization v) hlen
  rw [hfull _ hlen] at hself
  refine ⟨h, hself.1, hself.2.2, fun buf hbuf => ?_⟩
  rw [(hstep buf hbuf).2.1, hfull buf hbuf]

end Stores

/-! ## Calls -/

/-- The submissions, and the event that each thread is submitting, which is history. -/
structure Calling (ι : Type*) where
  sub : Submitting ι
  event : ι → Option Serializer

inductive EventAct (ι : Type*)
  /-- `Producer::submit`. -/
  | submit (p : ι) (v : Serializer)
  /-- The next atomic step of a thread; at the lock it may give up. -/
  | advance (p : ι) (timeout : Bool)
  | consumer (a : ConsumerAct)

inductive CallEvent (ι : Type*)
  | ring (e : Event ι)
  /-- A call returns `Ok`, or an error. -/
  | returned (p : ι) (v : Serializer) (ok : Bool)

def EventAct.lower {ι : Type*} : EventAct ι → SubmitAct ι
  | .submit p v => .submit p (.ofEvent v)
  | .advance p timeout => .advance p timeout
  | .consumer a => .consumer a

/-- A call that returns now returns `Ok` only from the drop of its buffer. -/
def SubmitPc.succeeds : SubmitPc → Bool
  | .dropping serialized _ => serialized
  | _ => false

section Calls
variable {ι : Type*} [DecidableEq ι] (M : Memory) (wakeup : ι → WakeupStrategy)

def Calling.init : Calling ι := ⟨.init, fun _ => none⟩

/-- A step of the thread `p`, which is submitting `event`. Its call returns if the thread is
idle afterwards. -/
def Calling.record (s : Calling ι) (p : ι) (event : Option Serializer)
    (r : Submitting ι × List (Act ι)) : Calling ι × List (CallEvent ι) :=
  let events := ((ringBuf M wakeup).outputs s.sub.ring r.2).map .ring
  match event, r.1.threads p with
  | some v, .idle =>
    (⟨r.1, Function.update s.event p none⟩,
      events ++ [.returned p v (s.sub.threads p).succeeds])
  | _, _ => (⟨r.1, Function.update s.event p event⟩, events)

def submitCalls : Machine (Calling ι) (EventAct ι) (CallEvent ι) where
  step s a :=
    let r := (submission M wakeup).step s.sub a.lower
    match a with
    | .submit p v =>
      s.record M wakeup p (if s.sub.threads p = .idle then some v else s.event p) r
    | .advance p _ => s.record M wakeup p (s.event p) r
    | .consumer _ => (⟨r.1, s.event⟩, ((ringBuf M wakeup).outputs s.sub.ring r.2).map .ring)

end Calls
end Manytrace.Agent
