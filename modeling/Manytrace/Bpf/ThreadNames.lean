import Manytrace.Bpf.ThreadTrack

/-! Which records the callback of the thread tracker survives: names come from processes as
bytes, and are cut at a fixed length. -/
namespace Manytrace.Bpf.ThreadTrack

/-- The callback reads the file name of every record, and the thread's name if there is none. -/
structure ThreadEvent.Decodable (e : ThreadEvent) : Prop where
  filename : IsUtf8 (cStr e.filename)
  comm : cStr e.filename = [] → IsUtf8 (cStr e.comm)

section Cuts

theorem utf8_append (a b : String) : utf8 (a ++ b) = utf8 a ++ utf8 b := by
  simp [utf8]

/-- What is cut off a text leaves a text only if the cut is between two characters. -/
theorem isUtf8_take_iff (name : String) (k : ℕ) : IsUtf8 ((utf8 name).take k) ↔
    (utf8 name).length ≤ k ∨ ∃ a b, name = a ++ b ∧ (utf8 a).length = k := by
  constructor
  · intro h
    rcases Nat.lt_or_ge k (utf8 name).length with hlt | hge
    · right
      have hextract : name.toByteArray.extract 0 k = ⟨((utf8 name).take k).toArray⟩ := by
        rw [ByteArray.ext_iff, ByteArray.data_extract, ← Array.toList_inj]
        simp [utf8]
      have hvalid : String.Pos.Raw.IsValid name ⟨k⟩ := by
        rw [String.Pos.Raw.isValid_iff_isValidUTF8_extract_zero, hextract]
        exact ⟨Nat.le_of_lt hlt, h⟩
      obtain ⟨a, b, heq, hpos⟩ := String.Pos.Raw.isValid_iff_exists_append.mp hvalid
      exact ⟨a, b, heq, (congrArg String.Pos.Raw.byteIdx hpos).symm⟩
    · exact Or.inl hge
  · rintro (hle | ⟨a, b, rfl, rfl⟩)
    · rw [List.take_of_length_le hle]
      exact isUtf8_iff.mpr ⟨name, rfl⟩
    · rw [utf8_append, List.take_left]
      exact isUtf8_iff.mpr ⟨a, rfl⟩

end Cuts

theorem message_isSome_iff (e : ThreadEvent) : (message e).isSome = true ↔ e.Decodable := by
  rw [Option.isSome_iff_exists]
  by_cases hfile : cStr e.filename = []
  · have hempty : IsUtf8 (cStr e.filename) := by
      rw [hfile]
      exact isUtf8_iff.mpr ⟨"", rfl⟩
    simp only [message_of_thread hfile]
    constructor
    · rintro ⟨t, -, -, hname⟩
      exact ⟨hempty, fun _ => isUtf8_iff.mpr ⟨t.name, hname⟩⟩
    · intro h
      obtain ⟨name, hname⟩ := isUtf8_iff.mp (h.comm hfile)
      exact ⟨⟨name, _, _⟩, rfl, rfl, hname⟩
  · simp only [message_of_file hfile]
    constructor
    · rintro ⟨t, -, -, hname⟩
      exact ⟨isUtf8_iff.mpr ⟨t.name, hname⟩, fun hnil => absurd hnil hfile⟩
    · intro h
      obtain ⟨name, hname⟩ := isUtf8_iff.mp h.filename
      exact ⟨⟨name, _, _⟩, rfl, rfl, hname⟩

theorem length_consume_eq_iff (es : List ThreadEvent) :
    (consume es).length = es.length ↔ ∀ e ∈ es, e.Decodable := by
  induction es with
  | nil => simp [consume]
  | cons e es ih =>
    rw [List.forall_mem_cons, ← ih, ← message_isSome_iff, consume]
    cases message e with
    | none => simp
    | some t => simp

/-- Every record is answered, one after the other, exactly if each is decodable; and a field
that was filled with a longer text is so exactly if the text is cut between two characters. -/
theorem callback_returns_iff (es : List ThreadEvent) {n : ℕ} (dst : Vector UInt8 (n + 1))
    (name : String) (h : 0 ∉ utf8 name) :
    ((consume es).length = es.length ↔ ∀ e ∈ es, e.Decodable) ∧
      (IsUtf8 (cStr (probeReadStr dst (some ⟨utf8 name, h⟩))) ↔
        (utf8 name).length ≤ n ∨ ∃ a b, name = a ++ b ∧ (utf8 a).length = n) := by
  refine ⟨length_consume_eq_iff es, ?_⟩
  rw [cStr_probeReadStr _ _ (Nat.succ_pos n)]
  exact isUtf8_take_iff name n

/-- A thread calls itself `sh`, and its record is decoded. -/
theorem callback_returns_for_sh :
    let e : ThreadEvent := ⟨7, 7, probeReadStr (Vector.replicate 16 0)
      (some ⟨utf8 "sh", by decide⟩), Vector.replicate 256 0⟩
    IsUtf8 (cStr e.comm) ∧ (consume [e]).length = 1 := by
  intro e
  obtain ⟨hreturns, hcut⟩ :=
    callback_returns_iff [e] (n := 15) (Vector.replicate 16 0) "sh" (by decide)
  have hcomm : IsUtf8 (cStr e.comm) := hcut.mpr (Or.inl (by decide))
  refine ⟨hcomm, hreturns.mpr ?_⟩
  intro e' he'
  rw [List.mem_singleton.mp he']
  exact ⟨isUtf8_iff.mpr ⟨"", by decide⟩, fun _ => hcomm⟩

/-- A thread takes a name whose last letter begins in the fifteenth byte. -/
def cutName : CString := ⟨utf8 "worker-thread-é", by decide⟩

theorem callback_panics_on_cut_name :
    IsUtf8 cutName.bytes ∧
      (handlePrctlSetname (some ⟨0, 0, Vector.replicate 16 0, Vector.replicate 256 0⟩)
        ⟨7, 7, ⟨[115, 104], by decide⟩⟩ prSetName (some cutName)).map message = some none := by
  refine ⟨isUtf8_iff.mpr ⟨_, rfl⟩, ?_⟩
  decide +kernel

end Manytrace.Bpf.ThreadTrack
