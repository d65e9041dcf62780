import Mathlib.Data.List.Forall2
import Manytrace.Protocol.Event

/-! The thread tracker: three programs write one kind of record, each only some of its
fields, into memory that still holds what was there before, and the callback guesses from
the record which program has written it. -/
namespace Manytrace.Bpf.ThreadTrack
open Manytrace.Protocol

/-- A string in the memory of the kernel or of a process, without its terminator. -/
structure CString where
  bytes : List UInt8
  noNul : 0 ∉ bytes

structure ThreadEvent where
  pid : UInt32
  tgid : UInt32
  comm : Vector UInt8 16
  filename : Vector UInt8 256
deriving DecidableEq

structure Task where
  pid : UInt32
  tgid : UInt32
  comm : CString

/-- `bpf_probe_read_kernel_str` and `bpf_probe_read_user_str`: as much of the string as fits
with its terminator, and nothing behind it; only zeros if the source cannot be read. -/
def probeReadStr {n : ℕ} (dst : Vector UInt8 n) : Option CString → Vector UInt8 n
  | none => Vector.replicate n 0
  | some s =>
    let copied := s.bytes.take (n - 1)
    Vector.ofFn fun i => if i ≤ copied.length then copied.getD i 0 else dst[i]

section Programs

-- The record that `bpf_ringbuf_reserve` gives, with its old content, or none.
variable (reserved : Option ThreadEvent)

def handleSchedWakeupNew (p : Task) : Option ThreadEvent :=
  reserved.map fun e =>
    { e with pid := p.pid, tgid := p.tgid, comm := probeReadStr e.comm (some p.comm) }

/-- The program is run with the file of the new image, if there is one. -/
def handleSchedProcessExec (p : Task) (bprm : Option (Option CString)) : Option ThreadEvent :=
  match bprm with
  | none => none
  | some filename =>
    reserved.map fun e =>
      { e with pid := p.pid, tgid := p.tgid, filename := probeReadStr e.filename filename }

def prSetName : ℕ := 15

def bpfGetCurrentPidTgid (current : Task) : UInt64 :=
  current.tgid.toUInt64 <<< 32 ||| current.pid.toUInt64

def handlePrctlSetname (current : Task) (option : ℕ) (name : Option CString) :
    Option ThreadEvent :=
  if option ≠ prSetName then none
  else
    let pidTgid := bpfGetCurrentPidTgid current
    reserved.map fun e =>
      { e with
        pid := pidTgid.toUInt32
        tgid := (pidTgid >>> 32).toUInt32
        comm := probeReadStr e.comm name }

end Programs

inductive Hook
  | schedWakeupNew (p : Task)
  | schedProcessExec (p : Task) (bprm : Option (Option CString))
  | sysEnterPrctl (current : Task) (option : ℕ) (name : Option CString)

/-- A program is run, and the ring buffer has this for it. -/
structure Recording where
  hook : Hook
  reserved : Option ThreadEvent

/-- The record that is submitted, if any. -/
def Recording.written (r : Recording) : Option ThreadEvent :=
  match r.hook with
  | .schedWakeupNew p => handleSchedWakeupNew r.reserved p
  | .schedProcessExec p bprm => handleSchedProcessExec r.reserved p bprm
  | .sysEnterPrctl current option name => handlePrctlSetname r.reserved current option name

/-! ## The callback -/

/-- The bytes before the first zero, or all of them. -/
def cStr {n : ℕ} (v : Vector UInt8 n) : List UInt8 := v.toList.takeWhile (· ≠ 0)

def fromUtf8 (bytes : List UInt8) : Option String := String.fromUTF8? ⟨bytes.toArray⟩

/-- `expect` panics if there is nothing. -/
def ThreadEvent.commStr (e : ThreadEvent) : Option String := fromUtf8 (cStr e.comm)

def ThreadEvent.filenameStr (e : ThreadEvent) : Option String := fromUtf8 (cStr e.filename)

def message (e : ThreadEvent) : Option Track := do
  let filename ← e.filenameStr
  if filename ≠ "" then
    pure ⟨filename, .process (asI32 e.tgid), none⟩
  else
    let comm ← e.commStr
    pure ⟨comm, .thread (asI32 e.pid) (asI32 e.tgid), some (.process (asI32 e.tgid))⟩

/-- The messages that reach the user, up to a panic. -/
def consume : List ThreadEvent → List Track
  | [] => []
  | e :: es =>
    match message e with
    | none => []
    | some t => t :: consume es

/-! ## What is shown -/

/-- What remains of a string in a field of `n` bytes. -/
def recorded (n : ℕ) : Option CString → List UInt8
  | none => []
  | some s => s.bytes.take (n - 1)

def utf8 (s : String) : List UInt8 := s.toUTF8.data.toList

/-- The track is about what the program has seen. -/
def Shows : Hook → Track → Prop
  | .schedWakeupNew p, t =>
    t.trackType = .thread (asI32 p.pid) (asI32 p.tgid) ∧ utf8 t.name = recorded 16 (some p.comm)
  | .schedProcessExec p bprm, t =>
    t.trackType = .process (asI32 p.tgid) ∧ some (utf8 t.name) = bprm.map (recorded 256)
  | .sysEnterPrctl current _ name, t =>
    t.trackType = .thread (asI32 current.pid) (asI32 current.tgid) ∧
      utf8 t.name = recorded 16 name

def IsUtf8 (bytes : List UInt8) : Prop := ByteArray.IsValidUTF8 ⟨bytes.toArray⟩

/-- A name can be told from a file, and read. -/
def Recording.Legible (r : Recording) : Prop :=
  ∀ e, r.reserved = some e →
    match r.hook with
    | .schedWakeupNew p => e.filename[0] = 0 ∧ IsUtf8 (recorded 16 (some p.comm))
    | .schedProcessExec _ bprm => ∀ filename, bprm = some filename →
      recorded 256 filename ≠ [] ∧ IsUtf8 (recorded 256 filename)
    | .sysEnterPrctl _ option name => option = prSetName →
      e.filename[0] = 0 ∧ IsUtf8 (recorded 16 name)

section Strings
variable {bytes : List UInt8} {n : ℕ}

theorem fromUtf8_eq_some {s : String} : fromUtf8 bytes = some s ↔ utf8 s = bytes := by
  unfold fromUtf8 utf8 String.fromUTF8?
  split_ifs with h
  · constructor
    · intro hs
      rw [← Option.some.inj hs]
      rfl
    · intro hs
      subst hs
      rfl
  · constructor
    · intro hs
      cases hs
    · intro hs
      subst hs
      exact absurd s.isValidUTF8 h

theorem isUtf8_iff : IsUtf8 bytes ↔ ∃ s, utf8 s = bytes := by
  simp only [← fromUtf8_eq_some, ← Option.isSome_iff_exists]
  unfold fromUtf8 IsUtf8 String.fromUTF8?
  split_ifs with h <;> simp [h]

theorem utf8_eq_nil {s : String} : utf8 s = [] ↔ s = "" := by
  rw [← fromUtf8_eq_some]
  constructor
  · intro hs
    exact (Option.some.inj hs).symm
  · intro hs
    subst hs
    rfl

theorem toList_overlay (dst : Vector UInt8 n) {copied : List UInt8} (h : copied.length < n) :
    (Vector.ofFn fun i : Fin n => if i ≤ copied.length then copied.getD i 0 else dst[i]).toList =
      copied ++ 0 :: dst.toList.drop (copied.length + 1) := by
  apply List.ext_getElem
  · simp only [Vector.length_toList, List.length_append, List.length_cons, List.length_drop]
    omega
  · intro i hi hi'
    simp only [Vector.getElem_toList, Vector.getElem_ofFn]
    rcases Nat.lt_trichotomy i copied.length with hlt | heq | hgt
    · rw [if_pos (Nat.le_of_lt hlt), List.getElem_append_left hlt]
      simp [hlt]
    · subst heq
      simp
    · rw [if_neg (by omega), List.getElem_append_right (by omega)]
      obtain ⟨k, rfl⟩ : ∃ k, i = copied.length + 1 + k := ⟨i - (copied.length + 1), by omega⟩
      simp [show copied.length + 1 + k - copied.length = k + 1 by omega]

/-- A string is read back up to the size of the field, whatever was there before. -/
theorem cStr_probeReadStr (dst : Vector UInt8 n) (src : Option CString) (hn : 0 < n) :
    cStr (probeReadStr dst src) = recorded n src := by
  cases src with
  | none =>
    obtain ⟨k, rfl⟩ : ∃ k, n = k + 1 := ⟨n - 1, by omega⟩
    simp [cStr, probeReadStr, recorded, List.replicate_succ]
  | some s =>
    have hnul : ∀ b ∈ s.bytes.take (n - 1), decide (b ≠ 0) = true := by
      intro b hb
      rw [decide_eq_true_iff]
      rintro rfl
      exact s.noNul (List.mem_of_mem_take hb)
    have hlen : (s.bytes.take (n - 1)).length < n := by
      rw [List.length_take]
      omega
    unfold cStr recorded probeReadStr
    rw [toList_overlay dst hlen, List.takeWhile_append_of_pos hnul]
    simp

theorem cStr_eq_nil_iff (v : Vector UInt8 (n + 1)) : cStr v = [] ↔ v[0] = 0 := by
  obtain ⟨⟨l⟩, hl⟩ := v
  cases l with
  | nil => simp at hl
  | cons b l =>
    simp [cStr, List.takeWhile_cons]

end Strings

section PidTgid
variable (current : Task)

theorem pid_bpfGetCurrentPidTgid : (bpfGetCurrentPidTgid current).toUInt32 = current.pid := by
  apply UInt32.eq_of_toBitVec_eq
  apply BitVec.eq_of_getLsbD_eq
  intro i hi
  simp [bpfGetCurrentPidTgid, hi]

theorem tgid_bpfGetCurrentPidTgid :
    (bpfGetCurrentPidTgid current >>> 32).toUInt32 = current.tgid := by
  apply UInt32.eq_of_toBitVec_eq
  apply BitVec.eq_of_getLsbD_eq
  intro i hi
  have hhigh : 32 + i < 64 := by omega
  have hword : i < 64 := by omega
  simp [bpfGetCurrentPidTgid, hi, hhigh, hword]

end PidTgid

section Callback
variable {e : ThreadEvent} {t : Track} {bytes : List UInt8}

/-- A record with a file name in it is taken for an exec. -/
theorem message_of_file (h : cStr e.filename ≠ []) : message e = some t ↔
    t.trackType = .process (asI32 e.tgid) ∧ t.parent = none ∧ utf8 t.name = cStr e.filename := by
  obtain ⟨name, trackType, parent⟩ := t
  have hname : ∀ s, e.filenameStr = some s → s ≠ "" := by
    intro s hs hempty
    rw [ThreadEvent.filenameStr, fromUtf8_eq_some, utf8_eq_nil.mpr hempty] at hs
    exact h hs.symm
  rw [← fromUtf8_eq_some, ← ThreadEvent.filenameStr]
  cases hfile : e.filenameStr with
  | none => simp [message, hfile]
  | some s => simp [message, hfile, hname s hfile, and_comm, and_assoc, eq_comm]

theorem message_of_thread (h : cStr e.filename = []) : message e = some t ↔
    t.trackType = .thread (asI32 e.pid) (asI32 e.tgid) ∧
      t.parent = some (.process (asI32 e.tgid)) ∧ utf8 t.name = cStr e.comm := by
  obtain ⟨name, trackType, parent⟩ := t
  have hfile : e.filenameStr = some "" := by
    rw [ThreadEvent.filenameStr, fromUtf8_eq_some, h, utf8_eq_nil]
  rw [← fromUtf8_eq_some, ← ThreadEvent.commStr]
  cases hcomm : e.commStr with
  | none => simp [message, hfile, hcomm]
  | some s => simp [message, hfile, hcomm, and_comm, and_assoc, eq_comm]

theorem thread_shown_iff (hcomm : cStr e.comm = bytes) :
    (∃ t, message e = some t ∧ t.trackType = .thread (asI32 e.pid) (asI32 e.tgid) ∧
      utf8 t.name = bytes) ↔ e.filename[0] = 0 ∧ IsUtf8 bytes := by
  rw [← cStr_eq_nil_iff e.filename, isUtf8_iff]
  constructor
  · rintro ⟨t, hmessage, htype, hname⟩
    refine ⟨?_, t.name, hname⟩
    by_contra hfile
    rw [message_of_file hfile, htype] at hmessage
    cases hmessage.1
  · rintro ⟨hfile, name, hname⟩
    have hmessage := (message_of_thread (t := ⟨name, _, _⟩) hfile).mpr
      ⟨rfl, rfl, hname.trans hcomm.symm⟩
    exact ⟨_, hmessage, rfl, hname⟩

theorem process_shown_iff (hfile : cStr e.filename = bytes) :
    (∃ t, message e = some t ∧ t.trackType = .process (asI32 e.tgid) ∧ utf8 t.name = bytes) ↔
      bytes ≠ [] ∧ IsUtf8 bytes := by
  rw [isUtf8_iff]
  subst hfile
  constructor
  · rintro ⟨t, hmessage, htype, hname⟩
    refine ⟨?_, t.name, hname⟩
    intro hempty
    rw [message_of_thread hempty, htype] at hmessage
    cases hmessage.1
  · rintro ⟨hne, name, hname⟩
    have hmessage := (message_of_file (t := ⟨name, _, _⟩) hne).mpr ⟨rfl, rfl, hname⟩
    exact ⟨_, hmessage, rfl, hname⟩

/-- A record is decoded to what its program has seen exactly if it is legible. -/
theorem Recording.shown_iff {r : Recording} (h : r.written = some e) :
    (∃ t, message e = some t ∧ Shows r.hook t) ↔ r.Legible := by
  obtain ⟨hook, reserved⟩ := r
  cases hook with
  | schedWakeupNew p =>
    obtain ⟨old, rfl, rfl⟩ := Option.map_eq_some_iff.mp h
    simp only [Legible, Option.some.injEq, forall_eq']
    exact thread_shown_iff (cStr_probeReadStr old.comm (some p.comm) (by decide))
  | schedProcessExec p bprm =>
    cases bprm with
    | none => cases h
    | some filename =>
      obtain ⟨old, rfl, rfl⟩ := Option.map_eq_some_iff.mp h
      simp only [Legible, Shows, Option.map_some, Option.some.injEq, forall_eq']
      exact process_shown_iff (cStr_probeReadStr old.filename filename (by decide))
  | sysEnterPrctl current option name =>
    simp only [written, handlePrctlSetname] at h
    split_ifs at h with hoption
    obtain ⟨old, rfl, rfl⟩ := Option.map_eq_some_iff.mp h
    rw [not_not] at hoption
    simp only [Legible, Shows, Option.some.injEq, forall_eq', hoption, true_implies]
    have hshown := thread_shown_iff (e := ⟨current.pid, current.tgid, _, old.filename⟩)
      (cStr_probeReadStr old.comm name (by decide))
    rwa [pid_bpfGetCurrentPidTgid, tgid_bpfGetCurrentPidTgid]

/-- Nothing is asked of what is not written. -/
theorem Recording.legible_of_not_written {r : Recording} (h : r.written = none) :
    r.Legible := by
  obtain ⟨hook, reserved⟩ := r
  intro e he
  cases he
  cases hook with
  | schedWakeupNew p => cases h
  | schedProcessExec p bprm =>
    rintro filename rfl
    cases h
  | sysEnterPrctl current option name =>
    rintro rfl
    cases h

end Callback

/-- The programs are run one after the other, each record in memory with any old content. -/
def emitted (rs : List Recording) : List Track := consume (rs.filterMap Recording.written)

/-- The programs whose records reach the callback. -/
def submitted (rs : List Recording) : List Hook :=
  (rs.filter fun r => r.written.isSome).map Recording.hook

/-- Every record is shown as what it is exactly if, where a thread's name is recorded, the
memory begins with an empty file name, an exec has a file name, and all names are UTF-8. -/
theorem records_shown_iff (rs : List Recording) :
    List.Forall₂ Shows (submitted rs) (emitted rs) ↔ ∀ r ∈ rs, r.Legible := by
  induction rs with
  | nil => simp [submitted, emitted, consume]
  | cons r rs ih =>
    rw [List.forall_mem_cons, ← ih]
    unfold submitted emitted
    cases hwritten : r.written with
    | none =>
      have hlegible := r.legible_of_not_written hwritten
      simp [hwritten, hlegible]
    | some e =>
      rw [← r.shown_iff hwritten]
      simp only [hwritten, Option.isSome_some, List.filter_cons_of_pos, List.map_cons,
        List.filterMap_cons_some hwritten, consume]
      cases message e with
      | none => simp
      | some t => simp

/-- An exec of `/bin/ls`, and a new thread whose record is laid over it. -/
def reusedRecord : List Recording :=
  let ls : CString := ⟨[47, 98, 105, 110, 47, 108, 115], by decide⟩
  let p : Task := ⟨7, 7, ⟨[115, 104], by decide⟩⟩
  let exec : Recording := ⟨.schedProcessExec p (some (some ls)),
    some ⟨0, 0, Vector.replicate 16 0, Vector.replicate 256 0⟩⟩
  [exec, ⟨.schedWakeupNew ⟨9, 8, ⟨[97], by decide⟩⟩, exec.written⟩]

theorem new_thread_shown_as_process :
    emitted reusedRecord = [⟨"/bin/ls", .process 7, none⟩, ⟨"/bin/ls", .process 8, none⟩] ∧
      ¬ List.Forall₂ Shows (submitted reusedRecord) (emitted reusedRecord) := by
  have hemitted : emitted reusedRecord =
      [⟨"/bin/ls", .process 7, none⟩, ⟨"/bin/ls", .process 8, none⟩] := by
    decide +kernel
  refine ⟨hemitted, ?_⟩
  rw [hemitted]
  rintro (_ | ⟨-, _ | ⟨⟨htype, -⟩, -⟩⟩)
  cases htype

end Manytrace.Bpf.ThreadTrack
