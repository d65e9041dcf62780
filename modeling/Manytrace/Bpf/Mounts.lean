import Manytrace.Bpf.Common
import Manytrace.Core.Text

/-! The mounts of the block devices, as user space reads them from `/proc/self/mountinfo`. -/
namespace Manytrace.Bpf.Mounts
open Manytrace.Core

/-! ## Parsing -/

def encodeDevice (major minor : ℕ) : Except BpfError ℕ :=
  if 1 <<< 12 ≤ major ∨ 1 <<< 20 ≤ minor then
    .error (.loadError s!"block device number is out of range: {major}:{minor}")
  else .ok (major <<< 20 ||| minor)

def splitOnce (c : Char) (value : List Char) : Option (List Char × List Char) :=
  match value.dropWhile (· ≠ c) with
  | [] => none
  | _ :: rest => some (value.takeWhile (· ≠ c), rest)

def parseNumber (value number : List Char) : Except BpfError ℕ :=
  match parseU64 number with
  | .ok n => .ok n
  | .error e =>
    let text := String.ofList value
    .error (.loadError s!"invalid block device {text}: {e.message}")

def parseMajorMinor (value : List Char) : Except BpfError ℕ :=
  match splitOnce ':' value with
  | none =>
    let text := String.ofList value
    .error (.loadError s!"invalid block device number: {text}")
  | some (major, minor) => do
    let major ← parseNumber value major
    let minor ← parseNumber value minor
    encodeDevice major minor

def decodeMountField (value : List Char) : List Char :=
  let value := replaceAll ['\\', '0', '4', '0'] [' '] value
  let value := replaceAll ['\\', '0', '1', '1'] ['\t'] value
  let value := replaceAll ['\\', '0', '1', '2'] ['\n'] value
  replaceAll ['\\', '1', '3', '4'] ['\\'] value

/-- The characters with the Unicode property `White_Space`. -/
def isWhitespace (c : Char) : Bool :=
  let n := c.toNat
  (9 ≤ n && n ≤ 13) || n == 0x20 || n == 0x85 || n == 0xa0 || n == 0x1680 ||
    (0x2000 ≤ n && n ≤ 0x200a) || n == 0x2028 || n == 0x2029 || n == 0x202f || n == 0x205f ||
    n == 0x3000

def splitWhitespace (line : List Char) : List (List Char) := words isWhitespace line

structure MountInfo where
  filesystem : List Char
  source : List Char
  mountpoint : List Char
deriving DecidableEq, Repr

/-- One round of the loop: the device of a line, and what is kept for it. -/
def parseLine (line : List Char) : Option (ℕ × MountInfo) :=
  let fields := splitWhitespace line
  match fields.findIdx? (· == ['-']) with
  | none => none
  | some separator =>
    if fields.length ≤ separator + 2 ∨ fields.length < 5 then none
    else
      match parseMajorMinor (fields.getD 2 []) with
      | .error _ => none
      | .ok dev =>
        some (dev, ⟨fields.getD (separator + 1) [],
          decodeMountField (fields.getD (separator + 2) []), decodeMountField (fields.getD 4 [])⟩)

def addLine (mounts : ℕ → List MountInfo) (line : List Char) : ℕ → List MountInfo :=
  match parseLine line with
  | none => mounts
  | some (dev, info) => Function.update mounts dev (mounts dev ++ [info])

/-- The map from devices to their mounts, for a file with this content. -/
def readMountinfo (content : List Char) : ℕ → List MountInfo :=
  (lines content).foldl addLine fun _ => []

/-! ## Escapes -/

/-- The kernel prints four characters as their octal codes. -/
def octal (c : Char) : List Char :=
  if c = ' ' then ['\\', '0', '4', '0']
  else if c = '\t' then ['\\', '0', '1', '1']
  else if c = '\n' then ['\\', '0', '1', '2']
  else if c = '\\' then ['\\', '1', '3', '4']
  else [c]

def escape (s : List Char) : List Char := s.flatMap octal

section Escapes

/-- The code while only the characters of `left` are still escaped. -/
def partly (left : List Char) (c : Char) : List Char := if c ∈ left then octal c else [c]

theorem isCode_octal {c : Char} (h : c ∈ [' ', '\t', '\n', '\\']) :
    ∃ ds, octal c = '\\' :: ds ∧ ds.length = 3 ∧ '\\' ∉ ds := by
  simp only [List.mem_cons, List.not_mem_nil, or_false] at h
  rcases h with rfl | rfl | rfl | rfl <;> exact ⟨_, rfl, by decide, by decide⟩

theorem isCode_partly {left : List Char} (hsub : left ⊆ [' ', '\t', '\n', '\\'])
    (hleft : '\\' ∈ left) (c : Char) : IsCode '\\' 3 (partly left c) := by
  unfold partly
  by_cases hc : c ∈ left
  · rw [if_pos hc]
    exact Or.inr (isCode_octal (hsub hc))
  · rw [if_neg hc]
    refine Or.inl ⟨c, rfl, ?_⟩
    rintro rfl
    exact hc hleft

theorem octal_inj {x y : Char} (hx : x ∈ [' ', '\t', '\n', '\\'])
    (hy : y ∈ [' ', '\t', '\n', '\\']) (h : octal x = octal y) : x = y := by
  simp only [List.mem_cons, List.not_mem_nil, or_false] at hx hy
  rcases hx with rfl | rfl | rfl | rfl <;> rcases hy with rfl | rfl | rfl | rfl <;>
    first | rfl | exact absurd h (by decide)

/-- One of the replacements takes one character out of those that are left. -/
theorem replaceAll_partly {x : Char} {ds left : List Char} (hx : octal x = '\\' :: ds)
    (hlen : ds.length = 3) (hsub : x :: left ⊆ [' ', '\t', '\n', '\\'])
    (hleft : '\\' ∈ x :: left) (hnot : x ∉ left) (s : List Char) :
    replaceAll ('\\' :: ds) [x] (s.flatMap (partly (x :: left))) = s.flatMap (partly left) := by
  rw [replaceAll_flatMap fun c => by rw [hlen]; exact isCode_partly hsub hleft c]
  congr 1
  funext c
  by_cases hcx : c = x
  · subst hcx
    have hcode : partly (c :: left) c = '\\' :: ds := by
      rw [partly, if_pos List.mem_cons_self, hx]
    rw [if_pos hcode, partly, if_neg hnot]
  · have hsame : partly (x :: left) c = partly left c := by
      simp [partly, hcx]
    have hne : partly left c ≠ '\\' :: ds := by
      unfold partly
      by_cases hc : c ∈ left
      · rw [if_pos hc, ← hx]
        intro h
        exact hcx (octal_inj (hsub (List.mem_cons_of_mem x hc)) (hsub List.mem_cons_self) h)
      · rw [if_neg hc]
        intro h
        rw [← (List.cons.inj h).2] at hlen
        cases hlen
    rw [hsame, if_neg hne]

theorem escape_eq (s : List Char) : escape s = s.flatMap (partly [' ', '\t', '\n', '\\']) := by
  unfold escape
  congr 1
  funext c
  unfold partly
  split
  · rfl
  · next h =>
    simp only [List.mem_cons, List.not_mem_nil, or_false, not_or] at h
    simp [octal, h]

theorem decodeMountField_escape (s : List Char) : decodeMountField (escape s) = s := by
  unfold decodeMountField
  rw [escape_eq]
  dsimp only
  rw [replaceAll_partly (x := ' ') rfl rfl (by decide) (by decide) (by decide),
    replaceAll_partly (x := '\t') rfl rfl (by decide) (by decide) (by decide),
    replaceAll_partly (x := '\n') rfl rfl (by decide) (by decide) (by decide),
    replaceAll_partly (x := '\\') rfl rfl (by decide) (by decide) (by decide)]
  have hid : partly [] = fun c => [c] := by
    funext c
    simp [partly]
  rw [hid]
  exact List.flatMap_singleton' s

/-- The four replacements, one after another, undo the escapes of any text, even of one that
looks like an escape itself. -/
theorem decode_undoes_escape (s : String) :
    String.ofList (decodeMountField (escape s.toList)) = s := by
  rw [decodeMountField_escape, String.ofList_toList]

end Escapes

end Manytrace.Bpf.Mounts
