import Manytrace.Bpf.Mounts
import Mathlib.Data.List.GetD

/-! The table of mounts as the kernel prints it, and what becomes of each of its lines. The
kernel separates fields by spaces and escapes four characters, while user space splits at every
white space character of Unicode. -/
namespace Manytrace.Bpf.Mounts
open Manytrace.Core

/-! ## The format of the kernel -/

/-- Mount options and the optional fields `tag[:value]`. -/
structure Word where
  chars : List Char
  letter : ∃ c, chars.head? = some c ∧ c.isAlpha = true
  plain : ∀ c ∈ chars, isWhitespace c = false ∧ c ≠ '\\'

structure Device where
  major : ℕ
  minor : ℕ
  major_lt : major < 2 ^ 12
  minor_lt : minor < 2 ^ 20
deriving DecidableEq

def Device.encode (d : Device) : ℕ := d.major <<< 20 ||| d.minor

structure Mount where
  id : ℕ
  parent : ℕ
  device : Device
  root : List Char
  mountpoint : List Char
  absolute : mountpoint.head? = some '/'
  options : Word
  optional : List Word
  fstype : List Char
  source : List Char
  source_ne_nil : source ≠ []
  superOptions : List Char

def decimal (n : ℕ) : List Char := Nat.toDigits 10 n

namespace Mount
variable (m : Mount)

def fields : List (List Char) :=
  [decimal m.id, decimal m.parent, decimal m.device.major ++ ':' :: decimal m.device.minor,
    escape m.root, escape m.mountpoint, m.options.chars] ++ m.optional.map Word.chars ++
    [['-'], escape m.fstype, escape m.source, escape m.superOptions]

def line : List Char := [' '].intercalate m.fields

def info : MountInfo := ⟨m.fstype, m.source, m.mountpoint⟩

end Mount

def render (mounts : List Mount) : List Char := mounts.flatMap fun m => m.line ++ ['\n']

/-! ## Devices -/

section Devices

theorem Device.encode_eq (d : Device) : d.encode = d.major * 2 ^ 20 + d.minor := by
  rw [Device.encode, ← Nat.shiftLeft_add_eq_or_of_lt d.minor_lt, Nat.shiftLeft_eq]

theorem Device.encode_inj {d e : Device} (h : d.encode = e.encode) : d = e := by
  rw [Device.encode_eq, Device.encode_eq] at h
  have hd := d.minor_lt
  have he := e.minor_lt
  have hmajor : d.major = e.major := by omega
  have hminor : d.minor = e.minor := by omega
  cases d
  cases e
  subst hmajor hminor
  rfl

theorem decimal_digits {n : ℕ} {c : Char} (h : c ∈ decimal n) : c.isDigit = true :=
  Nat.isDigit_of_mem_toDigits (by decide) (by decide) h

theorem splitOnce_append {c : Char} {s : List Char} (h : c ∉ s) (t : List Char) :
    splitOnce c (s ++ c :: t) = some (s, t) := by
  have hs : ∀ d ∈ s, decide (d ≠ c) = true := by
    intro d hd
    refine decide_eq_true ?_
    rintro rfl
    exact h hd
  unfold splitOnce
  rw [List.dropWhile_append_of_pos hs, List.takeWhile_append_of_pos hs]
  simp

theorem parseMajorMinor_decimal (d : Device) :
    parseMajorMinor (decimal d.major ++ ':' :: decimal d.minor) = .ok d.encode := by
  have hcolon : ':' ∉ decimal d.major := fun h => absurd (decimal_digits h) (by decide)
  have hmajor := d.major_lt
  have hminor := d.minor_lt
  have hsplit := splitOnce_append hcolon (decimal d.minor)
  have hrange : ¬ (1 <<< 12 ≤ d.major ∨ 1 <<< 20 ≤ d.minor) := by
    rw [Nat.one_shiftLeft, Nat.one_shiftLeft]
    omega
  unfold parseMajorMinor parseNumber decimal at *
  rw [hsplit]
  dsimp only
  rw [parseU64_toDigits (by omega), parseU64_toDigits (by omega)]
  exact if_neg hrange

end Devices

/-! ## White space -/

/-- White space that the kernel does not escape. -/
def unescaped (c : Char) : Bool := isWhitespace c && !(c == ' ' || c == '\t' || c == '\n')

def Clean (s : List Char) : Prop := ∀ c ∈ s, unescaped c = false

def pieces (s : List Char) : List (List Char) := words unescaped s

section WhiteSpace
variable {s t : List Char}

theorem escape_injective : Function.Injective escape :=
  Function.LeftInverse.injective decodeMountField_escape

theorem octal_of_unescaped {c : Char} (h : unescaped c = true) :
    ∃ d, octal c = [d] ∧ isWhitespace d = true := by
  simp only [unescaped, Bool.and_eq_true, Bool.not_eq_true', Bool.or_eq_false_iff,
    beq_eq_false_iff_ne] at h
  obtain ⟨hws, ⟨hspace, htab⟩, hnl⟩ := h
  have hbackslash : c ≠ '\\' := by
    rintro rfl
    exact absurd hws (by decide)
  exact ⟨c, by simp [octal, hspace, htab, hnl, hbackslash], hws⟩

theorem octal_of_not_unescaped {c : Char} (h : unescaped c = false) :
    octal c ≠ [] ∧ ∀ d ∈ octal c, isWhitespace d = false := by
  unfold octal
  split_ifs with hspace htab hnl hbackslash
  · simp [isWhitespace]
  · simp [isWhitespace]
  · simp [isWhitespace]
  · simp [isWhitespace]
  · refine ⟨List.cons_ne_nil c [], ?_⟩
    intro d hd
    rw [List.mem_singleton.mp hd]
    simpa [unescaped, hspace, htab, hnl] using h

theorem splitWhitespace_escape (s : List Char) :
    splitWhitespace (escape s) = (pieces s).map escape :=
  words_flatMap (fun _ h => octal_of_unescaped h) (fun _ h => octal_of_not_unescaped h) s

theorem pieces_of_clean (h : Clean s) (hs : s ≠ []) : pieces s = [s] := words_eq_singleton hs h

theorem not_whitespace_of_mem (h : t ∈ splitWhitespace s) : ∀ c ∈ t, isWhitespace c = false :=
  fun c hc => (of_mem_words h c hc).2

theorem clean_of_not_whitespace (h : ∀ c ∈ s, isWhitespace c = false) : Clean s := by
  intro c hc
  simp [unescaped, h c hc]

theorem clean_replaceAll {c : Char} (h : Clean s) (hc : unescaped c = false) (pat : List Char) :
    Clean (replaceAll pat [c] s) := by
  intro d hd
  rcases mem_replaceAll hd with hold | hnew
  · exact h d hold
  · rw [List.mem_singleton.mp hnew]
    exact hc

/-- Decoding puts in no white space but what was escaped. -/
theorem clean_decodeMountField (h : ∀ c ∈ t, isWhitespace c = false) :
    Clean (decodeMountField t) := by
  unfold decodeMountField
  apply clean_replaceAll
  · apply clean_replaceAll
    · apply clean_replaceAll
      · apply clean_replaceAll (clean_of_not_whitespace h)
        decide
      · decide
    · decide
  · decide

theorem ne_of_whitespace {c d : Char} (hc : isWhitespace c = false) (hd : isWhitespace d = true) :
    c ≠ d := by
  rintro rfl
  rw [hc] at hd
  cases hd

theorem escape_of_plain (h : ∀ c ∈ s, isWhitespace c = false ∧ c ≠ '\\') : escape s = s := by
  have hoctal : ∀ c ∈ s, octal c = [c] := by
    intro c hc
    obtain ⟨hws, hbackslash⟩ := h c hc
    have hspace : c ≠ ' ' := ne_of_whitespace hws (by decide)
    have htab : c ≠ '\t' := ne_of_whitespace hws (by decide)
    have hnl : c ≠ '\n' := ne_of_whitespace hws (by decide)
    simp [octal, hspace, htab, hnl, hbackslash]
  unfold escape
  rw [List.flatMap_congr hoctal]
  exact List.flatMap_singleton' s

theorem length_le_escape (s : List Char) : s.length ≤ (escape s).length := by
  induction s with
  | nil => exact Nat.le_refl 0
  | cons c s ih =>
    have hoctal : 0 < (octal c).length := by
      unfold octal
      split_ifs <;> exact Nat.succ_pos _
    rw [escape, List.flatMap_cons, List.length_append, ← escape, List.length_cons]
    omega

/-- Only a text without backslashes is printed as it is. -/
theorem backslash_notMem_of_escape_eq (h : escape s = s) : '\\' ∉ s := by
  intro hmem
  obtain ⟨a, b, rfl⟩ := List.append_of_mem hmem
  have hlen := congrArg List.length h
  have ha := length_le_escape a
  have hb := length_le_escape b
  rw [escape, List.flatMap_append, List.flatMap_cons, ← escape, ← escape] at hlen
  have hoctal : (octal '\\').length = 4 := rfl
  simp only [List.length_append, List.length_cons, hoctal] at hlen
  omega

theorem escape_eq_dash_iff : escape s = ['-'] ↔ s = ['-'] := by
  rw [show ['-'] = escape ['-'] from rfl]
  exact escape_injective.eq_iff

end WhiteSpace

/-! ## Lines -/

def PlainName (s : List Char) : Prop := s ≠ [] ∧ ∀ c ∈ s, isWhitespace c = false ∧ c ≠ '\\'

theorem Word.ne_nil (w : Word) : w.chars ≠ [] := by
  obtain ⟨c, hc, -⟩ := w.letter
  intro h
  rw [h] at hc
  cases hc

theorem Word.ne_dash (w : Word) : w.chars ≠ ['-'] := by
  obtain ⟨c, hc, halpha⟩ := w.letter
  intro h
  rw [h] at hc
  cases hc
  exact absurd halpha (by decide)

namespace Mount
variable (m : Mount)

/-- What is found behind the device number: the pieces of the root, the mountpoint and the
options. -/
def shown : List (List Char) := pieces m.root ++ [m.mountpoint, m.options.chars]

/-- The line is split as it was meant, or by accident the pieces of the root stand for the fields
that they displace. -/
structure Readable : Prop where
  mountpoint : Clean m.mountpoint
  root : m.shown[1]? = some m.mountpoint
  names : (pieces m.root).findIdx? (· == ['-']) = none → PlainName m.fstype ∧ Clean m.source
  accident : ∀ j, (pieces m.root).findIdx? (· == ['-']) = some j →
    (m.shown.map escape)[j + 1]? = some m.fstype ∧ m.shown[j + 2]? = some m.source

/-- What comes after the separator. -/
def behind : List (List Char) :=
  (pieces m.fstype ++ pieces m.source ++ pieces m.superOptions).map escape

def tokens : List (List Char) :=
  decimal m.id :: decimal m.parent :: (decimal m.device.major ++ ':' :: decimal m.device.minor) ::
    ((pieces m.root ++ pieces m.mountpoint).map escape ++ m.options.chars ::
      (m.optional.map Word.chars ++ ['-'] :: m.behind))

end Mount

section Lines
variable {m : Mount}

theorem decimal_plain {n : ℕ} {c : Char} (h : c ∈ decimal n) : isWhitespace c = false := by
  have hdigit := decimal_digits h
  simp only [Char.isDigit, Bool.and_eq_true, decide_eq_true_eq] at hdigit
  have hlow : 48 ≤ c.toNat := hdigit.1
  have hhigh : c.toNat ≤ 57 := hdigit.2
  simp only [isWhitespace, Bool.or_eq_false_iff, Bool.and_eq_false_iff, decide_eq_false_iff_not,
    beq_eq_false_iff_ne]
  omega

theorem splitWhitespace_decimal (n : ℕ) : splitWhitespace (decimal n) = [decimal n] :=
  words_eq_singleton Nat.toDigits_ne_nil fun _ h => decimal_plain h

theorem splitWhitespace_device (d : Device) :
    splitWhitespace (decimal d.major ++ ':' :: decimal d.minor) =
      [decimal d.major ++ ':' :: decimal d.minor] := by
  refine words_eq_singleton (by simp) fun c hc => ?_
  rcases List.mem_append.mp hc with hmajor | hrest
  · exact decimal_plain hmajor
  · rcases List.mem_cons.mp hrest with rfl | hminor
    · decide
    · exact decimal_plain hminor

theorem splitWhitespace_word (w : Word) : splitWhitespace w.chars = [w.chars] :=
  words_eq_singleton w.ne_nil fun c hc => (w.plain c hc).1

theorem splitWhitespace_line (m : Mount) : splitWhitespace m.line = m.tokens := by
  have hwords : (m.optional.map Word.chars).flatMap splitWhitespace =
      m.optional.map Word.chars := by
    induction m.optional with
    | nil => rfl
    | cons w ws ih =>
      rw [List.map_cons, List.flatMap_cons, ih, splitWhitespace_word]
      rfl
  have hdash : splitWhitespace ['-'] = [['-']] := by decide
  unfold Mount.line
  change words isWhitespace _ = _
  rw [words_intercalate (by decide)]
  change m.fields.flatMap splitWhitespace = _
  unfold Mount.fields Mount.tokens Mount.behind
  simp only [List.flatMap_append, hwords]
  simp only [List.flatMap_cons, List.flatMap_nil, splitWhitespace_decimal, splitWhitespace_device,
    splitWhitespace_escape, splitWhitespace_word, hdash, List.map_append, List.append_assoc,
    List.cons_append, List.nil_append, List.append_nil]

theorem splitWhitespace_stripCr (line : List Char) :
    splitWhitespace (stripCr line) = splitWhitespace line := by
  unfold stripCr
  split
  · next h =>
    have hline : line.dropLast ++ ['\r'] = line := List.dropLast_append_getLast? '\r' h
    rw [← hline]
    rw [List.dropLast_concat]
    exact (words_concat _ (by decide)).symm
  · rfl

theorem parseLine_stripCr (line : List Char) : parseLine (stripCr line) = parseLine line := by
  unfold parseLine
  rw [splitWhitespace_stripCr]

theorem getD_clean (line : List Char) (i : ℕ) :
    ∀ c ∈ (splitWhitespace line).getD i [], isWhitespace c = false := by
  rw [List.getD_eq_getElem?_getD]
  cases h : (splitWhitespace line)[i]? with
  | none => exact fun c hc => absurd hc List.not_mem_nil
  | some t => exact not_whitespace_of_mem (List.mem_of_getElem? h)

/-- What a line that is kept gives, wherever its separator is found. -/
theorem of_parseLine {line : List Char} {dev : ℕ} {info : MountInfo}
    (h : parseLine line = some (dev, info)) :
    parseMajorMinor ((splitWhitespace line).getD 2 []) = .ok dev ∧ ∃ separator,
      info = ⟨(splitWhitespace line).getD (separator + 1) [],
        decodeMountField ((splitWhitespace line).getD (separator + 2) []),
        decodeMountField ((splitWhitespace line).getD 4 [])⟩ := by
  unfold parseLine at h
  dsimp only at h
  split at h
  · cases h
  · next separator _ =>
    split at h
    · cases h
    · split at h
      · cases h
      · next hdev =>
        cases h
        exact ⟨hdev, separator, rfl⟩

/-- What is kept of a line has no white space but what was escaped. -/
theorem parseLine_clean {line : List Char} {dev : ℕ} {info : MountInfo}
    (h : parseLine line = some (dev, info)) : Clean info.mountpoint ∧ Clean info.source := by
  obtain ⟨-, separator, rfl⟩ := of_parseLine h
  exact ⟨clean_decodeMountField (getD_clean line 4), clean_decodeMountField (getD_clean line _)⟩

theorem Mount.tokens_of_clean (h : Clean m.mountpoint) : m.tokens =
    decimal m.id :: decimal m.parent :: (decimal m.device.major ++ ':' :: decimal m.device.minor) ::
      (m.shown.map escape ++ (m.optional.map Word.chars ++ ['-'] :: m.behind)) := by
  have hne : m.mountpoint ≠ [] := by
    intro hnil
    have habs := m.absolute
    rw [hnil] at habs
    cases habs
  unfold Mount.tokens Mount.shown
  rw [pieces_of_clean h hne, List.map_append, List.map_append, List.map_singleton, List.map_cons,
    List.map_singleton, escape_of_plain m.options.plain]
  simp only [List.append_assoc, List.cons_append, List.nil_append]

theorem Mount.shown_dash (m : Mount) :
    (m.shown.map escape).findIdx? (· == ['-']) = (pieces m.root).findIdx? (· == ['-']) := by
  have hbeq : ∀ p : List Char, (escape p == ['-']) = (p == ['-']) := by
    intro p
    rw [Bool.eq_iff_iff, beq_iff_eq, beq_iff_eq]
    exact escape_eq_dash_iff
  have hmountpoint : (m.mountpoint == ['-']) = false := by
    rw [beq_eq_false_iff_ne]
    intro heq
    have habs := m.absolute
    rw [heq] at habs
    exact absurd habs (by decide)
  have hoptions : (m.options.chars == ['-']) = false := by
    rw [beq_eq_false_iff_ne]
    exact m.options.ne_dash
  rw [List.findIdx?_map]
  simp only [Function.comp_def, hbeq]
  unfold Mount.shown
  rw [List.findIdx?_append]
  simp [List.findIdx?_cons, hmountpoint, hoptions]

/-- The line when its first three fields are as they should be. -/
theorem parseLine_eq {line a b d : List Char} {U : List (List Char)} {dev k : ℕ}
    (hfields : splitWhitespace line = a :: b :: d :: U) (ha : a ≠ ['-']) (hb : b ≠ ['-'])
    (hd : d ≠ ['-']) (hdev : parseMajorMinor d = .ok dev)
    (hk : U.findIdx? (· == ['-']) = some k) (hlen : 2 ≤ U.length) :
    parseLine line =
      if U.length ≤ k + 2 then none
      else some (dev, ⟨U.getD (k + 1) [], decodeMountField (U.getD (k + 2) []),
        decodeMountField (U.getD 1 [])⟩) := by
  have hidx : (a :: b :: d :: U).findIdx? (· == ['-']) = some (k + 3) := by
    simp [List.findIdx?_cons, ha, hb, hd, hk]
  have hcount : (a :: b :: d :: U).length = U.length + 3 := rfl
  unfold parseLine
  rw [hfields]
  dsimp only
  rw [hidx]
  dsimp only
  rw [hcount]
  by_cases hshort : U.length ≤ k + 2
  · rw [if_pos (Or.inl (by omega)), if_pos hshort]
  · rw [if_neg (by omega), if_neg hshort]
    simp only [List.getD_cons_succ, List.getD_cons_zero, hdev]

theorem decimal_ne_dash (n : ℕ) : decimal n ≠ ['-'] := by
  intro h
  have hdash : '-' ∈ decimal n := by
    rw [h]
    exact List.mem_cons_self
  exact absurd (decimal_digits hdash) (by decide)

theorem device_ne_dash (d : Device) : decimal d.major ++ ':' :: decimal d.minor ≠ ['-'] := by
  intro h
  have hcolon : ':' ∈ decimal d.major ++ ':' :: decimal d.minor := by simp
  rw [h] at hcolon
  exact absurd hcolon (by decide)

theorem decode_getD_map_escape (xs : List (List Char)) (i : ℕ) :
    decodeMountField ((xs.map escape).getD i []) = xs.getD i [] := by
  rw [List.getD_eq_getElem?_getD, List.getElem?_map, List.getD_eq_getElem?_getD]
  cases xs[i]? with
  | none => rfl
  | some x => exact decodeMountField_escape x

/-- A piece of the root that is taken for the separator. -/
theorem Mount.parseLine_of_dash (h : Clean m.mountpoint) {j : ℕ}
    (hj : (pieces m.root).findIdx? (· == ['-']) = some j) :
    parseLine m.line = some (m.device.encode,
      ⟨(m.shown.map escape).getD (j + 1) [], m.shown.getD (j + 2) [], m.shown.getD 1 []⟩) := by
  have hlt : j < (pieces m.root).length := (List.findIdx?_eq_some_iff_findIdx_eq.mp hj).1
  have hshown : m.shown.length = (pieces m.root).length + 2 := by simp [Mount.shown]
  have hidx : (m.shown.map escape ++ (m.optional.map Word.chars ++ ['-'] :: m.behind)).findIdx?
      (· == ['-']) = some j := by
    rw [List.findIdx?_append, m.shown_dash, hj]
    rfl
  have hgetD : ∀ i < m.shown.length,
      (m.shown.map escape ++ (m.optional.map Word.chars ++ ['-'] :: m.behind)).getD i [] =
        (m.shown.map escape).getD i [] := by
    intro i hi
    exact List.getD_append _ _ _ _ (by rwa [List.length_map])
  rw [parseLine_eq ((splitWhitespace_line m).trans (m.tokens_of_clean h)) (decimal_ne_dash _)
    (decimal_ne_dash _) (device_ne_dash _) (parseMajorMinor_decimal m.device) hidx
    (by simp [Mount.shown]; omega),
    if_neg (by simp [Mount.shown]; omega), hgetD _ (by omega), hgetD _ (by omega),
    hgetD _ (by omega), decode_getD_map_escape, decode_getD_map_escape]

/-- The separator of the line is found. -/
theorem Mount.parseLine_of_none (h : Clean m.mountpoint)
    (hnone : (pieces m.root).findIdx? (· == ['-']) = none) :
    parseLine m.line =
      if m.behind.length < 2 then none
      else some (m.device.encode,
        ⟨m.behind.getD 0 [], decodeMountField (m.behind.getD 1 []), m.shown.getD 1 []⟩) := by
  have hshown : m.shown.length = (pieces m.root).length + 2 := by simp [Mount.shown]
  have hwords : (m.optional.map Word.chars).findIdx? (· == ['-']) = none := by
    rw [List.findIdx?_eq_none_iff]
    intro w hw
    obtain ⟨v, -, rfl⟩ := List.mem_map.mp hw
    rw [beq_eq_false_iff_ne]
    exact v.ne_dash
  have hidx : (m.shown.map escape ++ (m.optional.map Word.chars ++ ['-'] :: m.behind)).findIdx?
      (· == ['-']) = some (m.optional.length + m.shown.length) := by
    rw [List.findIdx?_append, m.shown_dash, hnone, List.findIdx?_append, hwords]
    simp [List.findIdx?_cons]
  have hbehind : ∀ i,
      (m.shown.map escape ++ (m.optional.map Word.chars ++ ['-'] :: m.behind)).getD
        (m.optional.length + m.shown.length + (i + 1)) [] = m.behind.getD i [] := by
    intro i
    rw [List.getD_append_right _ _ _ _ (by rw [List.length_map]; omega),
      List.getD_append_right _ _ _ _ (by rw [List.length_map, List.length_map]; omega),
      List.length_map, List.length_map,
      show m.optional.length + m.shown.length + (i + 1) - m.shown.length - m.optional.length =
        i + 1 by omega, List.getD_cons_succ]
  have hsecond :
      (m.shown.map escape ++ (m.optional.map Word.chars ++ ['-'] :: m.behind)).getD 1 [] =
        (m.shown.map escape).getD 1 [] :=
    List.getD_append _ _ _ _ (by rw [List.length_map]; omega)
  rw [parseLine_eq ((splitWhitespace_line m).trans (m.tokens_of_clean h)) (decimal_ne_dash _)
    (decimal_ne_dash _) (device_ne_dash _) (parseMajorMinor_decimal m.device) hidx
    (by simp [Mount.shown]; omega), hbehind 0, hbehind 1, hsecond, decode_getD_map_escape]
  by_cases hshort : m.behind.length < 2
  · rw [if_pos (by simp; omega), if_pos hshort]
  · rw [if_neg (by simp; omega), if_neg hshort]

theorem getElem?_eq_some_getD {xs : List (List Char)} {i : ℕ} (h : i < xs.length) :
    xs[i]? = some (xs.getD i []) := by
  rw [List.getD_eq_getElem xs [] h, List.getElem?_eq_getElem h]

theorem plainName_of_behind (hlen : 0 < m.behind.length) (h : m.behind.getD 0 [] = m.fstype) :
    PlainName m.fstype := by
  have hmem : m.fstype ∈ m.behind := by
    rw [← h, List.getD_eq_getElem _ _ hlen]
    exact List.getElem_mem hlen
  have htoken : m.fstype ∈ splitWhitespace m.line := by
    rw [splitWhitespace_line]
    simp [Mount.tokens, hmem]
  have hne : m.fstype ≠ [] := ne_nil_of_mem_words htoken
  have hplain := not_whitespace_of_mem htoken
  have hclean : Clean m.fstype := clean_of_not_whitespace hplain
  -- the type comes back as it was printed, with its escapes
  have hescape : escape m.fstype = m.fstype := by
    unfold Mount.behind at h
    rw [pieces_of_clean hclean hne] at h
    exact h
  refine ⟨hne, fun c hc => ⟨hplain c hc, ?_⟩⟩
  rintro rfl
  exact backslash_notMem_of_escape_eq hescape hc

theorem readable_of_parseLine (h : parseLine m.line = some (m.device.encode, m.info)) :
    m.Readable := by
  obtain ⟨hmountpoint, hsource⟩ := parseLine_clean h
  have hshown : m.shown.length = (pieces m.root).length + 2 := by simp [Mount.shown]
  cases hdash : (pieces m.root).findIdx? (· == ['-']) with
  | none =>
    rw [m.parseLine_of_none hmountpoint hdash] at h
    by_cases hshort : m.behind.length < 2
    · rw [if_pos hshort] at h
      cases h
    · rw [if_neg hshort, Option.some.injEq, Prod.mk.injEq, Mount.info, MountInfo.mk.injEq] at h
      obtain ⟨-, hfstype, -, hroot⟩ := h
      constructor
      · exact hmountpoint
      · rw [getElem?_eq_some_getD (by omega), hroot]
      · intro _
        exact ⟨plainName_of_behind (by omega) hfstype, hsource⟩
      · intro j hj
        rw [hdash] at hj
        cases hj
  | some j =>
    have hlt : j < (pieces m.root).length := (List.findIdx?_eq_some_iff_findIdx_eq.mp hdash).1
    rw [m.parseLine_of_dash hmountpoint hdash, Option.some.injEq, Prod.mk.injEq, Mount.info,
      MountInfo.mk.injEq] at h
    obtain ⟨-, hfstype, hsrc, hroot⟩ := h
    constructor
    · exact hmountpoint
    · rw [getElem?_eq_some_getD (by omega), hroot]
    · intro hnone
      rw [hdash] at hnone
      cases hnone
    · intro i hi
      rw [hdash] at hi
      cases hi
      rw [getElem?_eq_some_getD (by rw [List.length_map]; omega), hfstype,
        getElem?_eq_some_getD (by omega), hsrc]
      exact ⟨rfl, rfl⟩

theorem parseLine_of_readable (h : m.Readable) :
    parseLine m.line = some (m.device.encode, m.info) := by
  have hroot : m.shown.getD 1 [] = m.mountpoint := by
    rw [List.getD_eq_getElem?_getD, h.root]
    rfl
  cases hdash : (pieces m.root).findIdx? (· == ['-']) with
  | none =>
    obtain ⟨⟨hne, hplain⟩, hsource⟩ := h.names hdash
    have hclean : Clean m.fstype := clean_of_not_whitespace fun c hc => (hplain c hc).1
    have hbehind :
        m.behind = m.fstype :: escape m.source :: (pieces m.superOptions).map escape := by
      unfold Mount.behind
      rw [pieces_of_clean hclean hne, pieces_of_clean hsource m.source_ne_nil]
      simp [escape_of_plain hplain]
    rw [m.parseLine_of_none h.mountpoint hdash, hbehind, hroot, if_neg (by simp)]
    simp only [List.getD_cons_succ, List.getD_cons_zero, decodeMountField_escape]
    rfl
  | some j =>
    obtain ⟨hfstype, hsource⟩ := h.accident j hdash
    rw [m.parseLine_of_dash h.mountpoint hdash, hroot, List.getD_eq_getElem?_getD, hfstype,
      List.getD_eq_getElem?_getD, hsource]
    rfl

theorem parseLine_line_iff (m : Mount) :
    parseLine m.line = some (m.device.encode, m.info) ↔ m.Readable :=
  ⟨readable_of_parseLine, parseLine_of_readable⟩

/-- Nothing shifts the device number. -/
theorem device_of_parseLine {dev : ℕ} {info : MountInfo}
    (h : parseLine m.line = some (dev, info)) : dev = m.device.encode := by
  have hdev : (splitWhitespace m.line).getD 2 [] =
      decimal m.device.major ++ ':' :: decimal m.device.minor := by
    rw [splitWhitespace_line]
    rfl
  obtain ⟨hmajorMinor, -⟩ := of_parseLine h
  rw [hdev, parseMajorMinor_decimal] at hmajorMinor
  exact (Except.ok.inj hmajorMinor).symm

theorem newline_notMem_escape (s : List Char) : '\n' ∉ escape s := by
  intro h
  obtain ⟨c, -, hc⟩ := List.mem_flatMap.mp h
  unfold octal at hc
  split_ifs at hc with hspace htab hnl hbackslash
  · exact absurd hc (by decide)
  · exact absurd hc (by decide)
  · exact absurd hc (by decide)
  · exact absurd hc (by decide)
  · exact hnl (List.mem_singleton.mp hc).symm

theorem newline_notMem_word (w : Word) : '\n' ∉ w.chars := by
  intro h
  exact absurd (w.plain _ h).1 (by decide)

theorem newline_notMem_fields {f : List Char} (hf : f ∈ m.fields) : '\n' ∉ f := by
  have hdecimal : ∀ n, '\n' ∉ decimal n := fun n h => absurd (decimal_digits h) (by decide)
  have hdevice : '\n' ∉ decimal m.device.major ++ ':' :: decimal m.device.minor := by
    simp [hdecimal]
  simp only [Mount.fields, List.mem_append, List.mem_cons, List.not_mem_nil, or_false,
    List.mem_map] at hf
  rcases hf with (((rfl | rfl | rfl | rfl | rfl | rfl) | ⟨w, -, rfl⟩) | (rfl | rfl | rfl | rfl))
  · exact hdecimal _
  · exact hdecimal _
  · exact hdevice
  · exact newline_notMem_escape _
  · exact newline_notMem_escape _
  · exact newline_notMem_word _
  · exact newline_notMem_word w
  · decide
  · exact newline_notMem_escape _
  · exact newline_notMem_escape _
  · exact newline_notMem_escape _

theorem newline_notMem_line (m : Mount) : '\n' ∉ m.line :=
  notMem_intercalate (by decide) fun _ hf => newline_notMem_fields hf

/-- No accident is needed when nothing in the line holds white space that stays unescaped. -/
theorem readable_of_clean (hroot : Clean m.root) (hne : m.root ≠ []) (hdash : m.root ≠ ['-'])
    (hmountpoint : Clean m.mountpoint) (hfstype : PlainName m.fstype) (hsource : Clean m.source) :
    m.Readable := by
  have hpieces : pieces m.root = [m.root] := pieces_of_clean hroot hne
  have hnone : (pieces m.root).findIdx? (· == ['-']) = none := by
    simp [hpieces, hdash]
  constructor
  · exact hmountpoint
  · rw [Mount.shown, hpieces]
    rfl
  · intro _
    exact ⟨hfstype, hsource⟩
  · intro j hj
    rw [hnone] at hj
    cases hj

end Lines

/-! ## The table -/

section Table
variable (mounts : List Mount)

/-- What the loop leaves under a device. -/
theorem readMountinfo_apply (content : List Char) (dev : ℕ) :
    readMountinfo content dev = (lines content).filterMap fun line =>
      (parseLine line).bind fun x => if x.1 = dev then some x.2 else none := by
  have hfold : ∀ (ls : List (List Char)) (mounts : ℕ → List MountInfo),
      ls.foldl addLine mounts dev =
        mounts dev ++ ls.filterMap fun line =>
          (parseLine line).bind fun x => if x.1 = dev then some x.2 else none := by
    intro ls
    induction ls with
    | nil =>
      intro mounts
      exact (List.append_nil _).symm
    | cons line ls ih =>
      intro mounts
      rw [List.foldl_cons, ih, List.filterMap_cons, addLine]
      cases parseLine line with
      | none => rfl
      | some x =>
        by_cases hx : x.1 = dev
        · subst hx
          simp
        · simp [hx, Function.update_of_ne (Ne.symm hx)]
  exact hfold (lines content) fun _ => []

theorem readMountinfo_render (d : Device) :
    readMountinfo (render mounts) d.encode =
      (mounts.filter (·.device = d)).filterMap fun m => (parseLine m.line).map Prod.snd := by
  have hlines : lines (render mounts) = (mounts.map Mount.line).map stripCr := by
    have hnl : ∀ l ∈ mounts.map Mount.line, '\n' ∉ l := by
      intro l hl
      obtain ⟨m, -, rfl⟩ := List.mem_map.mp hl
      exact newline_notMem_line m
    rw [← lines_flatMap hnl, List.flatMap_map]
    rfl
  rw [readMountinfo_apply, hlines, List.filterMap_map, List.filterMap_map, List.filterMap_filter]
  apply List.filterMap_congr
  intro m _
  simp only [Function.comp_apply, parseLine_stripCr]
  cases hparse : parseLine m.line with
  | none => simp
  | some x =>
    have hdev := device_of_parseLine hparse
    by_cases hm : m.device = d
    · simp [hdev, hm]
    · have hne : x.1 ≠ d.encode := by
        rw [hdev]
        exact fun h => hm (Device.encode_inj h)
      simp [hne, hm]

/-- Reading the table back gives every device its mounts, in order, exactly when each line is
readable. -/
theorem table_read_back_iff :
    (∀ d : Device, readMountinfo (render mounts) d.encode =
      (mounts.filter (·.device = d)).map Mount.info) ↔ ∀ m ∈ mounts, m.Readable := by
  have hline : ∀ m : Mount,
      (parseLine m.line).map Prod.snd = some m.info ↔ m.Readable := by
    intro m
    rw [← parseLine_line_iff, Option.map_eq_some_iff]
    constructor
    · rintro ⟨x, hx, hinfo⟩
      rw [hx, ← device_of_parseLine hx, ← hinfo]
    · intro hparse
      exact ⟨_, hparse, rfl⟩
  constructor
  · intro h m hm
    have hd := h m.device
    rw [readMountinfo_render, List.filterMap_eq_map_iff_forall_eq_some] at hd
    exact (hline m).mp (hd m (List.mem_filter.mpr ⟨hm, decide_eq_true rfl⟩))
  · intro h d
    rw [readMountinfo_render, List.filterMap_eq_map_iff_forall_eq_some]
    intro m hm
    exact (hline m).mpr (h m (List.mem_filter.mp hm).1)

/-- A mountpoint with a no-break space in it. -/
def noBreakMount : Mount where
  id := 36
  parent := 1
  device := ⟨8, 1, by decide, by decide⟩
  root := ['/']
  mountpoint := "/mnt\u00a0x".toList
  absolute := rfl
  options := ⟨['r', 'w'], ⟨'r', rfl, by decide⟩, by simp [isWhitespace]⟩
  optional := []
  fstype := "ext4".toList
  source := "/dev/sda1".toList
  source_ne_nil := by decide
  superOptions := ['r', 'w']

theorem no_break_space_cuts_mountpoint :
    readMountinfo (render [noBreakMount]) noBreakMount.device.encode =
        [⟨"ext4".toList, "/dev/sda1".toList, "/mnt".toList⟩] ∧
      ([noBreakMount].filter (·.device = noBreakMount.device)).map Mount.info =
        [⟨"ext4".toList, "/dev/sda1".toList, "/mnt\u00a0x".toList⟩] := by
  decide +kernel

end Table

end Manytrace.Bpf.Mounts
