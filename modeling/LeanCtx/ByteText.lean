import Mathlib.Data.List.Basic
import Mathlib.Tactic.Common

/-!
# Texts as bytes, and files of lines

A file is a list of bytes. A text is stored as its UTF-8 encoding, and what is
read back as text has to be such an encoding. A file is read line by line: the
lines that a newline ends, and the bytes after the last newline.
-/

namespace LeanCtx.ByteText

abbrev Bytes := List UInt8

def newline : UInt8 := 10

def utf8 (s : String) : Bytes := s.toList.flatMap String.utf8EncodeChar

/-- The text these bytes encode. -/
def fromUtf8 (bytes : Bytes) : Option String := String.fromUTF8? bytes.toByteArray

theorem toByteArray_utf8 (s : String) : (utf8 s).toByteArray = s.toByteArray := by
  rw [← String.utf8Encode_toList, List.utf8Encode, utf8]

theorem utf8_inj {s t : String} (h : utf8 s = utf8 t) : s = t := by
  have hbytes := congrArg List.toByteArray h
  rwa [toByteArray_utf8, toByteArray_utf8, String.toByteArray_inj] at hbytes

theorem fromUtf8_eq_some {bytes : Bytes} {s : String} :
    fromUtf8 bytes = some s ↔ bytes = utf8 s := by
  unfold fromUtf8 String.fromUTF8?
  constructor
  · intro h
    split at h
    · next hvalid =>
      have hs : bytes.toByteArray = s.toByteArray := by
        rw [← Option.some.inj h]
        rfl
      rw [← toByteArray_utf8] at hs
      simpa using congrArg (fun a => a.data.toList) hs
    · cases h
  · rintro rfl
    rw [toByteArray_utf8, dif_pos s.isValidUTF8]
    rfl

@[simp] theorem fromUtf8_utf8 (s : String) : fromUtf8 (utf8 s) = some s :=
  fromUtf8_eq_some.mpr rfl

@[simp] theorem utf8_append (s t : String) : utf8 (s ++ t) = utf8 s ++ utf8 t := by
  simp [utf8]

theorem newline_mem_utf8 {s : String} : newline ∈ utf8 s ↔ '\n' ∈ s.toList := by
  have hchar : ∀ c : Char, newline ∈ String.utf8EncodeChar c ↔ c = '\n' := by
    intro c
    constructor
    · intro hmem
      simp only [String.utf8EncodeChar] at hmem
      have hnewline : newline.toNat = 10 := rfl
      split_ifs at hmem with h₁ h₂ h₃
      · have hval : c.val.toNat = 10 := by
          have := congrArg UInt8.toNat (List.mem_singleton.mp hmem)
          rw [UInt8.toNat_ofNat_of_lt' (Nat.lt_of_le_of_lt h₁ (by decide))] at this
          exact this.symm
        exact Char.ext (UInt32.toNat_inj.mp hval)
      all_goals
        exfalso
        simp only [List.mem_cons, List.not_mem_nil, or_false, ← UInt8.toNat_inj, hnewline,
          UInt8.toNat_ofNat'] at hmem
        omega
    · rintro rfl
      decide
  simp [utf8, hchar]

/-- The characters that `str::trim` removes. -/
def isWhitespace (c : Char) : Bool :=
  (9 ≤ c.toNat && c.toNat ≤ 13) || (0x2000 ≤ c.toNat && c.toNat ≤ 0x200a) ||
    [0x20, 0x85, 0xa0, 0x1680, 0x2028, 0x2029, 0x202f, 0x205f, 0x3000].contains c.toNat

/-- `str::trim`. -/
def trim (s : String) : String :=
  String.ofList ((s.toList.dropWhile isWhitespace).reverse.dropWhile isWhitespace).reverse

/-- The lines ended by a newline, without it, and the bytes after the last newline. -/
def splitLines : Bytes → List Bytes × Bytes
  | [] => ([], [])
  | b :: rest =>
    if b = newline then ([] :: (splitLines rest).1, (splitLines rest).2)
    else match (splitLines rest).1 with
      | [] => ([], b :: (splitLines rest).2)
      | line :: lines => ((b :: line) :: lines, (splitLines rest).2)

theorem splitLines_cons_line {line : Bytes} (h : newline ∉ line) (rest : Bytes) :
    splitLines (line ++ newline :: rest) =
      (line :: (splitLines rest).1, (splitLines rest).2) := by
  induction line with
  | nil => simp [splitLines]
  | cons b line ih =>
    have hb : b ≠ newline := fun e => h (e ▸ List.mem_cons_self)
    have hline : newline ∉ line := fun hmem => h (List.mem_cons_of_mem _ hmem)
    rw [List.cons_append, splitLines, if_neg hb, ih hline]

theorem splitLines_tail {tail : Bytes} (h : newline ∉ tail) : splitLines tail = ([], tail) := by
  induction tail with
  | nil => rfl
  | cons b tail ih =>
    have hb : b ≠ newline := fun e => h (e ▸ List.mem_cons_self)
    have htail : newline ∉ tail := fun hmem => h (List.mem_cons_of_mem _ hmem)
    rw [splitLines, if_neg hb, ih htail]

/-- Bytes that end on a line boundary are cut off without splitting a line. -/
theorem splitLines_append {bytes : Bytes} (h : (splitLines bytes).2 = []) (rest : Bytes) :
    splitLines (bytes ++ rest) =
      ((splitLines bytes).1 ++ (splitLines rest).1, (splitLines rest).2) := by
  induction bytes with
  | nil => rfl
  | cons b bytes ih =>
    rw [List.cons_append, splitLines, splitLines]
    rw [splitLines] at h
    split_ifs at h ⊢ with hb
    · rw [ih h]
      rfl
    · cases hlines : (splitLines bytes).1 with
      | nil => simp [hlines] at h
      | cons line lines =>
        rw [hlines] at h
        rw [ih h, hlines]
        rfl

/-- The file that holds the given lines. -/
def joinLines (lines : List Bytes) : Bytes := lines.flatMap (· ++ [newline])

theorem splitLines_joinLines_append {lines : List Bytes} (h : ∀ l ∈ lines, newline ∉ l)
    (rest : Bytes) :
    splitLines (joinLines lines ++ rest) = (lines ++ (splitLines rest).1, (splitLines rest).2) := by
  induction lines with
  | nil => simp [joinLines]
  | cons line lines ih =>
    have hrest := ih fun l hl => h l (List.mem_cons_of_mem _ hl)
    rw [joinLines, List.flatMap_cons, List.append_assoc, List.append_assoc, List.singleton_append,
      splitLines_cons_line (h line List.mem_cons_self)]
    change (line :: (splitLines (joinLines lines ++ rest)).1,
      (splitLines (joinLines lines ++ rest)).2) = _
    rw [hrest]
    rfl

theorem splitLines_joinLines {lines : List Bytes} (h : ∀ l ∈ lines, newline ∉ l) :
    splitLines (joinLines lines) = (lines, []) := by
  have hall := splitLines_joinLines_append h []
  rwa [List.append_nil, splitLines, List.append_nil] at hall

/-- A file is its lines followed by what stands after the last newline. -/
theorem joinLines_splitLines (bytes : Bytes) :
    joinLines (splitLines bytes).1 ++ (splitLines bytes).2 = bytes := by
  induction bytes with
  | nil => rfl
  | cons b rest ih =>
    rw [splitLines]
    split_ifs with hb
    · subst hb
      simpa [joinLines] using ih
    · cases hlines : (splitLines rest).1 with
      | nil => simpa [joinLines, hlines] using ih
      | cons line lines => simpa [joinLines, hlines] using ih

end LeanCtx.ByteText
