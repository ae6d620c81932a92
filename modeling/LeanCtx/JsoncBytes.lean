import LeanCtx.Jsonc
import LeanCtx.Utf8

/-!
# Reading JSON with comments, byte by byte

The scanners walk over bytes and cut slices out of the text; a slice that does
not start and end between characters makes the program panic. A place in the
text is given here by the bytes from it on. The loop of a block comment stops
one byte before the end of the text, and there a slice is cut.
-/

namespace LeanCtx.JsoncBytes

open Utf8

/-! ## The scanners -/

def quote : UInt8 := 34

def backslash : UInt8 := 92

def slash : UInt8 := 47

def star : UInt8 := 42

def newline : UInt8 := 10

def comma : UInt8 := 44

def closeBrace : UInt8 := 125

def closeBracket : UInt8 := 93

/-- `&input[seg..i]`, by the bytes of the slice and the bytes after it. -/
def slice (segment rest : Bytes) : Option Bytes :=
  if startsChar (segment ++ rest) && startsChar rest then some segment else none

/-- What the loop of a string passes over, and what it leaves. -/
def skipString : Bytes → Bytes × Bytes
  | [] => ([], [])
  | [c] => ([c], [])
  | c :: d :: rest =>
    if c = backslash then (c :: d :: (skipString rest).1, (skipString rest).2)
    else if c = quote then ([c], d :: rest)
    else (c :: (skipString (d :: rest)).1, (skipString (d :: rest)).2)

def skipLine (bytes : Bytes) : Bytes := bytes.dropWhile (· ≠ newline)

def skipBlock : Bytes → Bytes
  | b :: c :: rest => if b = star ∧ c = slash then rest else skipBlock (c :: rest)
  | bytes => bytes

theorem length_skipString_le (bytes : Bytes) : (skipString bytes).2.length ≤ bytes.length := by
  fun_induction skipString bytes with
  | case1 => exact Nat.le_refl _
  | case2 c => exact Nat.zero_le _
  | case3 d rest ih => exact Nat.le_trans ih (Nat.le_add_right _ 2)
  | case4 d rest hquote => exact Nat.le_succ _
  | case5 c d rest hc hquote ih => exact Nat.le_trans ih (Nat.le_succ _)

theorem length_skipBlock_le (bytes : Bytes) : (skipBlock bytes).length ≤ bytes.length := by
  fun_induction skipBlock bytes with
  | case1 b c rest h =>
    rw [List.length_cons, List.length_cons]
    omega
  | case2 b c rest h ih => exact Nat.le_succ_of_le ih
  | case3 bytes h => exact Nat.le_refl _

theorem length_skipLine_le (bytes : Bytes) : (skipLine bytes).length ≤ bytes.length :=
  (List.dropWhile_sublist _).length_le

/-- The loop, with the output so far and the bytes since the last slice. -/
def stripCommentsFrom (out segment : Bytes) : Bytes → Option Bytes
  | [] => (slice segment []).map fun s => out ++ s
  | b :: rest =>
    if b = quote then
      stripCommentsFrom out (segment ++ b :: (skipString rest).1) (skipString rest).2
    else if b = slash ∧ rest.head? = some slash then
      (slice segment (b :: rest)).bind fun s => stripCommentsFrom (out ++ s) [] (skipLine rest.tail)
    else if b = slash ∧ rest.head? = some star then
      (slice segment (b :: rest)).bind fun s => stripCommentsFrom (out ++ s) [] (skipBlock rest.tail)
    else stripCommentsFrom out (segment ++ [b]) rest
termination_by bytes => bytes.length
decreasing_by
  · exact Nat.lt_succ_of_le (length_skipString_le rest)
  · exact Nat.lt_succ_of_le (Nat.le_trans (length_skipLine_le _) (List.tail_sublist rest).length_le)
  · exact Nat.lt_succ_of_le (Nat.le_trans (length_skipBlock_le _) (List.tail_sublist rest).length_le)
  · exact Nat.lt_succ_self _

def stripJsonComments (input : Bytes) : Option Bytes := stripCommentsFrom [] [] input

def isAsciiWhitespace (b : UInt8) : Bool := b = 32 || b = 9 || b = 10 || b = 12 || b = 13

def closes (rest : Bytes) : Bool :=
  let next := (rest.dropWhile isAsciiWhitespace).head?
  next = some closeBrace || next = some closeBracket

def stripCommasFrom (out segment : Bytes) : Bytes → Option Bytes
  | [] => (slice segment []).map fun s => out ++ s
  | b :: rest =>
    if b = quote then
      stripCommasFrom out (segment ++ b :: (skipString rest).1) (skipString rest).2
    else if b = comma ∧ closes rest = true then
      (slice segment (b :: rest)).bind fun s => stripCommasFrom (out ++ s) [] rest
    else stripCommasFrom out (segment ++ [b]) rest
termination_by bytes => bytes.length
decreasing_by
  · exact Nat.lt_succ_of_le (length_skipString_le rest)
  · exact Nat.lt_succ_self _
  · exact Nat.lt_succ_self _

def stripTrailingCommas (input : Bytes) : Option Bytes := stripCommasFrom [] [] input

/-- `none` is a panic; `serde_json` itself does not panic. -/
def parseJsonc {R : Type} (fromStr : Bytes → R) (input : Text) : Option R := do
  let stripped ← stripJsonComments (encode (Jsonc.stripBom input))
  let cleaned ← stripTrailingCommas stripped
  return fromStr cleaned

/-! ## Where a text ends -/

open Jsonc (Mode)

/-- Whether the text ends inside a block comment. -/
@[simp]
def leavesOpen : Mode → Text → Bool
  | .code, '"' :: rest => leavesOpen .string rest
  | .code, '/' :: '/' :: rest => leavesOpen .line rest
  | .code, '/' :: '*' :: rest => leavesOpen .block rest
  | .code, _ :: rest => leavesOpen .code rest
  | .string, '\\' :: _ :: rest => leavesOpen .string rest
  | .string, '"' :: rest => leavesOpen .code rest
  | .string, _ :: rest => leavesOpen .string rest
  | .line, '\n' :: rest => leavesOpen .code rest
  | .line, _ :: rest => leavesOpen .line rest
  | .block, '*' :: '/' :: rest => leavesOpen .code rest
  | .block, _ :: rest => leavesOpen .block rest
  | .block, [] => true
  | _, [] => false

/-! ## Bytes of characters -/

theorem encode_ascii {c : Char} (h : c.toNat < 128) (s : Text) :
    encode (c :: s) = UInt8.ofNat c.toNat :: encode s := by
  rw [encode_cons, utf8EncodeChar_ascii h, List.singleton_append]

/-- A byte that a scanner looks for is its character, wherever it stands. -/
theorem ne_of_mem {b : UInt8} {c d : Char} (hb : b ∈ String.utf8EncodeChar c) (hne : c ≠ d)
    (hd : d.toNat < 128) : b ≠ UInt8.ofNat d.toNat := by
  rintro rfl
  have hlow : (UInt8.ofNat d.toNat).toNat = d.toNat := by
    rw [UInt8.toNat_ofNat']
    omega
  exact hne (Char.toNat_inj.mp ((eq_of_mem_utf8EncodeChar hb (by omega)).trans hlow))

theorem ne_quote {b : UInt8} {c : Char} (hb : b ∈ String.utf8EncodeChar c) (h : c ≠ '"') :
    b ≠ quote :=
  ne_of_mem hb h (by decide)

theorem ne_backslash {b : UInt8} {c : Char} (hb : b ∈ String.utf8EncodeChar c) (h : c ≠ '\\') :
    b ≠ backslash :=
  ne_of_mem hb h (by decide)

theorem ne_slash {b : UInt8} {c : Char} (hb : b ∈ String.utf8EncodeChar c) (h : c ≠ '/') :
    b ≠ slash :=
  ne_of_mem hb h (by decide)

theorem ne_star {b : UInt8} {c : Char} (hb : b ∈ String.utf8EncodeChar c) (h : c ≠ '*') :
    b ≠ star :=
  ne_of_mem hb h (by decide)

theorem head?_encode {s : Text} {d : Char} (hd : d.toNat < 128) :
    (encode s).head? = some (UInt8.ofNat d.toNat) ↔ s.head? = some d := by
  cases s with
  | nil => simp
  | cons c s =>
    rw [encode_cons, List.head?_cons, Option.some.injEq]
    constructor
    · intro h
      by_contra hne
      obtain ⟨b, conts, hbytes, -⟩ := utf8EncodeChar_eq_cons c
      rw [hbytes, List.cons_append, List.head?_cons, Option.some.injEq] at h
      exact ne_of_mem (by rw [hbytes]; exact List.mem_cons_self) hne hd h
    · rintro rfl
      rw [utf8EncodeChar_ascii hd]
      rfl

/-! ## Strings -/

/-- The same loop over characters. -/
def splitString : Text → Text × Text
  | [] => ([], [])
  | [c] => ([c], [])
  | c :: d :: rest =>
    if c = '\\' then (c :: d :: (splitString rest).1, (splitString rest).2)
    else if c = '"' then ([c], d :: rest)
    else (c :: (splitString (d :: rest)).1, (splitString (d :: rest)).2)

theorem skipString_cons {b : UInt8} (hquote : b ≠ quote) (hbackslash : b ≠ backslash)
    (bytes : Bytes) :
    skipString (b :: bytes) = (b :: (skipString bytes).1, (skipString bytes).2) := by
  cases bytes with
  | nil => rfl
  | cons d rest => rw [skipString, if_neg hbackslash, if_neg hquote]

theorem skipString_append {front : Bytes} (h : ∀ b ∈ front, b ≠ quote ∧ b ≠ backslash)
    (bytes : Bytes) :
    skipString (front ++ bytes) = (front ++ (skipString bytes).1, (skipString bytes).2) := by
  induction front with
  | nil => rfl
  | cons b front ih =>
    obtain ⟨hb, hfront⟩ := List.forall_mem_cons.mp h
    rw [List.cons_append, skipString_cons hb.1 hb.2, ih hfront, List.cons_append]

theorem not_looked_for {b : UInt8} (h : isContinuation b = true) : b ≠ quote ∧ b ≠ backslash := by
  constructor
  · rintro rfl
    exact absurd h (by decide)
  · rintro rfl
    exact absurd h (by decide)

theorem skipString_char {c : Char} (hquote : c ≠ '"') (hbackslash : c ≠ '\\') (s : Text) :
    skipString (encode (c :: s)) =
      (String.utf8EncodeChar c ++ (skipString (encode s)).1, (skipString (encode s)).2) := by
  rw [encode_cons]
  exact skipString_append (fun b hb => ⟨ne_quote hb hquote, ne_backslash hb hbackslash⟩) _

theorem skipString_encode (s : Text) :
    skipString (encode s) = (encode (splitString s).1, encode (splitString s).2) := by
  fun_induction splitString s with
  | case1 => rfl
  | case2 c =>
    by_cases hquote : c = '"'
    · subst hquote
      rfl
    · by_cases hbackslash : c = '\\'
      · subst hbackslash
        rfl
      · rw [skipString_char hquote hbackslash]
        rfl
  | case3 d rest ih =>
    obtain ⟨b, conts, hbytes, -, hconts⟩ := utf8EncodeChar_eq_cons d
    have hskip := skipString_append (fun b' hb' => not_looked_for (hconts b' hb')) (encode rest)
    rw [encode_ascii (by decide), encode_cons, hbytes, List.cons_append]
    unfold skipString
    rw [if_pos (by rfl), hskip, ih, encode_ascii (by decide), encode_cons, hbytes, List.cons_append]
  | case4 d rest hquote =>
    rw [encode_ascii (by decide)]
    obtain ⟨b, conts, hbytes, -⟩ := utf8EncodeChar_eq_cons d
    rw [encode_cons, hbytes, List.cons_append]
    rfl
  | case5 c d rest hc hquote ih => rw [skipString_char hquote hc, ih, encode_cons]

theorem splitString_append (s : Text) : (splitString s).1 ++ (splitString s).2 = s := by
  fun_induction splitString s with
  | case1 => rfl
  | case2 c => rfl
  | case3 d rest ih => simpa using ih
  | case4 d rest hquote => rfl
  | case5 c d rest hc hquote ih => simpa using ih

theorem stripComments_string (s : Text) : Jsonc.stripComments .string s =
    (splitString s).1 ++ Jsonc.stripComments .code (splitString s).2 := by
  fun_induction splitString s with
  | case1 => rfl
  | case2 c => by_cases hc : c = '"' <;> simp [hc]
  | case3 d rest ih => simpa using ih
  | case4 d rest hquote => rfl
  | case5 c d rest hc hquote ih => rw [Jsonc.copies_comments.copies c _ hquote hc, ih, List.cons_append]

theorem leavesOpen_string (s : Text) :
    leavesOpen .string s = leavesOpen .code (splitString s).2 := by
  fun_induction splitString s with
  | case1 => rfl
  | case2 c => by_cases hc : c = '"' <;> simp [hc]
  | case3 d rest ih => simpa using ih
  | case4 d rest hquote => rfl
  | case5 c d rest hc hquote ih => simpa [hc, hquote] using ih

theorem stripCommas_string (s : Text) : Jsonc.stripCommas true s =
    (splitString s).1 ++ Jsonc.stripCommas false (splitString s).2 := by
  fun_induction splitString s with
  | case1 => rfl
  | case2 c => by_cases hc : c = '"' <;> simp [hc]
  | case3 d rest ih => simpa using ih
  | case4 d rest hquote => rfl
  | case5 c d rest hc hquote ih => rw [Jsonc.copies_commas.copies c _ hquote hc, ih, List.cons_append]

/-! ## Comments -/

theorem skipLine_encode (s : Text) :
    ∃ front rest, s = front ++ rest ∧ skipLine (encode s) = encode rest ∧
      Jsonc.stripComments .line s = Jsonc.stripComments .code rest ∧
      leavesOpen .line s = leavesOpen .code rest := by
  induction s with
  | nil => exact ⟨[], [], rfl, rfl, rfl, rfl⟩
  | cons c s ih =>
    by_cases hc : c = '\n'
    · subst hc
      exact ⟨[], '\n' :: s, rfl, rfl, rfl, rfl⟩
    · obtain ⟨front, rest, rfl, hskip, hstrip, hopen⟩ := ih
      refine ⟨c :: front, rest, rfl, ?_, ?_, ?_⟩
      · rw [encode_cons, skipLine, List.dropWhile_append_of_pos]
        · exact hskip
        · intro b hb
          exact decide_eq_true (ne_of_mem hb hc (by decide))
      · simpa [hc] using hstrip
      · simpa [hc] using hopen

/-- The rest of the text after the block comment, when it is closed. -/
def splitBlock : Text → Option Text
  | '*' :: '/' :: rest => some rest
  | _ :: rest => splitBlock rest
  | [] => none

theorem skipBlock_append {front : Bytes} (h : ∀ b ∈ front, b ≠ star) {bytes : Bytes}
    (hbytes : bytes ≠ []) : skipBlock (front ++ bytes) = skipBlock bytes := by
  induction front with
  | nil => rfl
  | cons b front ih =>
    obtain ⟨hb, hfront⟩ := List.forall_mem_cons.mp h
    obtain ⟨b', rest, heq⟩ := List.exists_cons_of_ne_nil
      (List.append_ne_nil_of_right_ne_nil front hbytes)
    rw [← ih hfront, List.cons_append, heq, skipBlock, if_neg fun hstar => hb hstar.1]

theorem skipBlock_char {c : Char} {s : Text} (hs : s ≠ []) (h : c = '*' → s.head? ≠ some '/') :
    skipBlock (encode (c :: s)) = skipBlock (encode s) := by
  have hne : encode s ≠ [] := fun heq => hs (encode_eq_nil.mp heq)
  by_cases hc : c = '*'
  · have hslash : (encode s).head? ≠ some slash :=
      fun heq => h hc ((head?_encode (by decide)).mp heq)
    subst hc
    rw [encode_ascii (by decide)]
    obtain ⟨b, rest, hbytes⟩ := List.exists_cons_of_ne_nil hne
    rw [hbytes] at hslash ⊢
    rw [skipBlock, if_neg fun hclose => hslash (by rw [hclose.2]; rfl)]
  · rw [encode_cons]
    exact skipBlock_append (fun b hb => ne_star hb hc) hne

theorem splitBlock_char {c : Char} {s : Text} (h : c = '*' → s.head? ≠ some '/') :
    splitBlock (c :: s) = splitBlock s := by
  rw [splitBlock]
  rintro rest rfl rfl
  exact h rfl rfl

/-- An open comment leaves the last byte of the text. -/
theorem skipBlock_encode (s : Text) :
    (∀ rest, splitBlock s = some rest → skipBlock (encode s) = encode rest) ∧
      (splitBlock s = none → ∀ c, s.getLast? = some c →
        ∃ front b, String.utf8EncodeChar c = front ++ [b] ∧ skipBlock (encode s) = [b]) := by
  induction s with
  | nil => exact ⟨nofun, fun _ => nofun⟩
  | cons c s ih =>
    by_cases hclose : c = '*' ∧ s.head? = some '/'
    · obtain ⟨rfl, hhead⟩ := hclose
      obtain ⟨rest, rfl⟩ := List.head?_eq_some_iff.mp hhead
      refine ⟨?_, nofun⟩
      intro rest' hrest
      obtain rfl := Option.some.inj hrest
      rw [encode_ascii (by decide), encode_ascii (by decide)]
      rfl
    · have hpass : c = '*' → s.head? ≠ some '/' := fun hc hhead => hclose ⟨hc, hhead⟩
      rw [splitBlock_char hpass]
      by_cases hs : s = []
      · subst hs
        refine ⟨nofun, ?_⟩
        intro _ c' hc'
        obtain rfl := Option.some.inj hc'
        by_cases hc : c = '*'
        · subst hc
          exact ⟨[], star, rfl, rfl⟩
        · have hsplit := List.dropLast_concat_getLast (utf8EncodeChar_ne_nil c)
          refine ⟨_, _, hsplit.symm, ?_⟩
          rw [encode_cons, encode_nil, List.append_nil]
          nth_rewrite 1 [← hsplit]
          apply skipBlock_append _ (List.cons_ne_nil _ _)
          exact fun b hb => ne_star ((List.dropLast_sublist _).mem hb) hc
      · rw [skipBlock_char hs hpass]
        refine ⟨ih.1, ?_⟩
        intro hopen c' hc'
        obtain ⟨d, s', rfl⟩ := List.exists_cons_of_ne_nil hs
        rw [List.getLast?_cons_cons] at hc'
        exact ih.2 hopen c' hc'

theorem stripComments_block (s : Text) :
    (∀ rest, splitBlock s = some rest →
      Jsonc.stripComments .block s = Jsonc.stripComments .code rest ∧
        leavesOpen .block s = leavesOpen .code rest ∧ ∃ front, s = front ++ rest) ∧
      (splitBlock s = none → leavesOpen .block s = true ∧
        Jsonc.stripComments .block s = s.getLast?.toList) := by
  induction s with
  | nil => exact ⟨nofun, fun _ => ⟨rfl, rfl⟩⟩
  | cons c s ih =>
    by_cases hclose : c = '*' ∧ s.head? = some '/'
    · obtain ⟨rfl, hhead⟩ := hclose
      obtain ⟨rest, rfl⟩ := List.head?_eq_some_iff.mp hhead
      refine ⟨?_, nofun⟩
      intro rest' hrest
      obtain rfl := Option.some.inj hrest
      exact ⟨by simp, by simp, ['*', '/'], rfl⟩
    · have hpass : c = '*' → s.head? ≠ some '/' := fun hc hhead => hclose ⟨hc, hhead⟩
      have hnot : ∀ rest, c = '*' → s = '/' :: rest → False := by
        rintro rest hc rfl
        exact hpass hc rfl
      have hopen : leavesOpen .block (c :: s) = leavesOpen .block s := by
        rw [leavesOpen]
        exact hnot
      rw [splitBlock_char hpass, hopen]
      by_cases hs : s = []
      · subst hs
        exact ⟨nofun, fun _ => ⟨rfl, by simp⟩⟩
      · have hstrip : Jsonc.stripComments .block (c :: s) = Jsonc.stripComments .block s := by
          rw [Jsonc.stripComments]
          · exact hnot
          · exact hs
        rw [hstrip]
        refine ⟨?_, ?_⟩
        · intro rest hrest
          obtain ⟨hrest', hopen', front, rfl⟩ := ih.1 rest hrest
          exact ⟨hrest', hopen', c :: front, rfl⟩
        · intro hnone
          obtain ⟨d, s', rfl⟩ := List.exists_cons_of_ne_nil hs
          rw [List.getLast?_cons_cons]
          exact ih.2 hnone

/-! ## The slices -/

/-- The text ends inside a block comment, with a character that is not ASCII. -/
def EndsCut (m : Mode) (s : Text) : Prop :=
  leavesOpen m s = true ∧ ∃ c, s.getLast? = some c ∧ 128 ≤ c.toNat

theorem endsCut_append {m m' : Mode} (front : Text) {rest : Text}
    (hopen : leavesOpen m (front ++ rest) = leavesOpen m' rest)
    (hempty : leavesOpen m' [] = false) : EndsCut m (front ++ rest) ↔ EndsCut m' rest := by
  unfold EndsCut
  rw [hopen]
  by_cases hrest : rest = []
  · rw [hrest, hempty]
    simp
  · rw [List.getLast?_append_of_ne_nil _ hrest]

theorem slice_encode (segment rest : Text) :
    slice (encode segment) (encode rest) = some (encode segment) := by
  rw [slice, ← encode_append, startsChar_encode, startsChar_encode]
  rfl

theorem stripCommentsFrom_append {front : Bytes} (h : ∀ b ∈ front, b ≠ quote ∧ b ≠ slash)
    (out segment bytes : Bytes) : stripCommentsFrom out segment (front ++ bytes) =
      stripCommentsFrom out (segment ++ front) bytes := by
  induction front generalizing segment with
  | nil => rw [List.nil_append, List.append_nil]
  | cons b front ih =>
    obtain ⟨hb, hfront⟩ := List.forall_mem_cons.mp h
    rw [List.cons_append, stripCommentsFrom, if_neg hb.1, if_neg fun hslash => hb.2 hslash.1,
      if_neg fun hslash => hb.2 hslash.1, ih hfront, List.append_assoc, List.singleton_append]

/-- What the loop makes of a text: nothing when a slice is cut, else what the scanner of characters
makes of it. -/
def Strips (out : Bytes) (segment s : Text) : Prop :=
  (EndsCut .code s → stripCommentsFrom out (encode segment) (encode s) = none) ∧
    (¬ EndsCut .code s → stripCommentsFrom out (encode segment) (encode s) =
      some (out ++ encode (segment ++ Jsonc.stripComments .code s)))

/-- A step of the loop reduces one text to another. -/
theorem Strips.step {out : Bytes} {segment s : Text} (out' : Bytes) (segment' s' : Text)
    (hstep : stripCommentsFrom out (encode segment) (encode s) =
      stripCommentsFrom out' (encode segment') (encode s'))
    (hcut : EndsCut .code s ↔ EndsCut .code s')
    (hout : out ++ encode (segment ++ Jsonc.stripComments .code s) =
      out' ++ encode (segment' ++ Jsonc.stripComments .code s'))
    (h : Strips out' segment' s') : Strips out segment s := by
  unfold Strips
  rw [hstep, hcut, hout]
  exact h

theorem strips_nil (out : Bytes) (segment : Text) : Strips out segment [] := by
  refine ⟨fun h => absurd h.1 (by decide), ?_⟩
  intro _
  have hslice := slice_encode segment []
  rw [encode_nil] at hslice
  rw [encode_nil, stripCommentsFrom, hslice, Option.map_some, Jsonc.stripComments, List.append_nil]

theorem leavesOpen_single (c : Char) : leavesOpen .code [c] = false := by
  by_cases hc : c = '"' <;> simp [hc]

theorem stripComments_single (c : Char) : Jsonc.stripComments .code [c] = [c] := by
  by_cases hc : c = '"' <;> simp [hc]

section

variable {rest : Text}
  (ih : ∀ s : Text, s.length ≤ rest.length → ∀ out segment, Strips out segment s)

include ih

theorem strips_string (out : Bytes) (segment : Text) : Strips out segment ('"' :: rest) := by
  have hsplit : '"' :: rest = ('"' :: (splitString rest).1) ++ (splitString rest).2 := by
    rw [List.cons_append, splitString_append]
  have hlen : (splitString rest).2.length ≤ rest.length := by
    have happend := congrArg List.length (splitString_append rest)
    rw [List.length_append] at happend
    omega
  refine Strips.step out (segment ++ '"' :: (splitString rest).1) _ ?_ ?_ ?_
    (ih _ hlen out _)
  · rw [encode_ascii (by decide), stripCommentsFrom, if_pos (by rfl), skipString_encode,
      encode_append, encode_ascii (by decide)]
  · rw [hsplit]
    apply endsCut_append _ _ rfl
    rw [← hsplit, leavesOpen, leavesOpen_string]
  · rw [Jsonc.stripComments, stripComments_string, List.append_assoc, List.cons_append]

theorem strips_line (out : Bytes) (segment : Text) : Strips out segment ('/' :: '/' :: rest) := by
  obtain ⟨front, rest', rfl, hskip, hstrip, hopen⟩ := skipLine_encode rest
  have hslice := slice_encode segment ('/' :: '/' :: (front ++ rest'))
  rw [encode_ascii (by decide), encode_ascii (by decide)] at hslice
  refine Strips.step (out ++ encode segment) [] _ ?_ ?_ ?_
    (ih rest' (by simp) _ _)
  · rw [encode_ascii (by decide), encode_ascii (by decide), stripCommentsFrom, if_neg (by decide),
      if_pos ⟨by rfl, by rfl⟩, hslice, Option.bind_some, List.tail_cons, hskip]
    rfl
  · apply endsCut_append ('/' :: '/' :: front) _ rfl
    rw [List.cons_append, List.cons_append, leavesOpen, hopen]
  · rw [Jsonc.stripComments, hstrip, encode_append, List.nil_append, List.append_assoc]

theorem strips_block (out : Bytes) (segment : Text) : Strips out segment ('/' :: '*' :: rest) := by
  have hslice := slice_encode segment ('/' :: '*' :: rest)
  rw [encode_ascii (by decide), encode_ascii (by decide)] at hslice
  have hstep : stripCommentsFrom out (encode segment) (encode ('/' :: '*' :: rest)) =
      stripCommentsFrom (out ++ encode segment) [] (skipBlock (encode rest)) := by
    rw [encode_ascii (by decide), encode_ascii (by decide), stripCommentsFrom, if_neg (by decide),
      if_neg (fun h => absurd h.2 (by rw [List.head?_cons]; decide)), if_pos ⟨by rfl, by rfl⟩, hslice,
      Option.bind_some, List.tail_cons]
  obtain ⟨hclosed, hunclosed⟩ := stripComments_block rest
  obtain ⟨hskip, hlast⟩ := skipBlock_encode rest
  cases hsplit : splitBlock rest with
  | some rest' =>
    obtain ⟨hstrip, hopen, front, rfl⟩ := hclosed rest' hsplit
    refine Strips.step (out ++ encode segment) [] _ ?_ ?_ ?_
      (ih rest' (by simp) _ _)
    · rw [hstep, hskip rest' hsplit]
      rfl
    · apply endsCut_append ('/' :: '*' :: front) _ rfl
      rw [List.cons_append, List.cons_append, leavesOpen, hopen]
    · rw [Jsonc.stripComments, hstrip, encode_append, List.nil_append, List.append_assoc]
  | none =>
    obtain ⟨hopen, hstrip⟩ := hunclosed hsplit
    have hleaves : leavesOpen .code ('/' :: '*' :: rest) = true := by rw [leavesOpen, hopen]
    cases hrest : rest.getLast? with
    | none =>
      obtain rfl := List.getLast?_eq_none_iff.mp hrest
      refine Strips.step (out ++ encode segment) [] [] hstep ?_ ?_
        (strips_nil _ _)
      · exact ⟨fun h => absurd h (by simp [EndsCut]), fun h => absurd h.1 (by decide)⟩
      · rw [Jsonc.stripComments, hstrip, encode_append, List.append_assoc]
        rfl
    | some c =>
      obtain ⟨front, b, hbytes, hone⟩ := hlast hsplit c hrest
      have hne : rest ≠ [] := by
        rintro rfl
        cases hrest
      have hgetLast : ('/' :: '*' :: rest).getLast? = some c := by
        rw [← hrest]
        exact List.getLast?_append_of_ne_nil ['/', '*'] hne
      rw [hone] at hstep
      rcases Nat.lt_or_ge c.toNat 128 with hascii | hwide
      · -- the byte is the character, and the loop reads it as code
        have hb : [b] = encode [c] := by
          rw [utf8EncodeChar_ascii hascii] at hbytes
          rw [encode_ascii hascii, encode_nil, hbytes]
          cases front with
          | nil => rfl
          | cons a front =>
            have hlen := congrArg List.length hbytes
            simp at hlen
        rw [hb] at hstep
        refine Strips.step (out ++ encode segment) [] _ hstep ?_ ?_
          (ih [c] (List.length_pos_iff.mpr hne) _ _)
        · refine ⟨?_, fun h => absurd h.1 (by simp [leavesOpen_single])⟩
          rintro ⟨-, c', hc', hwide⟩
          rw [hgetLast] at hc'
          obtain rfl := Option.some.inj hc'
          omega
        · rw [Jsonc.stripComments, hstrip, hrest, stripComments_single, encode_append,
            List.append_assoc]
          rfl
      · obtain ⟨lead, conts, hchar, hconts, -, hcont⟩ := utf8EncodeChar_wide hwide
        have hb : isContinuation b = true := by
          apply hcont
          have hends : lead :: conts = (lead :: conts.dropLast) ++ [conts.getLast hconts] := by
            rw [List.cons_append, List.dropLast_concat_getLast]
          have heq := (hbytes.symm.trans hchar).trans hends
          rw [(List.cons.inj (List.append_inj' heq rfl).2).1]
          exact List.getLast_mem hconts
        have hnone : stripCommentsFrom (out ++ encode segment) [] [b] = none := by
          have hslash : b ≠ slash := by
            rintro rfl
            exact absurd hb (by decide)
          have hstart : startsChar [b] = false := by rw [startsChar, hb, Bool.not_true]
          rw [stripCommentsFrom, if_neg (not_looked_for hb).1, if_neg fun h => hslash h.1,
            if_neg fun h => hslash h.1, List.nil_append, stripCommentsFrom, slice, List.append_nil,
            hstart]
          rfl
        refine ⟨fun _ => hstep.trans hnone, fun h => absurd ⟨hleaves, c, hgetLast, hwide⟩ h⟩

theorem strips_other {c : Char} (hquote : c ≠ '"')
    (hslash : c = '/' → rest.head? ≠ some '/' ∧ rest.head? ≠ some '*') (out : Bytes)
    (segment : Text) : Strips out segment (c :: rest) := by
  have hline : ∀ rest', c = '/' → rest = '/' :: rest' → False := by
    rintro rest' hc rfl
    exact (hslash hc).1 rfl
  have hblock : ∀ rest', c = '/' → rest = '*' :: rest' → False := by
    rintro rest' hc rfl
    exact (hslash hc).2 rfl
  refine Strips.step out (segment ++ [c]) _ ?_ ?_ ?_ (ih rest le_rfl _ _)
  · by_cases hc : c = '/'
    · have hhead := hslash hc
      subst hc
      rw [encode_ascii (by decide), stripCommentsFrom, if_neg (by decide),
        if_neg fun h => hhead.1 ((head?_encode (by decide)).mp h.2),
        if_neg fun h => hhead.2 ((head?_encode (by decide)).mp h.2), encode_append]
      rfl
    · rw [encode_cons, stripCommentsFrom_append
        (fun b hb => ⟨ne_quote hb hquote, ne_slash hb hc⟩), encode_append, encode_cons, encode_nil,
        List.append_nil]
  · apply endsCut_append [c] _ rfl
    rw [List.singleton_append, leavesOpen]
    · exact hquote
    · exact hline
    · exact hblock
  · rw [Jsonc.stripComments, List.append_assoc, List.singleton_append]
    · exact hquote
    · exact hline
    · exact hblock

end

theorem strips (out : Bytes) (segment s : Text) : Strips out segment s := by
  induction hlen : s.length using Nat.strongRecOn generalizing out segment s with
  | ind n ih =>
    subst hlen
    cases s with
    | nil => exact strips_nil out segment
    | cons c rest =>
      have ih' : ∀ s : Text, s.length ≤ rest.length → ∀ out segment, Strips out segment s :=
        fun s hs out segment => ih s.length (Nat.lt_succ_of_le hs) out segment s rfl
      by_cases hquote : c = '"'
      · subst hquote
        exact strips_string ih' out segment
      · by_cases hline : c = '/' ∧ rest.head? = some '/'
        · obtain ⟨rfl, hhead⟩ := hline
          obtain ⟨rest', rfl⟩ := List.head?_eq_some_iff.mp hhead
          exact strips_line (fun s hs => ih' s (Nat.le_succ_of_le hs)) out segment
        · by_cases hblock : c = '/' ∧ rest.head? = some '*'
          · obtain ⟨rfl, hhead⟩ := hblock
            obtain ⟨rest', rfl⟩ := List.head?_eq_some_iff.mp hhead
            exact strips_block (fun s hs => ih' s (Nat.le_succ_of_le hs)) out segment
          · exact strips_other ih' hquote
              (fun hc => ⟨fun hhead => hline ⟨hc, hhead⟩, fun hhead => hblock ⟨hc, hhead⟩⟩) out
              segment

/-! ## Commas -/

theorem isAsciiWhitespace_char {c : Char} (h : Jsonc.isAsciiWhitespace c = true) :
    c.toNat < 128 ∧ isAsciiWhitespace (UInt8.ofNat c.toNat) = true := by
  simp only [Jsonc.isAsciiWhitespace, Bool.or_eq_true, beq_iff_eq] at h
  rcases h with (((rfl | rfl) | rfl) | rfl) | rfl <;> decide

theorem not_isAsciiWhitespace {c : Char} (h : Jsonc.isAsciiWhitespace c = false) {b : UInt8}
    (hb : b ∈ String.utf8EncodeChar c) : isAsciiWhitespace b = false := by
  simp only [Jsonc.isAsciiWhitespace, Bool.or_eq_false_iff, beq_eq_false_iff_ne] at h
  obtain ⟨⟨⟨⟨hspace, htab⟩, hnewline⟩, hfeed⟩, hreturn⟩ := h
  simp only [isAsciiWhitespace, Bool.or_eq_false_iff, decide_eq_false_iff_not]
  refine ⟨⟨⟨⟨?_, ?_⟩, ?_⟩, ?_⟩, ?_⟩
  · exact ne_of_mem hb hspace (by decide)
  · exact ne_of_mem hb htab (by decide)
  · exact ne_of_mem hb hnewline (by decide)
  · exact ne_of_mem hb hfeed (by decide)
  · exact ne_of_mem hb hreturn (by decide)

theorem dropWhile_encode (s : Text) : (encode s).dropWhile isAsciiWhitespace =
    encode (s.dropWhile Jsonc.isAsciiWhitespace) := by
  induction s with
  | nil => rfl
  | cons c s ih =>
    cases hc : Jsonc.isAsciiWhitespace c with
    | true =>
      obtain ⟨hascii, hbyte⟩ := isAsciiWhitespace_char hc
      rw [encode_ascii hascii, List.dropWhile_cons_of_pos hbyte, List.dropWhile_cons_of_pos hc, ih]
    | false =>
      obtain ⟨b, conts, hbytes, -⟩ := utf8EncodeChar_eq_cons c
      have hb : isAsciiWhitespace b = false :=
        not_isAsciiWhitespace hc (by rw [hbytes]; exact List.mem_cons_self)
      rw [List.dropWhile_cons_of_neg (by rw [hc]; exact Bool.false_ne_true), encode_cons, hbytes,
        List.cons_append, List.dropWhile_cons_of_neg (by rw [hb]; exact Bool.false_ne_true)]

theorem closes_encode (s : Text) : closes (encode s) = Jsonc.closes s := by
  have hchar : ∀ {d : Char} (_ : d.toNat < 128) (t : Text),
      decide ((encode t).head? = some (UInt8.ofNat d.toNat)) = (t.head? == some d) := by
    intro d hd t
    rw [beq_eq_decide]
    exact decide_eq_decide.mpr (head?_encode hd)
  unfold closes Jsonc.closes
  rw [dropWhile_encode]
  exact congrArg₂ (· || ·) (hchar (d := '}') (by decide) _) (hchar (d := ']') (by decide) _)

theorem stripCommasFrom_append {front : Bytes} (h : ∀ b ∈ front, b ≠ quote ∧ b ≠ comma)
    (out segment bytes : Bytes) : stripCommasFrom out segment (front ++ bytes) =
      stripCommasFrom out (segment ++ front) bytes := by
  induction front generalizing segment with
  | nil => rw [List.nil_append, List.append_nil]
  | cons b front ih =>
    obtain ⟨hb, hfront⟩ := List.forall_mem_cons.mp h
    rw [List.cons_append, stripCommasFrom, if_neg hb.1, if_neg fun hcomma => hb.2 hcomma.1, ih hfront,
      List.append_assoc, List.singleton_append]

/-- Commas are dropped between characters, wherever they stand. -/
theorem stripCommasFrom_encode (out : Bytes) (segment s : Text) :
    stripCommasFrom out (encode segment) (encode s) =
      some (out ++ encode (segment ++ Jsonc.stripCommas false s)) := by
  induction hlen : s.length using Nat.strongRecOn generalizing out segment s with
  | ind n ih =>
    subst hlen
    cases s with
    | nil =>
      have hslice := slice_encode segment []
      rw [encode_nil] at hslice
      rw [encode_nil, stripCommasFrom, hslice, Option.map_some, Jsonc.stripCommas, List.append_nil]
    | cons c rest =>
      have hshorter : ∀ (s : Text) (_ : s.length ≤ rest.length) (out : Bytes) (segment : Text),
          stripCommasFrom out (encode segment) (encode s) =
            some (out ++ encode (segment ++ Jsonc.stripCommas false s)) :=
        fun s hs out segment => ih s.length (Nat.lt_succ_of_le hs) out segment s rfl
      by_cases hquote : c = '"'
      · subst hquote
        have hsplit : (splitString rest).2.length ≤ rest.length := by
          have happend := congrArg List.length (splitString_append rest)
          rw [List.length_append] at happend
          omega
        have hrest := hshorter _ hsplit out (segment ++ '"' :: (splitString rest).1)
        rw [encode_append, encode_ascii (by decide)] at hrest
        rw [encode_ascii (by decide), stripCommasFrom, if_pos (by rfl), skipString_encode,
          Jsonc.stripCommas, stripCommas_string]
        refine hrest.trans ?_
        rw [List.append_assoc, List.cons_append]
      · by_cases hcomma : c = ','
        · subst hcomma
          rw [encode_ascii (by decide), stripCommasFrom, if_neg (by decide), closes_encode,
            Jsonc.commas_cons (by decide)]
          cases hcloses : Jsonc.closes rest with
          | true =>
            have hslice := slice_encode segment (',' :: rest)
            rw [encode_ascii (by decide)] at hslice
            rw [if_pos ⟨by rfl, rfl⟩, if_pos ⟨rfl, rfl⟩, hslice, Option.bind_some]
            refine (hshorter rest le_rfl _ []).trans ?_
            rw [List.nil_append, encode_append, List.append_assoc]
          | false =>
            have hrest := hshorter rest le_rfl out (segment ++ [','])
            rw [encode_append] at hrest
            rw [if_neg (by simp), if_neg (by simp)]
            refine hrest.trans ?_
            rw [List.append_assoc, List.singleton_append]
        · have hrest := hshorter rest le_rfl out (segment ++ [c])
          rw [encode_append, encode_cons, encode_nil, List.append_nil] at hrest
          rw [encode_cons, stripCommasFrom_append
            (fun b hb => ⟨ne_quote hb hquote, ne_of_mem hb hcomma (by decide)⟩), hrest,
            Jsonc.commas_cons hquote, if_neg fun h => hcomma h.1, List.append_assoc,
            List.singleton_append]

/-! ## Reading -/

/-- Where no slice is cut, the bytes are read as the characters are. -/
theorem parseJsonc_eq {R : Type} (fromStr : Bytes → R) {input : Text}
    (h : ¬ EndsCut .code (Jsonc.stripBom input)) :
    parseJsonc fromStr input = some (Jsonc.parseJsonc (fun s => fromStr (encode s)) input) := by
  have hsome : stripJsonComments (encode (Jsonc.stripBom input)) = some (encode _) :=
    (strips [] [] (Jsonc.stripBom input)).2 h
  have hcommas := stripCommasFrom_encode [] [] (Jsonc.stripComments .code (Jsonc.stripBom input))
  rw [encode_nil] at hcommas
  rw [parseJsonc, hsome, Option.bind_eq_bind, Option.bind_some, stripTrailingCommas,
    List.nil_append, hcommas]
  rfl

/-- The byte order mark apart, reading returns unless the text ends inside a block comment with a
character that is not ASCII. -/
theorem parseJsonc_isSome_iff {R : Type} (fromStr : Bytes → R) (input : Text) :
    (parseJsonc fromStr input).isSome = true ↔ ¬ EndsCut .code (Jsonc.stripBom input) := by
  by_cases h : EndsCut .code (Jsonc.stripBom input)
  · have hnone : stripJsonComments (encode (Jsonc.stripBom input)) = none :=
      (strips [] [] (Jsonc.stripBom input)).1 h
    rw [parseJsonc, hnone]
    exact ⟨fun hsome => absurd hsome (by simp), fun hnot => absurd h hnot⟩
  · rw [parseJsonc_eq fromStr h]
    exact ⟨fun _ => h, fun _ => rfl⟩

/-- A comment that is left open after a letter outside ASCII. -/
theorem open_comment_panics :
    (parseJsonc (fun bytes => bytes) "\x7b\x7d /* é".toList).isSome = false := by
  decide +kernel

end LeanCtx.JsoncBytes
