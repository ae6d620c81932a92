import LeanCtx.ByteText
import Mathlib.Algebra.Order.Ring.Nat
import Mathlib.Data.List.DropRight

/-!
# Words of a command segment

The gate cuts a segment into words as a shell would: quotes and backslashes are
removed, and the assignments before the command are passed over. Words in single
quotes come back as they are.
-/

namespace LeanCtx.ShellAllowlist

open ByteText (isWhitespace)

abbrev Text := List Char

/-! ## Cutting a segment into words -/

/-- What the tokenizer is inside of. -/
structure Quoting where
  inSingle : Bool
  inDouble : Bool
  parameterDepth : ℕ
deriving DecidableEq

def Quoting.none : Quoting := ⟨false, false, 0⟩

/-- The characters a backslash escapes inside double quotes. -/
def escapedInDouble : List Char := ['$', '`', '"', '\\', '\n']

@[simp]
def shellTokenizeFrom (q : Quoting) (current : Text) : Text → List Text
  | [] => if current = [] then [] else [current]
  | c :: rest =>
    if c = '\'' ∧ q.inDouble = false then
      shellTokenizeFrom { q with inSingle := !q.inSingle } current rest
    else if c = '"' ∧ q.inSingle = false then
      shellTokenizeFrom { q with inDouble := !q.inDouble } current rest
    else if c = '\\' ∧ q.inSingle = false then
      match rest with
      | [] => shellTokenizeFrom q (if q.inDouble then current ++ ['\\'] else current) []
      | next :: rest =>
        if q.inDouble = false ∨ next ∈ escapedInDouble then
          shellTokenizeFrom q (current ++ [next]) rest
        else shellTokenizeFrom q (current ++ ['\\']) (next :: rest)
    else if c = '$' ∧ q.inSingle = false ∧ rest.head? = some '{' then
      shellTokenizeFrom { q with parameterDepth := q.parameterDepth + 1 } (current ++ [c]) rest
    else if c = '}' ∧ q.inSingle = false ∧ 0 < q.parameterDepth then
      shellTokenizeFrom { q with parameterDepth := q.parameterDepth - 1 } (current ++ [c]) rest
    else if isWhitespace c ∧ q.inSingle = false ∧ q.inDouble = false ∧ q.parameterDepth = 0 then
      if current = [] then shellTokenizeFrom q [] rest
      else current :: shellTokenizeFrom q [] rest
    else shellTokenizeFrom q (current ++ [c]) rest

/-- The words of a segment. -/
def shellTokenize (input : Text) : List Text := shellTokenizeFrom .none [] input

def isAsciiWhitespace (c : Char) : Bool := c ∈ [' ', '\t', '\n', '\x0c', '\r']

/-- The length of the first word with its quotes; parentheses hold a word together. -/
@[simp]
def quoteAwareTokenEndFrom (q : Quoting) (parenDepth : ℕ) : Text → ℕ
  | [] => 0
  | c :: rest =>
    if c = '\'' ∧ q.inDouble = false then
      1 + quoteAwareTokenEndFrom { q with inSingle := !q.inSingle } parenDepth rest
    else if c = '"' ∧ q.inSingle = false then
      1 + quoteAwareTokenEndFrom { q with inDouble := !q.inDouble } parenDepth rest
    else if c = '\\' ∧ q.inSingle = false then
      match rest with
      | [] => 1
      | _ :: rest => 2 + quoteAwareTokenEndFrom q parenDepth rest
    else if c = '(' ∧ q.inSingle = false ∧ q.inDouble = false then
      1 + quoteAwareTokenEndFrom q (parenDepth + 1) rest
    else if c = ')' ∧ q.inSingle = false ∧ q.inDouble = false ∧ 0 < parenDepth then
      1 + quoteAwareTokenEndFrom q (parenDepth - 1) rest
    else if c = '$' ∧ q.inSingle = false ∧ q.inDouble = false ∧ rest.head? = some '{' then
      1 + quoteAwareTokenEndFrom { q with parameterDepth := q.parameterDepth + 1 } parenDepth rest
    else if c = '}' ∧ q.inSingle = false ∧ 0 < q.parameterDepth then
      1 + quoteAwareTokenEndFrom { q with parameterDepth := q.parameterDepth - 1 } parenDepth rest
    else if isAsciiWhitespace c ∧ q.inSingle = false ∧ q.inDouble = false ∧ parenDepth = 0 ∧
        q.parameterDepth = 0 then 0
    else 1 + quoteAwareTokenEndFrom q parenDepth rest

def quoteAwareTokenEnd (input : Text) : ℕ := quoteAwareTokenEndFrom .none 0 input

/-! ## The assignments before a command -/

def trimStart (s : Text) : Text := s.dropWhile isWhitespace

def trim (s : Text) : Text := (trimStart s).rdropWhile isWhitespace

/-- `str::split_once` on a character. -/
def splitOnce (c : Char) (s : Text) : Option (Text × Text) :=
  if c ∈ s then some (s.takeWhile (· ≠ c), (s.dropWhile (· ≠ c)).tail) else none

/-- The last component of a path (`rsplit('/').next()`). -/
def baseName (word : Text) : Text := word.rtakeWhile (· ≠ '/')

def isAsciiAlphabetic (c : Char) : Bool := ('a' ≤ c ∧ c ≤ 'z') ∨ ('A' ≤ c ∧ c ≤ 'Z')

def isNameStart (c : Char) : Bool := isAsciiAlphabetic c || c = '_'

def isNameChar (c : Char) : Bool := isNameStart c || ('0' ≤ c ∧ c ≤ '9')

/-- `NAME=VALUE` with a valid shell variable name. -/
def isAssignment (word : Text) : Bool :=
  (splitOnce '=' word).any fun p => p.1.head?.any isNameStart && p.1.all isNameChar

def envSettingBuiltins : List Text :=
  ["export", "unset", "readonly", "local", "declare", "typeset"].map String.toList

/-- Whether a word, with its quotes taken out, is passed over before the command. -/
def skipped (rawToken : Text) : Bool :=
  let unquoted := rawToken.filter fun c => c ≠ '"' && c ≠ '\''
  envSettingBuiltins.contains (baseName unquoted) || isAssignment unquoted

theorem length_trimStart_le (s : Text) : (trimStart s).length ≤ s.length :=
  (List.dropWhile_sublist _).length_le

def skipEnvAssignments (segment : Text) : Text :=
  if trimStart segment = [] ∨ quoteAwareTokenEnd (trimStart segment) = 0 then trimStart segment
  else if skipped ((trimStart segment).take (quoteAwareTokenEnd (trimStart segment))) then
    skipEnvAssignments ((trimStart segment).drop (quoteAwareTokenEnd (trimStart segment)))
  else trimStart segment
termination_by segment.length
decreasing_by
  have hle := length_trimStart_le segment
  have hpos : 0 < (trimStart segment).length := by
    apply List.length_pos_of_ne_nil
    tauto
  rw [List.length_drop]
  omega

/-- The command of a segment and its arguments. -/
def heardWords (segment : Text) : List Text := shellTokenize (skipEnvAssignments (trim segment))

/-! ## Raw words and what they read as -/

def blankJoin (words : List Text) : Text := [' '].intercalate words

@[simp] theorem blankJoin_nil : blankJoin [] = [] := rfl

@[simp] theorem blankJoin_singleton (word : Text) : blankJoin [word] = word := by
  simp [blankJoin]

@[simp] theorem blankJoin_cons_cons (word next : Text) (words : List Text) :
    blankJoin (word :: next :: words) = word ++ ' ' :: blankJoin (next :: words) := by
  simp [blankJoin, List.intercalate_cons_cons]

/-- A raw word that the tokenizer reads as `word`, in one piece, wherever it stands. -/
structure ReadsAs (raw word : Text) : Prop where
  tokens : ∀ current rest, shellTokenizeFrom .none current (raw ++ rest) =
    shellTokenizeFrom .none (current ++ word) rest
  tokenEnd : ∀ rest, quoteAwareTokenEndFrom .none 0 (raw ++ rest) =
    raw.length + quoteAwareTokenEndFrom .none 0 rest
  first : ∃ c tail, raw = c :: tail ∧ isWhitespace c = false
  last : ∃ c front, raw = front ++ [c] ∧ isWhitespace c = false
  nonempty : word ≠ []

section Steps

variable {q : Quoting}

theorem shellTokenizeFrom_quote (hq : q.inDouble = false) (current rest : Text) :
    shellTokenizeFrom q current ('\'' :: rest) =
      shellTokenizeFrom { q with inSingle := !q.inSingle } current rest := by
  rw [shellTokenizeFrom.eq_def]
  simp [hq]

theorem shellTokenizeFrom_escape (hs : q.inSingle = false) (hd : q.inDouble = false)
    (current : Text) (c : Char) (rest : Text) :
    shellTokenizeFrom q current ('\\' :: c :: rest) =
      shellTokenizeFrom q (current ++ [c]) rest := by
  rw [shellTokenizeFrom.eq_def]
  simp [hs, hd]

theorem shellTokenizeFrom_single (hs : q.inSingle = true) {c : Char} (hc : c ≠ '\'')
    (current rest : Text) :
    shellTokenizeFrom q current (c :: rest) = shellTokenizeFrom q (current ++ [c]) rest := by
  rw [shellTokenizeFrom.eq_def]
  simp [hs, hc]

theorem shellTokenizeFrom_blank (current rest : Text) (hne : current ≠ []) :
    shellTokenizeFrom .none current (' ' :: rest) = current :: shellTokenizeFrom .none [] rest := by
  have hblank : isWhitespace ' ' = true := by decide
  rw [shellTokenizeFrom.eq_def]
  simp [Quoting.none, hblank, hne]

theorem quoteAwareTokenEndFrom_quote (hq : q.inDouble = false) (paren : ℕ) (rest : Text) :
    quoteAwareTokenEndFrom q paren ('\'' :: rest) =
      1 + quoteAwareTokenEndFrom { q with inSingle := !q.inSingle } paren rest := by
  rw [quoteAwareTokenEndFrom.eq_def]
  simp [hq]

theorem quoteAwareTokenEndFrom_escape (hs : q.inSingle = false) (paren : ℕ) (c : Char)
    (rest : Text) :
    quoteAwareTokenEndFrom q paren ('\\' :: c :: rest) =
      2 + quoteAwareTokenEndFrom q paren rest := by
  rw [quoteAwareTokenEndFrom.eq_def]
  simp [hs]

theorem quoteAwareTokenEndFrom_single (hs : q.inSingle = true) {c : Char} (hc : c ≠ '\'')
    (paren : ℕ) (rest : Text) :
    quoteAwareTokenEndFrom q paren (c :: rest) = 1 + quoteAwareTokenEndFrom q paren rest := by
  rw [quoteAwareTokenEndFrom.eq_def]
  simp [hs, hc]

theorem quoteAwareTokenEndFrom_blank (rest : Text) :
    quoteAwareTokenEndFrom .none 0 (' ' :: rest) = 0 := by
  rw [quoteAwareTokenEndFrom.eq_def]
  simp [Quoting.none, isAsciiWhitespace]

end Steps

theorem trimStart_of_first {raw : Text} (h : ∃ c tail, raw = c :: tail ∧ isWhitespace c = false)
    (rest : Text) : trimStart (raw ++ rest) = raw ++ rest := by
  obtain ⟨c, tail, rfl, hc⟩ := h
  exact List.dropWhile_cons_of_neg (by rw [hc]; decide)

theorem shellTokenize_blankJoin {raws : List (Text × Text)} (h : ∀ p ∈ raws, ReadsAs p.1 p.2) :
    shellTokenize (blankJoin (raws.map Prod.fst)) = raws.map Prod.snd := by
  unfold shellTokenize
  induction raws with
  | nil => rfl
  | cons p raws ih =>
    have hp := h p (by simp)
    cases raws with
    | nil =>
      have hread := hp.tokens [] []
      rw [List.append_nil, List.nil_append] at hread
      rw [List.map_singleton, blankJoin_singleton, hread, List.map_singleton, shellTokenizeFrom,
        if_neg hp.nonempty]
    | cons next raws =>
      rw [List.map_cons, List.map_cons, blankJoin_cons_cons, hp.tokens, List.nil_append,
        shellTokenizeFrom_blank _ _ hp.nonempty, List.map_cons]
      rw [List.map_cons] at ih
      rw [ih fun q hq => h q (List.mem_cons_of_mem _ hq)]

/-- The first raw word is the first token of the segment. -/
theorem blankJoin_split {p : Text × Text} {raws : List (Text × Text)} (hp : ReadsAs p.1 p.2) :
    ∃ rest, blankJoin ((p :: raws).map Prod.fst) = p.1 ++ rest ∧
      quoteAwareTokenEnd (p.1 ++ rest) = p.1.length ∧
      (rest = blankJoin (raws.map Prod.fst) ∨ rest = ' ' :: blankJoin (raws.map Prod.fst)) := by
  cases raws with
  | nil =>
    refine ⟨[], ?_, ?_, .inl rfl⟩
    · rw [List.map_singleton, blankJoin_singleton, List.append_nil]
    · exact hp.tokenEnd []
  | cons next raws =>
    refine ⟨' ' :: blankJoin ((next :: raws).map Prod.fst), blankJoin_cons_cons _ _ _, ?_, .inr rfl⟩
    exact (hp.tokenEnd _).trans (by rw [quoteAwareTokenEndFrom_blank, Nat.add_zero])

theorem skipEnvAssignments_blankJoin {raws : List (Text × Text)}
    (h : ∀ p ∈ raws, ReadsAs p.1 p.2) (segment : Text)
    (hsegment : segment = blankJoin (raws.map Prod.fst) ∨
      segment = ' ' :: blankJoin (raws.map Prod.fst)) :
    skipEnvAssignments segment =
      blankJoin ((raws.dropWhile fun p => skipped p.1).map Prod.fst) := by
  induction raws generalizing segment with
  | nil =>
    rcases hsegment with rfl | rfl
    · rw [skipEnvAssignments]
      rfl
    · rw [skipEnvAssignments]
      rfl
  | cons p raws ih =>
    have hp := h p (by simp)
    obtain ⟨rest, hsplit, hend, hrest⟩ := @blankJoin_split p raws hp
    have htrim : trimStart segment = p.1 ++ rest := by
      rcases hsegment with rfl | rfl
      · rw [hsplit, trimStart_of_first hp.first]
      · rw [hsplit]
        exact (List.dropWhile_cons_of_pos (by decide)).trans (trimStart_of_first hp.first rest)
    have hpos : ¬ (p.1 ++ rest = [] ∨ quoteAwareTokenEnd (p.1 ++ rest) = 0) := by
      obtain ⟨c, tail, hraw, -⟩ := hp.first
      rw [hend, hraw]
      simp
    rw [skipEnvAssignments, htrim, if_neg hpos, hend, List.take_left, List.drop_left]
    by_cases hskip : skipped p.1 = true
    · have hdrop : (p :: raws).dropWhile (fun p => skipped p.1) =
          raws.dropWhile fun p => skipped p.1 := List.dropWhile_cons_of_pos hskip
      rw [if_pos hskip, hdrop]
      exact ih (fun q hq => h q (List.mem_cons_of_mem _ hq)) rest hrest
    · have hkeep : (p :: raws).dropWhile (fun p => skipped p.1) = p :: raws :=
        List.dropWhile_cons_of_neg hskip
      rw [if_neg hskip, hkeep, hsplit]

theorem last_blankJoin {p : Text × Text} {raws : List (Text × Text)}
    (h : ∀ q ∈ p :: raws, ReadsAs q.1 q.2) :
    ∃ c front, blankJoin ((p :: raws).map Prod.fst) = front ++ [c] ∧ isWhitespace c = false := by
  induction raws generalizing p with
  | nil =>
    obtain ⟨c, front, hraw, hc⟩ := (h p (by simp)).last
    exact ⟨c, front, by rw [List.map_singleton, blankJoin_singleton, hraw], hc⟩
  | cons next raws ih =>
    obtain ⟨c, front, heq, hc⟩ := ih fun q hq => h q (List.mem_cons_of_mem _ hq)
    refine ⟨c, p.1 ++ ' ' :: front, ?_, hc⟩
    rw [List.map_cons, List.map_cons, blankJoin_cons_cons, ← List.map_cons, heq]
    simp

theorem trim_blankJoin {raws : List (Text × Text)} (h : ∀ p ∈ raws, ReadsAs p.1 p.2) :
    trim (blankJoin (raws.map Prod.fst)) = blankJoin (raws.map Prod.fst) := by
  cases raws with
  | nil => rfl
  | cons p raws =>
    obtain ⟨rest, hsplit, -⟩ := @blankJoin_split p raws (h p (by simp))
    obtain ⟨c, front, heq, hc⟩ := last_blankJoin h
    have hlast : front ++ [c] = p.1 ++ rest := heq.symm.trans hsplit
    rw [trim, hsplit, trimStart_of_first (h p (by simp)).first, ← hlast, List.rdropWhile_concat_neg]
    rw [hc]
    decide

/-- The words heard in a segment of raw words. -/
theorem heardWords_blankJoin {raws : List (Text × Text)} (h : ∀ p ∈ raws, ReadsAs p.1 p.2) :
    heardWords (blankJoin (raws.map Prod.fst)) =
      (raws.dropWhile fun p => skipped p.1).map Prod.snd := by
  rw [heardWords, trim_blankJoin h, skipEnvAssignments_blankJoin h _ (.inl rfl)]
  exact shellTokenize_blankJoin fun p hp => h p ((List.dropWhile_sublist _).subset hp)

/-! ## Quoted and plain words -/

def quoteChar (c : Char) : Text := if c = '\'' then ['\'', '\\', '\'', '\''] else [c]

/-- A word in single quotes; a quote in it is written between two quoted parts. -/
def quoteWord (word : Text) : Text := '\'' :: word.flatMap quoteChar ++ ['\'']

def quoted (words : List Text) : Text := blankJoin (words.map quoteWord)

/-- What the tokenizer is inside of between the quotes of a word. -/
def Quoting.single : Quoting := ⟨true, false, 0⟩

theorem shellTokenizeFrom_inSingle (word current rest : Text) :
    shellTokenizeFrom .single current (word.flatMap quoteChar ++ rest) =
      shellTokenizeFrom .single (current ++ word) rest := by
  induction word generalizing current with
  | nil => simp
  | cons c word ih =>
    have hstep : shellTokenizeFrom .single current
        (quoteChar c ++ (word.flatMap quoteChar ++ rest)) =
        shellTokenizeFrom .single (current ++ [c]) (word.flatMap quoteChar ++ rest) := by
      rw [quoteChar]
      split_ifs with hc
      · -- the quoted part is closed, the quote escaped, and the next part opened
        subst hc
        exact (shellTokenizeFrom_quote rfl _ _).trans
          ((shellTokenizeFrom_escape rfl rfl _ _ _).trans (shellTokenizeFrom_quote rfl _ _))
      · exact shellTokenizeFrom_single rfl hc _ _
    rw [List.flatMap_cons, List.append_assoc, hstep, ih, List.append_assoc]
    rfl

theorem quoteAwareTokenEndFrom_inSingle (word rest : Text) :
    quoteAwareTokenEndFrom .single 0 (word.flatMap quoteChar ++ rest) =
      (word.flatMap quoteChar).length + quoteAwareTokenEndFrom .single 0 rest := by
  induction word with
  | nil => simp
  | cons c word ih =>
    have hstep : quoteAwareTokenEndFrom .single 0
        (quoteChar c ++ (word.flatMap quoteChar ++ rest)) =
        (quoteChar c).length +
          quoteAwareTokenEndFrom .single 0 (word.flatMap quoteChar ++ rest) := by
      rw [quoteChar]
      split_ifs with hc
      · subst hc
        have hclose := quoteAwareTokenEndFrom_quote (q := .single) rfl 0
          ('\\' :: '\'' :: '\'' :: (word.flatMap quoteChar ++ rest))
        have hescape := quoteAwareTokenEndFrom_escape (q := .none) rfl 0 '\''
          ('\'' :: (word.flatMap quoteChar ++ rest))
        have hopen := quoteAwareTokenEndFrom_quote (q := .none) rfl 0
          (word.flatMap quoteChar ++ rest)
        calc quoteAwareTokenEndFrom .single 0
              ('\'' :: '\\' :: '\'' :: '\'' :: (word.flatMap quoteChar ++ rest))
            = 1 + quoteAwareTokenEndFrom .none 0
                ('\\' :: '\'' :: '\'' :: (word.flatMap quoteChar ++ rest)) := hclose
          _ = 1 + (2 + quoteAwareTokenEndFrom .none 0
                ('\'' :: (word.flatMap quoteChar ++ rest))) := by rw [hescape]
          _ = 1 + (2 + (1 + quoteAwareTokenEndFrom .single 0
                (word.flatMap quoteChar ++ rest))) := by
              rw [hopen]
              rfl
          _ = 4 + quoteAwareTokenEndFrom .single 0 (word.flatMap quoteChar ++ rest) := by omega
      · exact quoteAwareTokenEndFrom_single rfl hc _ _
    rw [List.flatMap_cons, List.append_assoc, hstep, ih, List.length_append, Nat.add_assoc]

theorem readsAs_quoteWord {word : Text} (hne : word ≠ []) : ReadsAs (quoteWord word) word where
  tokens current rest := by
    rw [quoteWord, List.append_assoc, List.cons_append]
    calc shellTokenizeFrom .none current ('\'' :: (word.flatMap quoteChar ++ (['\''] ++ rest)))
        = shellTokenizeFrom .single current (word.flatMap quoteChar ++ (['\''] ++ rest)) :=
          shellTokenizeFrom_quote rfl _ _
      _ = shellTokenizeFrom .single (current ++ word) ('\'' :: rest) :=
          shellTokenizeFrom_inSingle _ _ _
      _ = shellTokenizeFrom .none (current ++ word) rest := shellTokenizeFrom_quote rfl _ _
  tokenEnd rest := by
    have hlength : (quoteWord word).length = 1 + ((word.flatMap quoteChar).length + 1) := by
      rw [quoteWord, List.cons_append, List.length_cons, List.length_append, List.length_singleton]
      omega
    rw [hlength, quoteWord, List.append_assoc, List.cons_append]
    calc quoteAwareTokenEndFrom .none 0 ('\'' :: (word.flatMap quoteChar ++ (['\''] ++ rest)))
        = 1 + quoteAwareTokenEndFrom .single 0 (word.flatMap quoteChar ++ (['\''] ++ rest)) :=
          quoteAwareTokenEndFrom_quote rfl _ _
      _ = 1 + ((word.flatMap quoteChar).length +
            quoteAwareTokenEndFrom .single 0 ('\'' :: rest)) := by
          rw [quoteAwareTokenEndFrom_inSingle]
          rfl
      _ = 1 + ((word.flatMap quoteChar).length + (1 + quoteAwareTokenEndFrom .none 0 rest)) := by
          rw [quoteAwareTokenEndFrom_quote rfl]
          rfl
      _ = 1 + ((word.flatMap quoteChar).length + 1) + quoteAwareTokenEndFrom .none 0 rest := by
          omega
  first := ⟨'\'', _, rfl, by decide⟩
  last := ⟨'\'', _, rfl, by decide⟩
  nonempty := hne

/-- The characters that mean something to the tokenizer. -/
def isSpecial (c : Char) : Bool :=
  isWhitespace c || ['\'', '"', '\\', '$', '}', '(', ')'].contains c

/-- A word that the tokenizer reads as it stands. -/
def Plain (word : Text) : Prop := word ≠ [] ∧ ∀ c ∈ word, isSpecial c = false

instance : DecidablePred Plain := fun word =>
  @instDecidableAnd _ _ inferInstance (List.decidableBAll (fun c => isSpecial c = false) word)

theorem not_special {c : Char} (h : isSpecial c = false) :
    isWhitespace c = false ∧ c ≠ '\'' ∧ c ≠ '"' ∧ c ≠ '\\' ∧ c ≠ '$' ∧ c ≠ '}' ∧ c ≠ '(' ∧
      c ≠ ')' := by
  simpa [isSpecial] using h

theorem shellTokenizeFrom_plain {word : Text} (h : ∀ c ∈ word, isSpecial c = false)
    (current rest : Text) :
    shellTokenizeFrom .none current (word ++ rest) =
      shellTokenizeFrom .none (current ++ word) rest := by
  induction word generalizing current with
  | nil => simp
  | cons c word ih =>
    obtain ⟨hblank, hs, hd, hescape, hdollar, hbrace, -, -⟩ := not_special (h c (by simp))
    have hstep : shellTokenizeFrom .none current (c :: (word ++ rest)) =
        shellTokenizeFrom .none (current ++ [c]) (word ++ rest) := by
      rw [shellTokenizeFrom.eq_def]
      simp [hblank, hs, hd, hescape, hdollar, hbrace]
    rw [List.cons_append, hstep, ih fun d hd => h d (List.mem_cons_of_mem _ hd), List.append_assoc]
    rfl

/-- An ASCII blank is a blank. -/
theorem isWhitespace_of_ascii {c : Char} (h : isAsciiWhitespace c = true) :
    isWhitespace c = true := by
  simp only [isAsciiWhitespace, List.mem_cons, List.not_mem_nil, or_false,
    decide_eq_true_eq] at h
  rcases h with rfl | rfl | rfl | rfl | rfl <;> decide

theorem quoteAwareTokenEndFrom_plain {word : Text} (h : ∀ c ∈ word, isSpecial c = false)
    (rest : Text) :
    quoteAwareTokenEndFrom .none 0 (word ++ rest) =
      word.length + quoteAwareTokenEndFrom .none 0 rest := by
  induction word with
  | nil => simp
  | cons c word ih =>
    obtain ⟨hblank, hs, hd, hescape, hdollar, hbrace, hopen, hclose⟩ := not_special (h c (by simp))
    have hascii : isAsciiWhitespace c = false := by
      cases hc : isAsciiWhitespace c with
      | false => rfl
      | true =>
        rw [isWhitespace_of_ascii hc] at hblank
        cases hblank
    have hstep : quoteAwareTokenEndFrom .none 0 (c :: (word ++ rest)) =
        1 + quoteAwareTokenEndFrom .none 0 (word ++ rest) := by
      rw [quoteAwareTokenEndFrom.eq_def]
      simp [hascii, hs, hd, hescape, hdollar, hbrace, hopen, hclose]
    rw [List.cons_append, hstep, ih fun d hd => h d (List.mem_cons_of_mem _ hd), List.length_cons]
    omega

theorem readsAs_plain {word : Text} (h : Plain word) : ReadsAs word word where
  tokens := shellTokenizeFrom_plain h.2
  tokenEnd := quoteAwareTokenEndFrom_plain h.2
  first := by
    obtain ⟨c, tail, rfl⟩ := List.exists_cons_of_ne_nil h.1
    exact ⟨c, tail, rfl, (not_special (h.2 c (by simp))).1⟩
  last := by
    obtain ⟨front, c, rfl⟩ := (List.eq_nil_or_concat' word).resolve_left h.1
    exact ⟨c, front, rfl, (not_special (h.2 c (by simp))).1⟩
  nonempty := h.1

theorem heardWords_map {raw : Text → Text} {words : List Text}
    (h : ∀ word ∈ words, ReadsAs (raw word) word) :
    heardWords (blankJoin (words.map raw)) = words.dropWhile fun word => skipped (raw word) := by
  have hraws : ∀ p ∈ words.map fun word => (raw word, word), ReadsAs p.1 p.2 := by
    intro p hp
    obtain ⟨word, hword, rfl⟩ := List.mem_map.mp hp
    exact h word hword
  have hheard := heardWords_blankJoin hraws
  rw [List.map_map, List.dropWhile_map, List.map_map] at hheard
  exact hheard.trans (List.map_id _)

theorem heardWords_nil : heardWords [] = [] :=
  @heardWords_map id [] fun _ h => by cases h

/-- Quoted words are heard as they are, after the ones that are passed over. -/
theorem heardWords_quoted {words : List Text} (h : ∀ word ∈ words, word ≠ []) :
    heardWords (quoted words) = words.dropWhile fun word => skipped (quoteWord word) :=
  heardWords_map fun word hword => readsAs_quoteWord (h word hword)

theorem skipped_quoteWord {word : Text} (h : Plain word) :
    skipped (quoteWord word) = skipped word := by
  have hquote : word.flatMap quoteChar = word := by
    have hchar : ∀ c ∈ word, quoteChar c = [c] := fun c hc => if_neg (not_special (h.2 c hc)).2.1
    rw [List.flatMap_congr hchar, List.flatMap_singleton']
  unfold skipped
  rw [quoteWord, hquote]
  simp

theorem dropWhile_congr {α : Type} {p q : α → Bool} {l : List α} (h : ∀ a ∈ l, p a = q a) :
    l.dropWhile p = l.dropWhile q := by
  induction l with
  | nil => rfl
  | cons a l ih =>
    rw [List.dropWhile_cons, List.dropWhile_cons, h a (by simp), ih fun b hb => h b (by simp [hb])]

/-- Words that read as they stand are heard alike with quotes and without. -/
theorem heardWords_plain {words : List Text} (h : ∀ word ∈ words, Plain word) :
    heardWords (blankJoin words) = heardWords (quoted words) := by
  have hheard := @heardWords_map id words fun word hword => readsAs_plain (h word hword)
  rw [List.map_id] at hheard
  rw [hheard, heardWords_quoted fun word hword => (h word hword).1]
  exact dropWhile_congr fun word hword => (skipped_quoteWord (h word hword)).symm

end LeanCtx.ShellAllowlist
