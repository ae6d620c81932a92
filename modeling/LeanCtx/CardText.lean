import LeanCtx.Scan

/-!
# Card numbers in a text

The built-in detector searches a text for runs of 13 to 19 digits with at most
one space or hyphen between two of them, and puts a marker in the place of those
that pass for card numbers: by their layout, the Luhn checksum, the issuer's
range, and not as a time stamp. Digits of a run may come from any script; only
ASCII characters count for the word boundaries at its ends.
-/

namespace LeanCtx.Pii

abbrev Text := List Char

/-- What the detector takes from elsewhere: the characters that `\d` matches, and the year of a
text in the form `%Y%m%d%H%M%S` that is a date and time. -/
structure Env where
  isDigit : Char → Bool
  isDigit_ascii : ∀ c : Char, c.toNat < 128 → isDigit c = c.isDigit
  stampYear : Text → Option ℕ

/-! ## The pattern of a candidate -/

/-- The word characters of `(?-u:\b)`. -/
def isWord (c : Char) : Bool := c.isAlphanum || c == '_'

/-- A word boundary between two places of a text, `none` at its ends. -/
def boundary (x y : Option Char) : Bool := x.any isWord != y.any isWord

def isSeparator (c : Char) : Bool := c == ' ' || c == '-'

section Pattern

variable (env : Env)

/-- `[ -]?\d`: the separator, the digit and what follows. -/
def digitStep : Text → Option (Text × Char × Text)
  | [] => none
  | c :: rest =>
    if env.isDigit c then some ([], c, rest)
    else if isSeparator c then
      match rest with
      | d :: rest => if env.isDigit d then some ([c], d, rest) else none
      | [] => none
    else none

/-- `(?:[ -]?\d){low,high}(?-u:\b)` behind a character, as many digits as possible. -/
def repeats (low : ℕ) : ℕ → Char → Text → Option Text
  | 0, last, rest => if low = 0 ∧ boundary (some last) rest.head? then some [] else none
  | high + 1, last, rest =>
    let stop := if low = 0 ∧ boundary (some last) rest.head? then some [] else none
    match digitStep env rest with
    | some (sep, d, rest) => ((repeats (low - 1) high d rest).map (sep ++ d :: ·)).or stop
    | none => stop

/-- `(?-u:\b)\d(?:[ -]?\d){12,18}(?-u:\b)`. -/
def findCandidate (behind : Text) : Text → Option Text
  | [] => none
  | d :: rest =>
    if env.isDigit d && boundary behind.head? (some d) then
      (repeats env 12 18 d rest).map (d :: ·)
    else none

theorem digitStep_eq_some {text sep rest : Text} {d : Char}
    (h : digitStep env text = some (sep, d, rest)) :
    text = sep ++ d :: rest ∧ env.isDigit d = true ∧
      (sep = [] ∨ ∃ c, sep = [c] ∧ isSeparator c = true) := by
  match text with
  | [] => cases h
  | [c] =>
    simp only [digitStep] at h
    split_ifs at h with hdigit
    cases h
    exact ⟨rfl, hdigit, .inl rfl⟩
  | c :: c' :: text =>
    simp only [digitStep] at h
    split_ifs at h with hdigit hsep hdigit'
    · cases h
      exact ⟨rfl, hdigit, .inl rfl⟩
    · cases h
      exact ⟨rfl, hdigit', .inr ⟨c, rfl, hsep⟩⟩

theorem repeats_prefix {low high : ℕ} {last : Char} {rest m : Text}
    (h : repeats env low high last rest = some m) : m <+: rest := by
  induction high generalizing low last rest m with
  | zero =>
    unfold repeats at h
    split_ifs at h
    cases h
    exact List.nil_prefix
  | succ high ih =>
    unfold repeats at h
    dsimp only at h
    split at h
    · rename_i sep d after hstep
      rw [Option.or_eq_some_iff] at h
      rcases h with h | ⟨-, h⟩
      · obtain ⟨m', hm', rfl⟩ := Option.map_eq_some_iff.mp h
        rw [(digitStep_eq_some env hstep).1, List.prefix_append_right_inj, List.cons_prefix_cons]
        exact ⟨rfl, ih hm'⟩
      · split_ifs at h
        cases h
        exact List.nil_prefix
    · split_ifs at h
      cases h
      exact List.nil_prefix

theorem findCandidate_eq_some {behind ahead m : Text}
    (h : findCandidate env behind ahead = some m) :
    ∃ d rest m', ahead = d :: rest ∧ m = d :: m' ∧ env.isDigit d = true ∧
      boundary behind.head? (some d) = true ∧ repeats env 12 18 d rest = some m' := by
  cases ahead with
  | nil => cases h
  | cons d rest =>
    rw [findCandidate] at h
    split_ifs at h with hstart
    rw [Bool.and_eq_true] at hstart
    obtain ⟨m', hm', rfl⟩ := Option.map_eq_some_iff.mp h
    exact ⟨d, rest, m', rfl, rfl, hstart.1, hstart.2, hm'⟩

def candidates : Scan.Matcher Char where
  find := findCandidate env
  find_prefix h := by
    obtain ⟨d, rest, m', rfl, rfl, -, -, hm'⟩ := findCandidate_eq_some env h
    exact List.cons_prefix_cons.mpr ⟨rfl, repeats_prefix env hm'⟩
  find_ne_nil h := by
    obtain ⟨d, rest, m', rfl, rfl, -, -, -⟩ := findCandidate_eq_some env h
    exact List.cons_ne_nil _ _

end Pattern

/-! ## Cards -/

/-- The decimal number that the digits write. -/
def number (digits : Text) : ℕ := digits.foldl (fun n c => 10 * n + (c.toNat - '0'.toNat)) 0

/-- `yyyymmddhhmmss` with a year from 1970 to 2099 and in-range fields. -/
def isPseudoVersionStamp (digits : Text) : Bool :=
  digits.length == 14 && digits.all Char.isDigit &&
    decide (1970 ≤ number (digits.take 4) ∧ number (digits.take 4) ≤ 2099) &&
    decide (1 ≤ number ((digits.drop 4).take 2) ∧ number ((digits.drop 4).take 2) ≤ 12) &&
    decide (1 ≤ number ((digits.drop 6).take 2) ∧ number ((digits.drop 6).take 2) ≤ 31) &&
    decide (number ((digits.drop 8).take 2) < 24) &&
    decide (number ((digits.drop 10).take 2) < 60) &&
    decide (number ((digits.drop 12).take 2) < 60)

/-- A `-` or `.` that holds the place to a further segment. -/
def glued : Text → Bool
  | sep :: c :: _ => (sep == '-' || sep == '.') && c.isAlphanum
  | _ => false

/-- Whether a match is the stamp of a Go pseudo-version. -/
def insideVersionToken (f : Scan.Found Char) : Bool :=
  isPseudoVersionStamp f.text && glued f.behind && glued f.ahead

def digits (s : Text) : List ℕ :=
  s.filterMap fun c => if c.isDigit then some (c.toNat - '0'.toNat) else none

/-- The groups in which issuers print card numbers. -/
def groupsPlausible (groups : List ℕ) : Bool :=
  groups == [4, 6, 4] || groups == [4, 6, 5] ||
    (3 ≤ groups.dropLast.length && groups.dropLast.all (· == 4) &&
      groups.getLast?.any fun last => decide (1 ≤ last ∧ last ≤ 4))

def cardLayoutPlausible (s : Text) : Bool :=
  match s.filter fun c => !c.isDigit with
  | [] => true
  | sep :: others =>
    others.all (· == sep) && groupsPlausible ((s.splitOn sep).map List.length)

/-- The sum of the digits from the last one, every other one doubled. -/
def luhnSum : Bool → List ℕ → ℕ
  | _, [] => 0
  | double, x :: rest =>
    (if double then if 2 * x > 9 then 2 * x - 9 else 2 * x else x) + luhnSum (!double) rest

def luhnValid (s : Text) : Bool :=
  decide (13 ≤ (digits s).length ∧ (digits s).length ≤ 19) &&
    luhnSum false (digits s).reverse % 10 == 0

/-- Whether digit count and leading digit fit a published card range. -/
def issuerRangePlausible (s : Text) : Bool :=
  match (digits s).length, (digits s).head? with
  | n, some 1 => n == 15
  | 13, first => first == some 4
  | _, _ => true

section Cards

variable (env : Env)

def isCompactTimestamp (s : Text) : Bool :=
  s.length == 14 && s.all Char.isDigit &&
    (env.stampYear s).any fun year => decide (1970 ≤ year ∧ year ≤ 2099)

def cardValid (s : Text) : Bool :=
  cardLayoutPlausible s && luhnValid s && !isCompactTimestamp env s && issuerRangePlausible s

/-! ## Redaction -/

def marker : Text := "[REDACTED:card]".toList

/-- Whether a match is replaced. -/
def isCard (f : Scan.Found Char) : Bool := cardValid env f.text && !insideVersionToken f

/-- The pieces of a text: its candidates, and single characters between them. -/
def pieces (text : Text) : List (Scan.Piece Char) := Scan.scan (candidates env) text

def countCards (parts : List (Scan.Piece Char)) : ℕ :=
  parts.countP fun
    | .kept _ => false
    | .found f => isCard env f

def hasCandidate (parts : List (Scan.Piece Char)) : Bool :=
  parts.any fun
    | .kept _ => false
    | .found _ => true

/-- The text without its card numbers, and how many there were. The card rule is the only one
whose class is validated by a checksum. -/
def redactChecksummed (text : Text) : Text × List (String × ℕ) :=
  if hasCandidate (pieces env text) then
    let n := countCards env (pieces env text)
    (Scan.rewriteFrom (candidates env) (isCard env) marker [] text,
      if 0 < n then [("card", n)] else [])
  else (text, [])

end Cards

end LeanCtx.Pii
