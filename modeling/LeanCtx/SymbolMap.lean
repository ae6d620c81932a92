import LeanCtx.TextSearch
import Mathlib.Algebra.Order.Ring.Nat

/-!
# Short ids for long identifiers

A symbol map gives identifiers of six bytes or more short ids, numbered from
one. Applied to a text it replaces the identifiers, longest first, each by its
id; the table that is printed with the text lists the ids in the order of their
numbers. The entries come from a hash map, so those of one length are replaced
in an order that nothing fixes.
-/

namespace LeanCtx.Symbols

open TextSearch

abbrev Text := List Char

def minIdentLength : ℕ := 6

def shortIdPrefix : Char := 'α'

/-- `str::len`, in bytes. -/
def len (s : Text) : ℕ := (s.map Char.utf8Size).sum

/-- The identifiers with their ids, in the order they were registered. -/
structure SymbolMap where
  forward : List (Text × Text)
  nextId : ℕ
deriving DecidableEq

/-- `format!("{SHORT_ID_PREFIX}{}", n)`. -/
def shortId (n : ℕ) : Text := shortIdPrefix :: Nat.toDigits 10 n

namespace SymbolMap

def new : SymbolMap := ⟨[], 1⟩

def register (m : SymbolMap) (identifier : Text) : Option Text × SymbolMap :=
  if len identifier < minIdentLength then (none, m)
  else
    match m.forward.find? fun e => e.1 = identifier with
    | some e => (some e.2, m)
    | none =>
      (some (shortId m.nextId),
        ⟨m.forward ++ [(identifier, shortId m.nextId)], m.nextId + 1⟩)

/-- The map after a sequence of registrations. -/
def registerAll (identifiers : List Text) : SymbolMap :=
  identifiers.foldl (fun m identifier => (m.register identifier).2) new

/-- One order in which the hash map may give its entries. -/
structure IterationOrder (m : SymbolMap) where
  entries : List (Text × Text)
  perm : entries.Perm m.forward

/-- `sort_by_key(|x| Reverse(x.0.len()))`. -/
def sortedByLength (entries : List (Text × Text)) : List (Text × Text) :=
  entries.mergeSort fun a b => decide (len b.1 ≤ len a.1)

def apply (m : SymbolMap) (order : IterationOrder m) (text : Text) : Text :=
  if m.forward = [] then text
  else (sortedByLength order.entries).foldl (fun result e => replaceAll e.1 e.2 result) text

/-- `parse::<usize>().unwrap_or(0)`, without the bound of the type. -/
def parseNumber (s : Text) : ℕ :=
  if s ≠ [] ∧ s.all Char.isDigit then Nat.ofDigitChars 10 s 0 else 0

/-- The number of a short id: what follows its marks. -/
def idNumber (short : Text) : ℕ := parseNumber (short.dropWhile (· == shortIdPrefix))

/-- The entries in the order in which they are printed. -/
def tableEntries (m : SymbolMap) (order : IterationOrder m) : List (Text × Text) :=
  order.entries.mergeSort fun a b => decide (idNumber a.2 ≤ idNumber b.2)

def formatTable (m : SymbolMap) (order : IterationOrder m) : Text :=
  if m.forward = [] then []
  else
    "\n§MAP:".toList ++
      (m.tableEntries order).flatMap fun e => "\n  ".toList ++ e.2 ++ "=".toList ++ e.1

end SymbolMap

/-- Reading a text with a table: where several ids fit, the last of them in the table, which has
the most digits. -/
def recoverFrom (table : List (Text × Text)) : ℕ → Text → Text
  | _, [] => []
  | skip + 1, _ :: cs => recoverFrom table skip cs
  | 0, c :: cs =>
    match table.reverse.find? fun e => e.2.isPrefixOf (c :: cs) with
    | some e => e.1 ++ recoverFrom table (e.2.length - 1) cs
    | none => c :: recoverFrom table 0 cs

/-- The text with the short ids replaced back. -/
def recover (table : List (Text × Text)) (text : Text) : Text := recoverFrom table 0 text

/-! ## Identifiers -/

/-- The words that `[a-zA-Z_][a-zA-Z0-9_]*` matches. -/
def isIdentifier : Text → Bool
  | [] => false
  | c :: cs => (c.isAlpha || c == '_') && cs.all fun d => d.isAlphanum || d == '_'

/-- What matters of them here: no mark of a short id in them, and no digit in front. -/
structure Plain (x : Text) : Prop where
  unmarked : shortIdPrefix ∉ x
  starts : ∀ c ∈ x.head?, c.isDigit = false

theorem plain_of_isIdentifier {x : Text} (h : isIdentifier x = true) : Plain x := by
  cases x with
  | nil => cases h
  | cons c cs =>
    simp only [isIdentifier, Bool.and_eq_true, Bool.or_eq_true, beq_iff_eq] at h
    obtain ⟨hc, hcs⟩ := h
    constructor
    · intro hmem
      rcases List.mem_cons.mp hmem with rfl | hmem
      · exact absurd hc (by decide)
      · exact absurd (List.all_eq_true.mp hcs _ hmem) (by decide)
    · intro d hd
      cases hd
      rcases hc with hc | rfl
      · have hletter : 65 ≤ c.toNat := by
          rcases Bool.or_eq_true_iff.mp hc with hc | hc
          · exact (of_decide_eq_true hc).1
          · have hlow : 97 ≤ c.toNat := of_decide_eq_true (Bool.and_eq_true_iff.mp hc).1
            omega
        refine Bool.and_eq_false_iff.mpr (.inr (decide_eq_false fun hhigh => ?_))
        have hdigit : c.toNat ≤ 57 := hhigh
        omega
      · decide

end LeanCtx.Symbols
