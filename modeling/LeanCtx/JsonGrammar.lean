import Mathlib.Data.List.Basic
import Mathlib.Data.Char
import Mathlib.Tactic.Common

/-!
# The grammar of JSON texts

A value is a tree, a tree is a sequence of tokens, and a text spells tokens with
gaps between them. What may stand in a gap is a parameter: nothing, whitespace,
or comments too. A scanner that knows where strings begin and end copies the
tokens and is free in the gaps (`Copies.token`).
-/

namespace LeanCtx.JsonGrammar

abbrev Text := List Char

/-! ## Tokens -/

def IsHex (c : Char) : Prop :=
  c.isDigit = true ∨ ('a' ≤ c ∧ c ≤ 'f') ∨ ('A' ≤ c ∧ c ≤ 'F')

/-- A character inside a string: itself, or escaped. -/
inductive StringChar
  | plain (c : Char) (h : ' ' ≤ c ∧ c ≠ '"' ∧ c ≠ '\\')
  | escape (c : Char) (h : c ∈ ['"', '\\', '/', 'b', 'f', 'n', 'r', 't'])
  | unicode (digits : Text) (hlength : digits.length = 4) (h : ∀ c ∈ digits, IsHex c)

def StringChar.text : StringChar → Text
  | .plain c _ => [c]
  | .escape c _ => ['\\', c]
  | .unicode digits _ _ => '\\' :: 'u' :: digits

def Digits (s : Text) : Prop := s ≠ [] ∧ ∀ c ∈ s, c.isDigit = true

def Fraction (s : Text) : Prop := ∃ ds, Digits ds ∧ s = '.' :: ds

def Exponent (s : Text) : Prop :=
  ∃ e sign ds, (e = 'e' ∨ e = 'E') ∧ (sign = [] ∨ sign = ['+'] ∨ sign = ['-']) ∧ Digits ds ∧
    s = e :: (sign ++ ds)

inductive Number : Text → Prop
  | mk {sign int frac exp : Text} (hsign : sign = [] ∨ sign = ['-'])
    (hint : int = ['0'] ∨ Digits int ∧ int.head? ≠ some '0') (hfrac : frac = [] ∨ Fraction frac)
    (hexp : exp = [] ∨ Exponent exp) : Number (sign ++ (int ++ (frac ++ exp)))

inductive Scalar : Text → Prop
  | null : Scalar ['n', 'u', 'l', 'l']
  | true : Scalar ['t', 'r', 'u', 'e']
  | false : Scalar ['f', 'a', 'l', 's', 'e']
  | number {s : Text} (h : Number s) : Scalar s

inductive Token
  | openObject
  | closeObject
  | openArray
  | closeArray
  | colon
  | comma
  | string (chars : List StringChar)
  | scalar (s : Text) (h : Scalar s)

def stringText (chars : List StringChar) : Text := '"' :: (chars.flatMap StringChar.text ++ ['"'])

def Token.text : Token → Text
  | .openObject => ['{']
  | .closeObject => ['}']
  | .openArray => ['[']
  | .closeArray => [']']
  | .colon => [':']
  | .comma => [',']
  | .string chars => stringText chars
  | .scalar s _ => s

/-! ## Trees -/

inductive Tree
  | scalar (s : Text) (h : Scalar s)
  | string (chars : List StringChar)
  | array (items : List Tree)
  | object (entries : List (List StringChar × Tree))

namespace Tree

mutual

def tokens : Tree → List Token
  | scalar s h => [.scalar s h]
  | string chars => [.string chars]
  | array items => .openArray :: (itemTokens true items ++ [.closeArray])
  | object entries => .openObject :: (entryTokens true entries ++ [.closeObject])

def itemTokens (first : Bool) : List Tree → List Token
  | [] => []
  | v :: rest => (if first then [] else [.comma]) ++ (tokens v ++ itemTokens false rest)

def entryTokens (first : Bool) : List (List StringChar × Tree) → List Token
  | [] => []
  | (key, v) :: rest =>
    (if first then [] else [.comma]) ++ .string key :: .colon :: (tokens v ++ entryTokens false rest)

end

/-- Induction over a tree: its parts come before it. -/
@[elab_as_elim]
theorem tree_induction {motive : Tree → Prop} (scalar : ∀ s h, motive (scalar s h))
    (string : ∀ chars, motive (string chars))
    (array : ∀ items, (∀ v ∈ items, motive v) → motive (array items))
    (object : ∀ entries, (∀ e ∈ entries, motive e.2) → motive (object entries)) (v : Tree) :
    motive v :=
  @Tree.rec motive (fun items => ∀ v ∈ items, motive v) (fun entries => ∀ e ∈ entries, motive e.2)
    (fun e => motive e.2) scalar string array object nofun
    (fun _ _ hv hrest => List.forall_mem_cons.mpr ⟨hv, hrest⟩) nofun
    (fun _ _ he hrest => List.forall_mem_cons.mpr ⟨he, hrest⟩) (fun _ _ h => h) v

theorem tokens_ne_nil (v : Tree) : v.tokens ≠ [] := by
  cases v <;> exact List.cons_ne_nil _ _

end Tree

/-! ## Spellings -/

/-- A text of these tokens, with a gap before each and a last one at the end. -/
inductive Spelled (gap last : Text → Prop) : List Token → Text → Prop
  | nil {g : Text} (h : last g) : Spelled gap last [] g
  | cons {g : Text} {t : Token} {ts : List Token} {s : Text} (h : gap g)
    (hrest : Spelled gap last ts s) : Spelled gap last (t :: ts) (g ++ (t.text ++ s))

/-- No gap at all. -/
def Empty (g : Text) : Prop := g = []

def Blank (g : Text) : Prop := ∀ c ∈ g, c = ' ' ∨ c = '\t' ∨ c = '\n' ∨ c = '\r'

theorem spelled_empty {ts : List Token} {s : Text} :
    Spelled Empty Empty ts s ↔ s = ts.flatMap Token.text := by
  constructor
  · intro h
    induction h with
    | nil h => exact h
    | @cons g t ts s h _ ih =>
      obtain rfl := h
      rw [List.nil_append, List.flatMap_cons, ih]
  · rintro rfl
    induction ts with
    | nil => exact .nil rfl
    | cons t ts ih => exact .cons (g := []) rfl ih

theorem Spelled.mono {gap last gap' last' : Text → Prop} (hgap : ∀ g, gap g → gap' g)
    (hlast : ∀ g, last g → last' g) {ts : List Token} {s : Text} (h : Spelled gap last ts s) :
    Spelled gap' last' ts s := by
  induction h with
  | nil h => exact .nil (hlast _ h)
  | cons h _ ih => exact .cons (hgap _ h) ih

/-- What is read from a text of JSON depends on its tokens alone. -/
def Insensitive {R : Type} (read : Text → R) : Prop :=
  ∀ (tree : Tree) (s s' : Text), Spelled Blank Blank tree.tokens s →
    Spelled Blank Blank tree.tokens s' → read s = read s'

open Classical in
/-- A reader that only tells whether a text is one of JSON. -/
noncomputable def accepts (s : Text) : Bool :=
  if ∃ v : Tree, Spelled Blank Blank v.tokens s then true else false

theorem accepts_spelled {v : Tree} {s : Text} (h : Spelled Blank Blank v.tokens s) :
    accepts s = true := if_pos ⟨v, h⟩

theorem insensitive_accepts : Insensitive accepts := fun _ _ _ hs hs' =>
  (accepts_spelled hs).trans (accepts_spelled hs').symm

theorem Spelled.prepend {gap last : Text → Prop} {g : Text} (hgap : ∀ g', gap g' → gap (g ++ g'))
    (hlast : ∀ g', last g' → last (g ++ g')) {ts : List Token} {s : Text}
    (h : Spelled gap last ts s) : Spelled gap last ts (g ++ s) := by
  cases h with
  | nil h => exact .nil (hlast _ h)
  | cons h hrest =>
    rw [← List.append_assoc]
    exact .cons (hgap _ h) hrest

/-! ## The characters of a token -/

/-- The characters of literals and numbers. -/
def IsBare (c : Char) : Prop := c.isAlphanum = true ∨ c = '+' ∨ c = '-' ∨ c = '.'

instance (c : Char) : Decidable (IsBare c) := inferInstanceAs (Decidable (_ ∨ _))

theorem IsBare.of_digits {s : Text} (h : Digits s) : ∀ c ∈ s, IsBare c := by
  intro c hc
  refine .inl ?_
  rw [Char.isAlphanum, h.2 c hc, Bool.or_true]

theorem Number.bare {s : Text} (h : Number s) : s ≠ [] ∧ ∀ c ∈ s, IsBare c := by
  obtain ⟨hsign, hint, hfrac, hexp⟩ := h
  have hintBare : ∀ {int : Text}, int = ['0'] ∨ Digits int ∧ int.head? ≠ some '0' →
      int ≠ [] ∧ ∀ c ∈ int, IsBare c := by
    rintro int (rfl | ⟨hdigits, -⟩)
    · exact ⟨by decide, fun c hc => List.mem_singleton.mp hc ▸ by decide⟩
    · exact ⟨hdigits.1, IsBare.of_digits hdigits⟩
  have hsignBare : ∀ {sign : Text}, sign = [] ∨ sign = ['-'] → ∀ c ∈ sign, IsBare c := by
    rintro sign (rfl | rfl) c hc
    · cases hc
    · exact List.mem_singleton.mp hc ▸ by decide
  have hfracBare : ∀ {frac : Text}, frac = [] ∨ Fraction frac → ∀ c ∈ frac, IsBare c := by
    rintro frac (rfl | ⟨ds, hds, rfl⟩) c hc
    · cases hc
    · rcases List.mem_cons.mp hc with rfl | hc
      · decide
      · exact IsBare.of_digits hds c hc
  have hexpBare : ∀ {exp : Text}, exp = [] ∨ Exponent exp → ∀ c ∈ exp, IsBare c := by
    rintro exp (rfl | ⟨e, sign, ds, he, hs, hds, rfl⟩) c hc
    · cases hc
    · rcases List.mem_cons.mp hc with rfl | hc
      · rcases he with rfl | rfl <;> decide
      · rcases List.mem_append.mp hc with hc | hc
        · rcases hs with rfl | rfl | rfl
          · cases hc
          · exact List.mem_singleton.mp hc ▸ by decide
          · exact List.mem_singleton.mp hc ▸ by decide
        · exact IsBare.of_digits hds c hc
  refine ⟨?_, ?_⟩
  · intro hnil
    exact (hintBare hint).1 (List.append_eq_nil_iff.mp (List.append_eq_nil_iff.mp hnil).2).1
  · intro c hc
    rcases List.mem_append.mp hc with hc | hc
    · exact hsignBare hsign c hc
    · rcases List.mem_append.mp hc with hc | hc
      · exact (hintBare hint).2 c hc
      · rcases List.mem_append.mp hc with hc | hc
        · exact hfracBare hfrac c hc
        · exact hexpBare hexp c hc

theorem Scalar.bare {s : Text} (h : Scalar s) : s ≠ [] ∧ ∀ c ∈ s, IsBare c := by
  cases h with
  | null => exact ⟨by decide, List.forall_iff_forall_mem.mp (by decide)⟩
  | true => exact ⟨by decide, List.forall_iff_forall_mem.mp (by decide)⟩
  | false => exact ⟨by decide, List.forall_iff_forall_mem.mp (by decide)⟩
  | number h => exact h.bare

theorem IsHex.bare {c : Char} (h : IsHex c) : IsBare c := by
  rcases h with h | ⟨hlow, hhigh⟩ | ⟨hlow, hhigh⟩
  · exact .inl (by rw [Char.isAlphanum, h, Bool.or_true])
  · have hlower : c.isLower = true := Bool.and_eq_true_iff.mpr
      ⟨decide_eq_true hlow, decide_eq_true (le_trans hhigh (show 'f' ≤ 'z' by decide))⟩
    have halpha : c.isAlpha = true := Bool.or_eq_true_iff.mpr (.inr hlower)
    exact .inl (by rw [Char.isAlphanum, halpha, Bool.true_or])
  · have hupper : c.isUpper = true :=
      decide_eq_true ⟨hlow, le_trans hhigh (show 'F' ≤ 'Z' by decide)⟩
    have halpha : c.isAlpha = true := Bool.or_eq_true_iff.mpr (.inl hupper)
    exact .inl (by rw [Char.isAlphanum, halpha, Bool.true_or])

def IsPunctuation (c : Char) : Prop := c ∈ ['{', '}', '[', ']', ':', ',']

instance (c : Char) : Decidable (IsPunctuation c) := List.instDecidableMemOfLawfulBEq _ _

/-- The characters that a token begins and ends with. -/
def IsEdge (c : Char) : Prop := IsBare c ∨ IsPunctuation c ∨ c = '"'

instance (c : Char) : Decidable (IsEdge c) := inferInstanceAs (Decidable (_ ∨ _))

theorem Token.head (t : Token) : ∃ c rest, t.text = c :: rest ∧ IsEdge c := by
  cases t with
  | scalar s h =>
    obtain ⟨hne, hbare⟩ := h.bare
    obtain ⟨c, rest, rfl⟩ := List.exists_cons_of_ne_nil hne
    exact ⟨c, rest, rfl, .inl (hbare c List.mem_cons_self)⟩
  | _ => exact ⟨_, _, rfl, by decide⟩

theorem Token.last (t : Token) : ∃ front c, t.text = front ++ [c] ∧ IsEdge c := by
  cases t with
  | scalar s h =>
    obtain ⟨hne, hbare⟩ := h.bare
    refine ⟨s.dropLast, s.getLast hne, (List.dropLast_append_getLast hne).symm, .inl ?_⟩
    exact hbare _ (List.getLast_mem hne)
  | string chars => exact ⟨'"' :: chars.flatMap StringChar.text, '"', rfl, by decide⟩
  | _ => exact ⟨[], _, rfl, by decide⟩

theorem head_flatMap {ts : List Token} (h : ts ≠ []) :
    ∃ c rest, ts.flatMap Token.text = c :: rest ∧ IsEdge c := by
  obtain ⟨t, ts, rfl⟩ := List.exists_cons_of_ne_nil h
  obtain ⟨c, rest, ht, hc⟩ := t.head
  exact ⟨c, rest ++ ts.flatMap Token.text, by rw [List.flatMap_cons, ht, List.cons_append], hc⟩

theorem last_flatMap {ts : List Token} (h : ts ≠ []) :
    ∃ front c, ts.flatMap Token.text = front ++ [c] ∧ IsEdge c := by
  obtain ⟨front, t, rfl⟩ : ∃ front t, ts = front ++ [t] :=
    ⟨_, _, (List.dropLast_append_getLast h).symm⟩
  obtain ⟨front', c, ht, hc⟩ := t.last
  refine ⟨front.flatMap Token.text ++ front', c, ?_, hc⟩
  rw [List.flatMap_append, List.flatMap_singleton, ht, List.append_assoc]

theorem IsBare.bounds {c : Char} (h : IsBare c) : 43 ≤ c.toNat ∧ c.toNat ≤ 122 := by
  rcases h with h | rfl | rfl | rfl
  · rcases Bool.or_eq_true_iff.mp h with h | h
    · rcases Bool.or_eq_true_iff.mp h with h | h
      · have hrange : 65 ≤ c.toNat ∧ c.toNat ≤ 90 := of_decide_eq_true h
        omega
      · obtain ⟨hlow, hhigh⟩ := Bool.and_eq_true_iff.mp h
        have hrange : 97 ≤ c.toNat ∧ c.toNat ≤ 122 :=
          ⟨of_decide_eq_true hlow, of_decide_eq_true hhigh⟩
        omega
    · obtain ⟨hlow, hhigh⟩ := Bool.and_eq_true_iff.mp h
      have hrange : 48 ≤ c.toNat ∧ c.toNat ≤ 57 :=
        ⟨of_decide_eq_true hlow, of_decide_eq_true hhigh⟩
      omega
  · decide
  · decide
  · decide

theorem IsBare.visible {c : Char} (h : IsBare c) : ' ' ≤ c :=
  le_trans (show ' ' ≤ '+' by decide) h.bounds.1

theorem visible_escape : ∀ c ∈ ['"', '\\', '/', 'b', 'f', 'n', 'r', 't'], ' ' ≤ c :=
  List.forall_iff_forall_mem.mp (by decide)

/-- No control character stands in a token. -/
theorem Token.visible (t : Token) : ∀ c ∈ t.text, ' ' ≤ c := by
  cases t with
  | scalar s h => exact fun c hc => (h.bare.2 c hc).visible
  | string chars =>
    intro c hc
    rcases List.mem_cons.mp hc with rfl | hc
    · decide
    · rcases List.mem_append.mp hc with hc | hc
      · obtain ⟨char, -, hc⟩ := List.mem_flatMap.mp hc
        cases char with
        | plain c' h => exact List.mem_singleton.mp hc ▸ h.1
        | escape c' h =>
          rcases List.mem_cons.mp hc with rfl | hc
          · decide
          · rw [List.mem_singleton.mp hc]
            exact visible_escape c' h
        | unicode digits _ h =>
          rcases List.mem_cons.mp hc with rfl | hc
          · decide
          · rcases List.mem_cons.mp hc with rfl | hc
            · decide
            · exact (h c hc).bare.visible
      · exact List.mem_singleton.mp hc ▸ by decide
  | _ => exact fun c hc => List.mem_singleton.mp hc ▸ by decide

/-! ## Scanners -/

/-- A pair of scanners: `inside` a string up to its quote, and `outside`, where the characters of
`p` are copied. -/
structure Copies (p : Char → Prop) (outside inside : Text → Text) : Prop where
  enters : ∀ rest, outside ('"' :: rest) = '"' :: inside rest
  passes : ∀ c rest, p c → outside (c :: rest) = c :: outside rest
  leaves : ∀ rest, inside ('"' :: rest) = '"' :: outside rest
  skips : ∀ c rest, inside ('\\' :: c :: rest) = '\\' :: c :: inside rest
  copies : ∀ c rest, c ≠ '"' → c ≠ '\\' → inside (c :: rest) = c :: inside rest

namespace Copies

variable {p : Char → Prop} {outside inside : Text → Text} (h : Copies p outside inside)
include h

theorem bare {s : Text} (hs : ∀ c ∈ s, p c) (rest : Text) :
    outside (s ++ rest) = s ++ outside rest := by
  induction s with
  | nil => rfl
  | cons c s ih =>
    obtain ⟨hc, hs⟩ := List.forall_mem_cons.mp hs
    rw [List.cons_append, h.passes c _ hc, ih hs, List.cons_append]

theorem stringChar (c : StringChar) (rest : Text) :
    inside (c.text ++ rest) = c.text ++ inside rest := by
  cases c with
  | plain c hc => exact h.copies c rest hc.2.1 hc.2.2
  | escape c hc => exact h.skips c rest
  | unicode digits hlength hhex =>
    have hdigits : ∀ {ds : Text}, (∀ c ∈ ds, IsHex c) →
        inside (ds ++ rest) = ds ++ inside rest := by
      intro ds hds
      induction ds with
      | nil => rfl
      | cons d ds ih =>
        obtain ⟨hd, hds⟩ := List.forall_mem_cons.mp hds
        rw [List.cons_append, h.copies d, ih hds, List.cons_append]
        · rintro rfl
          exact absurd hd.bare (by decide)
        · rintro rfl
          exact absurd hd.bare (by decide)
    have hskip := h.skips 'u' (digits ++ rest)
    rw [hdigits hhex] at hskip
    exact hskip

theorem string (chars : List StringChar) (rest : Text) :
    outside (stringText chars ++ rest) = stringText chars ++ outside rest := by
  have hinside : ∀ chars : List StringChar,
      inside (chars.flatMap StringChar.text ++ '"' :: rest) =
        chars.flatMap StringChar.text ++ '"' :: outside rest := by
    intro chars
    induction chars with
    | nil => exact h.leaves rest
    | cons c chars ih =>
      rw [List.flatMap_cons, List.append_assoc, h.stringChar, ih, List.append_assoc]
  rw [stringText, List.cons_append, h.enters, List.append_assoc, List.singleton_append, hinside,
    List.cons_append, List.append_assoc]
  rfl

/-- A scanner that copies what tokens are made of copies tokens. -/
theorem token (hp : ∀ c, IsBare c ∨ IsPunctuation c → c ≠ ',' → p c) {t : Token}
    (ht : t = .comma → p ',') (rest : Text) : outside (t.text ++ rest) = t.text ++ outside rest := by
  have hpunctuation : ∀ c, IsPunctuation c → c ≠ ',' → p c := fun c hc => hp c (.inr hc)
  cases t with
  | openObject => exact h.passes _ rest (hpunctuation '{' (by decide) (by decide))
  | closeObject => exact h.passes _ rest (hpunctuation '}' (by decide) (by decide))
  | openArray => exact h.passes _ rest (hpunctuation '[' (by decide) (by decide))
  | closeArray => exact h.passes _ rest (hpunctuation ']' (by decide) (by decide))
  | colon => exact h.passes _ rest (hpunctuation ':' (by decide) (by decide))
  | comma => exact h.passes _ rest (ht rfl)
  | string chars => exact h.string chars rest
  | scalar s hs =>
    refine h.bare (fun c hc => ?_) rest
    have hbare := hs.bare.2 c hc
    refine hp c (.inl hbare) ?_
    rintro rfl
    exact absurd hbare (by decide)

end Copies

end LeanCtx.JsonGrammar
