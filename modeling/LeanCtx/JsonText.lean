import LeanCtx.Delimited
import Mathlib

/-!
# Compact JSON texts of records

The texts `serde_json` writes for strings and numbers. Both can be read back
from the front of a longer text: a quoted string ends at its own closing quote,
a number at the first character that is no digit. A record of such fields is
therefore determined by its text, and stands on one line.
-/

namespace LeanCtx.JsonText

def hexDigit (n : ℕ) : Char := if n < 10 then Char.ofNat (48 + n) else Char.ofNat (87 + n)

def hexVal (c : Char) : ℕ := if c.toNat < 58 then c.toNat - 48 else c.toNat - 87

/-- The character as it stands between the quotes of a string. -/
def escapeChar (c : Char) : List Char :=
  if c = '"' then ['\\', '"']
  else if c = '\\' then ['\\', '\\']
  else if c = '\x08' then ['\\', 'b']
  else if c = '\x0c' then ['\\', 'f']
  else if c = '\n' then ['\\', 'n']
  else if c = '\x0d' then ['\\', 'r']
  else if c = '\t' then ['\\', 't']
  else if c.toNat < 0x20 then ['\\', 'u', '0', '0', hexDigit (c.toNat / 16), hexDigit (c.toNat % 16)]
  else [c]

def quote (s : String) : List Char := '"' :: (s.toList.flatMap escapeChar ++ ['"'])

/-- The character at the front of the inside of a string, and the rest. -/
def readChar : List Char → Option (Char × List Char)
  | '\\' :: '"' :: r => some ('"', r)
  | '\\' :: '\\' :: r => some ('\\', r)
  | '\\' :: 'b' :: r => some ('\x08', r)
  | '\\' :: 'f' :: r => some ('\x0c', r)
  | '\\' :: 'n' :: r => some ('\n', r)
  | '\\' :: 'r' :: r => some ('\x0d', r)
  | '\\' :: 't' :: r => some ('\t', r)
  | '\\' :: 'u' :: '0' :: '0' :: a :: b :: r => some (Char.ofNat (16 * hexVal a + hexVal b), r)
  | '\\' :: _ => none
  | '"' :: _ => none
  | c :: r => some (c, r)
  | [] => none

theorem hexVal_hexDigit : ∀ n < 16, hexVal (hexDigit n) = n := by decide

theorem readChar_escapeChar (c : Char) (r : List Char) :
    readChar (escapeChar c ++ r) = some (c, r) := by
  unfold escapeChar
  split_ifs with h₁ h₂ h₃ h₄ h₅ h₆ h₇ h₈
  · rw [h₁]; rfl
  · rw [h₂]; rfl
  · rw [h₃]; rfl
  · rw [h₄]; rfl
  · rw [h₅]; rfl
  · rw [h₆]; rfl
  · rw [h₇]; rfl
  · have hval : Char.ofNat (16 * hexVal (hexDigit (c.toNat / 16)) +
        hexVal (hexDigit (c.toNat % 16))) = c := by
      rw [hexVal_hexDigit _ (by omega), hexVal_hexDigit _ (by omega), Nat.div_add_mod]
      exact Char.ofNat_toNat c
    change some (_, r) = _
    rw [hval]
  · rw [List.singleton_append, readChar]
    all_goals grind

theorem escapeChar_inj {c c' : Char} {r r' : List Char}
    (h : escapeChar c ++ r = escapeChar c' ++ r') : c = c' ∧ r = r' := by
  have hread := readChar_escapeChar c r
  rw [h, readChar_escapeChar] at hread
  simpa [eq_comm] using hread

theorem readChar_quote (r : List Char) : readChar ('"' :: r) = none := rfl

theorem quote_append_inj {s s' : String} {r r' : List Char} (h : quote s ++ r = quote s' ++ r') :
    s = s' ∧ r = r' := by
  have hlists : ∀ cs cs' : List Char, cs.flatMap escapeChar ++ '"' :: r =
      cs'.flatMap escapeChar ++ '"' :: r' → cs = cs' ∧ r = r' := by
    intro cs
    induction cs with
    | nil =>
      intro cs' h
      cases cs' with
      | nil => simpa using h
      | cons c' cs' =>
        -- A closing quote is never the front of an escaped character.
        have hread := readChar_escapeChar c' (cs'.flatMap escapeChar ++ '"' :: r')
        rw [← List.append_assoc, ← List.flatMap_cons, ← h] at hread
        simp [readChar_quote] at hread
    | cons c cs ih =>
      intro cs' h
      cases cs' with
      | nil =>
        have hread := readChar_escapeChar c (cs.flatMap escapeChar ++ '"' :: r)
        rw [← List.append_assoc, ← List.flatMap_cons, h] at hread
        simp [readChar_quote] at hread
      | cons c' cs' =>
        rw [List.flatMap_cons, List.flatMap_cons, List.append_assoc, List.append_assoc] at h
        obtain ⟨rfl, htail⟩ := escapeChar_inj h
        obtain ⟨rfl, hr⟩ := ih cs' htail
        exact ⟨rfl, hr⟩
  simp only [quote, List.cons_append, List.append_assoc, List.cons.injEq, true_and,
    List.nil_append] at h
  obtain ⟨hs, hr⟩ := hlists _ _ h
  exact ⟨String.toList_inj.mp hs, hr⟩

theorem repr_append_inj {m n : ℕ} {c c' : Char} {r r' : List Char} (hc : c.isDigit = false)
    (hc' : c'.isDigit = false) (h : m.repr.toList ++ c :: r = n.repr.toList ++ c' :: r') :
    m = n ∧ r = r' := by
  have hdigits : ∀ k : ℕ, ∀ d ∈ k.repr.toList, d.isDigit = true := by
    intro k d hd
    rw [Nat.toList_repr] at hd
    exact Nat.isDigit_of_mem_toDigits (by decide) (by decide) hd
  have hspan : ∀ (k : ℕ) (d : Char) (t : List Char), d.isDigit = false →
      (k.repr.toList ++ d :: t).takeWhile Char.isDigit = k.repr.toList := by
    intro k d t hd
    rw [List.takeWhile_append_of_pos (hdigits k), List.takeWhile_cons_of_neg (by simp [hd]),
      List.append_nil]
  have htake := congrArg (List.takeWhile Char.isDigit) h
  rw [hspan m c r hc, hspan n c' r' hc'] at htake
  have hmn : m = n := Nat.repr_injective (String.toList_inj.mp htake)
  subst hmn
  exact ⟨rfl, (List.cons.inj (List.append_cancel_left h)).2⟩

theorem newline_not_mem_quote (s : String) : '\n' ∉ quote s := by
  have hchar : ∀ c : Char, '\n' ∉ escapeChar c := by
    intro c
    unfold escapeChar
    split_ifs with h₁ h₂ h₃ h₄ h₅ h₆ h₇ h₈
    · decide
    · decide
    · decide
    · decide
    · decide
    · decide
    · decide
    · have hdigit : ∀ n < 16, hexDigit n ≠ '\n' := by decide
      have hhigh := hdigit (c.toNat / 16) (by omega)
      have hlow := hdigit (c.toNat % 16) (by omega)
      simp [hhigh.symm, hlow.symm]
    · simpa using Ne.symm h₅
  intro hmem
  simp only [quote, List.mem_cons, List.mem_append, List.mem_flatMap, List.not_mem_nil, or_false]
    at hmem
  rcases hmem with h | ⟨c, -, hc⟩ | h
  · exact absurd h (by decide)
  · exact hchar c hc
  · exact absurd h (by decide)

/-! ## Records -/

mutual

/-- A record as it is written: its fields stand in the order they are declared in. -/
inductive Doc
  | null
  | num (n : ℕ)
  | str (s : String)
  | obj (fields : Fields)

inductive Fields
  | nil
  | cons (key : String) (value : Doc) (rest : Fields)

end

/-- The fields of a record, each under its name. -/
def fields (entries : List (String × Doc)) : Fields :=
  entries.foldr (fun entry rest => .cons entry.1 entry.2 rest) .nil

mutual

def Doc.chars : Doc → List Char
  | .null => "null".toList
  | .num n => n.repr.toList
  | .str s => quote s
  | .obj .nil => ['{', '}']
  | .obj (.cons key value rest) => '{' :: (quote key ++ ':' :: (value.chars ++ rest.chars))

/-- The text of the fields after the first value of a record. -/
def Fields.chars : Fields → List Char
  | .nil => ['}']
  | .cons key value rest => ',' :: (quote key ++ ':' :: (value.chars ++ rest.chars))

end

def Doc.text (d : Doc) : String := String.ofList d.chars

/-- Where a value may end. -/
def Ended (r : List Char) : Prop := ∃ c t, r = c :: t ∧ c.isDigit = false

theorem Fields.chars_ended (f : Fields) (r : List Char) : Ended (f.chars ++ r) := by
  cases f with
  | nil => exact ⟨'}', r, rfl, by decide⟩
  | cons key value rest => exact ⟨',', _, rfl, by decide⟩

/-- The kind of a value shows in its first character. -/
def Doc.Opens : Doc → Char → Prop
  | .null, c => c = 'n'
  | .num _, c => c.isDigit = true
  | .str _, c => c = '"'
  | .obj _, c => c = '{'

theorem Doc.chars_opens (d : Doc) : ∃ c t, d.chars = c :: t ∧ d.Opens c := by
  cases d with
  | null => exact ⟨'n', _, rfl, rfl⟩
  | num n =>
    have hne : n.repr.toList ≠ [] := by simp [Nat.toList_repr]
    obtain ⟨c, t, hct⟩ := List.exists_cons_of_ne_nil hne
    refine ⟨c, t, by rw [Doc.chars, hct], ?_⟩
    have hmem : c ∈ Nat.toDigits 10 n := by
      rw [← Nat.toList_repr, hct]
      exact List.mem_cons_self
    exact Nat.isDigit_of_mem_toDigits (by decide) (by decide) hmem
  | str s => exact ⟨'"', _, rfl, rfl⟩
  | obj f =>
    cases f with
    | nil => exact ⟨'{', _, rfl, rfl⟩
    | cons key value rest => exact ⟨'{', _, rfl, rfl⟩

/-- Values whose texts start two equal texts are of one kind. -/
theorem Doc.opens_of_append {a b : Doc} {r r' : List Char} (h : a.chars ++ r = b.chars ++ r') :
    ∃ c, a.Opens c ∧ b.Opens c := by
  obtain ⟨c, t, hc, hopen⟩ := a.chars_opens
  obtain ⟨c', t', hc', hopen'⟩ := b.chars_opens
  rw [hc, hc', List.cons_append, List.cons_append] at h
  obtain rfl := (List.cons.inj h).1
  exact ⟨c, hopen, hopen'⟩

/-- One entry and the entries after it, given that its value and those entries can be read back. -/
theorem entry_inj {key key' : String} {a b : Doc} {f g : Fields} {r r' : List Char}
    (hvalue : ∀ {t t' : List Char}, Ended t → Ended t' → a.chars ++ t = b.chars ++ t' →
      a = b ∧ t = t')
    (hrest : f.chars ++ r = g.chars ++ r' → f = g ∧ r = r')
    (h : quote key ++ ':' :: (a.chars ++ f.chars) ++ r =
      quote key' ++ ':' :: (b.chars ++ g.chars) ++ r') :
    Fields.cons key a f = Fields.cons key' b g ∧ r = r' := by
  rw [List.append_assoc, List.append_assoc] at h
  obtain ⟨rfl, hentry⟩ := quote_append_inj h
  have htail : a.chars ++ (f.chars ++ r) = b.chars ++ (g.chars ++ r') := by
    simpa using (List.cons.inj hentry).2
  obtain ⟨rfl, hfields⟩ := hvalue (f.chars_ended r) (g.chars_ended r') htail
  obtain ⟨rfl, hr⟩ := hrest hfields
  exact ⟨rfl, hr⟩

mutual

theorem Doc.chars_append_inj (a b : Doc) {r r' : List Char} (hr : Ended r) (hr' : Ended r')
    (h : a.chars ++ r = b.chars ++ r') : a = b ∧ r = r' := by
  obtain ⟨c, ha, hb⟩ := Doc.opens_of_append h
  cases a with
  | null =>
    cases b with
    | null => exact ⟨rfl, List.append_cancel_left h⟩
    | num n => subst ha; exact absurd hb (by simp [Doc.Opens])
    | str s => subst ha; exact absurd hb (by simp [Doc.Opens])
    | obj f => subst ha; exact absurd hb (by simp [Doc.Opens])
  | num m =>
    cases b with
    | null => subst hb; exact absurd ha (by simp [Doc.Opens])
    | num n =>
      obtain ⟨d, t, rfl, hd⟩ := hr
      obtain ⟨d', t', rfl, hd'⟩ := hr'
      obtain ⟨rfl, -⟩ := repr_append_inj hd hd' h
      exact ⟨rfl, List.append_cancel_left h⟩
    | str s => subst hb; exact absurd ha (by simp [Doc.Opens])
    | obj f => subst hb; exact absurd ha (by simp [Doc.Opens])
  | str s =>
    subst ha
    cases b with
    | null => exact absurd hb (by simp [Doc.Opens])
    | num n => exact absurd hb (by simp [Doc.Opens])
    | str s' =>
      obtain ⟨rfl, hrr⟩ := quote_append_inj h
      exact ⟨rfl, hrr⟩
    | obj f => exact absurd hb (by simp [Doc.Opens])
  | obj f =>
    subst ha
    cases b with
    | null => exact absurd hb (by simp [Doc.Opens])
    | num n => exact absurd hb (by simp [Doc.Opens])
    | str s' => exact absurd hb (by simp [Doc.Opens])
    | obj g =>
      cases f with
      | nil =>
        cases g with
        | nil => exact ⟨rfl, List.append_cancel_left h⟩
        | cons key' value' rest' => exact absurd (List.cons.inj (List.cons.inj h).2).1 (by decide)
      | cons key value rest =>
        cases g with
        | nil => exact absurd (List.cons.inj (List.cons.inj h).2).1 (by decide)
        | cons key' value' rest' =>
          have hentry := entry_inj (Doc.chars_append_inj value value')
            (Fields.chars_append_inj rest rest') (List.cons.inj h).2
          exact ⟨by rw [hentry.1], hentry.2⟩

theorem Fields.chars_append_inj (f g : Fields) {r r' : List Char}
    (h : f.chars ++ r = g.chars ++ r') : f = g ∧ r = r' := by
  cases f with
  | nil =>
    cases g with
    | nil => exact ⟨rfl, List.append_cancel_left h⟩
    | cons key' value' rest' => exact absurd (List.cons.inj h).1 (by decide)
  | cons key value rest =>
    cases g with
    | nil => exact absurd (List.cons.inj h).1 (by decide)
    | cons key' value' rest' =>
      exact entry_inj (Doc.chars_append_inj value value') (Fields.chars_append_inj rest rest')
        (List.cons.inj h).2

end

theorem Doc.text_inj {a b : Doc} (h : a.text = b.text) : a = b := by
  have hchars : a.chars = b.chars := String.ofList_injective h
  -- A line end after both texts closes numbers too.
  have hend : Ended ['\n'] := ⟨'\n', [], rfl, by decide⟩
  exact (Doc.chars_append_inj a b hend hend (by rw [hchars])).1

mutual

theorem Doc.newline_not_mem (d : Doc) : '\n' ∉ d.chars := by
  cases d with
  | null => decide
  | num n =>
    intro hmem
    rw [Doc.chars, Nat.toList_repr] at hmem
    exact absurd (Nat.isDigit_of_mem_toDigits (by decide) (by decide) hmem) (by decide)
  | str s => exact newline_not_mem_quote s
  | obj f =>
    cases f with
    | nil => decide
    | cons key value rest =>
      have hkey := newline_not_mem_quote key
      have hvalue := Doc.newline_not_mem value
      have hrest := Fields.newline_not_mem rest
      simp [Doc.chars, hkey, hvalue, hrest]

theorem Fields.newline_not_mem (f : Fields) : '\n' ∉ f.chars := by
  cases f with
  | nil => decide
  | cons key value rest =>
    have hkey := newline_not_mem_quote key
    have hvalue := Doc.newline_not_mem value
    have hrest := Fields.newline_not_mem rest
    simp [Fields.chars, hkey, hvalue, hrest]

end

theorem Fields.chars_getLast? (entries : List (String × Doc)) :
    (fields entries).chars.getLast? = some '}' := by
  induction entries with
  | nil => rfl
  | cons entry rest ih =>
    have hne : (fields rest).chars ≠ [] := by
      intro hnil
      rw [hnil] at ih
      cases ih
    have hsplit : (fields (entry :: rest)).chars =
        (',' :: (quote entry.1 ++ ':' :: entry.2.chars)) ++ (fields rest).chars := by
      simp [fields, Fields.chars]
    rw [hsplit, List.getLast?_append_of_ne_nil _ hne, ih]

/-- The end of a record shows its last fields. -/
theorem Doc.obj_chars_suffix (front back : List (String × Doc)) (hfront : front ≠ []) :
    (fields back).chars <:+ (Doc.obj (fields (front ++ back))).chars := by
  have hfields : ∀ front : List (String × Doc),
      (fields back).chars <:+ (fields (front ++ back)).chars := by
    intro front
    induction front with
    | nil => exact List.suffix_refl _
    | cons entry rest ih =>
      obtain ⟨pre, hpre⟩ := ih
      refine ⟨',' :: (quote entry.1 ++ ':' :: (entry.2.chars ++ pre)), ?_⟩
      change _ = ',' :: (quote entry.1 ++ ':' :: (entry.2.chars ++ (fields (rest ++ back)).chars))
      rw [← hpre]
      simp
  obtain ⟨entry, rest, rfl⟩ := List.exists_cons_of_ne_nil hfront
  obtain ⟨pre, hpre⟩ := hfields rest
  refine ⟨'{' :: (quote entry.1 ++ ':' :: (entry.2.chars ++ pre)), ?_⟩
  change _ = '{' :: (quote entry.1 ++ ':' :: (entry.2.chars ++ (fields (rest ++ back)).chars))
  rw [← hpre]
  simp

theorem fields_inj {xs ys : List (String × Doc)} (h : fields xs = fields ys) : xs = ys := by
  induction xs generalizing ys with
  | nil =>
    cases ys with
    | nil => rfl
    | cons y ys => simp [fields] at h
  | cons x xs ih =>
    cases ys with
    | nil => simp [fields] at h
    | cons y ys =>
      obtain ⟨hkey, hvalue, hrest⟩ := Fields.cons.inj h
      rw [ih hrest, Prod.ext hkey hvalue]

/-- A field that may be null. -/
def optionDoc : Option String → Doc
  | some s => .str s
  | none => .null

theorem optionDoc_inj {a b : Option String} (h : optionDoc a = optionDoc b) : a = b := by
  cases a with
  | none =>
    cases b with
    | none => rfl
    | some b => cases h
  | some a =>
    cases b with
    | none => cases h
    | some b => rw [Doc.str.inj h]

end LeanCtx.JsonText
