import LeanCtx.JsonGrammar

/-!
# Reading JSON with comments

Two scanners clean a text before it is read: the first drops comments, the
second drops a comma before a closing bracket. Each finds the strings on its
own. On a text of tokens the first leaves whitespace in the gaps and the second
leaves the tokens of the value, so what is read is the value.
-/

namespace LeanCtx.Jsonc

open JsonGrammar

/-! ## The scanners -/

inductive Mode
  | code
  | string
  | line
  | block

/-- An unclosed block comment leaves its last character. -/
@[simp]
def stripComments : Mode → Text → Text
  | .code, '"' :: rest => '"' :: stripComments .string rest
  | .code, '/' :: '/' :: rest => stripComments .line rest
  | .code, '/' :: '*' :: rest => stripComments .block rest
  | .code, c :: rest => c :: stripComments .code rest
  | .string, '\\' :: c :: rest => '\\' :: c :: stripComments .string rest
  | .string, '"' :: rest => '"' :: stripComments .code rest
  | .string, c :: rest => c :: stripComments .string rest
  | .line, '\n' :: rest => '\n' :: stripComments .code rest
  | .line, _ :: rest => stripComments .line rest
  | .block, '*' :: '/' :: rest => stripComments .code rest
  | .block, [c] => [c]
  | .block, _ :: rest => stripComments .block rest
  | _, [] => []

def stripJsonComments (input : Text) : Text := stripComments .code input

def isAsciiWhitespace (c : Char) : Bool :=
  c == ' ' || c == '\t' || c == '\n' || c == '\x0c' || c == '\r'

/-- Whether a closing bracket comes next. -/
def closes (rest : Text) : Bool :=
  let next := (rest.dropWhile isAsciiWhitespace).head?
  next == some '}' || next == some ']'

@[simp]
def stripCommas : (inString : Bool) → Text → Text
  | true, '\\' :: c :: rest => '\\' :: c :: stripCommas true rest
  | true, '"' :: rest => '"' :: stripCommas false rest
  | true, c :: rest => c :: stripCommas true rest
  | false, '"' :: rest => '"' :: stripCommas true rest
  | false, c :: rest =>
    if c = ',' ∧ closes rest = true then stripCommas false rest
    else c :: stripCommas false rest
  | _, [] => []

def stripTrailingCommas (input : Text) : Text := stripCommas false input

def byteOrderMark : Char := '\ufeff'

def stripBom : Text → Text
  | [] => []
  | c :: rest => if c = byteOrderMark then rest else c :: rest

def parseJsonc {R : Type} (fromStr : Text → R) (input : Text) : R :=
  fromStr (stripTrailingCommas (stripJsonComments (stripBom input)))

/-! ## Texts with comments and trailing commas -/

def IsBlank (c : Char) : Prop := c = ' ' ∨ c = '\t' ∨ c = '\n' ∨ c = '\r'

/-- What may stand between tokens. -/
inductive Gap : Text → Prop
  | nil : Gap []
  | blank {c : Char} {g : Text} (hc : IsBlank c) (hg : Gap g) : Gap (c :: g)
  | line {body g : Text} (hbody : '\n' ∉ body) (hg : Gap g) :
    Gap ('/' :: '/' :: (body ++ '\n' :: g))
  | block {body g : Text} (hbody : ¬ ['*', '/'] <:+: body) (hg : Gap g) :
    Gap ('/' :: '*' :: (body ++ '*' :: '/' :: g))

/-- What may stand at the end: the last line may be a comment. -/
inductive LastGap : Text → Prop
  | gap {g : Text} (hg : Gap g) : LastGap g
  | line {g body : Text} (hg : Gap g) (hbody : '\n' ∉ body) : LastGap (g ++ '/' :: '/' :: body)

/-- A comma at the end of a list that is not empty, or nothing. -/
def Trailing {α : Type} (l : List α) (comma : List Token) : Prop :=
  comma = [] ∨ l ≠ [] ∧ comma = [.comma]

mutual

/-- The tokens of a tree, where the last part of a list may have a comma after it. -/
inductive Loose : Tree → List Token → Prop
  | scalar (s : Text) (h : Scalar s) : Loose (.scalar s h) [.scalar s h]
  | string (chars : List StringChar) : Loose (.string chars) [.string chars]
  | array {items : List Tree} {ts comma : List Token} (h : LooseItems true items ts)
    (hcomma : Trailing items comma) :
    Loose (.array items) (.openArray :: (ts ++ (comma ++ [.closeArray])))
  | object {entries : List (List StringChar × Tree)} {ts comma : List Token}
    (h : LooseEntries true entries ts) (hcomma : Trailing entries comma) :
    Loose (.object entries) (.openObject :: (ts ++ (comma ++ [.closeObject])))

inductive LooseItems : (first : Bool) → List Tree → List Token → Prop
  | nil {first : Bool} : LooseItems first [] []
  | cons {first : Bool} {v : Tree} {rest : List Tree} {ts us : List Token} (h : Loose v ts)
    (hrest : LooseItems false rest us) :
    LooseItems first (v :: rest) ((if first then [] else [.comma]) ++ (ts ++ us))

inductive LooseEntries : (first : Bool) → List (List StringChar × Tree) → List Token → Prop
  | nil {first : Bool} : LooseEntries first [] []
  | cons {first : Bool} {key : List StringChar} {v : Tree}
    {rest : List (List StringChar × Tree)} {ts us : List Token} (h : Loose v ts)
    (hrest : LooseEntries false rest us) :
    LooseEntries first ((key, v) :: rest)
      ((if first then [] else [.comma]) ++ .string key :: .colon :: (ts ++ us))

end

/-! ## The first scanner leaves whitespace -/

theorem code_cons {c : Char} (hquote : c ≠ '"') (hslash : c ≠ '/') (rest : Text) :
    stripComments .code (c :: rest) = c :: stripComments .code rest := by
  rw [stripComments]
  · exact fun h => hquote h
  · exact fun _ h _ => hslash h
  · exact fun _ h _ => hslash h

theorem copies_comments :
    Copies (fun c => IsBare c ∨ IsPunctuation c) (stripComments .code) (stripComments .string) where
  enters _ := rfl
  passes c rest hc := by
    apply code_cons
    · rintro rfl
      exact absurd hc (by decide)
    · rintro rfl
      exact absurd hc (by decide)
  leaves _ := by rw [stripComments]
  skips _ _ := rfl
  copies c rest hquote hbackslash := by
    rw [stripComments]
    · exact fun _ _ h _ => hbackslash h
    · exact fun h => hquote h

theorem line_body {body : Text} (h : '\n' ∉ body) (rest : Text) :
    stripComments .line (body ++ rest) = stripComments .line rest := by
  induction body with
  | nil => rfl
  | cons c body ih =>
    obtain ⟨hc, hbody⟩ := not_or.mp fun hmem => h (List.mem_cons.mpr hmem)
    rw [List.cons_append, stripComments, ih hbody]
    exact fun heq => hc heq.symm

/-- A block comment ends at the first place where it can. -/
theorem block_body {body : Text} (h : ¬ ['*', '/'] <:+: body) (rest : Text) :
    stripComments .block (body ++ '*' :: '/' :: rest) = stripComments .code rest := by
  induction body with
  | nil => rw [List.nil_append, stripComments]
  | cons c body ih =>
    rw [List.cons_append, stripComments]
    · exact ih fun hinside => h (hinside.trans (List.suffix_cons c body).isInfix)
    · intro rest' hstar hslash
      cases body with
      | nil => exact absurd (List.cons.inj hslash).1 (by decide)
      | cons c' body =>
        refine h ⟨[], body, ?_⟩
        rw [hstar, ← (List.cons.inj hslash).1]
        rfl
    · exact fun hnil => List.cons_ne_nil _ _ (List.append_eq_nil_iff.mp hnil).2

theorem IsBlank.code {c : Char} (h : IsBlank c) (rest : Text) :
    stripComments .code (c :: rest) = c :: stripComments .code rest := by
  rcases h with rfl | rfl | rfl | rfl <;> exact code_cons (by decide) (by decide) rest

/-- Of a gap, whitespace is left. -/
theorem code_gap {g : Text} (h : Gap g) : ∃ w, Blank w ∧
    ∀ rest, stripComments .code (g ++ rest) = w ++ stripComments .code rest := by
  induction h with
  | nil => exact ⟨[], nofun, fun _ => rfl⟩
  | @blank c g hc _ ih =>
    obtain ⟨w, hw, hg⟩ := ih
    refine ⟨c :: w, List.forall_mem_cons.mpr ⟨hc, hw⟩, ?_⟩
    intro rest
    rw [List.cons_append, hc.code, hg, List.cons_append]
  | @line body g hbody _ ih =>
    obtain ⟨w, hw, hg⟩ := ih
    refine ⟨'\n' :: w, List.forall_mem_cons.mpr ⟨.inr (.inr (.inl rfl)), hw⟩, ?_⟩
    intro rest
    have hsplit : '/' :: '/' :: (body ++ '\n' :: g) ++ rest =
        '/' :: '/' :: (body ++ '\n' :: (g ++ rest)) := by simp
    rw [hsplit, stripComments, line_body hbody, stripComments, hg, List.cons_append]
  | @block body g hbody _ ih =>
    obtain ⟨w, hw, hg⟩ := ih
    refine ⟨w, hw, ?_⟩
    intro rest
    have hsplit : '/' :: '*' :: (body ++ '*' :: '/' :: g) ++ rest =
        '/' :: '*' :: (body ++ '*' :: '/' :: (g ++ rest)) := by simp
    rw [hsplit, stripComments, block_body hbody, hg]

theorem code_lastGap {g : Text} (h : LastGap g) : Blank (stripComments .code g) := by
  cases h with
  | gap hg =>
    obtain ⟨w, hw, hcode⟩ := code_gap hg
    have hend := hcode []
    rw [List.append_nil, stripComments, List.append_nil] at hend
    rwa [hend]
  | @line g body hg hbody =>
    obtain ⟨w, hw, hcode⟩ := code_gap hg
    have hline := line_body hbody []
    rw [List.append_nil] at hline
    rw [hcode, stripComments, hline, stripComments, List.append_nil]
    exact hw

theorem spelled_stripComments {ts : List Token} {s : Text} (h : Spelled Gap LastGap ts s) :
    Spelled Blank Blank ts (stripComments .code s) := by
  induction h with
  | nil h => exact .nil (code_lastGap h)
  | @cons g t ts s hg _ ih =>
    obtain ⟨w, hw, hcode⟩ := code_gap hg
    rw [hcode, copies_comments.token (fun c hc _ => hc) (fun _ => .inr (by decide))]
    exact .cons hw ih

/-! ## The second scanner leaves the tokens of the value -/

def isComma : Token → Bool
  | .comma => true
  | _ => false

def isCloser : Token → Bool
  | .closeObject | .closeArray => true
  | _ => false

def closerNext (ts : List Token) : Bool := (ts.head?.map isCloser).getD false

/-- The tokens without a comma that a closing bracket follows. -/
def dropTrailing : List Token → List Token
  | [] => []
  | t :: ts =>
    if isComma t = true ∧ closerNext ts = true then dropTrailing ts
    else t :: dropTrailing ts

theorem dropTrailing_cons {t : Token} (h : isComma t = false) (ts : List Token) :
    dropTrailing (t :: ts) = t :: dropTrailing ts := by
  rw [dropTrailing, if_neg]
  rw [h]
  exact fun hcomma => absurd hcomma.1 (by decide)

theorem commas_cons {c : Char} (hquote : c ≠ '"') (rest : Text) :
    stripCommas false (c :: rest) =
      if c = ',' ∧ closes rest = true then stripCommas false rest
      else c :: stripCommas false rest := by
  rw [stripCommas]
  exact fun h => hquote h

theorem copies_commas : Copies (fun c => (IsBare c ∨ IsPunctuation c) ∧ c ≠ ',')
    (stripCommas false) (stripCommas true) where
  enters _ := rfl
  passes c rest hc := by
    rw [commas_cons, if_neg fun h => hc.2 h.1]
    rintro rfl
    exact absurd hc.1 (by decide)
  leaves _ := by rw [stripCommas]
  skips _ _ := rfl
  copies c rest hquote hbackslash := by
    rw [stripCommas]
    · exact fun _ _ h _ => hbackslash h
    · exact fun h => hquote h

theorem commas_blank {g : Text} (h : Blank g) (rest : Text) :
    stripCommas false (g ++ rest) = g ++ stripCommas false rest := by
  induction g with
  | nil => rfl
  | cons c g ih =>
    obtain ⟨hc, hg⟩ := List.forall_mem_cons.mp h
    have hpass : c ≠ '"' ∧ c ≠ ',' := by
      rcases hc with rfl | rfl | rfl | rfl <;> decide
    rw [List.cons_append, commas_cons hpass.1, if_neg fun h => hpass.2 h.1, ih hg, List.cons_append]

theorem dropWhile_blank {g : Text} (h : Blank g) (rest : Text) :
    (g ++ rest).dropWhile isAsciiWhitespace = rest.dropWhile isAsciiWhitespace := by
  induction g with
  | nil => rfl
  | cons c g ih =>
    obtain ⟨hc, hg⟩ := List.forall_mem_cons.mp h
    have hblank : isAsciiWhitespace c = true := by
      rcases hc with rfl | rfl | rfl | rfl <;> decide
    rw [List.cons_append, List.dropWhile_cons_of_pos hblank, ih hg]

theorem isAsciiWhitespace_edge {c : Char} (h : IsEdge c) : isAsciiWhitespace c = false := by
  by_contra hblank
  rw [Bool.not_eq_false] at hblank
  simp only [isAsciiWhitespace, Bool.or_eq_true, beq_iff_eq] at hblank
  rcases hblank with (((rfl | rfl) | rfl) | rfl) | rfl
  all_goals exact absurd h (by decide)

theorem isCloser_eq {t : Token} {c : Char} {rest : Text} (h : t.text = c :: rest) :
    isCloser t = (some c == some '}' || some c == some ']') := by
  cases t with
  | scalar s hs =>
    have hbare : IsBare c := hs.bare.2 c (by rw [show s = c :: rest from h]; exact List.mem_cons_self)
    have hobject : c ≠ '}' := by
      rintro rfl
      exact absurd hbare (by decide)
    have harray : c ≠ ']' := by
      rintro rfl
      exact absurd hbare (by decide)
    simp [isCloser, hobject, harray]
  | _ => rw [← (List.cons.inj h).1]; rfl

/-- The scanner's lookahead sees the next token. -/
theorem closes_spelled {ts : List Token} {s : Text} (h : Spelled Blank Blank ts s) :
    closes s = closerNext ts := by
  cases h with
  | nil h =>
    have hend := dropWhile_blank h []
    rw [List.append_nil] at hend
    unfold closes
    rw [hend]
    rfl
  | @cons g t ts s hg _ =>
    obtain ⟨c, rest, ht, hc⟩ := t.head
    have hnext : (g ++ (t.text ++ s)).dropWhile isAsciiWhitespace = c :: (rest ++ s) := by
      rw [dropWhile_blank hg, ht, List.cons_append, List.dropWhile_cons_of_neg]
      rw [isAsciiWhitespace_edge hc]
      decide
    unfold closes
    rw [hnext]
    exact (isCloser_eq ht).symm

theorem spelled_stripCommas {ts : List Token} {s : Text} (h : Spelled Blank Blank ts s) :
    Spelled Blank Blank (dropTrailing ts) (stripCommas false s) := by
  induction h with
  | nil h =>
    have hend := commas_blank h []
    rw [List.append_nil, stripCommas, List.append_nil] at hend
    rw [hend]
    exact .nil h
  | @cons g t ts s hg hrest ih =>
    have happend : ∀ g', Blank g' → Blank (g ++ g') :=
      fun g' hg' c hc => (List.mem_append.mp hc).elim (hg c) (hg' c)
    rw [commas_blank hg]
    by_cases ht : t = .comma
    · subst ht
      have hcomma : stripCommas false (Token.text .comma ++ s) =
          if ',' = ',' ∧ closes s = true then stripCommas false s else ',' :: stripCommas false s :=
        commas_cons (by decide) s
      rw [hcomma, closes_spelled hrest, dropTrailing]
      by_cases hnext : closerNext ts = true
      · rw [if_pos ⟨rfl, hnext⟩, if_pos ⟨rfl, hnext⟩]
        exact ih.prepend happend happend
      · rw [if_neg fun h => hnext h.2, if_neg fun h => hnext h.2]
        exact .cons hg ih
    · have hnot : isComma t = false := by
        cases t <;> first | rfl | exact absurd rfl ht
      rw [copies_commas.token (fun c hc hne => ⟨hc, hne⟩) fun h => absurd h ht,
        dropTrailing_cons hnot]
      exact .cons hg ih

/-! ## Loose tokens -/

theorem dropTrailing_comma {ts : List Token} (h : closerNext ts = false) :
    dropTrailing (.comma :: ts) = .comma :: dropTrailing ts := by
  rw [dropTrailing, if_neg]
  rw [h]
  exact fun hnext => absurd hnext.2 (by decide)

/-- No value begins with a closing bracket. -/
theorem Loose.closerNext_eq {v : Tree} {ts : List Token} (h : Loose v ts) (rest : List Token) :
    closerNext (ts ++ rest) = false := by
  cases h <;> rfl

/-- Trees whose loose tokens come down to their own. -/
def Tightens (v : Tree) : Prop := ∀ ts, Loose v ts → ∀ rest,
  dropTrailing (ts ++ rest) = v.tokens ++ dropTrailing rest

theorem dropTrailing_items {items : List Tree} (hitems : ∀ v ∈ items, Tightens v) {first : Bool}
    {ts : List Token} (h : LooseItems first items ts) (rest : List Token) :
    dropTrailing (ts ++ rest) = Tree.itemTokens first items ++ dropTrailing rest := by
  induction items generalizing first ts with
  | nil => cases h; rfl
  | cons v items ih =>
    cases h with
    | @cons _ _ _ ts us hv hus =>
      obtain ⟨htight, hitems⟩ := List.forall_mem_cons.mp hitems
      have hparts : dropTrailing (ts ++ (us ++ rest)) =
          v.tokens ++ (Tree.itemTokens false items ++ dropTrailing rest) := by
        rw [htight ts hv, ih hitems hus]
      cases first with
      | true => simpa [Tree.itemTokens] using hparts
      | false =>
        have hcomma := dropTrailing_comma (hv.closerNext_eq (us ++ rest))
        rw [hparts] at hcomma
        simpa [Tree.itemTokens] using hcomma

theorem dropTrailing_entries {entries : List (List StringChar × Tree)}
    (hentries : ∀ e ∈ entries, Tightens e.2) {first : Bool} {ts : List Token}
    (h : LooseEntries first entries ts) (rest : List Token) :
    dropTrailing (ts ++ rest) = Tree.entryTokens first entries ++ dropTrailing rest := by
  induction entries generalizing first ts with
  | nil => cases h; rfl
  | cons e entries ih =>
    cases h with
    | @cons _ key v _ ts us hv hus =>
      obtain ⟨htight, hentries⟩ := List.forall_mem_cons.mp hentries
      have hparts : dropTrailing (.string key :: .colon :: (ts ++ (us ++ rest))) =
          .string key :: .colon ::
            (v.tokens ++ (Tree.entryTokens false entries ++ dropTrailing rest)) := by
        rw [dropTrailing_cons rfl, dropTrailing_cons rfl, htight ts hv, ih hentries hus]
      cases first with
      | true => simpa [Tree.entryTokens] using hparts
      | false =>
        have hcomma := dropTrailing_comma
          (show closerNext (.string key :: .colon :: (ts ++ (us ++ rest))) = false from rfl)
        rw [hparts] at hcomma
        simpa [Tree.entryTokens] using hcomma

theorem dropTrailing_end {α : Type} {l : List α} {comma : List Token} (h : Trailing l comma)
    {t : Token} (ht : isCloser t = true) (rest : List Token) :
    dropTrailing (comma ++ t :: rest) = t :: dropTrailing rest := by
  have hcloser : dropTrailing (t :: rest) = t :: dropTrailing rest := by
    apply dropTrailing_cons
    cases t <;> first | rfl | cases ht
  rcases h with rfl | ⟨-, rfl⟩
  · exact hcloser
  · rw [List.singleton_append, dropTrailing, if_pos ⟨rfl, ht⟩, hcloser]

theorem tightens (v : Tree) : Tightens v := by
  induction v using Tree.tree_induction with
  | scalar s hs =>
    intro ts h rest
    cases h
    exact dropTrailing_cons rfl rest
  | string chars =>
    intro ts h rest
    cases h
    exact dropTrailing_cons rfl rest
  | array items ih =>
    intro ts h rest
    cases h with
    | @array _ ts comma h hcomma =>
      have hsplit : .openArray :: (ts ++ (comma ++ [.closeArray])) ++ rest =
          .openArray :: (ts ++ (comma ++ .closeArray :: rest)) := by simp
      rw [hsplit, dropTrailing_cons rfl, dropTrailing_items ih h, dropTrailing_end hcomma rfl]
      simp [Tree.tokens]
  | object entries ih =>
    intro ts h rest
    cases h with
    | @object _ ts comma h hcomma =>
      have hsplit : .openObject :: (ts ++ (comma ++ [.closeObject])) ++ rest =
          .openObject :: (ts ++ (comma ++ .closeObject :: rest)) := by simp
      rw [hsplit, dropTrailing_cons rfl, dropTrailing_entries ih h, dropTrailing_end hcomma rfl]
      simp [Tree.tokens]

/-! ## What is read -/

theorem IsEdge.ne_bom {c : Char} (h : IsEdge c) : c ≠ byteOrderMark := by
  rintro rfl
  exact absurd h (by decide)

/-- A text of tokens begins with no byte order mark. -/
theorem stripBom_spelled {ts : List Token} {s : Text} (h : Spelled Gap LastGap ts s)
    (hts : ts ≠ []) : stripBom s = s := by
  obtain ⟨c, rest, rfl, hc⟩ : ∃ c rest, s = c :: rest ∧ c ≠ byteOrderMark := by
    cases h with
    | nil => exact absurd rfl hts
    | @cons g t ts s hg _ =>
      cases hg with
      | nil =>
        obtain ⟨c, rest, ht, hc⟩ := t.head
        exact ⟨c, rest ++ s, by rw [ht]; rfl, IsEdge.ne_bom hc⟩
      | blank hc _ =>
        refine ⟨_, _, rfl, ?_⟩
        rcases hc with rfl | rfl | rfl | rfl <;> decide
      | line _ _ => exact ⟨_, _, rfl, by decide⟩
      | block _ _ => exact ⟨_, _, rfl, by decide⟩
  rw [stripBom, if_neg hc]

/-- Whatever comments and trailing commas a value is written with, what is read is what its plain
text is read as. -/
theorem parseJsonc_loose {R : Type} {fromStr : Text → R} (hread : Insensitive fromStr) {v : Tree}
    {ts : List Token} {s plain : Text} (hts : Loose v ts) (hs : Spelled Gap LastGap ts s)
    (hplain : Spelled Blank Blank v.tokens plain) :
    parseJsonc fromStr s = fromStr plain ∧
      parseJsonc fromStr (byteOrderMark :: s) = fromStr plain := by
  have htokens : dropTrailing ts = v.tokens := by
    have htight := tightens v ts hts []
    rwa [List.append_nil, dropTrailing, List.append_nil] at htight
  have hne : ts ≠ [] := by
    rintro rfl
    exact v.tokens_ne_nil htokens.symm
  have hclean := spelled_stripCommas (spelled_stripComments hs)
  rw [htokens] at hclean
  have hparsed := hread v _ plain hclean hplain
  unfold parseJsonc
  rw [stripBom_spelled hs hne, stripBom, if_pos rfl]
  exact ⟨hparsed, hparsed⟩

theorem scalar_one : Scalar ['1'] :=
  .number (show Number ([] ++ (['1'] ++ ([] ++ []))) from .mk (.inl rfl)
    (.inr ⟨⟨by decide, fun c hc => List.mem_singleton.mp hc ▸ by decide⟩, by decide⟩)
    (.inl rfl) (.inl rfl))

def settingsKey : List StringChar :=
  [.plain 'a' (by decide), .plain '/' (by decide), .plain '*' (by decide)]

/-- `{"a/*":[1]}` -/
def settings : Tree := .object [(settingsKey, .array [.scalar ['1'] scalar_one])]

def settingsTokens : List Token :=
  [.openObject, .string settingsKey, .colon, .openArray, .scalar ['1'] scalar_one, .comma,
    .closeArray, .comma, .closeObject]

/-- A comment opener in a string, a comma in a comment, two trailing commas and an open comment. -/
theorem parseJsonc_loose_settings :
    parseJsonc accepts "\ufeff\x7b\"a/*\":[1,/*,*/]/**/,\x7d//".toList = true := by
  have hts : Loose settings settingsTokens :=
    .object (.cons (.array (.cons (.scalar ['1'] scalar_one) .nil)
      (.inr ⟨List.cons_ne_nil _ _, rfl⟩)) .nil) (.inr ⟨List.cons_ne_nil _ _, rfl⟩)
  have hcomma : Gap ('/' :: '*' :: ([','] ++ '*' :: '/' :: [])) := .block (by decide) .nil
  have hempty : Gap ('/' :: '*' :: ([] ++ '*' :: '/' :: [])) := .block (by decide) .nil
  have hlast : LastGap ([] ++ '/' :: '/' :: []) := .line .nil nofun
  have hs : Spelled Gap LastGap settingsTokens "\x7b\"a/*\":[1,/*,*/]/**/,\x7d//".toList :=
    .cons (g := []) .nil (.cons (g := []) .nil (.cons (g := []) .nil (.cons (g := []) .nil
      (.cons (g := []) .nil (.cons (g := []) .nil (.cons hcomma (.cons hempty (.cons (g := []) .nil
        (.nil hlast)))))))))
  have hblank : ∀ g, Empty g → Blank g := by
    rintro g rfl
    exact nofun
  have hplain : Spelled Blank Blank settings.tokens (settings.tokens.flatMap Token.text) :=
    (spelled_empty.mpr rfl).mono hblank hblank
  have hmark : "\ufeff\x7b\"a/*\":[1,/*,*/]/**/,\x7d//".toList =
      byteOrderMark :: "\x7b\"a/*\":[1,/*,*/]/**/,\x7d//".toList := by decide
  rw [hmark, (parseJsonc_loose insensitive_accepts hts hs hplain).2]
  exact accepts_spelled hplain

end LeanCtx.Jsonc
