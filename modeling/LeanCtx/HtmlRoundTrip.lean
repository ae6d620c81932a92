import LeanCtx.HtmlTree
import LeanCtx.Substitution
import Mathlib.Data.Bool.AllAny
import Mathlib.Data.List.Chain

/-!
# Writing a page and reading it

A page is written from elements and texts with comments and raw elements
between them. It is read back where no comment holds a `>`, no text spells an
entity, and a raw element comes last among its siblings, with content that its
own skipping loop survives: the tree never closes a raw element.
-/

namespace LeanCtx.HtmlCrush

open Knowledge (len trim)

/-! ## Pages as they are written -/

/-- The parts of a page. -/
inductive Part
  | element (tag : Text) (attrs : Attrs) (children : List Part)
  | text (text : Text)
  | comment (content : Text)
  | raw (name : Text) (attrs : Attrs) (content : Text)

@[elab_as_elim]
theorem Part.tree_induction {motive : Part → Prop}
    (element : ∀ tag attrs children, (∀ p ∈ children, motive p) →
      motive (.element tag attrs children))
    (text : ∀ t, motive (.text t)) (comment : ∀ content, motive (.comment content))
    (raw : ∀ name attrs content, motive (.raw name attrs content)) (part : Part) : motive part :=
  @Part.rec motive (fun children => ∀ p ∈ children, motive p) element text comment raw nofun
    (fun _ _ hp hrest => List.forall_mem_cons.mpr ⟨hp, hrest⟩) part

def escapeChar (c : Char) : Text :=
  if c = '&' then "&amp;".toList else if c = '<' then "&lt;".toList
  else if c = '>' then "&gt;".toList else if c = '"' then "&quot;".toList else [c]

def escape (text : Text) : Text := text.flatMap escapeChar

def writeAttr (attr : Text × Text) : Text := ' ' :: attr.1 ++ '=' :: '"' :: attr.2 ++ ['"']

def writeOpen (tag : Text) (attrs : Attrs) : Text := '<' :: tag ++ attrs.flatMap writeAttr ++ ['>']

def writeClose (tag : Text) : Text := '<' :: '/' :: tag ++ ['>']

mutual

def write : List Part → Text
  | [] => []
  | part :: rest => writePart part ++ write rest

def writePart : Part → Text
  | .element tag attrs children => writeOpen tag attrs ++ write children ++ writeClose tag
  | .text text => escape text
  | .comment content => "<!--".toList ++ content ++ "-->".toList
  | .raw name attrs content => writeOpen name attrs ++ content ++ writeClose name

end

/-- Names in lower case. -/
def lowerAttrs (attrs : Attrs) : Attrs := attrs.map fun attr => (toAsciiLowercase attr.1, attr.2)

mutual

/-- The forest that is written: elements and texts, with names in lower case. -/
def forest : List Part → List HtmlNodeChild
  | [] => []
  | part :: rest => forestOf part ++ forest rest

def forestOf : Part → List HtmlNodeChild
  | .element tag attrs children =>
    [.element (toAsciiLowercase tag) (lowerAttrs attrs) (forest children)]
  | .text text => [.text text]
  | .comment _ => []
  | .raw _ _ _ => []

end

mutual

/-- A tree without the raw elements that hold nothing. -/
def dropEmptyRaw : List HtmlNodeChild → List HtmlNodeChild
  | [] => []
  | child :: rest => keptOf child ++ dropEmptyRaw rest

def keptOf : HtmlNodeChild → List HtmlNodeChild
  | .text text => [.text text]
  | .element tag attrs children =>
    if isRawTextElement tag && (dropEmptyRaw children).isEmpty then []
    else [.element tag attrs (dropEmptyRaw children)]

end

def readPage (html : Text) : Option (List HtmlNodeChild) :=
  ((tokenize html).bind buildTree).map dropEmptyRaw

/-! ## What is asked of the parts -/

section Everywhere

variable (P : Part → Prop) (S : List Part → Prop)

mutual

/-- `P` holds of every part inside, and `S` of the children of every element. -/
def Everywhere : List Part → Prop
  | [] => True
  | part :: rest => EverywhereIn part ∧ Everywhere rest

def EverywhereIn : Part → Prop
  | .element tag attrs children =>
    P (.element tag attrs children) ∧ S children ∧ Everywhere children
  | .text text => P (.text text)
  | .comment content => P (.comment content)
  | .raw name attrs content => P (.raw name attrs content)

end

theorem everywhere_iff {parts : List Part} :
    Everywhere P S parts ↔ ∀ part ∈ parts, EverywhereIn P S part := by
  induction parts with
  | nil => simp [Everywhere]
  | cons part rest ih => rw [Everywhere, ih, List.forall_mem_cons]

end Everywhere

def WellFormedAttrs (attrs : Attrs) : Prop :=
  ∀ attr ∈ attrs, attr.1 ≠ [] ∧ (∀ c ∈ attr.1, isAttrNameChar c = true) ∧ '"' ∉ attr.2

/-- A part as it may be written: tag names of letters, digits and hyphens, texts that are not
blank, comments and raw contents without their own end. -/
def WellFormedPart : Part → Prop
  | .element tag attrs _ =>
    (∃ c rest, tag = c :: rest ∧ c.isAlpha) ∧ (∀ c ∈ tag, c.isAlphanum ∨ c = '-') ∧
      isVoidElement (toAsciiLowercase tag) = false ∧
      isRawTextElement (toAsciiLowercase tag) = false ∧ WellFormedAttrs attrs
  | .text text => trim text ≠ []
  | .comment content => ¬"-->".toList <:+: content
  | .raw name attrs content =>
    (toAsciiLowercase name = "script".toList ∨ toAsciiLowercase name = "style".toList) ∧
      WellFormedAttrs attrs ∧ ¬writeClose (toAsciiLowercase name) <:+: toAsciiLowercase content

def isText : HtmlNodeChild → Bool
  | .text _ => true
  | .element _ _ _ => false

/-- No two texts stand next to each other. -/
def TextsApart (parts : List Part) : Prop :=
  (forest parts).IsChain fun a b => ¬(isText a ∧ isText b)

def WellFormed (parts : List Part) : Prop :=
  TextsApart parts ∧ Everywhere WellFormedPart TextsApart parts

/-- The entities that are decoded after `&amp;`. -/
def laterEntities : List Text :=
  ["&lt;", "&gt;", "&quot;", "&#39;", "&apos;", "&nbsp;", "&#x27;", "&#x2F;"].map String.toList

/-- A part that is read as it was written. -/
def ReadablePart : Part → Prop
  | .element _ _ _ => True
  | .text text => ∀ entity ∈ laterEntities, ¬entity <:+: text
  | .comment content => '>' ∉ content
  | .raw name _ content =>
    toAsciiLowercase name = name ∧ ¬closeTagOf name <:+: content ∧
      CutsWhole (closeTagOf name) 0 [] (content ++ closeTagOf name)

def isComment : Part → Bool
  | .comment _ => true
  | _ => false

/-- Only comments follow a raw element among its siblings. -/
def RawLast : List Part → Prop
  | [] => True
  | .raw _ _ _ :: rest => ∀ part ∈ rest, isComment part = true
  | _ :: rest => RawLast rest

def Readable (parts : List Part) : Prop := RawLast parts ∧ Everywhere ReadablePart RawLast parts

/-! ## Entities -/

section Entities

open TextSearch (replaceAll replaceAll_append replaceAll_kept replaceAll_pass
  replaceAll_of_not_infix)

/-- A text with the characters of a table written as their entities. -/
def encode (table : List (Char × Text)) (text : Text) : Text :=
  text.flatMap fun c => (table.lookup c).getD [c]

/-- What starts with `&` and has no other one. -/
def IsEntity (e : Text) : Prop := e.head? = some '&' ∧ '&' ∉ e.tail

instance (e : Text) : Decidable (IsEntity e) :=
  inferInstanceAs (Decidable (e.head? = some '&' ∧ '&' ∉ e.tail))

theorem IsEntity.eq_cons {e : Text} (h : IsEntity e) : ∃ name, e = '&' :: name ∧ '&' ∉ name := by
  obtain ⟨hhead, htail⟩ := h
  cases e with
  | nil => cases hhead
  | cons c name =>
    obtain rfl : c = '&' := by simpa using hhead
    exact ⟨name, rfl, htail⟩

theorem encode_cons (table : List (Char × Text)) (c : Char) (text : Text) :
    encode table (c :: text) = (table.lookup c).getD [c] ++ encode table text := rfl

/-- A part of an encoded text that has no `&` is a part of the text. -/
theorem prefix_of_prefix_encode {table : List (Char × Text)}
    (htable : ∀ c e, table.lookup c = some e → IsEntity e) {part text : Text}
    (hpart : '&' ∉ part) (h : part <+: encode table text) : part <+: text := by
  induction text generalizing part with
  | nil => exact h
  | cons c text ih =>
    cases part with
    | nil => exact List.nil_prefix
    | cons d part =>
      rw [List.mem_cons, not_or] at hpart
      rw [encode_cons] at h
      cases hc : table.lookup c with
      | none =>
        rw [hc, Option.getD_none, List.singleton_append, List.cons_prefix_cons] at h
        obtain ⟨rfl, h⟩ := h
        exact (List.prefix_cons_inj d).mpr (ih hpart.2 h)
      | some e =>
        obtain ⟨name, rfl, -⟩ := (htable c e hc).eq_cons
        rw [hc, Option.getD_some, List.cons_append, List.cons_prefix_cons] at h
        exact absurd h.1.symm hpart.1

/-- Decoding the first entity of a table leaves a text encoded by the others. -/
theorem replaceAll_encode {c : Char} {needle text : Text} {rest : List (Char × Text)}
    (hneedle : IsEntity needle) (hrest : ∀ d e, rest.lookup d = some e →
      IsEntity e ∧ ¬needle <+: e ∧ ¬e <+: needle ∧ d ≠ c)
    (htext : c = '&' ∨ ¬needle <:+: text) :
    replaceAll needle [c] (encode ((c, needle) :: rest) text) = encode rest text := by
  obtain ⟨name, rfl, hname⟩ := hneedle.eq_cons
  have htable : ∀ d e, ((c, '&' :: name) :: rest).lookup d = some e → IsEntity e := by
    intro d e he
    rw [List.lookup_cons] at he
    split at he
    · cases he
      exact hneedle
    · exact (hrest d e he).1
  induction text with
  | nil => exact TextSearch.replaceAll_nil (List.cons_ne_nil _ _) _
  | cons d text ih =>
    have htext' : c = '&' ∨ ¬ '&' :: name <:+: text :=
      htext.imp_right fun h hinfix => h (List.infix_cons hinfix)
    have ih := ih htext'
    rw [encode_cons, encode_cons, List.lookup_cons]
    by_cases hdc : d = c
    · have hnone : rest.lookup d = none := by
        cases hd : rest.lookup d with
        | none => rfl
        | some e => exact absurd hdc (hrest d e hd).2.2.2
      rw [hnone, hdc, beq_self_eq_true]
      dsimp only
      rw [Option.getD_some, replaceAll_append (List.cons_ne_nil _ _), ih]
      rfl
    · rw [beq_false_of_ne hdc]
      dsimp only
      cases hd : rest.lookup d with
      | some e =>
        obtain ⟨hentity, hneedle', he, -⟩ := hrest d e hd
        rw [Option.getD_some, replaceAll_pass, ih]
        intro v hv hsuffix hpre
        obtain ⟨name', rfl, hname'⟩ := hentity.eq_cons
        obtain rfl | hinside := List.suffix_cons_iff.mp hsuffix
        · obtain h | h := List.prefix_or_prefix_of_prefix hpre (List.prefix_append _ _)
          · exact hneedle' h
          · exact he h
        · cases v with
          | nil => exact hv rfl
          | cons x v =>
            obtain rfl := (List.cons_prefix_cons.mp hpre).1
            exact hname' (hinside.mem List.mem_cons_self)
      | none =>
        rw [Option.getD_none, List.singleton_append, replaceAll_kept, ih, List.singleton_append]
        intro hpre
        obtain ⟨rfl, hname''⟩ := List.cons_prefix_cons.mp hpre
        have hpart := prefix_of_prefix_encode htable hname hname''
        obtain heq | h := htext
        · exact hdc heq.symm
        · exact h ((List.prefix_cons_inj '&').mpr hpart).isInfix

def escapeTable : List (Char × Text) :=
  [('&', "&amp;".toList), ('<', "&lt;".toList), ('>', "&gt;".toList), ('"', "&quot;".toList)]

theorem escape_eq_encode (text : Text) : escape text = encode escapeTable text := by
  refine List.flatMap_congr fun c _ => ?_
  rw [escapeChar, escapeTable, List.lookup_cons, List.lookup_cons, List.lookup_cons,
    List.lookup_cons, List.lookup_nil]
  by_cases hamp : c = '&'
  · rw [if_pos hamp, hamp]
    rfl
  · rw [if_neg hamp, beq_false_of_ne hamp]
    by_cases hlt : c = '<'
    · rw [if_pos hlt, hlt]
      rfl
    · rw [if_neg hlt, beq_false_of_ne hlt]
      by_cases hgt : c = '>'
      · rw [if_pos hgt, hgt]
        rfl
      · rw [if_neg hgt, beq_false_of_ne hgt]
        by_cases hquot : c = '"'
        · rw [if_pos hquot, hquot]
          rfl
        · rw [if_neg hquot, beq_false_of_ne hquot]
          rfl

theorem forall_lookup {table : List (Char × Text)} {P : Char → Text → Prop}
    (h : ∀ r ∈ table, P r.1 r.2) (c : Char) (e : Text) (hc : table.lookup c = some e) : P c e := by
  obtain ⟨_, _, hsplit, -⟩ := List.lookup_eq_some_iff.mp hc
  exact h (c, e) (hsplit ▸ List.mem_append_right _ List.mem_cons_self)

theorem encode_nil (text : Text) : encode [] text = text := by
  induction text with
  | nil => rfl
  | cons c text ih =>
    rw [encode_cons, ih]
    rfl

/-- An escaped text is decoded to itself unless it spells a later entity. -/
theorem decodeEntities_escape {text : Text} (h : ∀ e ∈ laterEntities, ¬e <:+: text) :
    decodeEntities (escape text) = text := by
  have hamp : replaceAll "&amp;".toList "&".toList (encode escapeTable text) =
      encode (escapeTable.drop 1) text :=
    replaceAll_encode (by decide) (forall_lookup (by decide)) (.inl rfl)
  have hlt : replaceAll "&lt;".toList "<".toList (encode (escapeTable.drop 1) text) =
      encode (escapeTable.drop 2) text :=
    replaceAll_encode (by decide) (forall_lookup (by decide)) (.inr (h _ (by decide)))
  have hgt : replaceAll "&gt;".toList ">".toList (encode (escapeTable.drop 2) text) =
      encode (escapeTable.drop 3) text :=
    replaceAll_encode (by decide) (forall_lookup (by decide)) (.inr (h _ (by decide)))
  have hquot : replaceAll "&quot;".toList "\"".toList (encode (escapeTable.drop 3) text) =
      encode [] text :=
    replaceAll_encode (by decide) (forall_lookup (by decide)) (.inr (h _ (by decide)))
  rw [escape_eq_encode, decodeEntities]
  simp only [List.foldl_cons, List.foldl_nil]
  rw [hamp, hlt, hgt, hquot, encode_nil, replaceAll_of_not_infix (h _ (by decide)),
    replaceAll_of_not_infix (h _ (by decide)), replaceAll_of_not_infix (h _ (by decide)),
    replaceAll_of_not_infix (h _ (by decide)), replaceAll_of_not_infix (h _ (by decide))]

end Entities

/-! ## Tags -/

theorem takeWhile_append_stop {p : Char → Bool} {front : Text} {c : Char} (rest : Text)
    (hfront : ∀ d ∈ front, p d = true) (hc : p c = false) :
    (front ++ c :: rest).takeWhile p = front ∧
      (front ++ c :: rest).dropWhile p = c :: rest := by
  rw [List.takeWhile_append_of_pos hfront, List.dropWhile_append_of_pos hfront,
    List.takeWhile_cons_of_neg (by rw [hc]; exact Bool.false_ne_true),
    List.dropWhile_cons_of_neg (by rw [hc]; exact Bool.false_ne_true), List.append_nil]
  exact ⟨rfl, rfl⟩

theorem skipUntilGt_append {front : Text} (rest : Text) (hfront : '>' ∉ front) :
    skipUntilGt (front ++ '>' :: rest) = rest := by
  have hne : ∀ d ∈ front, decide (d ≠ '>') = true := fun d hd =>
    decide_eq_true fun heq => hfront (heq ▸ hd)
  rw [skipUntilGt, (takeWhile_append_stop rest hne (by decide)).2, List.tail_cons]

theorem parseAttrs_gt (rest : Text) : parseAttrs ('>' :: rest) = ([], false, rest) := by
  have hskip : skipWhitespace ('>' :: rest) = '>' :: rest := rfl
  rw [parseAttrs]
  split
  all_goals simp_all

theorem skipWhitespace_of_head {c : Char} {rest : Text} (hc : isAsciiWhitespace c = false) :
    skipWhitespace (c :: rest) = c :: rest := by
  rw [skipWhitespace, List.dropWhile_cons_of_neg (by rw [hc]; exact Bool.false_ne_true)]

theorem attrNameChar_spec {c : Char} (hc : isAttrNameChar c = true) :
    c ≠ '=' ∧ c ≠ '>' ∧ c ≠ '/' ∧ isAsciiWhitespace c = false := by
  simpa [isAttrNameChar, and_assoc] using hc

theorem consumeAssigned_quoted {value : Text} (rest : Text) (hvalue : '"' ∉ value) :
    consumeAssigned ('=' :: '"' :: value ++ '"' :: rest) = (value, rest) := by
  have hne : ∀ d ∈ value, decide (d ≠ '"') = true := fun d hd =>
    decide_eq_true fun heq => hvalue (heq ▸ hd)
  have hquoted : consumeQuoted '"' (value ++ '"' :: rest) = (value, rest) := by
    obtain ⟨htake, hdrop⟩ := takeWhile_append_stop rest hne
      (show decide ('"' ≠ '"') = false by decide)
    rw [consumeQuoted, htake, hdrop, List.tail_cons]
  exact hquoted

theorem consumeAttr_write {c : Char} {name value : Text} (rest : Text)
    (hname : ∀ d ∈ c :: name, isAttrNameChar d = true) (hvalue : '"' ∉ value) :
    consumeAttr c (name ++ '=' :: '"' :: value ++ '"' :: rest) =
      (some (toAsciiLowercase (c :: name), value), rest) := by
  obtain ⟨htake, hdrop⟩ := takeWhile_append_stop ('"' :: value ++ '"' :: rest) hname
    (show isAttrNameChar '=' = false by decide)
  have hassigned := consumeAssigned_quoted rest hvalue
  have hconsumed : consumeAttrName (c :: (name ++ '=' :: '"' :: value ++ '"' :: rest)) =
      (c :: name, '=' :: '"' :: value ++ '"' :: rest) := by
    rw [consumeAttrName]
    exact Prod.ext_iff.mpr ⟨by simpa using htake, by simpa using hdrop⟩
  rw [consumeAttr, hconsumed]
  dsimp only
  rw [hassigned]

theorem parseAttrs_cons {chars rest : Text} {c : Char} (h : skipWhitespace chars = c :: rest)
    (hgt : c ≠ '>') (hslash : c ≠ '/') :
    parseAttrs chars = ((consumeAttr c rest).1.toList ++ (parseAttrs (consumeAttr c rest).2).1,
      (parseAttrs (consumeAttr c rest).2).2) := by
  rw [parseAttrs]
  split
  · rename_i heq
    cases heq.symm.trans h
  · rename_i heq
    exact absurd (List.cons.inj (heq.symm.trans h)).1.symm hgt
  · rename_i heq
    exact absurd (List.cons.inj (heq.symm.trans h)).1.symm hslash
  · rename_i heq
    exact absurd (List.cons.inj (heq.symm.trans h)).1.symm hslash
  · rename_i heq
    cases heq.symm.trans h
    rfl

/-- Written attributes are read with their names in lower case. -/
theorem parseAttrs_write {attrs : Attrs} (rest : Text) (h : WellFormedAttrs attrs) :
    parseAttrs (attrs.flatMap writeAttr ++ '>' :: rest) = (lowerAttrs attrs, false, rest) := by
  induction attrs with
  | nil => exact parseAttrs_gt rest
  | cons attr attrs ih =>
    obtain ⟨⟨hne, hname, hvalue⟩, hrest⟩ := List.forall_mem_cons.mp h
    obtain ⟨key, value⟩ := attr
    cases key with
    | nil => exact absurd rfl hne
    | cons c name =>
      obtain ⟨-, hgt, hslash, hblank⟩ := attrNameChar_spec (hname c List.mem_cons_self)
      have hskip : skipWhitespace
          (((c :: name, value) :: attrs).flatMap writeAttr ++ '>' :: rest) =
            c :: (name ++ '=' :: '"' :: value ++
              '"' :: (attrs.flatMap writeAttr ++ '>' :: rest)) := by
        have hwritten : ((c :: name, value) :: attrs).flatMap writeAttr ++ '>' :: rest =
            ' ' :: c :: (name ++ '=' :: '"' :: value ++
              '"' :: (attrs.flatMap writeAttr ++ '>' :: rest)) := by
          simp [writeAttr]
        have hspace : isAsciiWhitespace ' ' = true := by decide
        rw [hwritten, skipWhitespace, List.dropWhile_cons_of_pos hspace]
        exact skipWhitespace_of_head hblank
      rw [parseAttrs_cons hskip hgt hslash, consumeAttr_write _ hname hvalue]
      rw [ih hrest]
      rfl

/-! ## Markup -/

theorem consumeTagName_append {tag : Text} {c : Char} (rest : Text)
    (htag : ∀ d ∈ tag, isTagNameChar d = true) (hc : isTagNameChar c = false) :
    consumeTagName (tag ++ c :: rest) = (tag, c :: rest) := by
  obtain ⟨htake, hdrop⟩ := takeWhile_append_stop rest htag hc
  rw [consumeTagName, htake, hdrop]

/-- Behind a tag name come its attributes or the end of the tag. -/
theorem consumeTagName_attrs {tag : Text} (attrs : Attrs) (rest : Text)
    (htag : ∀ d ∈ tag, isTagNameChar d = true) :
    consumeTagName (tag ++ (attrs.flatMap writeAttr ++ '>' :: rest)) =
      (tag, attrs.flatMap writeAttr ++ '>' :: rest) := by
  cases attrs with
  | nil => exact consumeTagName_append rest htag (by decide)
  | cons attr attrs =>
    have hwritten : (attr :: attrs).flatMap writeAttr ++ '>' :: rest =
        ' ' :: (attr.1 ++ '=' :: '"' :: attr.2 ++ '"' ::
          (attrs.flatMap writeAttr ++ '>' :: rest)) := by
      simp [writeAttr]
    rw [hwritten]
    exact consumeTagName_append _ htag (by decide)

/-- A name of a tag in a page. -/
def IsTagName (tag : Text) : Prop := tag ≠ [] ∧ ∀ c ∈ tag, isTagNameChar c = true

theorem IsTagName.head {tag : Text} (h : IsTagName tag) (rest : Text) :
    (tag ++ rest).head? ≠ some '!' ∧ (tag ++ rest).head? ≠ some '/' := by
  obtain ⟨hne, hchars⟩ := h
  cases tag with
  | nil => exact absurd rfl hne
  | cons c tag =>
    have hc := hchars c List.mem_cons_self
    constructor
    · intro heq
      obtain rfl : c = '!' := by simpa using heq
      revert hc
      decide
    · intro heq
      obtain rfl : c = '/' := by simpa using heq
      revert hc
      decide

theorem scanMarkup_name {chars tagName rest : Text} (hbang : chars.head? ≠ some '!')
    (hslash : chars.head? ≠ some '/') (hname : consumeTagName chars = (tagName, rest))
    (hne : tagName ≠ []) :
    scanMarkup chars = (openTag tagName rest).map fun opened => ([opened.1], [], opened.2) := by
  unfold scanMarkup
  split
  · exact absurd rfl hbang
  · exact absurd rfl hslash
  · rw [hname]
    split
    · exact absurd (Prod.mk.inj ‹_›).1 hne
    · rename_i heq
      cases heq
      rfl

theorem writeOpen_append (tag : Text) (attrs : Attrs) (rest : Text) :
    writeOpen tag attrs ++ rest = '<' :: (tag ++ (attrs.flatMap writeAttr ++ '>' :: rest)) := by
  simp [writeOpen]

theorem scanMarkup_open {tag : Text} {attrs : Attrs} (rest : Text) (htag : IsTagName tag)
    (hattrs : WellFormedAttrs attrs) (hraw : isRawTextElement (toAsciiLowercase tag) = false) :
    scanMarkup (tag ++ (attrs.flatMap writeAttr ++ '>' :: rest)) =
      some ([.openTag (toAsciiLowercase tag) (lowerAttrs attrs) false], [], rest) := by
  obtain ⟨hbang, hslash⟩ := htag.head (attrs.flatMap writeAttr ++ '>' :: rest)
  rw [scanMarkup_name hbang hslash (consumeTagName_attrs attrs rest htag.2) htag.1, openTag,
    parseAttrs_write rest hattrs]
  dsimp only
  rw [hraw, if_neg Bool.false_ne_true, Option.map_some]

theorem scanMarkup_raw {name : Text} {attrs : Attrs} {rest after : Text} (htag : IsTagName name)
    (hattrs : WellFormedAttrs attrs) (hraw : isRawTextElement (toAsciiLowercase name) = true)
    (hskip : skipRawContent rest (toAsciiLowercase name) = some after) :
    scanMarkup (name ++ (attrs.flatMap writeAttr ++ '>' :: rest)) =
      some ([.openTag (toAsciiLowercase name) (lowerAttrs attrs) false], [], after) := by
  obtain ⟨hbang, hslash⟩ := htag.head (attrs.flatMap writeAttr ++ '>' :: rest)
  rw [scanMarkup_name hbang hslash (consumeTagName_attrs attrs rest htag.2) htag.1, openTag,
    parseAttrs_write rest hattrs]
  dsimp only
  rw [hraw, if_pos rfl, hskip, Option.map_some, Option.map_some]

theorem scanMarkup_close {tag : Text} (rest : Text) (htag : IsTagName tag) :
    scanMarkup ('/' :: tag ++ '>' :: rest) =
      some ([.closeTag (toAsciiLowercase tag)], [], rest) := by
  have hname : consumeTagName (tag ++ '>' :: rest) = (tag, '>' :: rest) :=
    consumeTagName_append rest htag.2 (by decide)
  have hskip : skipUntilGt ('>' :: rest) = rest := rfl
  rw [List.cons_append, scanMarkup, hname]
  split
  · exact absurd (Prod.mk.inj ‹_›).1 htag.1
  · rename_i heq
    cases heq
    rw [hskip]

theorem scanMarkup_comment {content : Text} (rest : Text) (h : '>' ∉ content) :
    scanMarkup ("!--".toList ++ content ++ "-->".toList ++ rest) = some ([], [], rest) := by
  have hfront : '>' ∉ "!--".toList ++ content ++ "--".toList := by
    simp only [List.mem_append, not_or]
    exact ⟨⟨by decide, h⟩, by decide⟩
  have hwritten : "!--".toList ++ content ++ "-->".toList ++ rest =
      "!--".toList ++ content ++ "--".toList ++ '>' :: rest := by
    simp
  have hskip : skipCommentOrDoctype ("!--".toList ++ content ++ "-->".toList ++ rest) = rest := by
    rw [hwritten]
    exact skipUntilGt_append rest hfront
  exact congrArg (fun r => some (([], [], r) : List HtmlToken × Text × Text)) hskip

/-! ## The token loop -/

/-- Where a text token ends. -/
def AtMarkup (chars : Text) : Prop := chars = [] ∨ ∃ rest, chars = '<' :: rest

theorem tokenizeFrom_flush (textBuf : Text) {chars : Text} (h : AtMarkup chars) :
    tokenizeFrom textBuf chars = (tokenizeFrom [] chars).map (flush textBuf ++ ·) := by
  obtain rfl | ⟨rest, rfl⟩ := h
  · rw [tokenizeFrom, tokenizeFrom]
    simp [flush]
  · rw [tokenizeFrom, tokenizeFrom]
    cases scanMarkup rest with
    | none => rfl
    | some scanned =>
      dsimp only
      rw [Option.map_map]
      congr 1
      funext more
      simp [flush]

theorem tokenizeFrom_text (textBuf : Text) {text : Text} (rest : Text) (h : '<' ∉ text) :
    tokenizeFrom textBuf (text ++ rest) = tokenizeFrom (textBuf ++ text) rest := by
  induction text generalizing textBuf with
  | nil => rw [List.nil_append, List.append_nil]
  | cons c text ih =>
    rw [List.mem_cons, not_or] at h
    rw [List.cons_append, tokenizeFrom, ih _ h.2, List.append_assoc, List.singleton_append]
    exact fun heq => h.1 heq.symm

theorem tokenizeFrom_markup {chars rest : Text} {tokens : List HtmlToken}
    (h : scanMarkup chars = some (tokens, [], rest)) :
    tokenizeFrom [] ('<' :: chars) = (tokenizeFrom [] rest).map (tokens ++ ·) := by
  rw [tokenizeFrom, h]
  rfl

/-! ## Raw contents -/

/-- Nothing of a page is left open between its content and its first close tag. -/
theorem afterClose_eq {closeTag read front : Text} (tail : Text) (hne : front ≠ [])
    (hend : closeTag <:+ read ++ front)
    (hfirst : ∀ p, p ≠ [] → p <+: front → p ≠ front → ¬closeTag <:+ read ++ p) :
    afterClose closeTag read (front ++ tail) = skipUntilGt tail := by
  induction front generalizing read with
  | nil => exact absurd rfl hne
  | cons ch front ih =>
    rw [List.cons_append, afterClose]
    cases hfront : front with
    | nil =>
      rw [hfront] at hend
      rw [if_pos (List.isSuffixOf_iff_suffix.mpr hend), List.nil_append]
    | cons c more =>
      rw [← hfront]
      have hsplit : read ++ ch :: front = (read ++ [ch]) ++ front := by
        rw [List.append_assoc, List.singleton_append]
      have hlast : ¬closeTag.isSuffixOf (read ++ [ch]) = true := by
        rw [List.isSuffixOf_iff_suffix]
        refine hfirst [ch] (List.cons_ne_nil _ _) ?_ ?_
        · exact (List.prefix_cons_inj ch).mpr List.nil_prefix
        · rw [hfront]
          exact fun heq => List.cons_ne_nil _ _ (List.cons.inj heq).2.symm
      rw [if_neg hlast]
      have hmore : front ≠ [] := hfront ▸ List.cons_ne_nil _ _
      refine ih hmore (hsplit ▸ hend) fun p hp hpre hproper hclose => ?_
      refine hfirst (ch :: p) (List.cons_ne_nil _ _) ((List.prefix_cons_inj ch).mpr hpre)
        (fun heq => hproper (List.cons.inj heq).2) ?_
      rwa [List.append_assoc, List.singleton_append] at hclose

/-- What follows the close tag makes no cut. -/
theorem cutsWhole_append {closeTag read front : Text} {held : ℕ} (tail : Text) (hne : front ≠ [])
    (hend : closeTag <:+ read ++ front) (h : CutsWhole closeTag held read front) :
    CutsWhole closeTag held read (front ++ tail) := by
  induction front generalizing read held with
  | nil => exact absurd rfl hne
  | cons ch front ih =>
    have hsplit : read ++ ch :: front = (read ++ [ch]) ++ front := by
      rw [List.append_assoc, List.singleton_append]
    rw [CutsWhole] at h
    rw [List.cons_append, CutsWhole]
    by_cases hclosed : closeTag.isSuffixOf (read ++ [ch]) = true
    · rw [if_pos hclosed]
      trivial
    · rw [if_neg hclosed] at h ⊢
      have hfront : front ≠ [] := by
        rintro rfl
        exact hclosed (List.isSuffixOf_iff_suffix.mpr hend)
      split_ifs at h ⊢ with hlong
      · exact ⟨h.1, ih hfront (hsplit ▸ hend) h.2⟩
      · exact ih hfront (hsplit ▸ hend) h

/-- A close tag starts nowhere inside itself. -/
theorem not_closeTag_suffix {name content p : Text} (hname : '<' ∉ name)
    (hcontent : ¬closeTagOf name <:+: content) (hpre : p <+: content ++ closeTagOf name)
    (hproper : p ≠ content ++ closeTagOf name) : ¬closeTagOf name <:+ p := by
  intro hclose
  obtain h | ⟨q, rfl⟩ := List.prefix_or_prefix_of_prefix hpre (List.prefix_append content _)
  · exact hcontent (hclose.isInfix.trans h.isInfix)
  · have hq := (List.prefix_append_right_inj content).mp hpre
    obtain h | ⟨s, hs⟩ := List.suffix_or_suffix_of_suffix hclose (List.suffix_append content q)
    · have heq : q = closeTagOf name := hq.eq_of_length_le h.length_le
      exact hproper (heq ▸ rfl)
    · cases q with
      | nil =>
        rw [List.append_nil] at hclose
        exact hcontent hclose.isInfix
      | cons c q =>
        obtain rfl : c = '<' := (List.cons_prefix_cons.mp hq).1
        cases s with
        | nil =>
          rw [List.nil_append] at hs
          exact hproper (hs ▸ rfl)
        | cons x s =>
          have hmem : '<' ∈ '/' :: name := by
            rw [← (List.cons.inj hs).2]
            exact List.mem_append_right _ List.mem_cons_self
          obtain h | h := List.mem_cons.mp hmem
          · exact absurd h (by decide)
          · exact hname h

/-- A raw element is skipped with its written close tag. -/
theorem skipRawContent_write {name content : Text} (rest : Text) (hname : IsTagName name)
    (hcontent : ¬closeTagOf name <:+: content)
    (hcuts : CutsWhole (closeTagOf name) 0 [] (content ++ closeTagOf name)) :
    skipRawContent (content ++ (writeClose name ++ rest)) name = some rest := by
  have hlt : '<' ∉ name := fun h => absurd (hname.2 '<' h) (by decide)
  have hne : content ++ closeTagOf name ≠ [] := by simp [closeTagOf]
  have hend : closeTagOf name <:+ [] ++ (content ++ closeTagOf name) := List.suffix_append _ _
  have hwritten : content ++ (writeClose name ++ rest) =
      (content ++ closeTagOf name) ++ '>' :: rest := by
    simp [writeClose, closeTagOf]
  rw [hwritten, skipRawContent_eq (cutsWhole_append _ hne hend hcuts), afterClose_eq _ hne hend]
  · rfl
  · exact fun p _ hpre hproper => not_closeTag_suffix hlt hcontent hpre hproper

/-! ## The tokens of a page -/

mutual

def tokensOf : List Part → List HtmlToken
  | [] => []
  | part :: rest => tokensOfPart part ++ tokensOf rest

def tokensOfPart : Part → List HtmlToken
  | .element tag attrs children =>
    .openTag (toAsciiLowercase tag) (lowerAttrs attrs) false ::
      (tokensOf children ++ [.closeTag (toAsciiLowercase tag)])
  | .text text => [.text text]
  | .comment _ => []
  | .raw name attrs _ => [.openTag (toAsciiLowercase name) (lowerAttrs attrs) false]

end

def isTextPart : Part → Bool
  | .text _ => true
  | _ => false

/-- A part is read as its tokens; a text ends where markup begins. -/
def ReadsAs (part : Part) : Prop :=
  ∀ rest, (isTextPart part = true → AtMarkup rest) →
    tokenizeFrom [] (writePart part ++ rest) =
      (tokenizeFrom [] rest).map (tokensOfPart part ++ ·)

theorem atMarkup_writePart {part : Part} (rest : Text) (h : isTextPart part = false) :
    AtMarkup (writePart part ++ rest) := by
  cases part with
  | text text => cases h
  | element tag attrs children => exact .inr ⟨_, rfl⟩
  | comment content => exact .inr ⟨_, rfl⟩
  | raw name attrs content => exact .inr ⟨_, rfl⟩

/-- Behind a text comes no text. -/
theorem TextsApart.next {part : Part} {parts : List Part} (h : TextsApart (part :: parts))
    (hpart : isTextPart part = true) {rest : Text} (hrest : AtMarkup rest) :
    AtMarkup (write parts ++ rest) := by
  cases parts with
  | nil => exact hrest
  | cons next parts =>
    rw [write, List.append_assoc]
    refine atMarkup_writePart _ (Bool.eq_false_iff.mpr fun hnext => ?_)
    cases part with
    | text text =>
      cases next with
      | text text' =>
        have hboth := (List.isChain_cons_cons.mp h).1
        exact hboth ⟨rfl, rfl⟩
      | element _ _ _ => cases hnext
      | comment _ => cases hnext
      | raw _ _ _ => cases hnext
    | element _ _ _ => cases hpart
    | comment _ => cases hpart
    | raw _ _ _ => cases hpart

theorem TextsApart.tail {part : Part} {parts : List Part} (h : TextsApart (part :: parts)) :
    TextsApart parts := by
  rw [TextsApart, forest] at h
  exact h.right_of_append

theorem readsAs_list {parts : List Part} (hparts : ∀ p ∈ parts, ReadsAs p)
    (hapart : TextsApart parts) {rest : Text} (hrest : AtMarkup rest) :
    tokenizeFrom [] (write parts ++ rest) =
      (tokenizeFrom [] rest).map (tokensOf parts ++ ·) := by
  induction parts with
  | nil =>
    simp only [write, tokensOf, List.nil_append]
    exact Option.map_id'.symm
  | cons part parts ih =>
    obtain ⟨hpart, hparts⟩ := List.forall_mem_cons.mp hparts
    rw [write, tokensOf, List.append_assoc, hpart _ fun htext => hapart.next htext hrest,
      ih hparts hapart.tail, Option.map_map]
    congr 1
    funext more
    simp

theorem isTagName_of_wellFormed {tag : Text} (hhead : ∃ c rest, tag = c :: rest ∧ c.isAlpha)
    (hchars : ∀ c ∈ tag, c.isAlphanum ∨ c = '-') : IsTagName tag := by
  refine ⟨?_, fun c hc => ?_⟩
  · obtain ⟨c, rest, rfl, -⟩ := hhead
    exact List.cons_ne_nil _ _
  · obtain h | rfl := hchars c hc
    · simp [isTagNameChar, h]
    · decide

/-- A script or a style that is written in lower case. -/
theorem raw_spec {name : Text}
    (hname : toAsciiLowercase name = "script".toList ∨ toAsciiLowercase name = "style".toList)
    (hlower : toAsciiLowercase name = name) :
    IsTagName name ∧ isRawTextElement name = true ∧ isVoidElement name = false := by
  rw [hlower] at hname
  obtain rfl | rfl := hname
  · exact ⟨⟨by decide, List.all_eq_true.mp (by decide)⟩, by decide, by decide⟩
  · exact ⟨⟨by decide, List.all_eq_true.mp (by decide)⟩, by decide, by decide⟩

theorem not_mem_escape (text : Text) : '<' ∉ escape text := by
  intro h
  obtain ⟨c, -, hc⟩ := List.mem_flatMap.mp h
  unfold escapeChar at hc
  split_ifs at hc with hamp hlt hgt hquot
  · exact absurd hc (by decide)
  · exact absurd hc (by decide)
  · exact absurd hc (by decide)
  · exact absurd hc (by decide)
  · exact hlt (List.mem_singleton.mp hc).symm

theorem escape_ne_nil {text : Text} (h : text ≠ []) : escape text ≠ [] := by
  obtain ⟨c, rest, rfl⟩ := List.exists_cons_of_ne_nil h
  rw [escape, List.flatMap_cons]
  intro hnil
  have hchar := (List.append_eq_nil_iff.mp hnil).1
  unfold escapeChar at hchar
  split_ifs at hchar <;> cases hchar

theorem flush_escape {text : Text} (hne : text ≠ []) (h : ∀ e ∈ laterEntities, ¬e <:+: text) :
    flush (escape text) = [.text text] := by
  rw [flush, if_neg (by simpa using escape_ne_nil hne), decodeEntities_escape h]

/-- Every part of a page that may be written so and can be read is read. -/
theorem readsAs (part : Part) (hwf : EverywhereIn WellFormedPart TextsApart part)
    (hread : EverywhereIn ReadablePart RawLast part) : ReadsAs part := by
  induction part using Part.tree_induction with
  | element tag attrs children ih =>
    intro rest _
    obtain ⟨⟨hhead, hchars, -, hraw, hattrs⟩, hapart, hinside⟩ := hwf
    obtain ⟨-, -, hreadable⟩ := hread
    rw [everywhere_iff] at hinside hreadable
    have htag := isTagName_of_wellFormed hhead hchars
    have hclose : writeClose tag ++ rest = '<' :: ('/' :: tag ++ '>' :: rest) := by
      simp [writeClose]
    have hchildren := readsAs_list (fun p hp => ih p hp (hinside p hp) (hreadable p hp)) hapart
      (.inr ⟨_, hclose⟩)
    rw [writePart, List.append_assoc, List.append_assoc, writeOpen_append,
      tokenizeFrom_markup (scanMarkup_open _ htag hattrs hraw), hchildren, hclose,
      tokenizeFrom_markup (scanMarkup_close _ htag), Option.map_map, Option.map_map]
    congr 1
    funext more
    simp [tokensOfPart]
  | text text =>
    intro rest hrest
    have hne : text ≠ [] := by
      rintro rfl
      exact hwf rfl
    rw [writePart, tokenizeFrom_text [] rest (not_mem_escape text), List.nil_append,
      tokenizeFrom_flush _ (hrest rfl), flush_escape hne hread]
    rfl
  | comment content =>
    intro rest _
    have hwritten : writePart (.comment content) ++ rest =
        '<' :: ("!--".toList ++ content ++ "-->".toList ++ rest) := by
      simp [writePart]
    rw [hwritten, tokenizeFrom_markup (scanMarkup_comment rest hread)]
    rfl
  | raw name attrs content =>
    intro rest _
    obtain ⟨hname, hattrs, -⟩ := hwf
    obtain ⟨hlower, hcontent, hcuts⟩ := hread
    obtain ⟨htag, hraw, -⟩ := raw_spec hname hlower
    have hskip : skipRawContent (content ++ (writeClose name ++ rest)) (toAsciiLowercase name) =
        some rest := by
      rw [hlower]
      exact skipRawContent_write rest htag hcontent hcuts
    rw [writePart, List.append_assoc, List.append_assoc, writeOpen_append,
      tokenizeFrom_markup (scanMarkup_raw htag hattrs (hlower.symm ▸ hraw) hskip)]
    rfl

/-! ## The tree of a page -/

mutual

/-- The tree with the raw elements that are written, each of them empty. -/
def treeOf : List Part → List HtmlNodeChild
  | [] => []
  | part :: rest => treeOfPart part ++ treeOf rest

def treeOfPart : Part → List HtmlNodeChild
  | .element tag attrs children =>
    [.element (toAsciiLowercase tag) (lowerAttrs attrs) (treeOf children)]
  | .text text => [.text text]
  | .comment _ => []
  | .raw name attrs _ => [.element (toAsciiLowercase name) (lowerAttrs attrs) []]

end

theorem takeTokens_append (stack : List HtmlNode) (front back : List HtmlToken) :
    takeTokens stack (front ++ back) =
      (takeTokens stack front).bind fun stack => takeTokens stack back := by
  induction front generalizing stack with
  | nil => rfl
  | cons token front ih =>
    rw [List.cons_append, takeTokens, takeTokens]
    cases takeToken stack token with
    | none => rfl
    | some next => exact ih next

/-- The innermost element has its children, the last of them perhaps a raw element still open. -/
def Grown (node : HtmlNode) (children : List HtmlNodeChild) (stack : List HtmlNode) : Prop :=
  stack = [{ node with children := node.children ++ children }] ∨
  ∃ nodes raw, stack = [raw, { node with children := node.children ++ nodes }] ∧
    isRawTextElement raw.tag = true ∧ children = nodes ++ [raw.child]

theorem Grown.after {node : HtmlNode} {front children : List HtmlNodeChild}
    {stack : List HtmlNode}
    (h : Grown { node with children := node.children ++ front } children stack) :
    Grown node (front ++ children) stack := by
  obtain rfl | ⟨nodes, raw, rfl, hraw, rfl⟩ := h
  · exact .inl (by simp)
  · exact .inr ⟨front ++ nodes, raw, by simp, hraw, by simp⟩

/-- A close tag closes its element and the raw element in it. -/
theorem Grown.close {node parent : HtmlNode} {children : List HtmlNodeChild}
    {stack below : List HtmlNode} (h : Grown node children stack)
    (hnode : isRawTextElement node.tag = false) :
    takeToken (stack ++ parent :: below) (.closeTag node.tag) =
      some (addChild (.element node.tag node.attrs (node.children ++ children))
        (parent :: below)) := by
  obtain rfl | ⟨nodes, raw, rfl, hraw, rfl⟩ := h
  · have hfound : ([{ node with children := node.children ++ children }] ++
        parent :: below).findIdx? (fun n : HtmlNode => n.tag == node.tag) = some 0 := by
      simp [List.findIdx?_cons]
    rw [takeToken, hfound]
    rfl
  · have hne : (raw.tag == node.tag) = false := by
      refine beq_false_of_ne fun heq => ?_
      rw [heq, hnode] at hraw
      cases hraw
    have hfound : ([raw, { node with children := node.children ++ nodes }] ++
        parent :: below).findIdx? (fun n : HtmlNode => n.tag == node.tag) = some 1 := by
      simp [List.findIdx?_cons, hne]
    rw [takeToken, hfound]
    simp [closeTimes, closeTop, addChild, HtmlNode.child]

/-- The tokens of a part that stays open nowhere add its tree to the innermost element. -/
def Builds (part : Part) : Prop :=
  ∀ top below, takeTokens (top :: below) (tokensOfPart part) =
    some ({ top with children := top.children ++ treeOfPart part } :: below)

def isRaw : Part → Bool
  | .raw _ _ _ => true
  | _ => false

theorem of_comments {parts : List Part} (h : ∀ p ∈ parts, isComment p = true) :
    tokensOf parts = [] ∧ treeOf parts = [] := by
  induction parts with
  | nil => exact ⟨rfl, rfl⟩
  | cons part parts ih =>
    obtain ⟨hpart, hparts⟩ := List.forall_mem_cons.mp h
    obtain ⟨htokens, htree⟩ := ih hparts
    cases part with
    | comment content =>
      rw [tokensOf, treeOf, htokens, htree]
      exact ⟨rfl, rfl⟩
    | element _ _ _ => cases hpart
    | text _ => cases hpart
    | raw _ _ _ => cases hpart

theorem builds_list {parts : List Part} (hlast : RawLast parts)
    (hparts : ∀ p ∈ parts, isRaw p = false → Builds p)
    (hraw : ∀ name attrs content, .raw name attrs content ∈ parts →
      isRawTextElement (toAsciiLowercase name) = true ∧
        isVoidElement (toAsciiLowercase name) = false) (top : HtmlNode) (below : List HtmlNode) :
    ∃ stack, Grown top (treeOf parts) stack ∧
      takeTokens (top :: below) (tokensOf parts) = some (stack ++ below) := by
  induction parts generalizing top with
  | nil => exact ⟨[top], .inl (by simp [treeOf]), rfl⟩
  | cons part parts ih =>
    have hparts' := fun p hp => hparts p (List.mem_cons_of_mem _ hp)
    have hraw' := fun name attrs content hp =>
      hraw name attrs content (List.mem_cons_of_mem _ hp)
    by_cases hpart : isRaw part = true
    · cases part with
      | raw name attrs content =>
        obtain ⟨hname, hvoid⟩ := hraw name attrs content List.mem_cons_self
        obtain ⟨htokens, htree⟩ := of_comments hlast
        refine ⟨[⟨toAsciiLowercase name, lowerAttrs attrs, []⟩, top],
          .inr ⟨[], ⟨toAsciiLowercase name, lowerAttrs attrs, []⟩, ?_, hname, ?_⟩, ?_⟩
        · simp
        · rw [treeOf, htree]
          rfl
        · rw [tokensOf, htokens, List.append_nil, tokensOfPart, takeTokens, takeToken, hvoid]
          rfl
      | element _ _ _ => cases hpart
      | text _ => cases hpart
      | comment _ => cases hpart
    · have hbuilds := hparts part List.mem_cons_self (Bool.eq_false_iff.mpr hpart)
      have hlast' : RawLast parts := by
        cases part with
        | raw _ _ _ => exact absurd rfl hpart
        | element _ _ _ => exact hlast
        | text _ => exact hlast
        | comment _ => exact hlast
      obtain ⟨stack, hgrown, htaken⟩ := ih hlast' hparts' hraw'
        { top with children := top.children ++ treeOfPart part }
      refine ⟨stack, ?_, ?_⟩
      · rw [treeOf]
        exact hgrown.after
      · rw [tokensOf, takeTokens_append, hbuilds top below]
        exact htaken

/-- What a raw element of a readable page is. -/
theorem raw_of_mem {parts : List Part} (hwf : ∀ p ∈ parts, EverywhereIn WellFormedPart TextsApart p)
    (hread : ∀ p ∈ parts, EverywhereIn ReadablePart RawLast p) (name : Text) (attrs : Attrs)
    (content : Text) (h : .raw name attrs content ∈ parts) :
    isRawTextElement (toAsciiLowercase name) = true ∧
      isVoidElement (toAsciiLowercase name) = false := by
  obtain ⟨hlower, -⟩ := hread _ h
  obtain ⟨-, hraw, hvoid⟩ := raw_spec (hwf _ h).1 hlower
  rw [hlower]
  exact ⟨hraw, hvoid⟩

theorem builds (part : Part) (hwf : EverywhereIn WellFormedPart TextsApart part)
    (hread : EverywhereIn ReadablePart RawLast part) (hraw : isRaw part = false) : Builds part := by
  induction part using Part.tree_induction with
  | element tag attrs children ih =>
    intro top below
    obtain ⟨⟨-, -, hvoid, hnotraw, -⟩, -, hinside⟩ := hwf
    obtain ⟨-, hlast, hreadable⟩ := hread
    rw [everywhere_iff] at hinside hreadable
    obtain ⟨stack, hgrown, htaken⟩ := builds_list hlast
      (fun p hp => ih p hp (hinside p hp) (hreadable p hp)) (raw_of_mem hinside hreadable)
      ⟨toAsciiLowercase tag, lowerAttrs attrs, []⟩ (top :: below)
    have hopen : takeToken (top :: below)
        (.openTag (toAsciiLowercase tag) (lowerAttrs attrs) false) =
        some (⟨toAsciiLowercase tag, lowerAttrs attrs, []⟩ :: top :: below) := by
      rw [takeToken, hvoid]
      rfl
    rw [tokensOfPart, takeTokens, hopen, Option.bind_some, takeTokens_append, htaken,
      Option.bind_some, takeTokens, hgrown.close hnotraw]
    rfl
  | text text =>
    intro top below
    have hne : trim text ≠ [] := hwf
    have hblank : (trim text).isEmpty = false := by simpa using hne
    rw [tokensOfPart, takeTokens, takeToken, hblank]
    rfl
  | comment content =>
    intro top below
    simp [tokensOfPart, treeOfPart, takeTokens]
  | raw name attrs content => cases hraw

theorem dropEmptyRaw_append (front back : List HtmlNodeChild) :
    dropEmptyRaw (front ++ back) = dropEmptyRaw front ++ dropEmptyRaw back := by
  induction front with
  | nil => rfl
  | cons child front ih =>
    rw [List.cons_append, dropEmptyRaw, dropEmptyRaw, ih, List.append_assoc]

theorem dropEmptyRaw_list {parts : List Part}
    (h : ∀ p ∈ parts, dropEmptyRaw (treeOfPart p) = forestOf p) :
    dropEmptyRaw (treeOf parts) = forest parts := by
  induction parts with
  | nil => rfl
  | cons part parts ih =>
    obtain ⟨hpart, hparts⟩ := List.forall_mem_cons.mp h
    rw [treeOf, forest, dropEmptyRaw_append, hpart, ih hparts]

/-- The tree of a page without the empty raw elements is the forest that was written. -/
theorem dropEmptyRaw_treeOfPart (part : Part) (hwf : EverywhereIn WellFormedPart TextsApart part)
    (hread : EverywhereIn ReadablePart RawLast part) :
    dropEmptyRaw (treeOfPart part) = forestOf part := by
  induction part using Part.tree_induction with
  | element tag attrs children ih =>
    obtain ⟨⟨-, -, -, hnotraw, -⟩, -, hinside⟩ := hwf
    obtain ⟨-, -, hreadable⟩ := hread
    rw [everywhere_iff] at hinside hreadable
    have hchildren := dropEmptyRaw_list fun p hp => ih p hp (hinside p hp) (hreadable p hp)
    simp [treeOfPart, forestOf, dropEmptyRaw, keptOf, hnotraw, hchildren]
  | text text => rfl
  | comment content => rfl
  | raw name attrs content =>
    obtain ⟨hlower, -⟩ := hread
    have hraw := (raw_spec hwf.1 hlower).2.1
    simp [treeOfPart, forestOf, dropEmptyRaw, keptOf, hlower, hraw]

/-- The root is left with the whole tree. -/
theorem buildTree_of_grown {tokens : List HtmlToken} {children : List HtmlNodeChild}
    {stack : List HtmlNode} (hgrown : Grown rootNode children stack)
    (htaken : takeTokens [rootNode] tokens = some stack) : buildTree tokens = some children := by
  rw [buildTree, htaken]
  obtain rfl | ⟨nodes, raw, rfl, -, rfl⟩ := hgrown
  · rfl
  · rfl

/-- A page that can be read is read as it was written. -/
theorem readPage_write {parts : List Part} (hwf : WellFormed parts) (hread : Readable parts) :
    readPage (write parts) = some (forest parts) := by
  obtain ⟨hapart, hwf⟩ := hwf
  obtain ⟨hlast, hread⟩ := hread
  rw [everywhere_iff] at hwf hread
  have htokens : tokenize (write parts) = some (tokensOf parts) := by
    have hread := readsAs_list (fun p hp => readsAs p (hwf p hp) (hread p hp)) hapart (.inl rfl)
    rw [List.append_nil] at hread
    rw [tokenize, hread, tokenizeFrom]
    simp [flush]
  obtain ⟨stack, hgrown, htaken⟩ := builds_list hlast
    (fun p hp => builds p (hwf p hp) (hread p hp)) (raw_of_mem hwf hread) rootNode []
  rw [List.append_nil] at htaken
  have htree := buildTree_of_grown hgrown htaken
  have hclean := dropEmptyRaw_list fun p hp => dropEmptyRaw_treeOfPart p (hwf p hp) (hread p hp)
  rw [readPage, htokens, Option.bind_some, htree, Option.map_some, hclean]

def samplePage : List Part :=
  [.element "DIV".toList [("Class".toList, "note".toList)]
    [.text "1 < 2".toList, .comment " sum ".toList, .raw "script".toList [] "run()".toList]]

example : String.ofList (write samplePage) =
    "<DIV Class=\"note\">1 &lt; 2<!-- sum --><script>run()</script></DIV>" := by decide

theorem readPage_write_samplePage :
    readPage (write samplePage) = some (forest samplePage) := by
  have hattrs : WellFormedAttrs [("Class".toList, "note".toList)] := by
    intro attr hattr
    obtain rfl := List.mem_singleton.mp hattr
    exact ⟨by decide, List.all_eq_true.mp (by decide), by decide⟩
  have hcuts : CutsWhole (closeTagOf "script".toList) 0 []
      ("run()".toList ++ closeTagOf "script".toList) :=
    cutsWhole_of_ascii (List.all_iff_forall_prop.mp (by decide)) le_rfl
  have htext : trim "1 < 2".toList ≠ [] := by decide
  have hcomment : ¬"-->".toList <:+: " sum ".toList := by decide
  have hentities : ∀ e ∈ laterEntities, ¬e <:+: "1 < 2".toList := by decide
  have hgt : '>' ∉ " sum ".toList := by decide
  refine readPage_write ⟨List.isChain_singleton _, ?_⟩ ⟨trivial, ?_⟩
  · refine ⟨⟨⟨⟨_, _, rfl, by decide⟩, List.all_iff_forall_prop.mp (by decide), by decide,
      by decide, hattrs⟩, List.isChain_singleton _, ?_⟩, trivial⟩
    exact ⟨htext, hcomment, ⟨.inl (by decide), nofun, by decide⟩, trivial⟩
  · refine ⟨⟨trivial, nofun, ?_⟩, trivial⟩
    exact ⟨hentities, hgt, ⟨by decide, by decide, hcuts⟩, trivial⟩

/-- A comment ends at its first `>`. -/
theorem not_always_read :
    ¬∀ parts : List Part, WellFormed parts → readPage (write parts) = some (forest parts) := by
  intro h
  have hcomment : ¬"-->".toList <:+: " a > b ".toList := by decide
  have hread := h [.comment " a > b ".toList] ⟨List.isChain_nil, hcomment, trivial⟩
  have hrest : tokenizeFrom [] " b -->".toList = some [.text " b -->".toList] := by
    have htext : '<' ∉ " b -->".toList := by decide
    rw [← List.append_nil " b -->".toList, tokenizeFrom_text [] [] htext, tokenizeFrom]
    decide +kernel
  have htokens : tokenize (write [.comment " a > b ".toList]) = some [.text " b -->".toList] := by
    have hmarkup : scanMarkup "!-- a > b -->".toList = some ([], [], " b -->".toList) := by decide
    have hwritten := tokenizeFrom_markup hmarkup
    rw [hrest] at hwritten
    exact hwritten
  rw [readPage, htokens] at hread
  cases hread

end LeanCtx.HtmlCrush
