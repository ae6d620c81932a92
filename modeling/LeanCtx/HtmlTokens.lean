import LeanCtx.KnowledgePreview
import LeanCtx.TextSearch
import Mathlib.Data.List.Infix

/-!
# Tokens of a page

The scanner reads a page character by character. The content of a raw element
goes through a buffer that is cut at a byte distance from its end; a cut inside
a character stops the program, so nothing is returned there.
-/

namespace LeanCtx.HtmlCrush

open Knowledge (len sliceTo IsCharBoundary sliceTo_eq_some sliceTo_isSome)

abbrev Text := List Char

/-- The attributes of a tag in order, with their values. -/
abbrev Attrs := List (Text × Text)

inductive HtmlToken
  | openTag (name : Text) (attrs : Attrs) (selfClosing : Bool)
  | closeTag (name : Text)
  | text (text : Text)
  deriving DecidableEq

/-! ## Characters -/

/-- `char::is_ascii_whitespace`. -/
def isAsciiWhitespace (c : Char) : Bool := [' ', '\t', '\n', '\x0c', '\r'].contains c

/-- `str::to_ascii_lowercase`. -/
def toAsciiLowercase (s : Text) : Text := s.map Char.toLower

/-! ## The scanners -/

def skipUntilGt (chars : Text) : Text := (chars.dropWhile (· ≠ '>')).tail

/-- A comment, too, ends at the first `>`. -/
def skipCommentOrDoctype (chars : Text) : Text := (chars.dropWhile (· ≠ '>')).tail

def isTagNameChar (c : Char) : Bool := c.isAlphanum || c == '-' || c == '_'

def consumeTagName (chars : Text) : Text × Text :=
  (chars.takeWhile isTagNameChar, chars.dropWhile isTagNameChar)

def skipWhitespace (chars : Text) : Text := chars.dropWhile isAsciiWhitespace

def isAttrNameChar (c : Char) : Bool :=
  !(c == '=' || c == '>' || c == '/' || isAsciiWhitespace c)

def consumeAttrName (chars : Text) : Text × Text :=
  (chars.takeWhile isAttrNameChar, chars.dropWhile isAttrNameChar)

def consumeQuoted (quote : Char) (chars : Text) : Text × Text :=
  (chars.takeWhile (· ≠ quote), (chars.dropWhile (· ≠ quote)).tail)

def isBareValueChar (c : Char) : Bool := !(isAsciiWhitespace c || c == '>')

def consumeAttrValue : Text → Text × Text
  | '"' :: rest => consumeQuoted '"' rest
  | '\'' :: rest => consumeQuoted '\'' rest
  | chars => (chars.takeWhile isBareValueChar, chars.dropWhile isBareValueChar)

/-- What follows a name: the value behind `=`, or nothing. -/
def consumeAssigned (chars : Text) : Text × Text :=
  match skipWhitespace chars with
  | '=' :: rest => consumeAttrValue (skipWhitespace rest)
  | rest => ([], rest)

theorem length_dropWhile_le {α : Type} (p : α → Bool) (l : List α) :
    (l.dropWhile p).length ≤ l.length := (List.dropWhile_sublist p).length_le

theorem length_consumeQuoted (quote : Char) (chars : Text) :
    (consumeQuoted quote chars).2.length ≤ chars.length := by
  rw [consumeQuoted, List.length_tail]
  exact (Nat.sub_le _ _).trans (length_dropWhile_le _ _)

theorem length_consumeAttrValue (chars : Text) :
    (consumeAttrValue chars).2.length ≤ chars.length := by
  unfold consumeAttrValue
  split
  · exact (length_consumeQuoted _ _).trans (Nat.le_succ _)
  · exact (length_consumeQuoted _ _).trans (Nat.le_succ _)
  · exact length_dropWhile_le _ _

theorem length_consumeAssigned (chars : Text) :
    (consumeAssigned chars).2.length ≤ chars.length := by
  have hblank := length_dropWhile_le isAsciiWhitespace chars
  unfold consumeAssigned skipWhitespace
  split
  · rename_i rest heq
    rw [heq, List.length_cons] at hblank
    have hvalue := length_consumeAttrValue (rest.dropWhile isAsciiWhitespace)
    have hrest := length_dropWhile_le isAsciiWhitespace rest
    omega
  · exact hblank

/-- One attribute; a character that starts no name is passed over. -/
def consumeAttr (c : Char) (rest : Text) : Option (Text × Text) × Text :=
  match consumeAttrName (c :: rest) with
  | ([], _) => (none, rest)
  | (key, after) =>
    let (value, after) := consumeAssigned after
    (some (toAsciiLowercase key, value), after)

theorem length_consumeAttr (c : Char) (rest : Text) :
    (consumeAttr c rest).2.length ≤ rest.length := by
  unfold consumeAttr consumeAttrName
  by_cases hc : isAttrNameChar c
  · rw [List.takeWhile_cons_of_pos hc, List.dropWhile_cons_of_pos hc]
    exact (length_consumeAssigned _).trans (length_dropWhile_le _ _)
  · rw [List.takeWhile_cons_of_neg hc]

/-- The attributes, whether the tag closes itself, and what is left. -/
def parseAttrs (chars : Text) : Attrs × Bool × Text :=
  match _h : skipWhitespace chars with
  | [] => ([], false, [])
  | '>' :: rest => ([], false, rest)
  | '/' :: '>' :: rest => ([], true, rest)
  | '/' :: rest => ([], false, rest)
  | c :: rest =>
    let attr := consumeAttr c rest
    let parsed := parseAttrs attr.2
    (attr.1.toList ++ parsed.1, parsed.2)
termination_by chars.length
decreasing_by
  have hblank := length_dropWhile_le isAsciiWhitespace chars
  have hattr := length_consumeAttr c rest
  rw [show chars.dropWhile isAsciiWhitespace = c :: rest from _h, List.length_cons] at hblank
  omega

theorem length_parseAttrs (chars : Text) : (parseAttrs chars).2.2.length ≤ chars.length := by
  fun_induction parseAttrs chars with
  | case1 => exact Nat.zero_le _
  | case2 chars rest h =>
    have hblank := length_dropWhile_le isAsciiWhitespace chars
    rw [show chars.dropWhile isAsciiWhitespace = '>' :: rest from h, List.length_cons] at hblank
    exact (Nat.le_succ _).trans hblank
  | case3 chars rest h =>
    have hblank := length_dropWhile_le isAsciiWhitespace chars
    rw [show chars.dropWhile isAsciiWhitespace = '/' :: '>' :: rest from h, List.length_cons,
      List.length_cons] at hblank
    dsimp only
    omega
  | case4 chars rest _ h =>
    have hblank := length_dropWhile_le isAsciiWhitespace chars
    rw [show chars.dropWhile isAsciiWhitespace = '/' :: rest from h, List.length_cons] at hblank
    exact (Nat.le_succ _).trans hblank
  | case5 chars c rest _ _ _ h attr parsed ih =>
    have hblank := length_dropWhile_le isAsciiWhitespace chars
    have hattr := length_consumeAttr c rest
    rw [show chars.dropWhile isAsciiWhitespace = c :: rest from h, List.length_cons] at hblank
    exact ih.trans (hattr.trans ((Nat.le_succ _).trans hblank))

/-! ## Raw elements -/

def isRawTextElement (name : Text) : Bool :=
  ["script", "style", "noscript", "template"].contains (String.ofList name)

/-- `buf.drain(..n)`, which stops the program when `n` is inside a character. -/
def drain (buf : Text) (n : ℕ) : Option Text :=
  (sliceTo buf n).map fun front => buf.drop front.length

/-- The loop of `skip_raw_content`: what is left behind the close tag. -/
def skipRawFrom (closeTag : Text) : Text → Text → Option Text
  | _, [] => some []
  | buf, ch :: rest =>
    let buf := buf ++ [ch]
    if closeTag.isSuffixOf buf then some (skipUntilGt rest)
    else if len closeTag + 100 < len buf then
      (drain buf (len buf - len closeTag)).bind fun buf => skipRawFrom closeTag buf rest
    else skipRawFrom closeTag buf rest

def closeTagOf (tag : Text) : Text := '<' :: '/' :: tag

def skipRawContent (chars tag : Text) : Option Text := skipRawFrom (closeTagOf tag) [] chars

/-! ## The token loop -/

def decodeEntities (text : Text) : Text :=
  [("&amp;", "&"), ("&lt;", "<"), ("&gt;", ">"), ("&quot;", "\""), ("&#39;", "'"), ("&apos;", "'"),
    ("&nbsp;", " "), ("&#x27;", "'"), ("&#x2F;", "/")].foldl
      (fun text e => TextSearch.replaceAll e.1.toList e.2.toList text) text

/-- The text token of what was read so far. -/
def flush (textBuf : Text) : List HtmlToken :=
  if textBuf.isEmpty then [] else [.text (decodeEntities textBuf)]

/-- An open tag behind its name: its token, and what is left behind its raw content. -/
def openTag (tagName chars : Text) : Option (HtmlToken × Text) :=
  let (attrs, selfClosing, rest) := parseAttrs chars
  let name := toAsciiLowercase tagName
  let token := HtmlToken.openTag name attrs selfClosing
  if isRawTextElement name then (skipRawContent rest name).map fun rest => (token, rest)
  else some (token, rest)

/-- What follows a `<`: the tokens of the markup, the text buffer after it, and what is left. -/
def scanMarkup : Text → Option (List HtmlToken × Text × Text)
  | '!' :: rest => some ([], [], skipCommentOrDoctype ('!' :: rest))
  | '/' :: rest =>
    match consumeTagName rest with
    | ([], rest) => some ([], ['<', '/'], rest)
    | (tagName, rest) => some ([.closeTag (toAsciiLowercase tagName)], [], skipUntilGt rest)
  | chars =>
    match consumeTagName chars with
    | ([], rest) => some ([], ['<'], rest)
    | (tagName, rest) => (openTag tagName rest).map fun opened => ([opened.1], [], opened.2)

theorem length_skipUntilGt (chars : Text) : (skipUntilGt chars).length ≤ chars.length := by
  rw [skipUntilGt, List.length_tail]
  exact (Nat.sub_le _ _).trans (length_dropWhile_le _ _)

theorem length_skipRawFrom {closeTag buf chars rest : Text}
    (h : skipRawFrom closeTag buf chars = some rest) : rest.length ≤ chars.length := by
  induction chars generalizing buf with
  | nil =>
    cases h
    exact le_rfl
  | cons ch chars ih =>
    rw [skipRawFrom] at h
    split_ifs at h with hclosed hlong
    · cases h
      exact (length_skipUntilGt chars).trans (Nat.le_succ _)
    · obtain ⟨kept, -, hrest⟩ := Option.bind_eq_some_iff.mp h
      exact (ih hrest).trans (Nat.le_succ _)
    · exact (ih h).trans (Nat.le_succ _)

theorem length_openTag {tagName chars rest : Text} {token : HtmlToken}
    (h : openTag tagName chars = some (token, rest)) : rest.length ≤ chars.length := by
  have hattrs := length_parseAttrs chars
  unfold openTag at h
  dsimp only at h
  split_ifs at h
  · obtain ⟨after, hafter, heq⟩ := Option.map_eq_some_iff.mp h
    cases heq
    exact (length_skipRawFrom hafter).trans hattrs
  · cases h
    exact hattrs

theorem length_scanMarkup {chars rest buf : Text} {tokens : List HtmlToken}
    (h : scanMarkup chars = some (tokens, buf, rest)) : rest.length ≤ chars.length := by
  have hname : ∀ chars, (consumeTagName chars).2.length ≤ chars.length := fun _ =>
    length_dropWhile_le _ _
  unfold scanMarkup at h
  split at h
  · cases h
    exact length_skipUntilGt _
  · rename_i after
    have hafter := hname after
    split at h
    · rename_i heq
      cases h
      rw [heq] at hafter
      exact hafter.trans (Nat.le_succ _)
    · rename_i heq
      cases h
      rw [heq] at hafter
      exact (length_skipUntilGt _).trans (hafter.trans (Nat.le_succ _))
  · have hafter := hname chars
    split at h
    · rename_i heq
      cases h
      rw [heq] at hafter
      exact hafter
    · rename_i heq
      obtain ⟨⟨token, after⟩, hopen, heq'⟩ := Option.map_eq_some_iff.mp h
      cases heq'
      rw [heq] at hafter
      exact (length_openTag hopen).trans hafter

def tokenizeFrom (textBuf : Text) : Text → Option (List HtmlToken)
  | [] => some (flush textBuf)
  | '<' :: chars =>
    match _h : scanMarkup chars with
    | none => none
    | some (tokens, buf, rest) =>
      (tokenizeFrom buf rest).map fun more => flush textBuf ++ tokens ++ more
  | ch :: chars => tokenizeFrom (textBuf ++ [ch]) chars
termination_by chars => chars.length
decreasing_by
  · exact Nat.lt_succ_of_le (length_scanMarkup _h)
  · exact Nat.lt_succ_self _

def tokenize (html : Text) : Option (List HtmlToken) := tokenizeFrom [] html

/-! ## Where the buffer is cut -/

/-- The last `n` bytes of a text are whole characters. -/
def WholeTail (n : ℕ) (s : Text) : Prop := ∃ back ∈ s.tails, len back = n

instance (n : ℕ) (s : Text) : Decidable (WholeTail n s) :=
  inferInstanceAs (Decidable (∃ back ∈ s.tails, len back = n))

/-- Raw content up to its close tag: each time more than 100 bytes beyond the length of the close
tag are held, as many bytes as it has are held on to, and these are whole characters. -/
def CutsWhole (closeTag : Text) : ℕ → Text → Text → Prop
  | _, _, [] => True
  | held, read, ch :: rest =>
    let read := read ++ [ch]
    let held := held + ch.utf8Size
    if closeTag.isSuffixOf read then True
    else if len closeTag + 100 < held then
      WholeTail (len closeTag) read ∧ CutsWhole closeTag (len closeTag) read rest
    else CutsWhole closeTag held read rest

theorem len_append (s t : Text) : len (s ++ t) = len s + len t := by
  rw [len, List.map_append, List.sum_append, len, len]

theorem eq_nil_of_len_eq_zero {s : Text} (h : len s = 0) : s = [] := by
  cases s with
  | nil => rfl
  | cons c s =>
    have hpos := Char.utf8Size_pos c
    rw [len, List.map_cons, List.sum_cons] at h
    omega

/-- Of two ends of a text the one with fewer bytes is an end of the other. -/
theorem suffix_of_len_le {s t whole : Text} (hs : s <:+ whole) (ht : t <:+ whole)
    (hlen : len s ≤ len t) : s <:+ t := by
  obtain h | h := List.suffix_or_suffix_of_suffix hs ht
  · exact h
  · obtain ⟨front, hfront⟩ := h
    rw [← hfront, len_append] at hlen
    have hnil : front = [] := eq_nil_of_len_eq_zero (by omega)
    rw [hnil, List.nil_append] at hfront
    exact hfront ▸ List.suffix_refl t

/-- A buffer that holds the end of what was read is cut where the text read could be cut. -/
theorem drain_isSome {buf read : Text} {n : ℕ} (hbuf : buf <:+ read) (hn : n ≤ len buf) :
    (drain buf (len buf - n)).isSome ↔ WholeTail n read := by
  rw [drain, Option.isSome_map, sliceTo_isSome]
  constructor
  · rintro ⟨front, back, rfl, hfront⟩
    refine ⟨back, (List.mem_tails _ _).mpr ((List.suffix_append front back).trans hbuf), ?_⟩
    rw [len_append] at hn hfront
    omega
  · rintro ⟨back, hback, hlen⟩
    obtain ⟨front, hfront⟩ := suffix_of_len_le ((List.mem_tails _ _).mp hback) hbuf (hlen ▸ hn)
    refine ⟨front, back, hfront.symm, ?_⟩
    rw [← hfront, len_append]
    omega

theorem drain_spec {buf kept : Text} {n : ℕ} (h : drain buf (len buf - n) = some kept)
    (hn : n ≤ len buf) : kept <:+ buf ∧ len kept = n := by
  obtain ⟨front, hfront, rfl⟩ := Option.map_eq_some_iff.mp h
  obtain ⟨hlen, hprefix⟩ := sliceTo_eq_some.mp hfront
  have hsplit : front ++ buf.drop front.length = buf := by
    conv_rhs => rw [← List.take_append_drop front.length buf]
    rw [← List.prefix_iff_eq_take.mp hprefix]
  refine ⟨List.drop_suffix _ _, ?_⟩
  have hwhole := congrArg len hsplit
  rw [len_append] at hwhole
  omega

/-- What is left behind the first close tag. -/
def afterClose (closeTag : Text) : Text → Text → Text
  | _, [] => []
  | read, ch :: rest =>
    if closeTag.isSuffixOf (read ++ [ch]) then skipUntilGt rest
    else afterClose closeTag (read ++ [ch]) rest

/-- A buffer that holds enough of what was read sees the close tag when it has been read. -/
theorem isSuffixOf_buffer {closeTag buf read : Text} (hbuf : buf <:+ read)
    (hheld : buf = read ∨ len closeTag ≤ len buf) :
    closeTag.isSuffixOf buf ↔ closeTag.isSuffixOf read := by
  rw [List.isSuffixOf_iff_suffix, List.isSuffixOf_iff_suffix]
  obtain heq | h := hheld
  · rw [heq]
  · exact ⟨fun hc => hc.trans hbuf, fun hc => suffix_of_len_le hc hbuf h⟩

/-- Raw content is skipped to its close tag unless a cut falls inside a character. -/
theorem skipRawFrom_spec {closeTag buf read : Text} (rest : Text) (hbuf : buf <:+ read)
    (hheld : buf = read ∨ len closeTag ≤ len buf) :
    (CutsWhole closeTag (len buf) read rest →
      skipRawFrom closeTag buf rest = some (afterClose closeTag read rest)) ∧
    (¬CutsWhole closeTag (len buf) read rest → skipRawFrom closeTag buf rest = none) := by
  induction rest generalizing buf read with
  | nil => exact ⟨fun _ => rfl, fun h => absurd trivial h⟩
  | cons ch rest ih =>
    have hbuf' : buf ++ [ch] <:+ read ++ [ch] := by
      obtain ⟨front, rfl⟩ := hbuf
      exact ⟨front, (List.append_assoc _ _ _).symm⟩
    have hlen : len (buf ++ [ch]) = len buf + ch.utf8Size := by
      rw [len_append]
      rfl
    have hheld' : buf ++ [ch] = read ++ [ch] ∨ len closeTag ≤ len (buf ++ [ch]) := by
      obtain rfl | h := hheld
      · exact .inl rfl
      · exact .inr (by omega)
    have hclosed := isSuffixOf_buffer hbuf' hheld'
    rw [skipRawFrom, CutsWhole, afterClose]
    simp only [hclosed, ← hlen]
    by_cases hdone : closeTag.isSuffixOf (read ++ [ch])
    · rw [if_pos hdone, if_pos hdone, if_pos hdone]
      exact ⟨fun _ => rfl, fun h => absurd trivial h⟩
    · rw [if_neg hdone, if_neg hdone, if_neg hdone]
      by_cases hlong : len closeTag + 100 < len (buf ++ [ch])
      · have hn : len closeTag ≤ len (buf ++ [ch]) := by omega
        rw [if_pos hlong, if_pos hlong, ← drain_isSome hbuf' hn]
        cases hdrain : drain (buf ++ [ch]) (len (buf ++ [ch]) - len closeTag) with
        | none => simp
        | some kept =>
          obtain ⟨hkept, hsize⟩ := drain_spec hdrain hn
          have hnext := ih (hkept.trans hbuf') (.inr hsize.ge)
          rw [hsize] at hnext
          rw [Option.bind_some, Option.isSome_some]
          exact ⟨fun h => hnext.1 h.2, fun h => hnext.2 fun hcuts => h ⟨rfl, hcuts⟩⟩
      · rw [if_neg hlong, if_neg hlong]
        exact ih hbuf' hheld'

theorem skipRawContent_eq {chars tag : Text} (h : CutsWhole (closeTagOf tag) 0 [] chars) :
    skipRawContent chars tag = some (afterClose (closeTagOf tag) [] chars) :=
  (skipRawFrom_spec chars (List.suffix_refl []) (.inl rfl)).1 h

/-- Raw content is skipped exactly when no cut falls inside a character. -/
theorem skipRawContent_isSome (chars tag : Text) :
    (skipRawContent chars tag).isSome ↔ CutsWhole (closeTagOf tag) 0 [] chars := by
  constructor
  · intro h
    by_contra hcuts
    have hnone : skipRawContent chars tag = none :=
      (skipRawFrom_spec chars (List.suffix_refl []) (.inl rfl)).2 hcuts
    rw [hnone] at h
    cases h
  · intro h
    rw [skipRawContent_eq h]
    rfl

/-! ## Pages that are read -/

/-- What the token loop still has to read when it reads on from `chars`. -/
inductive Reaches : Text → Text → Prop
  | refl (chars : Text) : Reaches chars chars
  | char {ch : Char} {rest left : Text} (h : ch ≠ '<') (hrest : Reaches rest left) :
      Reaches (ch :: rest) left
  | markup {chars rest buf left : Text} {tokens : List HtmlToken}
      (h : scanMarkup chars = some (tokens, buf, rest)) (hrest : Reaches rest left) :
      Reaches ('<' :: chars) left

/-- The raw element that a markup opens, with all that follows its open tag. -/
def rawOpened : Text → Option (Text × Text)
  | '!' :: _ => none
  | '/' :: _ => none
  | chars =>
    match consumeTagName chars with
    | ([], _) => none
    | (tagName, rest) =>
      let name := toAsciiLowercase tagName
      if isRawTextElement name then some (name, (parseAttrs rest).2.2) else none

theorem rawOpened_eq {chars tagName rest : Text} (hbang : chars.head? ≠ some '!')
    (hslash : chars.head? ≠ some '/') (hname : consumeTagName chars = (tagName, rest))
    (hne : tagName ≠ []) (hraw : isRawTextElement (toAsciiLowercase tagName) = true) :
    rawOpened chars = some (toAsciiLowercase tagName, (parseAttrs rest).2.2) := by
  unfold rawOpened
  split
  · exact absurd rfl hbang
  · exact absurd rfl hslash
  · rw [hname]
    split
    · exact absurd (Prod.mk.inj ‹_›).1 hne
    · rename_i heq
      cases heq
      exact if_pos hraw

/-- No raw content that the token loop comes to is cut inside a character. -/
def RawContentsWhole (html : Text) : Prop :=
  ∀ chars name content, Reaches html ('<' :: chars) → rawOpened chars = some (name, content) →
    CutsWhole (closeTagOf name) 0 [] content

theorem scanMarkup_isSome (chars : Text) :
    (scanMarkup chars).isSome ↔
      ∀ name content, rawOpened chars = some (name, content) →
        CutsWhole (closeTagOf name) 0 [] content := by
  unfold scanMarkup rawOpened
  split
  · simp
  · split <;> simp
  · split
    · simp
    · rename_i tagName rest _ _
      rw [Option.isSome_map, openTag]
      dsimp only
      split_ifs with hraw
      · rw [Option.isSome_map, skipRawContent_isSome]
        constructor
        · rintro h name content heq
          cases heq
          exact h
        · exact fun h => h _ _ rfl
      · simp

/-- A page is read to its end exactly when no raw content is cut inside a character. -/
theorem tokenizeFrom_isSome (textBuf chars : Text) :
    (tokenizeFrom textBuf chars).isSome ↔ RawContentsWhole chars := by
  fun_induction tokenizeFrom textBuf chars with
  | case1 textBuf =>
    simp only [Option.isSome_some, true_iff]
    rintro chars name content hreach
    cases hreach
  | case2 textBuf chars h =>
    have hnone := (scanMarkup_isSome chars).not
    rw [h] at hnone
    simp only [Option.isSome_none, Bool.false_eq_true, not_false_eq_true, true_iff] at hnone
    simp only [Option.isSome_none, Bool.false_eq_true, false_iff]
    exact fun hwhole => hnone fun name content => hwhole chars name content (.refl _)
  | case3 textBuf chars tokens buf rest h ih =>
    rw [Option.isSome_map, ih]
    constructor
    · rintro hwhole left name content hreach hraw
      cases hreach with
      | refl => exact (scanMarkup_isSome chars).mp (h ▸ rfl) name content hraw
      | char hne _ => exact absurd rfl hne
      | markup h' hrest =>
        cases h.symm.trans h'
        exact hwhole left name content hrest hraw
    · exact fun hwhole left name content hreach => hwhole left name content (.markup h hreach)
  | case4 textBuf ch chars hne ih =>
    rw [ih]
    constructor
    · rintro hwhole left name content hreach hraw
      cases hreach with
      | refl => exact (hne rfl).elim
      | char _ hrest => exact hwhole left name content hrest hraw
      | markup _ _ => exact (hne rfl).elim
    · exact fun hwhole left name content hreach =>
        hwhole left name content (.char hne hreach)

theorem wholeTail_of_ascii {s : Text} {n : ℕ} (hs : ∀ c ∈ s, c.utf8Size = 1) (hn : n ≤ len s) :
    WholeTail n s := by
  have hlen : ∀ t : Text, (∀ c ∈ t, c.utf8Size = 1) → len t = t.length := by
    intro t ht
    rw [len, List.map_congr_left ht, List.map_const', List.sum_replicate_nat, mul_one]
  rw [hlen s hs] at hn
  refine ⟨s.drop (s.length - n), (List.mem_tails _ _).mpr (List.drop_suffix _ _), ?_⟩
  rw [hlen _ fun c hc => hs c (List.mem_of_mem_drop hc), List.length_drop]
  omega

/-- Raw content of one-byte characters is never cut inside one. -/
theorem cutsWhole_of_ascii {closeTag read rest : Text} {held : ℕ}
    (hchars : ∀ c ∈ read ++ rest, c.utf8Size = 1) (hheld : held ≤ len read) :
    CutsWhole closeTag held read rest := by
  induction rest generalizing held read with
  | nil => trivial
  | cons ch rest ih =>
    have hnext : ∀ c ∈ (read ++ [ch]) ++ rest, c.utf8Size = 1 := by
      rwa [List.append_assoc, List.singleton_append]
    have hread : ∀ c ∈ read ++ [ch], c.utf8Size = 1 := fun c hc =>
      hnext c (List.mem_append_left _ hc)
    have hlen : len (read ++ [ch]) = len read + ch.utf8Size := by
      rw [len_append]
      rfl
    rw [CutsWhole]
    by_cases hclosed : closeTag.isSuffixOf (read ++ [ch])
    · rw [if_pos hclosed]
      trivial
    · rw [if_neg hclosed]
      split_ifs with hlong
      · exact ⟨wholeTail_of_ascii hread (by omega), ih hnext (by omega)⟩
      · exact ih hnext (by omega)

end LeanCtx.HtmlCrush
