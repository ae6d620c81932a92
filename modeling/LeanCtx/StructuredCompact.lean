import LeanCtx.Csv
import LeanCtx.JsonGrammar
import LeanCtx.TextFile
import Mathlib.Algebra.Order.Ring.Nat

/-!
# Compacting JSON texts

A character scanner drops the whitespace outside of strings. It knows no
grammar; on a text of JSON its two flags follow the strings of the text, so
every token is copied as it is spelled and nothing else is kept.
-/

namespace LeanCtx.StructuredCompact

open JsonGrammar

def maxInputBytes : ℕ := 4 * 1024 * 1024

/-- The size in bytes. -/
def size (s : Text) : ℕ := (s.map Char.utf8Size).sum

/-! ## The scanner -/

def isBlank (c : Char) : Bool := c == ' ' || c == '\t' || c == '\n' || c == '\r'

@[simp]
def stripFrom : (inString escaped : Bool) → Text → Text
  | _, _, [] => []
  | true, true, c :: rest => c :: stripFrom true false rest
  | true, false, c :: rest =>
    if c = '\\' then c :: stripFrom true true rest
    else if c = '"' then c :: stripFrom false false rest
    else c :: stripFrom true false rest
  | false, escaped, c :: rest =>
    if c = '"' then c :: stripFrom true escaped rest
    else if isBlank c then stripFrom false escaped rest
    else c :: stripFrom false escaped rest

def stripInsignificantWs (input : Text) : Text := stripFrom false false input

/-! ## The compactors -/

/-- `serde_json` as a reader of values: it accepts texts of JSON only, and what it reads depends on
the tokens alone. -/
structure Serde (V : Type) where
  fromStr : Text → Option V
  sound : ∀ s v, fromStr s = some v → ∃ tree : Tree, Spelled Blank Blank tree.tokens s
  insensitive : Insensitive fromStr

variable {V : Type} (serde : Serde V)

def compactJson (input : Text) : Option Text :=
  if maxInputBytes < size input then none
  else
    let head := (input.dropWhile ByteText.isWhitespace).head?
    if head ≠ some '{' ∧ head ≠ some '[' then none
    else if (serde.fromStr input).isNone then none
    else
      let compact := stripInsignificantWs input
      if size compact < size input then some compact else none

/-- One line of many: what is written so far, and whether there is anything yet. -/
def compactLine (acc : Text × Bool) (line : Text) : Option (Text × Bool) :=
  let t := Csv.trim line
  if t.isEmpty then some acc
  else if (serde.fromStr t).isNone then none
  else some ((if acc.2 then acc.1 ++ ['\n'] else acc.1) ++ stripInsignificantWs t, true)

def compactJsonl (input : Text) : Option Text :=
  if maxInputBytes < size input then none
  else
    match (TextFile.lineChars input).foldlM (compactLine serde) ([], false) with
    | none => none
    | some (out, any) => if any ∧ size out < size input then some out else none

/-- The lines that hold something, trimmed. -/
def rowsOf (lines : List Text) : List Text := (lines.map Csv.trim).filter fun t => !t.isEmpty

def rows (input : Text) : List Text := rowsOf (TextFile.lineChars input)

/-! ## Tokens are copied -/

theorem isBlank_eq_false {c : Char} (h : IsBare c ∨ IsPunctuation c) : isBlank c = false := by
  by_contra hblank
  rw [Bool.not_eq_false] at hblank
  simp only [isBlank, Bool.or_eq_true, beq_iff_eq] at hblank
  rcases hblank with ((rfl | rfl) | rfl) | rfl
  · exact absurd h (by decide)
  · exact absurd h (by decide)
  · exact absurd h (by decide)
  · exact absurd h (by decide)

theorem copies : Copies (fun c => IsBare c ∨ IsPunctuation c) (stripFrom false false)
    (stripFrom true false) where
  enters _ := rfl
  passes c rest hc := by
    have hquote : c ≠ '"' := by
      rintro rfl
      exact absurd hc (by decide)
    rw [stripFrom, if_neg hquote, isBlank_eq_false hc]
    rfl
  leaves _ := rfl
  skips _ _ := rfl
  copies c rest hquote hbackslash := by rw [stripFrom, if_neg hbackslash, if_neg hquote]

theorem strip_blank {g : Text} (h : Blank g) (rest : Text) :
    stripFrom false false (g ++ rest) = stripFrom false false rest := by
  induction g with
  | nil => rfl
  | cons c g ih =>
    obtain ⟨hc, hg⟩ := List.forall_mem_cons.mp h
    have hblank : isBlank c = true := by
      rcases hc with rfl | rfl | rfl | rfl <;> decide
    have hquote : c ≠ '"' := by
      rintro rfl
      exact absurd hblank (by decide)
    rw [List.cons_append, stripFrom, if_neg hquote, if_pos hblank]
    exact ih hg

/-- What is left of a text of tokens is the tokens. -/
theorem strip_spelled {ts : List Token} {s : Text} (h : Spelled Blank Blank ts s) :
    stripInsignificantWs s = ts.flatMap Token.text := by
  unfold stripInsignificantWs
  induction h with
  | nil h =>
    have hstrip := strip_blank h []
    rwa [List.append_nil] at hstrip
  | @cons g t ts s hg _ ih =>
    rw [strip_blank hg, copies.token (fun c hc _ => hc) (fun _ => .inr (by decide)), ih,
      List.flatMap_cons]

theorem strip_eq_self (ts : List Token) :
    stripInsignificantWs (ts.flatMap Token.text) = ts.flatMap Token.text := by
  have hblank : ∀ g, Empty g → Blank g := by
    rintro g rfl
    exact nofun
  exact strip_spelled ((spelled_empty.mpr rfl).mono hblank hblank)

/-! ## What is left of a document -/

/-- A text of JSON and what is left of it have the same tokens, and the same value. -/
theorem reads_strip {s : Text} {v : V} (h : serde.fromStr s = some v) :
    ∃ tree : Tree, Spelled Blank Blank tree.tokens s ∧
      Spelled Empty Empty tree.tokens (stripInsignificantWs s) ∧
      serde.fromStr (stripInsignificantWs s) = some v := by
  obtain ⟨tree, htree⟩ := serde.sound s v h
  have hblank : ∀ g, Empty g → Blank g := by
    rintro g rfl
    exact nofun
  have hstrip := spelled_empty.mpr (strip_spelled htree)
  refine ⟨tree, htree, hstrip, ?_⟩
  rw [← serde.insensitive tree s _ htree (hstrip.mono hblank hblank), h]

theorem strip_strip {s : Text} {v : V} (h : serde.fromStr s = some v) :
    stripInsignificantWs (stripInsignificantWs s) = stripInsignificantWs s := by
  obtain ⟨tree, htree⟩ := serde.sound s v h
  rw [strip_spelled htree, strip_eq_self]

theorem compactJson_eq_some {input out : Text} (h : compactJson serde input = some out) :
    ∃ v, serde.fromStr input = some v ∧ out = stripInsignificantWs input := by
  unfold compactJson at h
  simp only at h
  split_ifs at h with hmax hhead hread hsize
  obtain ⟨v, hv⟩ := Option.ne_none_iff_exists'.mp fun hnone => hread (Option.isNone_iff_eq_none.mpr hnone)
  exact ⟨v, hv, (Option.some.inj h).symm⟩

theorem compactJson_strip {s : Text} {v : V} (h : serde.fromStr s = some v) :
    compactJson serde (stripInsignificantWs s) = none := by
  unfold compactJson
  simp only
  split_ifs with hmax hhead hread hsize
  · rfl
  · rfl
  · rfl
  · rw [strip_strip serde h] at hsize
    exact absurd hsize (lt_irrefl _)
  · rfl

/-! ## Lines -/

theorem isWhitespace_edge {c : Char} (h : IsEdge c) : ByteText.isWhitespace c = false := by
  rcases h with h | h | rfl
  · have hbounds := h.bounds
    simp [ByteText.isWhitespace]
    omega
  · exact List.forall_iff_forall_mem.mp (show List.Forall
      (fun c => ByteText.isWhitespace c = false) ['{', '}', '[', ']', ':', ','] by decide) c h
  · decide

theorem trim_eq_self {s front back : Text} {c d : Char} (hhead : s = c :: back)
    (hlast : s = front ++ [d]) (hc : ByteText.isWhitespace c = false)
    (hd : ByteText.isWhitespace d = false) : Csv.trim s = s := by
  unfold Csv.trim
  rw [hhead, List.dropWhile_cons_of_neg (by rw [hc]; decide), ← hhead, hlast,
    List.reverse_append, List.reverse_singleton, List.singleton_append,
    List.dropWhile_cons_of_neg (by rw [hd]; decide), List.reverse_cons, List.reverse_reverse]

/-- What is left of a value is one line, with nothing around it. -/
theorem strip_line {s : Text} {v : V} (h : serde.fromStr s = some v) :
    '\n' ∉ stripInsignificantWs s ∧ stripInsignificantWs s ≠ [] ∧
      TextFile.stripReturn (stripInsignificantWs s) = stripInsignificantWs s ∧
      Csv.trim (stripInsignificantWs s) = stripInsignificantWs s := by
  obtain ⟨tree, htree⟩ := serde.sound s v h
  rw [strip_spelled htree]
  obtain ⟨c, back, hhead, hc⟩ := head_flatMap tree.tokens_ne_nil
  obtain ⟨front, d, hlast, hd⟩ := last_flatMap tree.tokens_ne_nil
  refine ⟨?_, ?_, ?_, ?_⟩
  · intro hnewline
    obtain ⟨t, -, ht⟩ := List.mem_flatMap.mp hnewline
    exact absurd (t.visible _ ht) (by decide)
  · rw [hhead]
    exact List.cons_ne_nil _ _
  · unfold TextFile.stripReturn
    rw [if_neg]
    rw [hlast, List.getLast?_concat]
    intro hreturn
    obtain rfl := Option.some.inj hreturn
    exact absurd hd (by decide)
  · exact trim_eq_self hhead hlast (isWhitespace_edge hc) (isWhitespace_edge hd)

/-- One more text on a line of its own. -/
def appendLine (acc : Text × Bool) (t : Text) : Text × Bool :=
  ((if acc.2 then acc.1 ++ ['\n'] else acc.1) ++ t, true)

theorem intercalate_append (sep out t : Text) (ts : List Text) :
    sep.intercalate ((out ++ t) :: ts) = out ++ sep.intercalate (t :: ts) := by
  cases ts with
  | nil => rw [List.intercalate_singleton, List.intercalate_singleton]
  | cons t' ts =>
    rw [List.intercalate_cons_cons, List.intercalate_cons_cons, List.append_assoc,
      List.append_assoc, List.append_assoc]

theorem foldl_appendLine (out : Text) (ts : List Text) :
    ts.foldl appendLine (out, true) = (['\n'].intercalate (out :: ts), true) := by
  induction ts generalizing out with
  | nil => rw [List.intercalate_singleton]; rfl
  | cons t ts ih =>
    have hstep : appendLine (out, true) t = (out ++ ['\n'] ++ t, true) := rfl
    rw [List.foldl_cons, hstep, ih, List.append_assoc, intercalate_append, intercalate_append,
      List.intercalate_cons_cons]
    simp

theorem compactLine_empty (acc : Text × Bool) {line : Text} (h : (Csv.trim line).isEmpty = true) :
    compactLine serde acc line = some acc := if_pos h

theorem compactLine_read (acc : Text × Bool) {line : Text} (h : (Csv.trim line).isEmpty ≠ true) :
    compactLine serde acc line = (serde.fromStr (Csv.trim line)).map fun _ =>
      appendLine acc (stripInsignificantWs (Csv.trim line)) := by
  rw [compactLine, if_neg h]
  cases serde.fromStr (Csv.trim line) <;> rfl

theorem rowsOf_empty {line : Text} (h : (Csv.trim line).isEmpty = true) (lines : List Text) :
    rowsOf (line :: lines) = rowsOf lines := by
  simp [rowsOf, List.isEmpty_iff.mp h]

theorem rowsOf_read {line : Text} (h : (Csv.trim line).isEmpty ≠ true) (lines : List Text) :
    rowsOf (line :: lines) = Csv.trim line :: rowsOf lines := by
  simp [rowsOf, h]

/-- When every row is read, what is left of each is appended. -/
theorem foldlM_compactLine {lines : List Text}
    (hread : ∀ row ∈ rowsOf lines, (serde.fromStr row).isSome = true) (acc : Text × Bool) :
    lines.foldlM (compactLine serde) acc =
      some (((rowsOf lines).map stripInsignificantWs).foldl appendLine acc) := by
  induction lines generalizing acc with
  | nil => rfl
  | cons line lines ih =>
    rw [List.foldlM_cons]
    by_cases hempty : (Csv.trim line).isEmpty = true
    · rw [rowsOf_empty hempty] at hread ⊢
      rw [compactLine_empty serde acc hempty]
      exact ih hread acc
    · rw [rowsOf_read hempty] at hread ⊢
      obtain ⟨hrow, hrows⟩ := List.forall_mem_cons.mp hread
      obtain ⟨v, hv⟩ := Option.isSome_iff_exists.mp hrow
      rw [compactLine_read serde acc hempty, hv]
      exact ih hrows _

theorem read_of_foldlM {lines : List Text} {acc acc' : Text × Bool}
    (h : lines.foldlM (compactLine serde) acc = some acc') :
    ∀ row ∈ rowsOf lines, (serde.fromStr row).isSome = true := by
  induction lines generalizing acc with
  | nil => exact nofun
  | cons line lines ih =>
    rw [List.foldlM_cons] at h
    obtain ⟨mid, hmid, hrest⟩ := Option.bind_eq_some_iff.mp h
    by_cases hempty : (Csv.trim line).isEmpty = true
    · rw [rowsOf_empty hempty]
      exact ih hrest
    · rw [rowsOf_read hempty]
      refine List.forall_mem_cons.mpr ⟨?_, ih hrest⟩
      rw [compactLine_read serde acc hempty] at hmid
      obtain ⟨v, hv, -⟩ := Option.map_eq_some_iff.mp hmid
      rw [hv]
      rfl

/-- The output has one line for each row. -/
theorem compactJsonl_eq_some {input out : Text} (h : compactJsonl serde input = some out) :
    (∀ row ∈ rows input, (serde.fromStr row).isSome = true) ∧ rows input ≠ [] ∧
      out = ['\n'].intercalate ((rows input).map stripInsignificantWs) ∧ size out < size input := by
  unfold compactJsonl at h
  split_ifs at h with hmax
  cases hfold : (TextFile.lineChars input).foldlM (compactLine serde) ([], false) with
  | none => rw [hfold] at h; cases h
  | some acc =>
    rw [hfold] at h
    obtain ⟨out', any⟩ := acc
    simp only at h
    split_ifs at h with hgate
    obtain rfl := Option.some.inj h
    have hread := read_of_foldlM serde hfold
    rw [foldlM_compactLine serde hread] at hfold
    rw [← rows] at hread hfold
    cases hall : rows input with
    | nil =>
      rw [hall] at hfold
      have hany := congrArg Prod.snd (Option.some.inj hfold)
      exact absurd (hany.trans hgate.1) (by decide)
    | cons row rest =>
      rw [hall, List.map_cons, List.foldl_cons] at hfold
      have hstep : appendLine ([], false) (stripInsignificantWs row) =
          (stripInsignificantWs row, true) := rfl
      rw [hstep, foldl_appendLine] at hfold
      refine ⟨hall ▸ hread, List.cons_ne_nil _ _, ?_, ?_⟩
      · exact (congrArg Prod.fst (Option.some.inj hfold)).symm
      · exact hgate.2

theorem lineChars_intercalate {ts : List Text} (hne : ts ≠ [])
    (h : ∀ t ∈ ts, '\n' ∉ t ∧ t ≠ [] ∧ TextFile.stripReturn t = t) :
    TextFile.lineChars (['\n'].intercalate ts) = ts := by
  rw [TextFile.lineChars, List.splitOn_intercalate '\n' (fun t ht => (h t ht).1) hne]
  have hstrip : ts.dropLast.map TextFile.stripReturn = ts.dropLast := by
    rw [List.map_congr_left fun t ht => (h t ((List.dropLast_sublist ts).subset ht)).2.2]
    exact List.map_id _
  have hlast := (h _ (List.getLast_mem hne)).2.1
  rw [hstrip, List.getLast?_eq_some_getLast hne, Option.toList_some, List.filter_singleton]
  simp [hlast, List.dropLast_append_getLast hne]

/-- The lines of the output are what is left of the rows. -/
theorem lineChars_compactJsonl {input out : Text} (h : compactJsonl serde input = some out) :
    TextFile.lineChars out = (rows input).map stripInsignificantWs := by
  obtain ⟨hread, hne, rfl, -⟩ := compactJsonl_eq_some serde h
  refine lineChars_intercalate (by simpa using hne) ?_
  rw [List.forall_mem_map]
  intro row hrow
  obtain ⟨v, hv⟩ := Option.isSome_iff_exists.mp (hread row hrow)
  obtain ⟨hnewline, hnil, hreturn, -⟩ := strip_line serde hv
  exact ⟨hnewline, hnil, hreturn⟩

theorem rows_compactJsonl {input out : Text} (h : compactJsonl serde input = some out) :
    rows out = (rows input).map stripInsignificantWs := by
  obtain ⟨hread, -⟩ := compactJsonl_eq_some serde h
  rw [rows, lineChars_compactJsonl serde h, rowsOf, List.map_map]
  have htrim : (rows input).map (Csv.trim ∘ stripInsignificantWs) =
      (rows input).map stripInsignificantWs := by
    apply List.map_congr_left
    intro row hrow
    obtain ⟨v, hv⟩ := Option.isSome_iff_exists.mp (hread row hrow)
    exact (strip_line serde hv).2.2.2
  rw [htrim, List.filter_eq_self, List.forall_mem_map]
  intro row hrow
  obtain ⟨v, hv⟩ := Option.isSome_iff_exists.mp (hread row hrow)
  simp [(strip_line serde hv).2.1]

theorem compactJsonl_again {input out : Text} (h : compactJsonl serde input = some out) :
    compactJsonl serde out = none := by
  by_contra hsome
  obtain ⟨out', hout'⟩ := Option.ne_none_iff_exists'.mp hsome
  obtain ⟨hread, -, hout, -⟩ := compactJsonl_eq_some serde h
  obtain ⟨-, -, hout'eq, hsize⟩ := compactJsonl_eq_some serde hout'
  have hsame : out' = out := by
    rw [hout'eq, rows_compactJsonl serde h, List.map_map, hout]
    congr 1
    apply List.map_congr_left
    intro row hrow
    obtain ⟨v, hv⟩ := Option.isSome_iff_exists.mp (hread row hrow)
    exact strip_strip serde hv
  exact absurd (hsame ▸ hsize) (lt_irrefl _)

/-- Compacting keeps the tokens of a text of JSON and nothing else; a compacted document has its
value, compacted lines have theirs in order, and there is nothing left to remove. -/
theorem compaction_keeps_tokens :
    (∀ (tree : Tree) (s : Text), Spelled Blank Blank tree.tokens s →
      Spelled Empty Empty tree.tokens (stripInsignificantWs s)) ∧
    (∀ input out, compactJson serde input = some out →
      (∃ tree : Tree, Spelled Blank Blank tree.tokens input ∧ Spelled Empty Empty tree.tokens out) ∧
        (∃ v, serde.fromStr input = some v ∧ serde.fromStr out = some v) ∧
        compactJson serde out = none) ∧
    (∀ input out, compactJsonl serde input = some out →
      TextFile.lineChars out = (rows input).map stripInsignificantWs ∧
        (∀ row ∈ rows input, ∃ v, serde.fromStr row = some v ∧
          serde.fromStr (stripInsignificantWs row) = some v) ∧
        compactJsonl serde out = none) := by
  refine ⟨?_, ?_, ?_⟩
  · intro tree s hs
    exact spelled_empty.mpr (strip_spelled hs)
  · intro input out h
    obtain ⟨v, hv, rfl⟩ := compactJson_eq_some serde h
    obtain ⟨tree, htree, hstrip, hread⟩ := reads_strip serde hv
    exact ⟨⟨tree, htree, hstrip⟩, ⟨v, hv, hread⟩, compactJson_strip serde hv⟩
  · intro input out h
    refine ⟨lineChars_compactJsonl serde h, ?_, compactJsonl_again serde h⟩
    intro row hrow
    obtain ⟨v, hv⟩ := Option.isSome_iff_exists.mp ((compactJsonl_eq_some serde h).1 row hrow)
    obtain ⟨-, -, -, hread⟩ := reads_strip serde hv
    exact ⟨v, hv, hread⟩

noncomputable def checker : Serde Unit where
  fromStr s := if accepts s then some () else none
  sound s v h := by
    by_contra hnone
    rw [if_neg] at h
    · cases h
    · rw [accepts, if_neg hnone]
      decide
  insensitive tree _ _ hs hs' :=
    (if_pos (accepts_spelled hs)).trans (if_pos (accepts_spelled hs')).symm

/-- `[ "\\" ]` loses its spaces: the quote after two backslashes ends the string. -/
theorem compaction_keeps_tokens_backslash :
    compactJson checker "[ \"\\\\\" ]".toList = some "[\"\\\\\"]".toList ∧
      compactJson checker "[\"\\\\\"]".toList = none := by
  have hread : checker.fromStr "[ \"\\\\\" ]".toList = some () := by
    have hblank : Blank [' '] := fun c hc => .inl (List.mem_singleton.mp hc)
    refine if_pos (accepts_spelled (v := .array [.string [.escape '\\' (by decide)]]) ?_)
    exact .cons (g := []) nofun (.cons (g := [' ']) hblank (.cons (g := [' ']) hblank
      (.nil (g := []) nofun)))
  have hcompact : compactJson checker "[ \"\\\\\" ]".toList =
      some "[\"\\\\\"]".toList := by
    unfold compactJson
    rw [hread]
    decide
  exact ⟨hcompact, ((compaction_keeps_tokens checker).2.1 _ _ hcompact).2.2⟩

end LeanCtx.StructuredCompact
