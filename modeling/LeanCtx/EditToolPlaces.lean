import LeanCtx.EditTool

/-!
# One replacement at the one matching place

Each rule has its places in a file: an occurrence of the text searched for, or a
run of lines that the rule takes for the lines of the old text. An edit should
replace the one place there is. The rules that search for lines look for their
place by its text, and the text of the place may first occur somewhere else.
-/

namespace LeanCtx.CtxEdit

open LineEnds (Text SourceLine sourceLines hasCrlf)
open TextSearch (firstSplit contains replaceFirst replaceAll countMatches Isolated)

/-! ## Places -/

def bytesOf (lines : List SourceLine) : Text := lines.flatMap SourceLine.bytes

/-- The lines without the end of the last one. -/
def spanOf (lines : List SourceLine) : Text :=
  bytesOf lines.dropLast ++ ((lines.getLast?.map SourceLine.text).getD [])

def endOf (lines : List SourceLine) : Text := (lines.getLast?.map SourceLine.ending).getD []

/-- What stands before the line at a position. -/
def beforeLine (content : Text) (start : ℕ) : Text := bytesOf ((sourceLines content).take start)

/-- The run of `n` lines from a position on, and what follows it. -/
def linesFrom (content : Text) (start n : ℕ) : List SourceLine :=
  ((sourceLines content).drop start).take n

def afterLines (content : Text) (start n : ℕ) : Text :=
  endOf (linesFrom content start n) ++ bytesOf ((sourceLines content).drop (start + n))

/-- The lines that the tolerant rule searches for. -/
def needleLines (old : Text) : List Text := TextFile.lineChars (trimTrailingPerLine old)

/-- A place of a rule in the content: what stands before it, the place, and what follows. -/
inductive Place (content old : Text) : Rule → Text → Text → Text → Prop where
  | exact {before after : Text} (h : content = before ++ old ++ after) :
      Place content old .exact before old after
  | lineEnding {before after : Text} {form : Text → Text}
      (hform : lineEndingForm (hasCrlf content) old = some form)
      (h : content = before ++ form old ++ after) :
      Place content old .lineEnding before (form old) after
  | tolerant {start : ℕ} (hlt : start < (sourceLines content).length)
      (h : linesMatchAt (TextFile.lineChars content) (needleLines old) start = true) :
      Place content old .tolerant (beforeLine content start)
        (spanOf (linesFrom content start (needleLines old).length))
        (afterLines content start (needleLines old).length)
  | reindented {start : ℕ} {shift : Shift} (h : (start, shift) ∈ shiftedPlaces content old) :
      Place content old .reindented (beforeLine content start) (shiftedSpan content old start)
        (content.drop ((beforeLine content start).length + (shiftedSpan content old start).length))

/-- The new text in the form in which a rule writes it. -/
def newForm (content old new : Text) : Rule → Option Text
  | .exact => some new
  | .lineEnding => (lineEndingForm (hasCrlf content) old).map fun form => form new
  | .tolerant => some (adaptNewStringToLineSep new (hasCrlf content))
  | .reindented => (shiftedPlace content old).bind fun found =>
      (shiftLines new found.2).map fun replacement =>
        adaptNewStringToLineSep replacement (hasCrlf content)

/-- The rule has one place, and the new content is the old one with that place replaced. -/
def OneReplacement (content old new : Text) (rule : Rule) (out : Text) : Prop :=
  ∃ before span after replacement, Place content old rule before span after ∧
    (∀ before' span' after', Place content old rule before' span' after' →
      before' = before ∧ span' = span ∧ after' = after) ∧
    newForm content old new rule = some replacement ∧ out = before ++ replacement ++ after

/-- Every reported edit of the old text, whatever the new one is, is one replacement. -/
def EditsExact (content : Text) (lossyRead : Bool) (old : Text) : Prop :=
  ∀ new alreadyApplied commit rule out,
    runIo { content, lossyRead, alreadyApplied, commit }
      { oldString := old, newString := new, replaceAll := false, create := false } =
        .written rule out →
    OneReplacement content old new rule out

/-- When edits are exact. By occurrence: more than one is an error, and one overlaps no other.
By lines: the text that the rule searches for occurs more than once, or one run of lines matches
and the text first occurs there. -/
def PlacesClear (content : Text) (lossyRead : Bool) (old : Text) : Prop :=
  if 0 < countMatches old content then 1 < countMatches old content ∨ Isolated old content
  else
    match (lineEndingForm (hasCrlf content) old).filter
        (fun form => 0 < countMatches (form old) content) with
    | some form => 1 < countMatches (form old) content ∨ Isolated (form old) content
    | none =>
      match tolerantSpan content lossyRead old with
      | some span => 1 < countMatches span content ∨ ∃ start < (sourceLines content).length,
          (∀ other, other < (sourceLines content).length →
            linesMatchAt (TextFile.lineChars content) (needleLines old) other = true →
              other = start) ∧
          firstSplit span content = some (beforeLine content start,
            afterLines content start (needleLines old).length)
      | none =>
        match if lossyRead then none else shiftedPlace content old with
        | some (start, _) => 1 < countMatches (shiftedSpan content old start) content ∨
            firstSplit (shiftedSpan content old start) content = some (beforeLine content start,
              content.drop ((beforeLine content start).length +
                (shiftedSpan content old start).length))
        | none => True

/-! ## Where the places lie -/

theorem bytesOf_append (xs ys : List SourceLine) : bytesOf (xs ++ ys) = bytesOf xs ++ bytesOf ys :=
  List.flatMap_append

theorem spanOf_append_endOf (lines : List SourceLine) : spanOf lines ++ endOf lines = bytesOf lines := by
  rcases List.eq_nil_or_concat lines with rfl | ⟨front, last, rfl⟩
  · rfl
  · rw [spanOf, endOf, List.concat_eq_append, List.dropLast_concat, List.getLast?_concat,
      bytesOf_append, List.append_assoc]
    simp [bytesOf, SourceLine.bytes]

theorem bytesOf_sourceLines (content : Text) : bytesOf (sourceLines content) = content :=
  LineEnds.sourceLines_bytes content

theorem lines_split (content : Text) (start n : ℕ) :
    content = beforeLine content start ++ spanOf (linesFrom content start n) ++
      afterLines content start n := by
  have hrest : bytesOf ((sourceLines content).drop start) =
      bytesOf (linesFrom content start n) ++ bytesOf ((sourceLines content).drop (start + n)) := by
    rw [← bytesOf_append, linesFrom, ← List.drop_drop, List.take_append_drop]
  calc content
    _ = bytesOf ((sourceLines content).take start ++ (sourceLines content).drop start) := by
      rw [List.take_append_drop, bytesOf_sourceLines]
    _ = _ := by
      rw [bytesOf_append, hrest, ← spanOf_append_endOf (linesFrom content start n), beforeLine,
        afterLines]
      simp only [List.append_assoc]

/-- Lines at different positions stand at different places. -/
theorem beforeLine_injective {content : Text} {i j : ℕ} (hi : i < (sourceLines content).length)
    (hj : j < (sourceLines content).length) (h : beforeLine content i = beforeLine content j) :
    i = j := by
  have hlt : ∀ {a b : ℕ}, a < b → b < (sourceLines content).length →
      (beforeLine content a).length < (beforeLine content b).length := by
    intro a b hab hb
    have hsplit : (sourceLines content).take b =
        (sourceLines content).take a ++ ((sourceLines content).drop a).take (b - a) := by
      rw [← List.take_add, Nat.add_sub_cancel' hab.le]
    rw [beforeLine, beforeLine, hsplit, bytesOf_append, List.length_append]
    have hhead : ((sourceLines content).drop a).take (b - a) =
        (sourceLines content)[a] :: ((sourceLines content).drop (a + 1)).take (b - a - 1) := by
      rw [← List.cons_getElem_drop_succ (h := by omega)]
      obtain ⟨k, hk⟩ : ∃ k, b - a = k + 1 := ⟨b - a - 1, by omega⟩
      rw [hk, List.take_succ_cons, Nat.add_sub_cancel]
    rw [hhead, bytesOf, bytesOf, List.flatMap_cons, List.length_append]
    have := List.length_pos_of_ne_nil (LineEnds.bytes_ne_nil (List.getElem_mem (by omega : a < (sourceLines content).length)))
    omega
  rcases Nat.lt_trichotomy i j with hij | hij | hij
  · have := hlt hij hj
    rw [h] at this
    exact absurd this (lt_irrefl _)
  · exact hij
  · have := hlt hij hi
    rw [h] at this
    exact absurd this (lt_irrefl _)

theorem flatten_splitInclusive (content : Text) (start n : ℕ) :
    (((splitInclusive content).drop start).take n).flatten = bytesOf (linesFrom content start n) := by
  rw [splitInclusive, ← List.map_drop, ← List.map_take, bytesOf, List.flatMap, linesFrom]

/-- A place is a part of the content. -/
theorem Place.split {content old : Text} {rule : Rule} {before span after : Text}
    (h : Place content old rule before span after) : content = before ++ span ++ after := by
  cases h with
  | exact h => exact h
  | lineEnding _ h => exact h
  | tolerant => exact lines_split content _ _
  | @reindented start shift h =>
    have hprefix : shiftedSpan content old start <+:
        bytesOf (linesFrom content start (TextFile.lineChars old).length) := by
      rw [shiftedSpan, flatten_splitInclusive]
      split_ifs
      · exact List.prefix_rfl
      · exact List.rdropWhile_prefix _ _
    obtain ⟨rest, hrest⟩ := hprefix
    have hcontent := lines_split content start (TextFile.lineChars old).length
    have hend : beforeLine content start ++ shiftedSpan content old start <+: content := by
      refine ⟨rest ++ bytesOf ((sourceLines content).drop (start + (TextFile.lineChars old).length)), ?_⟩
      nth_rewrite 4 [hcontent]
      rw [afterLines, List.append_assoc, ← List.append_assoc _ rest, hrest, ← spanOf_append_endOf]
      simp only [List.append_assoc]
    rw [← List.length_append]
    exact List.prefix_iff_eq_append.mp hend |>.symm

/-! ## What a report says -/

section Runs

variable {content old : Text} {lossyRead : Bool}

/-- A report comes from a rule whose text occurs at most once by count. -/
theorem written_iff {new : Text} {alreadyApplied : Bool} {commit : Text → Bool} {rule : Rule}
    {out : Text} (hold : old ≠ []) :
    runIo { content, lossyRead, alreadyApplied, commit }
      { oldString := old, newString := new, replaceAll := false, create := false } =
        .written rule out ↔
      old ≠ new ∧ ∃ args, replaceArgs content lossyRead old new = some args ∧
        ¬ 1 < countMatches args.oldStr content ∧ args.rule = rule ∧
        replaceFirst args.oldStr args.newStr content = out ∧ commit out = true := by
  have hempty : old.isEmpty = false := by simpa using hold
  simp only [runIo, hempty, Bool.false_eq_true, if_false]
  by_cases heq : old = new
  · rw [if_pos heq]
    simp only [heq, ne_eq, not_true_eq_false, false_and, iff_false]
    split_ifs <;> simp
  · rw [if_neg heq]
    cases hargs : replaceArgs content lossyRead old new with
    | none =>
      simp only [reduceCtorEq, false_and, exists_false, and_false, iff_false]
      split_ifs <;> simp
    | some args =>
      simp only [doReplace, Bool.not_false, Bool.and_true, decide_eq_true_eq, Bool.false_eq_true,
        if_false, ne_eq, heq, not_false_eq_true, true_and, Option.some.injEq, exists_eq_left']
      by_cases hcount : 1 < countMatches args.oldStr content
      · simp [hcount]
      · rw [if_neg hcount]
        split_ifs with hcommit
        · simp only [Outcome.written.injEq, hcount, not_false_eq_true, true_and]
          constructor
          · rintro ⟨rfl, rfl⟩
            exact ⟨rfl, rfl, hcommit⟩
          · rintro ⟨rfl, rfl, -⟩
            exact ⟨rfl, rfl⟩
        · simp only [false_iff, not_and]
          rintro - - rfl
          exact hcommit

theorem editsExact_iff (hold : old ≠ []) :
    EditsExact content lossyRead old ↔ ∀ new, old ≠ new → ∀ args,
      replaceArgs content lossyRead old new = some args → ¬ 1 < countMatches args.oldStr content →
        OneReplacement content old new args.rule
          (replaceFirst args.oldStr args.newStr content) := by
  constructor
  · intro h new hne args hargs hcount
    refine h new false (fun _ => true) args.rule _ ?_
    exact (written_iff hold).mpr ⟨hne, args, hargs, hcount, rfl, rfl, rfl⟩
  · intro h new alreadyApplied commit rule out hrun
    obtain ⟨hne, args, hargs, hcount, rfl, rfl, -⟩ := (written_iff hold).mp hrun
    exact h new hne args hargs hcount

/-- A text searched for as it stands: by occurrence. -/
theorem oneReplacement_of_occurrence {new needle replacement : Text} {rule : Rule}
    (hplace : ∀ before span after, Place content old rule before span after ↔
      span = needle ∧ content = before ++ needle ++ after)
    (hform : newForm content old new rule = some replacement)
    (hcount : 0 < countMatches needle content) :
    OneReplacement content old new rule (replaceFirst needle replacement content) ↔
      Isolated needle content := by
  obtain ⟨split, hsplit⟩ :=
    Option.isSome_iff_exists.mp (TextSearch.countMatches_pos_iff.mp hcount)
  have hcontent := TextSearch.eq_of_firstSplit hsplit
  constructor
  · rintro ⟨before, span, after, -, -, hunique, -⟩ b a b' a' h h'
    obtain ⟨rfl, -, rfl⟩ := hunique b needle a ((hplace _ _ _).mpr ⟨rfl, h⟩)
    obtain ⟨rfl, -, rfl⟩ := hunique b' needle a' ((hplace _ _ _).mpr ⟨rfl, h'⟩)
    exact ⟨rfl, rfl⟩
  · intro hisolated
    refine ⟨split.1, needle, split.2, replacement, (hplace _ _ _).mpr ⟨rfl, hcontent⟩,
      fun before span after h => ?_, hform, ?_⟩
    · obtain ⟨rfl, h⟩ := (hplace _ _ _).mp h
      obtain ⟨rfl, rfl⟩ := hisolated _ _ _ _ hcontent h
      exact ⟨rfl, rfl, rfl⟩
    · rw [replaceFirst, hsplit]

/-- A text that stands for a place of lines: when two new texts that begin differently replace
the one place, the text first occurs there. -/
theorem firstSplit_of_oneReplacement {rule : Rule} {needle u v newX newY : Text} {x y : Char}
    (hxy : x ≠ y) (hformX : newForm content old newX rule = some (x :: u))
    (hformY : newForm content old newY rule = some (y :: v))
    (hX : OneReplacement content old newX rule (replaceFirst needle (x :: u) content))
    (hY : OneReplacement content old newY rule (replaceFirst needle (y :: v) content)) :
    ∃ before span after, Place content old rule before span after ∧
      (∀ before' span' after', Place content old rule before' span' after' →
        before' = before ∧ span' = span ∧ after' = after) ∧
      firstSplit needle content = some (before, after) := by
  obtain ⟨before, span, after, replacement, hplace, hunique, hform, hout⟩ := hX
  obtain ⟨before', span', after', replacement', hplace', -, hform', hout'⟩ := hY
  obtain ⟨rfl, rfl, rfl⟩ := hunique _ _ _ hplace'
  rw [hformX, Option.some.injEq] at hform
  rw [hformY, Option.some.injEq] at hform'
  subst hform hform'
  refine ⟨before', span', after', hplace, hunique, ?_⟩
  exact TextSearch.firstSplit_eq_of_replaceFirst hxy hplace.split hout hout'

theorem replaceArgs_of_exact (h : 0 < countMatches old content) (new : Text) :
    replaceArgs content lossyRead old new = some ⟨.exact, old, new⟩ := by
  rw [replaceArgs, exactArgs, if_pos h]
  rfl

theorem replaceArgs_of_lineEnding (h : ¬ 0 < countMatches old content) {form : Text → Text}
    (hform : (lineEndingForm (hasCrlf content) old).filter
      (fun form => 0 < countMatches (form old) content) = some form) (new : Text) :
    replaceArgs content lossyRead old new = some ⟨.lineEnding, form old, form new⟩ := by
  obtain ⟨hform, hcount⟩ := Option.filter_eq_some_iff.mp hform
  rw [decide_eq_true_iff] at hcount
  rw [replaceArgs, exactArgs, if_neg h, lineEndingArgs, hform, Option.bind_some, if_pos hcount]
  rfl

theorem replaceArgs_of_lines (h : ¬ 0 < countMatches old content)
    (hform : (lineEndingForm (hasCrlf content) old).filter
      (fun form => 0 < countMatches (form old) content) = none) (new : Text) :
    replaceArgs content lossyRead old new =
      (tolerantArgs content lossyRead old new <|> reindentedArgs content lossyRead old new) := by
  have hnone : lineEndingArgs content old new = none := by
    rw [lineEndingArgs]
    cases hsome : lineEndingForm (hasCrlf content) old with
    | none => rfl
    | some form =>
      rw [hsome] at hform
      have hcount : ¬ 0 < countMatches (form old) content := by
        intro hpos
        simp [Option.filter, hpos] at hform
      rw [Option.bind_some, if_neg hcount]
  rw [replaceArgs, exactArgs, if_neg h, hnone]
  rfl

theorem adapt_cons {x : Char} (hr : x ≠ '\r') (hn : x ≠ '\n') (s : Text) (usesCrlf : Bool) :
    adaptNewStringToLineSep (x :: s) usesCrlf = x :: adaptNewStringToLineSep s usesCrlf := by
  rw [adaptNewStringToLineSep, adaptNewStringToLineSep, toLf, toLf,
    TextSearch.replaceAll_cons hr.symm, toCrlf, TextSearch.replaceAll_cons hn.symm]
  split_ifs <;> rfl

theorem exact_iff (h : 0 < countMatches old content) (hold : old ≠ []) :
    EditsExact content lossyRead old ↔
      1 < countMatches old content ∨ Isolated old content := by
  have hplace : ∀ before span after, Place content old .exact before span after ↔
      span = old ∧ content = before ++ old ++ after := by
    intro before span after
    constructor
    · rintro ⟨h⟩
      exact ⟨rfl, h⟩
    · rintro ⟨rfl, h⟩
      exact .exact h
  rw [editsExact_iff hold]
  constructor
  · intro hall
    by_cases hcount : 1 < countMatches old content
    · exact .inl hcount
    · have hone := hall ('a' :: old) (List.ne_cons_self) _ (replaceArgs_of_exact h _) hcount
      exact .inr ((oneReplacement_of_occurrence hplace rfl h).mp hone)
  · intro hclear new hne args hargs hcount
    rw [replaceArgs_of_exact h] at hargs
    cases hargs
    exact (oneReplacement_of_occurrence hplace rfl h).mpr (hclear.resolve_left hcount)

theorem lineEnding_iff (h : ¬ 0 < countMatches old content) (hold : old ≠ []) {form : Text → Text}
    (hform : (lineEndingForm (hasCrlf content) old).filter
      (fun form => 0 < countMatches (form old) content) = some form) :
    EditsExact content lossyRead old ↔
      1 < countMatches (form old) content ∨ Isolated (form old) content := by
  obtain ⟨hsome, hpos⟩ := Option.filter_eq_some_iff.mp hform
  rw [decide_eq_true_iff] at hpos
  have hplace : ∀ before span after, Place content old .lineEnding before span after ↔
      span = form old ∧ content = before ++ form old ++ after := by
    intro before span after
    constructor
    · rintro (_ | ⟨hform', h⟩)
      rw [hsome, Option.some.injEq] at hform'
      subst hform'
      exact ⟨rfl, h⟩
    · rintro ⟨rfl, h⟩
      exact .lineEnding hsome h
  have hnew : ∀ new, newForm content old new .lineEnding = some (form new) := by
    intro new
    rw [newForm, hsome]
    rfl
  rw [editsExact_iff hold]
  constructor
  · intro hall
    by_cases hcount : 1 < countMatches (form old) content
    · exact .inl hcount
    · have hone := hall ('a' :: old) (List.ne_cons_self) _
        (replaceArgs_of_lineEnding h hform _) hcount
      exact .inr ((oneReplacement_of_occurrence hplace (hnew _) hpos).mp hone)
  · intro hclear new hne args hargs hcount
    rw [replaceArgs_of_lineEnding h hform] at hargs
    cases hargs
    exact (oneReplacement_of_occurrence hplace (hnew _) hpos).mpr (hclear.resolve_left hcount)

theorem tolerant_iff (h : ¬ 0 < countMatches old content) (hold : old ≠ [])
    (hform : (lineEndingForm (hasCrlf content) old).filter
      (fun form => 0 < countMatches (form old) content) = none) {span : Text}
    (hspan : tolerantSpan content lossyRead old = some span) :
    EditsExact content lossyRead old ↔
      1 < countMatches span content ∨ ∃ start < (sourceLines content).length,
        (∀ other, other < (sourceLines content).length →
          linesMatchAt (TextFile.lineChars content) (needleLines old) other = true →
            other = start) ∧
        firstSplit span content = some (beforeLine content start,
          afterLines content start (needleLines old).length) := by
  have hargs : ∀ new, replaceArgs content lossyRead old new =
      some ⟨.tolerant, span, adaptNewStringToLineSep new (hasCrlf content)⟩ := by
    intro new
    rw [replaceArgs_of_lines h hform, tolerantArgs, hspan]
    rfl
  rw [editsExact_iff hold]
  constructor
  · intro hall
    by_cases hcount : 1 < countMatches span content
    · exact .inl hcount
    · have hone := fun new hne => hall new hne _ (hargs new) hcount
      have hX := hone ('a' :: old) (List.ne_cons_self)
      have hY := hone ('b' :: old) (List.ne_cons_self)
      rw [adapt_cons (by decide) (by decide)] at hX hY
      obtain ⟨before, place, after, hplace, hunique, hfirst⟩ := firstSplit_of_oneReplacement
        (by decide : 'a' ≠ 'b') (by rw [newForm, adapt_cons (by decide) (by decide)])
        (by rw [newForm, adapt_cons (by decide) (by decide)]) hX hY
      rcases hplace with _ | _ | ⟨hlt, hmatch⟩
      rename_i start
      refine .inr ⟨start, hlt, fun other hother hmatch' => ?_, hfirst⟩
      exact beforeLine_injective hother hlt (hunique _ _ _ (.tolerant hother hmatch')).1
  · intro hclear new hne args hargs' hcount
    rw [hargs] at hargs'
    cases hargs'
    obtain ⟨start, hlt, hone, hfirst⟩ := hclear.resolve_left hcount
    -- The run of lines that was found is the one run.
    obtain ⟨found, hfound, hmatch⟩ : ∃ found < (sourceLines content).length,
        linesMatchAt (TextFile.lineChars content) (needleLines old) found = true := by
      rw [tolerantSpan] at hspan
      split_ifs at hspan
      obtain ⟨found, hfound, -⟩ := Option.map_eq_some_iff.mp hspan
      rw [findLines] at hfound
      split_ifs at hfound
      have hmem := List.mem_range.mp (List.mem_of_find?_eq_some hfound)
      rw [← LineEnds.map_text_sourceLines, List.length_map] at hmem
      exact ⟨found, hmem, List.find?_some hfound⟩
    obtain rfl := hone found hfound hmatch
    refine ⟨_, _, _, _, .tolerant hfound hmatch, fun before' span' after' hplace => ?_, rfl, ?_⟩
    · rcases hplace with _ | _ | ⟨hlt', hmatch'⟩
      obtain rfl := hone _ hlt' hmatch'
      exact ⟨rfl, rfl, rfl⟩
    · rw [replaceFirst, hfirst]

theorem mem_shiftedPlaces_iff {start : ℕ} {shift : Shift}
    (hplace : shiftedPlace content old = some (start, shift)) {start' : ℕ} {shift' : Shift} :
    (start', shift') ∈ shiftedPlaces content old ↔ start' = start ∧ shift' = shift := by
  have hsingle : shiftedPlaces content old = [(start, shift)] := by
    rw [shiftedPlace] at hplace
    split at hplace
    · rename_i found heq
      cases hplace
      exact heq
    · cases hplace
  rw [hsingle, List.mem_singleton, Prod.mk.injEq]

/-- A text of blanks alone is not found at another indentation. -/
theorem shiftedPlace_blank {blank : Text} (h : (TextFile.lineChars blank).all isBlank = true) :
    shiftedPlace content blank = none := by
  rw [shiftedPlace, shiftedPlaces, if_pos (by rw [h]; rfl)]

theorem reindentedArgs_of_place {start : ℕ} {shift : Shift}
    (hplace : shiftedPlace content old = some (start, shift)) (new : Text) :
    reindentedArgs content false old new = (shiftLines new shift).map fun replacement =>
      ⟨.reindented, shiftedSpan content old start,
        adaptNewStringToLineSep replacement (hasCrlf content)⟩ := by
  rw [reindentedArgs, if_neg Bool.false_ne_true, findReindented, hplace, Option.bind_some,
    Option.map_map]
  rfl

theorem newForm_of_place {start : ℕ} {shift : Shift}
    (hplace : shiftedPlace content old = some (start, shift)) (new : Text) :
    newForm content old new .reindented = (shiftLines new shift).map fun replacement =>
      adaptNewStringToLineSep replacement (hasCrlf content) := by
  rw [newForm, hplace]
  rfl

theorem reindented_iff (h : ¬ 0 < countMatches old content) (hold : old ≠ [])
    (hform : (lineEndingForm (hasCrlf content) old).filter
      (fun form => 0 < countMatches (form old) content) = none)
    (htolerant : tolerantSpan content false old = none) {start : ℕ} {shift : Shift}
    (hplace : shiftedPlace content old = some (start, shift)) :
    EditsExact content false old ↔ 1 < countMatches (shiftedSpan content old start) content ∨
      firstSplit (shiftedSpan content old start) content = some (beforeLine content start,
        content.drop ((beforeLine content start).length +
          (shiftedSpan content old start).length)) := by
  have hargs : ∀ new, replaceArgs content false old new = (shiftLines new shift).map
      fun replacement => ⟨.reindented, shiftedSpan content old start,
        adaptNewStringToLineSep replacement (hasCrlf content)⟩ := by
    intro new
    rw [replaceArgs_of_lines h hform, tolerantArgs, htolerant, ← reindentedArgs_of_place hplace]
    rfl
  have hthere : Place content old .reindented (beforeLine content start)
      (shiftedSpan content old start) (content.drop ((beforeLine content start).length +
        (shiftedSpan content old start).length)) :=
    .reindented ((mem_shiftedPlaces_iff hplace).mpr ⟨rfl, rfl⟩)
  have hunique : ∀ before' span' after', Place content old .reindented before' span' after' →
      before' = beforeLine content start ∧ span' = shiftedSpan content old start ∧
        after' = content.drop ((beforeLine content start).length +
          (shiftedSpan content old start).length) := by
    intro before' span' after' hplace'
    rcases hplace' with _ | _ | _ | ⟨hmem⟩
    obtain ⟨rfl, -⟩ := (mem_shiftedPlaces_iff hplace).mp hmem
    exact ⟨rfl, rfl, rfl⟩
  rw [editsExact_iff hold]
  constructor
  · intro hall
    by_cases hcount : 1 < countMatches (shiftedSpan content old start) content
    · exact .inl hcount
    · -- A new text of one blank is written as it is, at any indentation.
      have hblank : ∀ c, c = ' ' ∨ c = '\t' → shiftLines [c] shift = some [c] ∧
          adaptNewStringToLineSep [c] (hasCrlf content) = [c] ∧ old ≠ [c] := by
        intro c hc
        refine ⟨by rcases hc with rfl | rfl <;> rfl, ?_, ?_⟩
        · cases hasCrlf content <;> rcases hc with rfl | rfl <;> rfl
        · rintro rfl
          have hnone : shiftedPlace content [c] = none :=
            shiftedPlace_blank (by rcases hc with rfl | rfl <;> decide)
          rw [hplace] at hnone
          cases hnone
      have hone : ∀ c, c = ' ' ∨ c = '\t' →
          newForm content old [c] .reindented = some [c] ∧
            OneReplacement content old [c] .reindented
              (replaceFirst (shiftedSpan content old start) [c] content) := by
        intro c hc
        obtain ⟨hshift, hadapt, hne⟩ := hblank c hc
        have hreport := hall [c] hne _ (by rw [hargs, hshift, Option.map_some]) hcount
        rw [hadapt] at hreport
        refine ⟨?_, hreport⟩
        rw [newForm_of_place hplace, hshift, Option.map_some, hadapt]
      obtain ⟨hformX, hX⟩ := hone ' ' (.inl rfl)
      obtain ⟨hformY, hY⟩ := hone '\t' (.inr rfl)
      obtain ⟨before, place, after, hplace', -, hfirst⟩ :=
        firstSplit_of_oneReplacement (by decide : ' ' ≠ '\t') hformX hformY hX hY
      obtain ⟨rfl, rfl, rfl⟩ := hunique _ _ _ hplace'
      exact .inr hfirst
  · intro hclear new hne args hargs' hcount
    rw [hargs] at hargs'
    obtain ⟨replacement, hshift, rfl⟩ := Option.map_eq_some_iff.mp hargs'
    have hfirst := hclear.resolve_left hcount
    refine ⟨_, _, _, adaptNewStringToLineSep replacement (hasCrlf content), hthere, hunique, ?_, ?_⟩
    · rw [newForm_of_place hplace, hshift, Option.map_some]
    · rw [replaceFirst, hfirst]

/-- Reported edits replace the one place there is exactly when the places are clear. -/
theorem editsExact_iff_placesClear (content : Text) (lossyRead : Bool) (hold : old ≠ []) :
    EditsExact content lossyRead old ↔ PlacesClear content lossyRead old := by
  rw [PlacesClear]
  by_cases h : 0 < countMatches old content
  · rw [if_pos h]
    exact exact_iff h hold
  rw [if_neg h]
  cases hform : (lineEndingForm (hasCrlf content) old).filter
      (fun form => 0 < countMatches (form old) content) with
  | some form => exact lineEnding_iff h hold hform
  | none =>
    cases htolerant : tolerantSpan content lossyRead old with
    | some span => exact tolerant_iff h hold hform htolerant
    | none =>
      have htolerantArgs : ∀ new, tolerantArgs content lossyRead old new = none := by
        intro new
        rw [tolerantArgs, htolerant]
        rfl
      have hnone : (∀ new, reindentedArgs content lossyRead old new = none) →
          EditsExact content lossyRead old := by
        intro hnone
        rw [editsExact_iff hold]
        intro new _ args hargs
        rw [replaceArgs_of_lines h hform, htolerantArgs, hnone] at hargs
        cases hargs
      cases lossyRead with
      | true =>
        simp only [if_true, iff_true]
        exact hnone fun new => by rw [reindentedArgs, if_pos rfl]
      | false =>
        simp only [Bool.false_eq_true, if_false]
        cases hplace : shiftedPlace content old with
        | none =>
          simp only [iff_true]
          refine hnone fun new => ?_
          rw [reindentedArgs, if_neg Bool.false_ne_true, findReindented, hplace]
          rfl
        | some found => exact reindented_iff h hold hform htolerant hplace

end Runs

/-- The one line `  x` is found for `    x`. -/
theorem editsExact_iff_placesClear_shifted :
    EditsExact "p\n  x\nq\n".toList false "    x".toList := by
  apply (editsExact_iff_placesClear _ _ (by decide)).mpr
  exact Or.inr (by decide +kernel)

/-- Of the lines `a ` and `a\t` the first is replaced when `a` with two blanks is searched. -/
theorem first_of_two_replaced : ¬ EditsExact "a \nb\na\t\n".toList false "a  ".toList := by
  intro hexact
  obtain ⟨before, span, after, _, -, hunique, -⟩ := hexact "X".toList false (fun _ => true) .tolerant
    "X\nb\na\t\n".toList (by decide +kernel)
  have hfirst := hunique _ _ _ (@Place.tolerant _ _ 0 (by decide +kernel) (by decide +kernel))
  have hthird := hunique _ _ _ (@Place.tolerant _ _ 2 (by decide +kernel) (by decide +kernel))
  exact absurd (hfirst.1.trans hthird.1.symm) (by decide +kernel)

end LeanCtx.CtxEdit
