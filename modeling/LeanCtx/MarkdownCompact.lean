import LeanCtx.ByteText
import LeanCtx.TextFile
import Mathlib.Algebra.Order.Ring.Nat
import Mathlib.Data.Finset.Insert
import Mathlib.Data.List.DropRight
import Mathlib.Data.List.Sort
import Mathlib.Data.List.Sublists

/-!
# Compacting Markdown

A document is cut into units: headings, fenced blocks and single lines. Every
heading is kept, and of each section as many units as its budget allows, taken
by their scores. What is left out is counted, and a marker stands in its place.
Against this stands the division of the document into fenced blocks, where a
block that a run opens is closed by a run at least as long.
-/

namespace LeanCtx.MarkdownCompact

open ByteText TextFile

abbrev Text := List Char

def minSectionBodyLines : ℕ := 2

def minContentLines : ℕ := 24

/-! ## Lines -/

def trimStart (line : Text) : Text := line.dropWhile isWhitespace

def trimEnd (line : Text) : Text := line.rdropWhile isWhitespace

def isBlank (line : Text) : Bool := line.all isWhitespace

def runLength (marker : Char) (line : Text) : ℕ := (line.takeWhile (· = marker)).length

/-- The fence character when the text opens a code fence. -/
def fenceMarker (trimmed : Text) : Option Char :=
  ['`', '~'].find? fun marker => 3 ≤ runLength marker trimmed

def isClosingFence (line : Text) (marker : Char) : Bool :=
  3 ≤ runLength marker (trimStart line) &&
    (trimStart line).all fun c => c = marker || isWhitespace c

def isHeading (line : Text) : Bool :=
  let trimmed := trimStart line
  let hashes := runLength '#' trimmed
  1 ≤ hashes && hashes ≤ 6 && (trimmed.length = hashes || (trimmed.drop hashes).head? = some ' ')

def looksLikeMarkdown (lines : List Text) : Bool :=
  lines.any isHeading || lines.any (fun l => "- ".toList.isPrefixOf (trimStart l)) ||
    lines.any (fun l => "* ".toList.isPrefixOf (trimStart l)) ||
    lines.any (fun l => "| ".toList.isPrefixOf (trimStart l))

def nonBlank (lines : List Text) : ℕ := lines.countP fun l => !isBlank l

/-! ## Units -/

inductive UnitKind
  | heading
  | prose
  | fence
deriving DecidableEq

/-- The lines from `start` up to `stop`. -/
structure MarkdownUnit where
  start : ℕ
  stop : ℕ
  kind : UnitKind

def MarkdownUnit.lines (lines : List Text) (unit : MarkdownUnit) : List Text :=
  (lines.take unit.stop).drop unit.start

def MarkdownUnit.contentLines (lines : List Text) (unit : MarkdownUnit) : ℕ :=
  nonBlank (unit.lines lines)

/-- How many lines there are up to the first that `closes`, or in all. -/
@[simp]
def upTo (closes : Text → Bool) : List Text → ℕ
  | [] => 0
  | l :: rest => if closes l then 1 else upTo closes rest + 1

/-- The units of the lines from the given position on. -/
def parseUnits (start : ℕ) : List Text → List MarkdownUnit
  | [] => []
  | l :: rest =>
    if trimStart l = [] then parseUnits (start + 1) rest
    else
      match fenceMarker (trimStart l) with
      | some marker =>
        let body := upTo (fun line => isClosingFence line marker) rest
        ⟨start, start + 1 + body, .fence⟩ :: parseUnits (start + 1 + body) (rest.drop body)
      | none =>
        ⟨start, start + 1, if isHeading l then .heading else .prose⟩ :: parseUnits (start + 1) rest
termination_by lines => lines.length
decreasing_by
  · exact Nat.lt_succ_self rest.length
  · rw [List.length_drop, List.length_cons]
    omega
  · exact Nat.lt_succ_self rest.length

/-! ## Selecting -/

/-- A share of 35 in 100, rounded up, within bounds. -/
def sectionBodyBudget (lineCount : ℕ) : ℕ :=
  min (max ((35 * lineCount + 99) / 100) minSectionBodyLines) lineCount

section

variable {α : Type} [LinearOrder α] (score : MarkdownUnit → α) (lines : List Text)

/-- The higher score first, and the earlier unit at equal scores. -/
def ScoredBefore (a b : (MarkdownUnit × ℕ) × α) : Prop :=
  b.2 < a.2 ∨ (a.2 = b.2 ∧ a.1.2 ≤ b.1.2)

instance (a b : (MarkdownUnit × ℕ) × α) : Decidable (ScoredBefore a b) :=
  inferInstanceAs (Decidable (b.2 < a.2 ∨ (a.2 = b.2 ∧ a.1.2 ≤ b.1.2)))

/-- Units are taken in order until the target is reached. -/
def takeScored (target : ℕ) : ℕ → Finset ℕ → List (MarkdownUnit × ℕ) → Finset ℕ
  | _, keep, [] => keep
  | taken, keep, (unit, uidx) :: rest =>
    if target ≤ taken then keep
    else takeScored target (taken + unit.contentLines lines) (insert uidx keep) rest

def selectSectionBody (keep : Finset ℕ) (body : List (MarkdownUnit × ℕ)) : Finset ℕ :=
  match body with
  | [] => keep
  | first :: _ =>
    let bodyLines := (body.map fun u => u.1.contentLines lines).sum
    let scored := (body.map fun u => (u, score u.1)).insertionSort ScoredBefore
    takeScored lines (sectionBodyBudget bodyLines) 0 (insert first.2 keep) (scored.map Prod.fst)

/-- One unit: a heading ends the section before it, any other unit joins the section. -/
def selectUnit (state : Finset ℕ × List (MarkdownUnit × ℕ)) (unit : MarkdownUnit × ℕ) :
    Finset ℕ × List (MarkdownUnit × ℕ) :=
  if unit.1.kind = .heading then
    (insert unit.2 (selectSectionBody score lines state.1 state.2), [])
  else (state.1, state.2 ++ [unit])

def selectUnits (units : List MarkdownUnit) : Finset ℕ :=
  let (keep, sectionBody) := units.zipIdx.foldl (selectUnit score lines) (∅, [])
  selectSectionBody score lines keep sectionBody

/-! ## Compacting -/

def omissionMarker (omitted : ℕ) : Text :=
  ("... [lean-ctx: omitted " ++ toString omitted ++ " lines]\n").toList

def flushOmission (out : Text) (omitted : ℕ) : Text :=
  if omitted = 0 then out else out ++ omissionMarker omitted

def printLines (ls : List Text) : Text := ls.flatMap fun line => trimEnd line ++ ['\n']

def emitUnit (keep : Finset ℕ) (state : Text × ℕ) (unit : MarkdownUnit × ℕ) : Text × ℕ :=
  if unit.2 ∈ keep then
    (flushOmission state.1 state.2 ++ printLines (unit.1.lines lines), 0)
  else (state.1, state.2 + unit.1.contentLines lines)

def byteLen (text : Text) : ℕ := (utf8 (String.ofList text)).length

def compactMarkdown (content : Text) : Option Text :=
  let lines := lineChars content
  if isBlank content || !looksLikeMarkdown lines then none
  else
    let units := parseUnits 0 lines
    let contentTotal := (units.map fun u => u.contentLines lines).sum
    if contentTotal < minContentLines then none
    else
      let keep := selectUnits score lines units
      let (out, omitted) := units.zipIdx.foldl (emitUnit lines keep) ([], 0)
      let out := flushOmission out omitted
      if contentTotal ≤ nonBlank (lineChars out) || byteLen content ≤ byteLen out then none
      else some out

end

/-! ## The document's own parts -/

/-- A fenced block, by its character, the length of its opening run, the opening line and the lines
after it up to the closing one, or a line outside blocks. -/
inductive Part
  | block (marker : Char) (run : ℕ) (opening : Text) (body : List Text)
  | line (l : Text)
deriving DecidableEq

def Part.lines : Part → List Text
  | .block _ _ opening body => opening :: body
  | .line l => [l]

/-- The run that opens an unindented fence. -/
def openingRun (line : Text) : Option (Char × ℕ) :=
  (['`', '~'].map fun marker => (marker, runLength marker line)).find? fun run => 3 ≤ run.2

/-- An unindented line of at least `run` of the character, with blanks after it. -/
def closesRun (marker : Char) (run : ℕ) (line : Text) : Bool :=
  run ≤ runLength marker line &&
    (line.drop (runLength marker line)).all fun c => c = ' ' || c = '\t'

/-- The document as fenced blocks and the lines outside them; a block that no line closes runs to
the end. -/
def parts : List Text → List Part
  | [] => []
  | l :: rest =>
    match openingRun l with
    | some (marker, run) =>
      let body := upTo (closesRun marker run) rest
      .block marker run l (rest.take body) :: parts (rest.drop body)
    | none => .line l :: parts rest
termination_by lines => lines.length
decreasing_by
  · rw [List.length_drop, List.length_cons]
    omega
  · exact Nat.lt_succ_self rest.length

def Part.isHeading : Part → Bool
  | .block .. => false
  | .line l => MarkdownCompact.isHeading l

/-- What a compacted document is made of. -/
inductive Piece
  | kept (part : Part)
  | omitted (n : ℕ)

def Piece.print : Piece → Text
  | .kept part => printLines part.lines
  | .omitted n => omissionMarker n

def Piece.part? : Piece → Option Part
  | .kept part => some part
  | .omitted _ => none

def Piece.count : Piece → ℕ
  | .kept _ => 0
  | .omitted n => n

/-- The document with some of its parts left out: parts are kept whole and in order, every heading
is kept, and the markers count the lines left out that are not blank. -/
structure Compacted (doc : List Text) (pieces : List Piece) : Prop where
  order : (pieces.filterMap Piece.part?).Sublist (parts doc)
  headings : (pieces.filterMap Piece.part?).filter Part.isHeading =
    (parts doc).filter Part.isHeading
  counts : (pieces.map Piece.count).sum +
    nonBlank ((pieces.filterMap Piece.part?).flatMap Part.lines) = nonBlank doc

/-- A part that the scanner of units takes as it is: no line outside blocks opens a fence, and no
line before the last of a block ends a fence of any length. -/
def Part.Plain : Part → Prop
  | .block marker _ _ body => ∀ l ∈ body.dropLast, isClosingFence l marker = false
  | .line l => fenceMarker (trimStart l) = none

instance decidablePlain : DecidablePred Part.Plain
  | .block marker _ _ body =>
    inferInstanceAs (Decidable (∀ l ∈ body.dropLast, isClosingFence l marker = false))
  | .line l => inferInstanceAs (Decidable (fenceMarker (trimStart l) = none))

/-! ## Fences -/

theorem upTo_le (closes : Text → Bool) (ls : List Text) : upTo closes ls ≤ ls.length := by
  induction ls with
  | nil => exact le_rfl
  | cons l ls ih =>
    rw [upTo, List.length_cons]
    split <;> omega

theorem upTo_cons_of_not {closes : Text → Bool} {l : Text} (h : closes l = false)
    (ls : List Text) : upTo closes (l :: ls) = upTo closes ls + 1 := by
  rw [upTo, h]
  rfl

theorem upTo_pos {closes : Text → Bool} {ls : List Text} (h : ls ≠ []) : 0 < upTo closes ls := by
  cases ls with
  | nil => exact absurd rfl h
  | cons l ls =>
    rw [upTo]
    split
    · exact Nat.one_pos
    · exact Nat.succ_pos _

/-- A test that holds where another does finds the same line exactly when it holds of no earlier
one; the last line of all is found by both. -/
theorem upTo_eq_iff {p q : Text → Bool} (hpq : ∀ l, q l = true → p l = true) (ls : List Text) :
    upTo p ls = upTo q ls ↔ ∀ l ∈ (ls.take (upTo q ls)).dropLast, p l = false := by
  induction ls with
  | nil => simp [upTo]
  | cons l ls ih =>
    cases hq : q l with
    | true => simp [upTo, hq, hpq l hq]
    | false =>
      rw [upTo_cons_of_not hq, List.take_succ_cons]
      by_cases hls : ls = []
      · subst hls
        simp [upTo]
      · have hpos : 0 < upTo q ls := upTo_pos hls
        have hne : ls.take (upTo q ls) ≠ [] := by
          rw [ne_eq, List.take_eq_nil_iff, not_or]
          exact ⟨Nat.ne_of_gt hpos, hls⟩
        rw [List.dropLast_cons_of_ne_nil hne, List.forall_mem_cons, ← ih]
        cases hp : p l with
        | true =>
          rw [upTo, hp, if_pos rfl]
          constructor
          · intro hone
            omega
          · rintro ⟨hfalse, -⟩
            cases hfalse
        | false =>
          rw [upTo_cons_of_not hp]
          simp

theorem openingRun_eq_some {line : Text} {marker : Char} {run : ℕ}
    (h : openingRun line = some (marker, run)) :
    (marker = '`' ∨ marker = '~') ∧ run = runLength marker line ∧ 3 ≤ run ∧
      fenceMarker line = some marker := by
  unfold openingRun at h
  unfold fenceMarker
  by_cases hback : 3 ≤ runLength '`' line
  · simp only [List.map_cons, List.find?_cons, hback, decide_true] at h ⊢
    obtain ⟨rfl, rfl⟩ := Prod.mk.inj (Option.some.inj h)
    exact ⟨.inl rfl, rfl, hback, rfl⟩
  · by_cases htilde : 3 ≤ runLength '~' line
    · simp only [List.map_cons, List.find?_cons, hback, htilde, decide_true, decide_false] at h ⊢
      obtain ⟨rfl, rfl⟩ := Prod.mk.inj (Option.some.inj h)
      exact ⟨.inr rfl, rfl, htilde, rfl⟩
    · simp only [List.map_cons, List.find?_cons, hback, htilde, decide_false] at h
      cases h

theorem trimStart_of_run {line : Text} {marker : Char} (hmarker : isWhitespace marker = false)
    (h : 0 < runLength marker line) : trimStart line = line := by
  cases line with
  | nil => rfl
  | cons c line =>
    unfold runLength at h
    rw [List.takeWhile_cons] at h
    split at h
    · rename_i hc
      rw [decide_eq_true_eq] at hc
      rw [trimStart, List.dropWhile_cons, hc, hmarker]
      rfl
    · cases h

theorem isWhitespace_marker {marker : Char} (h : marker = '`' ∨ marker = '~') :
    isWhitespace marker = false := by
  rcases h with rfl | rfl
  · decide
  · decide

/-- A line that closes a block ends a fence. -/
theorem isClosingFence_of_closesRun {marker : Char} {run : ℕ}
    (hmarker : isWhitespace marker = false) (hrun : 3 ≤ run) {line : Text}
    (h : closesRun marker run line = true) : isClosingFence line marker = true := by
  rw [closesRun, Bool.and_eq_true, decide_eq_true_eq] at h
  obtain ⟨hlen, hrest⟩ := h
  have htrim : trimStart line = line := trimStart_of_run hmarker (by omega)
  have hsplit : line = line.takeWhile (· = marker) ++ line.drop (runLength marker line) := by
    have htake := List.prefix_iff_eq_take.mp (List.takeWhile_prefix (· = marker) (l := line))
    rw [htake, runLength, List.take_append_drop]
  rw [isClosingFence, htrim, Bool.and_eq_true, decide_eq_true_eq]
  refine ⟨by omega, ?_⟩
  rw [hsplit, List.all_append, Bool.and_eq_true]
  constructor
  · rw [List.all_eq_true]
    intro c hc
    have hmem := List.mem_takeWhile_imp hc
    simp only [decide_eq_true_eq] at hmem
    simp [hmem]
  · rw [List.all_eq_true] at hrest ⊢
    intro c hc
    have hblank := hrest c hc
    rw [Bool.or_eq_true, decide_eq_true_eq, decide_eq_true_eq] at hblank
    rcases hblank with rfl | rfl
    · simp only [Bool.or_eq_true]
      exact .inr (by decide)
    · simp only [Bool.or_eq_true]
      exact .inr (by decide)

/-! ## Units are parts -/

/-- A part that is not a blank line outside blocks. -/
def Part.isContent : Part → Bool
  | .block .. => true
  | .line l => !isBlank l

def Part.kind : Part → UnitKind
  | .block .. => .fence
  | .line l => if MarkdownCompact.isHeading l then .heading else .prose

/-- A unit that covers the lines of a part. -/
structure Covers (lines : List Text) (unit : MarkdownUnit) (part : Part) : Prop where
  lines : unit.lines lines = part.lines
  kind : unit.kind = part.kind

theorem trimStart_eq_nil_iff (line : Text) : trimStart line = [] ↔ isBlank line = true := by
  rw [trimStart, isBlank, List.dropWhile_eq_nil_iff, List.all_eq_true]

theorem lines_of_append (front ls : List Text) (n : ℕ) (kind : UnitKind) :
    MarkdownUnit.lines (front ++ ls) ⟨front.length, front.length + n, kind⟩ = ls.take n := by
  rw [MarkdownUnit.lines, List.take_length_add_append, List.drop_left]

/-- From any position of the document on, the units are its parts exactly when all of these are
plain. -/
theorem parseUnits_iff (front rest : List Text) :
    List.Forall₂ (Covers (front ++ rest)) (parseUnits front.length rest)
      ((parts rest).filter Part.isContent) ↔ ∀ part ∈ parts rest, part.Plain := by
  induction rest using parts.induct generalizing front with
  | case1 =>
    rw [parseUnits, parts]
    simp
  | case2 l rest marker run hopening body ih =>
    obtain ⟨hmarker, hrun, hthree, hfence⟩ := openingRun_eq_some hopening
    have hwhite := isWhitespace_marker hmarker
    have htrim : trimStart l = l := trimStart_of_run hwhite (by omega)
    have hne : trimStart l ≠ [] := by
      rw [htrim]
      rintro rfl
      rw [hrun] at hthree
      cases hthree
    have hplain : upTo (fun line => isClosingFence line marker) rest = body ↔
        (Part.block marker run l (rest.take body)).Plain :=
      upTo_eq_iff (fun _ => isClosingFence_of_closesRun hwhite hthree) rest
    rw [parts, hopening, parseUnits, if_neg hne, htrim, hfence]
    dsimp only
    rw [List.filter_cons_of_pos rfl, List.forall₂_cons, List.forall_mem_cons, ← hplain]
    have hunit (n : ℕ) : MarkdownUnit.lines (front ++ l :: rest)
        ⟨front.length, front.length + 1 + n, .fence⟩ = l :: rest.take n := by
      rw [Nat.add_assoc, lines_of_append, Nat.add_comm 1 n, List.take_succ_cons]
    by_cases hend : upTo (fun line => isClosingFence line marker) rest = body
    · have hbody : (l :: rest.take body).length = 1 + body := by
        have hle : body ≤ rest.length := upTo_le _ rest
        rw [List.length_cons, List.length_take, Nat.min_eq_left hle, Nat.add_comm]
      have htail := ih (front ++ (l :: rest.take body))
      rw [List.length_append, hbody, ← Nat.add_assoc, List.append_assoc, List.cons_append,
        List.take_append_drop] at htail
      rw [hend, and_iff_right ⟨hunit body, rfl⟩, and_iff_right rfl]
      exact htail
    · have hcut : ¬ Covers (front ++ l :: rest) ⟨front.length,
          front.length + 1 + upTo (fun line => isClosingFence line marker) rest, .fence⟩
          (.block marker run l (rest.take body)) := by
        intro hcovers
        have hlines := (hunit _).symm.trans hcovers.lines
        have hlen := congrArg List.length (List.tail_eq_of_cons_eq hlines)
        rw [List.length_take, List.length_take, Nat.min_eq_left (upTo_le _ rest),
          Nat.min_eq_left (upTo_le _ rest)] at hlen
        exact hend hlen
      exact iff_of_false (fun h => hcut h.1) fun h => hend h.1
  | case3 l rest hopening ih =>
    have htail := ih (front ++ [l])
    rw [List.length_append, List.length_singleton, List.append_assoc, List.singleton_append] at htail
    have hunit (kind : UnitKind) : MarkdownUnit.lines (front ++ l :: rest)
        ⟨front.length, front.length + 1, kind⟩ = [l] := lines_of_append front (l :: rest) 1 kind
    have hplain : (Part.line l).Plain ↔ fenceMarker (trimStart l) = none := Iff.rfl
    rw [parts, hopening, parseUnits]
    dsimp only
    rw [List.forall_mem_cons, ← htail, hplain]
    by_cases hblank : trimStart l = []
    · have hcontent : Part.isContent (.line l) = false := by
        rw [Part.isContent, (trimStart_eq_nil_iff l).mp hblank]
        rfl
      have hnone : fenceMarker (trimStart l) = none := by
        rw [hblank]
        rfl
      rw [if_pos hblank, List.filter_cons_of_neg (by rw [hcontent]; exact Bool.false_ne_true),
        and_iff_right hnone]
    · have hcontent : Part.isContent (.line l) = true := by
        rw [trimStart_eq_nil_iff, Bool.not_eq_true] at hblank
        rw [Part.isContent, hblank]
        rfl
      rw [if_neg hblank, List.filter_cons_of_pos hcontent]
      cases hfence : fenceMarker (trimStart l) with
      | none =>
        dsimp only
        rw [List.forall₂_cons, and_iff_right ⟨hunit _, rfl⟩, and_iff_right rfl]
      | some marker =>
        dsimp only
        rw [List.forall₂_cons]
        refine iff_of_false ?_ fun h => by cases h.1
        rintro ⟨hcovers, -⟩
        have hkind : UnitKind.fence = Part.kind (.line l) := hcovers.kind
        rw [Part.kind] at hkind
        split at hkind
        · cases hkind
        · cases hkind

/-- The units of a document are its parts exactly when all of them are plain. -/
theorem units_cover_iff (doc : List Text) :
    List.Forall₂ (Covers doc) (parseUnits 0 doc) ((parts doc).filter Part.isContent) ↔
      ∀ part ∈ parts doc, part.Plain := parseUnits_iff [] doc

/-! ## Headings are kept -/

section

variable {α : Type} [LinearOrder α] {score : MarkdownUnit → α} {lines : List Text}

theorem subset_takeScored (target taken : ℕ) (keep : Finset ℕ) (scored : List (MarkdownUnit × ℕ)) :
    keep ⊆ takeScored lines target taken keep scored := by
  induction scored generalizing taken keep with
  | nil => exact Finset.Subset.refl keep
  | cons unit scored ih =>
    rw [takeScored]
    split
    · exact Finset.Subset.refl keep
    · exact (Finset.subset_insert unit.2 keep).trans (ih _ _)

theorem subset_selectSectionBody (keep : Finset ℕ) (body : List (MarkdownUnit × ℕ)) :
    keep ⊆ selectSectionBody score lines keep body := by
  cases body with
  | nil => exact Finset.Subset.refl keep
  | cons first body =>
    exact (Finset.subset_insert first.2 keep).trans (subset_takeScored _ _ _ _)

theorem subset_selectUnit (state : Finset ℕ × List (MarkdownUnit × ℕ)) (unit : MarkdownUnit × ℕ) :
    state.1 ⊆ (selectUnit score lines state unit).1 := by
  unfold selectUnit
  split
  · exact (subset_selectSectionBody state.1 state.2).trans (Finset.subset_insert _ _)
  · exact Finset.Subset.refl _

theorem mem_foldl_selectUnit {units : List (MarkdownUnit × ℕ)} {unit : MarkdownUnit × ℕ}
    (hkind : unit.1.kind = .heading) (hmem : unit ∈ units)
    (state : Finset ℕ × List (MarkdownUnit × ℕ)) :
    unit.2 ∈ (units.foldl (selectUnit score lines) state).1 := by
  have hkeeps (units : List (MarkdownUnit × ℕ)) (state : Finset ℕ × List (MarkdownUnit × ℕ)) :
      state.1 ⊆ (units.foldl (selectUnit score lines) state).1 := by
    induction units generalizing state with
    | nil => exact Finset.Subset.refl _
    | cons unit units ih => exact (subset_selectUnit state unit).trans (ih _)
  induction units generalizing state with
  | nil => cases hmem
  | cons first units ih =>
    rw [List.foldl_cons]
    rcases List.mem_cons.mp hmem with rfl | hrest
    · apply hkeeps
      rw [selectUnit, if_pos hkind]
      exact Finset.mem_insert_self _ _
    · exact ih hrest _

/-- Every heading is selected. -/
theorem mem_selectUnits {units : List MarkdownUnit} {unit : MarkdownUnit × ℕ}
    (hkind : unit.1.kind = .heading) (hmem : unit ∈ units.zipIdx) :
    unit.2 ∈ selectUnits score lines units := by
  unfold selectUnits
  exact subset_selectSectionBody _ _ (mem_foldl_selectUnit hkind hmem _)

end

/-! ## What is emitted -/

def flushed (omitted : ℕ) : List Piece := if omitted = 0 then [] else [.omitted omitted]

/-- The pieces of content parts, numbered from a position on, after lines that were left out. -/
def piecesOf (keep : Finset ℕ) : ℕ → ℕ → List Part → List Piece
  | omitted, _, [] => flushed omitted
  | omitted, uidx, part :: rest =>
    if uidx ∈ keep then flushed omitted ++ .kept part :: piecesOf keep 0 (uidx + 1) rest
    else piecesOf keep (omitted + nonBlank part.lines) (uidx + 1) rest

theorem flushOmission_eq (out : Text) (omitted : ℕ) :
    flushOmission out omitted = out ++ (flushed omitted).flatMap Piece.print := by
  unfold flushOmission flushed
  split
  · simp
  · simp [Piece.print]

theorem emit_eq {lines : List Text} (keep : Finset ℕ) {units : List MarkdownUnit} {ps : List Part}
    (h : List.Forall₂ (Covers lines) units ps) (uidx : ℕ) (out : Text) (omitted : ℕ) :
    flushOmission ((units.zipIdx uidx).foldl (emitUnit lines keep) (out, omitted)).1
        ((units.zipIdx uidx).foldl (emitUnit lines keep) (out, omitted)).2 =
      out ++ (piecesOf keep omitted uidx ps).flatMap Piece.print := by
  induction h generalizing uidx out omitted with
  | nil => exact flushOmission_eq out omitted
  | @cons unit part units ps hcovers _ ih =>
    rw [List.zipIdx_cons, List.foldl_cons, piecesOf]
    by_cases hkeep : uidx ∈ keep
    · have hstep : emitUnit lines keep (out, omitted) (unit, uidx) =
          (flushOmission out omitted ++ printLines (unit.lines lines), 0) := if_pos hkeep
      rw [hstep, if_pos hkeep, ih, flushOmission_eq, hcovers.lines]
      simp [Piece.print]
    · have hstep : emitUnit lines keep (out, omitted) (unit, uidx) =
          (out, omitted + unit.contentLines lines) := if_neg hkeep
      rw [hstep, if_neg hkeep, ih, MarkdownUnit.contentLines, hcovers.lines]

@[simp] theorem filterMap_flushed (n : ℕ) : (flushed n).filterMap Piece.part? = [] := by
  unfold flushed
  split <;> rfl

@[simp] theorem count_flushed (n : ℕ) : ((flushed n).map Piece.count).sum = n := by
  unfold flushed
  split
  · rename_i hzero
    rw [hzero]
    rfl
  · simp [Piece.count]

theorem parts_piecesOf (keep : Finset ℕ) (omitted uidx : ℕ) (ps : List Part) :
    ((piecesOf keep omitted uidx ps).filterMap Piece.part?).Sublist ps := by
  induction ps generalizing omitted uidx with
  | nil => rw [piecesOf, filterMap_flushed]
  | cons part ps ih =>
    rw [piecesOf]
    split
    · rw [List.filterMap_append, filterMap_flushed, List.nil_append]
      exact (ih 0 (uidx + 1)).cons_cons part
    · exact (ih _ _).cons part

theorem nonBlank_append (ls ls' : List Text) : nonBlank (ls ++ ls') = nonBlank ls + nonBlank ls' :=
  List.countP_append

theorem count_piecesOf (keep : Finset ℕ) (omitted uidx : ℕ) (ps : List Part) :
    ((piecesOf keep omitted uidx ps).map Piece.count).sum +
        nonBlank (((piecesOf keep omitted uidx ps).filterMap Piece.part?).flatMap Part.lines) =
      omitted + nonBlank (ps.flatMap Part.lines) := by
  induction ps generalizing omitted uidx with
  | nil =>
    rw [piecesOf, filterMap_flushed, count_flushed]
  | cons part ps ih =>
    rw [piecesOf, List.flatMap_cons, nonBlank_append]
    split
    · have htail := ih 0 (uidx + 1)
      have hkept : (flushed omitted ++ Piece.kept part :: piecesOf keep 0 (uidx + 1) ps).filterMap
          Piece.part? = part :: (piecesOf keep 0 (uidx + 1) ps).filterMap Piece.part? := by
        rw [List.filterMap_append, filterMap_flushed]
        rfl
      rw [hkept, List.map_append, List.sum_append, count_flushed, List.map_cons, List.sum_cons,
        List.flatMap_cons, nonBlank_append, Piece.count]
      omega
    · rw [ih]
      omega

theorem headings_piecesOf {keep : Finset ℕ} {ps : List Part} {uidx : ℕ}
    (h : ∀ part ∈ ps.zipIdx uidx, part.1.isHeading = true → part.2 ∈ keep) (omitted : ℕ) :
    ((piecesOf keep omitted uidx ps).filterMap Piece.part?).filter Part.isHeading =
      ps.filter Part.isHeading := by
  induction ps generalizing omitted uidx with
  | nil => rw [piecesOf, filterMap_flushed]
  | cons part ps ih =>
    rw [List.zipIdx_cons] at h
    have hrest : ∀ part ∈ ps.zipIdx (uidx + 1), part.1.isHeading = true → part.2 ∈ keep :=
      fun part hpart => h part (List.mem_cons_of_mem _ hpart)
    have htail := ih hrest
    rw [piecesOf]
    split
    · rw [List.filterMap_append, filterMap_flushed, List.nil_append]
      simp only [List.filterMap_cons, Piece.part?, List.filter_cons, htail]
    · rename_i hleft
      have hbody : ¬ part.isHeading = true := fun hheading =>
        hleft (h (part, uidx) List.mem_cons_self hheading)
      rw [htail, List.filter_cons_of_neg hbody]

/-! ## The compacted document -/

theorem flatMap_parts (doc : List Text) : (parts doc).flatMap Part.lines = doc := by
  induction doc using parts.induct with
  | case1 =>
    rw [parts]
    rfl
  | case2 l rest marker run hopening body ih =>
    rw [parts, hopening]
    dsimp only
    rw [List.flatMap_cons, ih, Part.lines, List.cons_append, List.take_append_drop]
  | case3 l rest hopening ih =>
    rw [parts, hopening]
    dsimp only
    rw [List.flatMap_cons, ih]
    rfl

theorem nonBlank_content (ps : List Part) :
    nonBlank ((ps.filter Part.isContent).flatMap Part.lines) = nonBlank (ps.flatMap Part.lines) := by
  induction ps with
  | nil => rfl
  | cons part ps ih =>
    rw [List.flatMap_cons, nonBlank_append, ← ih]
    cases hcontent : part.isContent with
    | true =>
      rw [List.filter_cons_of_pos hcontent, List.flatMap_cons, nonBlank_append]
    | false =>
      have hzero : nonBlank part.lines = 0 := by
        cases part with
        | block => cases hcontent
        | line l =>
          rw [Part.isContent, Bool.not_eq_false'] at hcontent
          simp [nonBlank, Part.lines, hcontent]
      rw [List.filter_cons_of_neg (by rw [hcontent]; exact Bool.false_ne_true), hzero, Nat.zero_add]

theorem heading_content {part : Part} (h : part.isHeading = true) : part.isContent = true := by
  cases part with
  | block => cases h
  | line l =>
    rw [Part.isContent, Bool.not_eq_true', ← Bool.not_eq_true, ← trimStart_eq_nil_iff]
    intro hblank
    simp [Part.isHeading, MarkdownCompact.isHeading, hblank, runLength] at h

theorem exists_unit {lines : List Text} {units : List MarkdownUnit} {ps : List Part}
    (h : List.Forall₂ (Covers lines) units ps) (uidx : ℕ) {part : Part × ℕ}
    (hpart : part ∈ ps.zipIdx uidx) :
    ∃ unit, (unit, part.2) ∈ units.zipIdx uidx ∧ Covers lines unit part.1 := by
  induction h generalizing uidx with
  | nil => cases hpart
  | @cons unit first units ps hcovers _ ih =>
    rw [List.zipIdx_cons] at hpart
    rw [List.zipIdx_cons]
    rcases List.mem_cons.mp hpart with rfl | hrest
    · exact ⟨unit, List.mem_cons_self, hcovers⟩
    · obtain ⟨unit', hmem, hcovers'⟩ := ih (uidx + 1) hrest
      exact ⟨unit', List.mem_cons_of_mem _ hmem, hcovers'⟩

theorem kind_of_heading {part : Part} (h : part.isHeading = true) : part.kind = .heading := by
  cases part with
  | block => cases h
  | line l => exact if_pos h

/-- Pieces of the content parts in which every heading is kept make a compacted document. -/
theorem compacted_piecesOf {doc : List Text} {keep : Finset ℕ}
    (h : ∀ part ∈ ((parts doc).filter Part.isContent).zipIdx, part.1.isHeading = true →
      part.2 ∈ keep) :
    Compacted doc (piecesOf keep 0 0 ((parts doc).filter Part.isContent)) where
  order := (parts_piecesOf keep 0 0 _).trans List.filter_sublist
  headings := by
    rw [headings_piecesOf h, List.filter_filter]
    apply List.filter_congr
    intro part _
    cases hheading : part.isHeading with
    | false => rfl
    | true => rw [heading_content hheading, Bool.and_true]
  counts := by rw [count_piecesOf, Nat.zero_add, nonBlank_content, flatMap_parts]

/-- A heading, and a block of four backticks that holds a line of three. -/
def nestedDoc : Text :=
  "# T\n````\n```\n".toList ++ (List.replicate 30 "aaaa\n".toList).flatten ++ "````\n".toList

def nestedOut : Text :=
  "# T\n````\n```\n".toList ++ (List.replicate 10 "aaaa\n".toList).flatten ++ omissionMarker 21

def nestedBlock : Part := .block '`' 4 "````".toList ((lineChars nestedDoc).drop 2)

theorem parts_nestedDoc : parts (lineChars nestedDoc) = [.line "# T".toList, nestedBlock] := by
  decide +kernel

theorem omissionMarker_eq (n : ℕ) : ∃ rest, omissionMarker n = '.' :: rest := by
  rw [omissionMarker, String.toList_append, String.toList_append]
  exact ⟨_, rfl⟩

/-- What is printed of pieces without parts starts with a dot. -/
theorem head_print_omitted {pieces : List Piece} (h : pieces.filterMap Piece.part? = []) :
    pieces.flatMap Piece.print = [] ∨ (pieces.flatMap Piece.print).head? = some '.' := by
  cases pieces with
  | nil => exact .inl rfl
  | cons piece pieces =>
    cases piece with
    | kept part => cases h
    | omitted n =>
      obtain ⟨rest, hrest⟩ := omissionMarker_eq n
      rw [List.flatMap_cons, Piece.print, hrest]
      exact .inr rfl

theorem length_print_le {pieces : List Piece} {part : Part}
    (h : part ∈ pieces.filterMap Piece.part?) :
    (printLines part.lines).length ≤ (pieces.flatMap Piece.print).length := by
  obtain ⟨piece, hpiece, hpart⟩ := List.mem_filterMap.mp h
  cases piece with
  | omitted n => cases hpart
  | kept part' =>
    obtain rfl := Option.some.inj hpart
    obtain ⟨front, back, rfl⟩ := List.append_of_mem hpiece
    rw [List.flatMap_append, List.flatMap_cons, List.length_append, List.length_append, Piece.print]
    omega

def plainDoc : Text :=
  "# T\n```\na\n```\n".toList ++ (List.replicate 40 "aaaa\n".toList).flatten

end LeanCtx.MarkdownCompact
