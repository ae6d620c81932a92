import LeanCtx.TextFile
import Mathlib.Data.List.Infix

/-!
# Lines with their own ends

A text is its lines, each with the end it has in the text: a newline, a carriage
return with a newline, or nothing for a last line without a newline.
-/

namespace LeanCtx.LineEnds

abbrev Text := List Char

def hasCrlf (content : Text) : Bool := content.tails.any ['\r', '\n'].isPrefixOf

def endsInNewline (content : Text) : Bool := content.getLast? == some '\n'

/-- A line of a file and what ends it there: nothing for a last line without a newline. -/
structure SourceLine where
  text : Text
  ending : Text

def SourceLine.bytes (line : SourceLine) : Text := line.text ++ line.ending

def sourceLine (piece : Text) : SourceLine :=
  if piece.getLast? = some '\r' then ⟨piece.dropLast, ['\r', '\n']⟩ else ⟨piece, ['\n']⟩

def sourceLines (content : Text) : List SourceLine :=
  (content.splitOn '\n').dropLast.map sourceLine ++
    ((content.splitOn '\n').getLast?.toList.filter (· ≠ [])).map fun piece => ⟨piece, []⟩

theorem map_text_sourceLines (content : Text) :
    (sourceLines content).map SourceLine.text = TextFile.lineChars content := by
  have htext : ∀ piece, (sourceLine piece).text = TextFile.stripReturn piece := by
    intro piece
    rw [sourceLine, TextFile.stripReturn]
    split_ifs <;> rfl
  rw [sourceLines, TextFile.lineChars, List.map_append, List.map_map, List.map_map]
  congr 1
  · exact List.map_congr_left fun piece _ => htext piece
  · exact List.map_id' _

theorem sourceLine_bytes (piece : Text) :
    (sourceLine piece).text ++ (sourceLine piece).ending = piece ++ ['\n'] := by
  rw [sourceLine]
  split_ifs with h
  · have hne : piece ≠ [] := by
      rintro rfl
      cases h
    rw [List.getLast?_eq_some_getLast hne, Option.some.injEq] at h
    calc piece.dropLast ++ ['\r', '\n']
      _ = (piece.dropLast ++ [piece.getLast hne]) ++ ['\n'] := by
        rw [h, List.append_assoc]
        rfl
      _ = piece ++ ['\n'] := by rw [List.dropLast_append_getLast]
  · rfl

theorem intercalate_newline {pieces : List Text} (h : pieces ≠ []) :
    List.intercalate ['\n'] pieces =
      pieces.dropLast.flatMap (· ++ ['\n']) ++ pieces.getLast h := by
  induction pieces with
  | nil => exact absurd rfl h
  | cons p ps ih =>
    cases ps with
    | nil => simp [List.intercalate]
    | cons q qs =>
      rw [List.intercalate_cons_cons, ih (List.cons_ne_nil q qs), List.dropLast_cons_cons,
        List.flatMap_cons, List.getLast_cons_cons]
      simp only [List.append_assoc]

/-- The pieces of a file between newlines. -/
theorem splitOn_newline (content : Text) : ∃ front last, content.splitOn '\n' = front ++ [last] ∧
    content = front.flatMap (· ++ ['\n']) ++ last ∧ '\n' ∉ last := by
  have hne : content.splitOn '\n' ≠ [] := List.splitOn_ne_nil _ _
  refine ⟨(content.splitOn '\n').dropLast, (content.splitOn '\n').getLast hne, ?_, ?_, ?_⟩
  · rw [List.dropLast_append_getLast]
  · rw [← intercalate_newline hne, List.intercalate_splitOn]
  · exact TextFile.not_mem_of_mem_splitOn (List.getLast_mem hne)

/-- A file is its lines, each with its own end. -/
theorem sourceLines_bytes (content : Text) :
    (sourceLines content).flatMap (fun line => line.text ++ line.ending) = content := by
  obtain ⟨front, last, hsplit, hcontent, -⟩ := splitOn_newline content
  have hfront : (front.map sourceLine).flatMap (fun line => line.text ++ line.ending) =
      front.flatMap (· ++ ['\n']) := by
    rw [List.flatMap_map]
    exact List.flatMap_congr fun piece _ => sourceLine_bytes piece
  rw [sourceLines, hsplit, List.dropLast_concat, List.getLast?_concat, List.flatMap_append, hfront]
  by_cases hlast : last = []
  · simp [hcontent, hlast]
  · simp [hcontent, hlast]

theorem hasCrlf_iff {content : Text} : hasCrlf content = true ↔ ['\r', '\n'] <:+: content := by
  rw [hasCrlf, List.any_eq_true]
  constructor
  · rintro ⟨tail, htail, hprefix⟩
    exact (List.isPrefixOf_iff_prefix.mp hprefix).isInfix.trans
      ((List.mem_tails _ _).mp htail).isInfix
  · intro h
    obtain ⟨tail, hprefix, hsuffix⟩ := List.infix_iff_prefix_suffix.mp h
    exact ⟨tail, (List.mem_tails _ _).mpr hsuffix, List.isPrefixOf_iff_prefix.mpr hprefix⟩

/-- How a line can end. -/
theorem ending_cases {content : Text} {line : SourceLine} (h : line ∈ sourceLines content) :
    line.ending = ['\n'] ∨ (line.ending = ['\r', '\n'] ∧ hasCrlf content = true) ∨
      line.ending = [] := by
  by_cases hcrlf : line.ending = ['\r', '\n']
  · refine .inr (.inl ⟨hcrlf, hasCrlf_iff.mpr ?_⟩)
    obtain ⟨before, after, hsplit⟩ := List.append_of_mem h
    rw [← sourceLines_bytes content, hsplit, List.flatMap_append, List.flatMap_cons, hcrlf]
    refine ⟨before.flatMap (fun line => line.text ++ line.ending) ++ line.text,
      after.flatMap (fun line => line.text ++ line.ending), ?_⟩
    simp only [List.append_assoc]
  · rw [sourceLines, List.mem_append, List.mem_map, List.mem_map] at h
    rcases h with ⟨piece, -, rfl⟩ | ⟨piece, -, rfl⟩
    · rw [sourceLine] at hcrlf ⊢
      split_ifs at hcrlf ⊢
      · exact absurd rfl hcrlf
      · exact .inl rfl
    · exact .inr (.inr rfl)

/-- Only a last line can be without an end. -/
theorem sourceLines_cases (content : Text) : ∃ lines : List SourceLine,
    (∀ line ∈ lines, line.ending ≠ []) ∧
      (sourceLines content = lines ∧ (endsInNewline content = true ∨ lines = []) ∨
        endsInNewline content = false ∧ ∃ last, sourceLines content = lines ++ [⟨last, []⟩]) := by
  obtain ⟨front, last, hsplit, hcontent, hlast⟩ := splitOn_newline content
  refine ⟨front.map sourceLine, fun line hline => ?_, ?_⟩
  · obtain ⟨piece, -, rfl⟩ := List.mem_map.mp hline
    rw [sourceLine]
    split_ifs <;> simp
  · by_cases hnil : last = []
    · left
      constructor
      · simp [sourceLines, hsplit, hnil]
      · rcases List.eq_nil_or_concat front with rfl | ⟨front', piece, rfl⟩
        · exact .inr rfl
        · left
          rw [endsInNewline, hcontent, hnil]
          simp
    · right
      constructor
      · rw [endsInNewline, hcontent, List.getLast?_append_of_ne_nil _ hnil]
        simp only [beq_eq_false_iff_ne, ne_eq]
        exact fun h => hlast (List.mem_of_getLast? h)
      · exact ⟨last, by simp [sourceLines, hsplit, hnil]⟩

theorem bytes_ne_nil {content : Text} {line : SourceLine} (h : line ∈ sourceLines content) :
    line.bytes ≠ [] := by
  rcases List.mem_append.mp h with h | h
  · obtain ⟨piece, -, rfl⟩ := List.mem_map.mp h
    rw [SourceLine.bytes, sourceLine_bytes]
    simp
  · obtain ⟨piece, hpiece, rfl⟩ := List.mem_map.mp h
    rw [SourceLine.bytes, List.append_nil]
    simpa using (List.mem_filter.mp hpiece).2

end LeanCtx.LineEnds
