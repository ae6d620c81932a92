import LeanCtx.AnchorEdits
import LeanCtx.LineEnds
import LeanCtx.SpliceFrame

/-!
# Files under anchored edits

A file is split into lines without their ends, edited, and joined again. One
separator is kept for the whole file, with the presence of a final newline.
-/

namespace LeanCtx.AnchorEdits

open LineEnds (SourceLine sourceLines hasCrlf)

/-! ## Splitting and joining -/

/-- The lines, the separator and whether a newline ends the file. -/
def splitLines (content : Text) : List Text × Text × Bool :=
  let sep := if hasCrlf content then ['\r', '\n'] else ['\n']
  (TextFile.lineChars content, sep, LineEnds.endsInNewline content)

def joinLines (lines : List Text) (sep : Text) (trailing : Bool) : Text :=
  List.intercalate sep lines ++ if trailing && !lines.isEmpty then sep else []

/-! ## What an edited file should be -/

/-- A line of the edited file; a line that no edit touches has its own end. -/
structure OutLine where
  text : Text
  own : Option Text

def OutLine.new (text : Text) : OutLine := ⟨text, none⟩

def OutLine.kept (line : OutLine) : Bool := line.own.isSome

/-- A line without an end of its own is ended by the separator. -/
def OutLine.ending (sep : Text) (line : OutLine) : Text :=
  match line.own with
  | some (first :: rest) => first :: rest
  | _ => sep

/-- Every line with its end; the last one has an end when the file had one. -/
def render (sep : Text) (trailing : Bool) : List OutLine → Text
  | [] => []
  | [line] => line.text ++ if trailing then line.ending sep else []
  | line :: next :: rest => line.text ++ line.ending sep ++ render sep trailing (next :: rest)

def touched (es : List (Splice Text)) (i : ℕ) : Bool := es.any (Splice.covers i)

def taggedLines (content : Text) (es : List (Splice Text)) : List OutLine :=
  (sourceLines content).zipIdx.map fun line =>
    { text := line.1.text, own := if touched es line.2 then none else some line.1.ending }

/-- The edited file: the lines, with what became of the lines that no edit touches. -/
def editedLines (content : Text) (edits : List ResolvedEdit) : List OutLine :=
  let es := edits.map ResolvedEdit.toSplice
  Splice.applyAll (taggedLines content es) (es.map (Splice.map OutLine.new))

/-- The lines that no edit touches are kept, once and in order, each with its own end; the file
ends in a newline when it did before. -/
def KeepsUntouched (content : Text) (edits : List ResolvedEdit) : Prop :=
  let (lines, sep, trailing) := splitLines content
  let es := edits.map ResolvedEdit.toSplice
  (editedLines content edits).map OutLine.text = applyEdits lines edits ∧
    (editedLines content edits).filter OutLine.kept =
      (taggedLines content es).filter OutLine.kept ∧
    joinLines (applyEdits lines edits) sep trailing =
      render sep trailing (editedLines content edits)

/-- The lines whose end is read before the file is joined. -/
def ended (trailing : Bool) (out : List OutLine) : List OutLine :=
  if trailing then out else out.dropLast

theorem joinLines_eq_render_iff {sep : Text} {trailing : Bool} {out : List OutLine}
    (hfit : ∀ line ∈ out, line.ending sep = sep ∨
      line.ending sep = ['\n'] ∧ sep = ['\r', '\n']) :
    joinLines (out.map OutLine.text) sep trailing = render sep trailing out ↔
      ∀ line ∈ ended trailing out, line.ending sep = sep := by
  induction out with
  | nil => cases trailing <;> simp [joinLines, render, ended, List.intercalate]
  | cons line out ih =>
    have hhead := hfit line (by simp)
    cases out with
    | nil =>
      cases trailing
      · simp [joinLines, render, ended, List.intercalate]
      · simp [joinLines, render, ended, List.intercalate, eq_comm]
    | cons next rest =>
      have hrest := ih fun l hl => hfit l (List.mem_cons_of_mem _ hl)
      have hjoin : joinLines ((line :: next :: rest).map OutLine.text) sep trailing =
          line.text ++ (sep ++ joinLines ((next :: rest).map OutLine.text) sep trailing) := by
        simp [joinLines, List.intercalate_cons_cons]
      have hended : ended trailing (line :: next :: rest) = line :: ended trailing (next :: rest) := by
        cases trailing <;> rfl
      rw [hjoin, render, List.append_assoc, List.append_cancel_left_eq, hended,
        List.forall_mem_cons, ← hrest]
      rcases hhead with heq | ⟨heq, hsep⟩
      · rw [heq, List.append_cancel_left_eq]
        simp
      · rw [heq, hsep]
        simp

/-! ## When it is -/

theorem getElem?_taggedLines {content : Text} {es : List (Splice Text)} {i : ℕ} {line : OutLine}
    (h : (taggedLines content es)[i]? = some line) : ∃ source, (sourceLines content)[i]? = some source ∧
      line = ⟨source.text, if touched es i then none else some source.ending⟩ := by
  rw [taggedLines, List.getElem?_map, List.getElem?_zipIdx, Nat.zero_add, Option.map_map,
    Option.map_eq_some_iff] at h
  obtain ⟨source, hsource, rfl⟩ := h
  exact ⟨source, hsource, rfl⟩

theorem getElem?_taggedLines_of_source {content : Text} {es : List (Splice Text)} {i : ℕ}
    {source : SourceLine} (h : (sourceLines content)[i]? = some source) :
    (taggedLines content es)[i]? =
      some ⟨source.text, if touched es i then none else some source.ending⟩ := by
  rw [taggedLines, List.getElem?_map, List.getElem?_zipIdx, h]
  simp

theorem length_taggedLines (content : Text) (es : List (Splice Text)) :
    (taggedLines content es).length = (sourceLines content).length := by
  simp [taggedLines]

theorem map_text_taggedLines (content : Text) (es : List (Splice Text)) :
    (taggedLines content es).map OutLine.text = (splitLines content).1 := by
  rw [splitLines, ← LineEnds.map_text_sourceLines, taggedLines, List.map_map]
  have hfun : OutLine.text ∘ (fun line : SourceLine × ℕ =>
      ({ text := line.1.text, own := if touched es line.2 then none else some line.1.ending } :
        OutLine)) = SourceLine.text ∘ Prod.fst := rfl
  rw [hfun, ← List.map_map, List.zipIdx_map_fst]

theorem covered_iff_touched {es : List (Splice Text)} {i : ℕ} :
    Splice.Covered es i ↔ touched es i = true := by
  rw [touched, List.any_eq_true]
  rfl

section Edited

variable {hashHex : Text → String} {content : Text} {ops : List AnchorOp}
  {edits : List ResolvedEdit}

theorem within_tagged (h : resolveOps hashHex (splitLines content).1 ops = .ok edits) :
    ((edits.map ResolvedEdit.toSplice).map (Splice.map OutLine.new)).Pairwise Splice.Apart ∧
      ∀ e ∈ (edits.map ResolvedEdit.toSplice).map (Splice.map OutLine.new),
        Splice.Within (taggedLines content (edits.map ResolvedEdit.toSplice)) e := by
  obtain ⟨hpair, hwithin⟩ := apart_of_resolveOps h
  refine ⟨(Splice.pairwise_apart_map _).mpr hpair, fun e' he' => ?_⟩
  obtain ⟨e, he, rfl⟩ := List.mem_map.mp he'
  have hin := hwithin e he
  rw [Splice.Within] at hin ⊢
  rwa [← List.length_map, map_text_taggedLines]

theorem map_text_editedLines (content : Text) (edits : List ResolvedEdit) :
    (editedLines content edits).map OutLine.text = applyEdits (splitLines content).1 edits := by
  have hid : ((edits.map ResolvedEdit.toSplice).map (Splice.map OutLine.new)).map
      (Splice.map OutLine.text) = edits.map ResolvedEdit.toSplice := by
    rw [List.map_map]
    refine List.map_id'' (fun e => ?_) _
    simp [Splice.map, OutLine.new, Function.comp_def]
  rw [editedLines, ← Splice.applyAll_map, hid, map_text_taggedLines, applyEdits]

theorem filter_editedLines (h : resolveOps hashHex (splitLines content).1 ops = .ok edits) :
    (editedLines content edits).filter OutLine.kept =
      (taggedLines content (edits.map ResolvedEdit.toSplice)).filter OutLine.kept := by
  obtain ⟨hpair, hwithin⟩ := within_tagged h
  apply Splice.filter_applyAll hpair hwithin
  · intro e he line hline
    obtain ⟨e, -, rfl⟩ := List.mem_map.mp he
    obtain ⟨text, -, rfl⟩ := List.mem_map.mp hline
    rfl
  · intro e he line hline
    obtain ⟨k, hk⟩ := List.mem_iff_getElem?.mp hline
    rw [List.getElem?_take] at hk
    split_ifs at hk with hlt
    · rw [List.getElem?_drop] at hk
      obtain ⟨source, -, rfl⟩ := getElem?_taggedLines hk
      have htouched : touched (edits.map ResolvedEdit.toSplice) (e.startIdx + k) = true := by
        rw [← covered_iff_touched, ← Splice.covered_map OutLine.new]
        exact ⟨e, he, Splice.covers_iff.mpr ⟨by omega, by omega⟩⟩
      simp [OutLine.kept, htouched]

/-- A kept line of the result is an untouched line of the file. -/
theorem source_of_kept (h : resolveOps hashHex (splitLines content).1 ops = .ok edits)
    {line : OutLine} (hline : line ∈ editedLines content edits) {own : Text}
    (hown : line.own = some own) : ∃ i source, (sourceLines content)[i]? = some source ∧
      source.ending = own ∧ touched (edits.map ResolvedEdit.toSplice) i = false ∧
      (taggedLines content (edits.map ResolvedEdit.toSplice))[i]? = some line := by
  have hkept : line ∈ (editedLines content edits).filter OutLine.kept :=
    List.mem_filter.mpr ⟨hline, by simp [OutLine.kept, hown]⟩
  rw [filter_editedLines h, List.mem_filter] at hkept
  obtain ⟨i, hi⟩ := List.mem_iff_getElem?.mp hkept.1
  obtain ⟨source, hsource, rfl⟩ := getElem?_taggedLines hi
  by_cases htouched : touched (edits.map ResolvedEdit.toSplice) i = true
  · simp [htouched] at hown
  · rw [Bool.not_eq_true] at htouched
    refine ⟨i, source, hsource, ?_, htouched, hi⟩
    simpa [htouched] using hown

/-- In a file with CRLF line ends no untouched line ends in a bare newline, unless it becomes the
last line of a file without a final newline. -/
def EndsAgree (content : Text) (edits : List ResolvedEdit) : Prop :=
  hasCrlf content = true → ∀ i line, (sourceLines content)[i]? = some line →
    line.ending = ['\n'] → touched (edits.map ResolvedEdit.toSplice) i = false →
    (splitLines content).2.2 = false ∧
      Splice.ClearedAfter (sourceLines content).length (edits.map ResolvedEdit.toSplice) i

theorem ended_iff_endsAgree (h : resolveOps hashHex (splitLines content).1 ops = .ok edits) :
    (∀ line ∈ ended (splitLines content).2.2 (editedLines content edits),
      line.ending (splitLines content).2.1 = (splitLines content).2.1) ↔ EndsAgree content edits := by
  obtain ⟨hpair, hwithin⟩ := within_tagged h
  -- An untouched line and what stands behind it in the edited file.
  have hplace : ∀ i source, (sourceLines content)[i]? = some source →
      touched (edits.map ResolvedEdit.toSplice) i = false → ∃ A B P Q, A.length = i ∧
        taggedLines content (edits.map ResolvedEdit.toSplice) =
          A ++ ⟨source.text, some source.ending⟩ :: B ∧
        editedLines content edits = P ++ ⟨source.text, some source.ending⟩ :: Q ∧
        (Q = [] ↔ Splice.ClearedAfter (sourceLines content).length
          (edits.map ResolvedEdit.toSplice) i) := by
    intro i source hsource htouched
    have hget := @getElem?_taggedLines_of_source _ (edits.map ResolvedEdit.toSplice) _ _ hsource
    rw [htouched, if_neg Bool.false_ne_true] at hget
    obtain ⟨hi, hget⟩ := List.getElem?_eq_some_iff.mp hget
    have hsplit := List.take_append_drop i (taggedLines content (edits.map ResolvedEdit.toSplice))
    rw [← List.cons_getElem_drop_succ (h := hi), hget] at hsplit
    have hlen : ((taggedLines content (edits.map ResolvedEdit.toSplice)).take i).length = i := by
      rw [List.length_take]
      omega
    rw [← hsplit] at hwithin
    have hkept : ¬ Splice.Covered ((edits.map ResolvedEdit.toSplice).map (Splice.map OutLine.new))
        ((taggedLines content (edits.map ResolvedEdit.toSplice)).take i).length := by
      rw [hlen, Splice.covered_map, covered_iff_touched, htouched]
      exact Bool.false_ne_true
    obtain ⟨P, Q, hout, hQ⟩ := Splice.applyAll_split hpair hwithin hkept
    rw [hsplit] at hout hQ
    rw [hlen, Splice.clearedAfter_map, length_taggedLines] at hQ
    exact ⟨_, _, P, Q, hlen, hsplit.symm, hout, hQ⟩
  constructor
  · intro hended hcrlf i source hsource hending htouched
    obtain ⟨A, B, P, Q, -, -, hout, hQ⟩ := hplace i source hsource htouched
    have hbad : ¬ OutLine.ending (splitLines content).2.1 ⟨source.text, some source.ending⟩ =
        (splitLines content).2.1 := by
      rw [hending]
      simp [OutLine.ending, splitLines, hcrlf]
    rw [hout] at hended
    cases htrailing : (splitLines content).2.2 with
    | true =>
      rw [htrailing] at hended
      exact absurd (hended _ (by simp [ended])) hbad
    | false =>
      refine ⟨rfl, hQ.mp ?_⟩
      by_contra hne
      rw [htrailing] at hended
      refine absurd (hended _ ?_) hbad
      rw [ended, if_neg Bool.false_ne_true, List.dropLast_append_of_ne_nil (by simp),
        List.dropLast_cons_of_ne_nil hne]
      simp
  · intro hagree line hline
    have hmem : line ∈ editedLines content edits := by
      rw [ended] at hline
      split_ifs at hline
      · exact hline
      · exact List.mem_of_mem_dropLast hline
    by_contra hbad
    -- The line ends in a bare newline, in a file with CRLF ends.
    have hbare : line.own = some ['\n'] ∧ hasCrlf content = true := by
      cases hown : line.own with
      | none => exact absurd (by rw [OutLine.ending, hown]) hbad
      | some own =>
        obtain ⟨i, source, hsource, rfl, -⟩ := source_of_kept h hmem hown
        rcases LineEnds.ending_cases (List.mem_of_getElem? hsource) with heq | ⟨heq, hcrlf⟩ | heq
        · rw [OutLine.ending, hown, heq] at hbad
          by_cases hcrlf : hasCrlf content = true
          · exact ⟨by rw [heq], hcrlf⟩
          · simp [splitLines, hcrlf] at hbad
        · rw [OutLine.ending, hown, heq] at hbad
          simp [splitLines, hcrlf] at hbad
        · rw [OutLine.ending, hown, heq] at hbad
          exact absurd rfl hbad
    obtain ⟨hown, hcrlf⟩ := hbare
    obtain ⟨i, source, hsource, hending, htouched, -⟩ := source_of_kept h hmem hown
    obtain ⟨htrailing, hcleared⟩ := hagree hcrlf i source hsource hending htouched
    obtain ⟨A, B, P, Q, hA, htagged, hout, hQ⟩ := hplace i source hsource htouched
    rw [hQ.mpr hcleared] at hout
    rw [htrailing, ended, if_neg Bool.false_ne_true, hout, List.dropLast_concat] at hline
    -- All untouched lines of the file stand before that line.
    have hB : B.filter OutLine.kept = [] := by
      rw [List.filter_eq_nil_iff]
      intro next hnext
      obtain ⟨k, hk⟩ := List.mem_iff_getElem?.mp hnext
      have hget : (taggedLines content (edits.map ResolvedEdit.toSplice))[i + 1 + k]? = some next := by
        rw [htagged, List.getElem?_append_right (by omega), hA,
          show i + 1 + k - i = k + 1 by omega, List.getElem?_cons_succ, hk]
      obtain ⟨source', hsource', rfl⟩ := getElem?_taggedLines hget
      have htouched' := covered_iff_touched.mp (hcleared.1 (i + 1 + k) (by omega)
        (List.getElem?_eq_some_iff.mp hsource').1)
      simp [OutLine.kept, htouched']
    have hfilter := filter_editedLines h
    rw [hout, htagged, List.filter_append, List.filter_append, List.filter_cons_of_pos (by rfl),
      List.filter_cons_of_pos (by rfl), hB, List.filter_nil] at hfilter
    have hline' : line ∈ A.filter OutLine.kept := by
      rw [← (List.append_inj' hfilter rfl).1]
      exact List.mem_filter.mpr ⟨hline, by simp [OutLine.kept, hown]⟩
    obtain ⟨j, hj⟩ := List.mem_iff_getElem?.mp (List.mem_of_mem_filter hline')
    have hlt : j < i := by
      have := (List.getElem?_eq_some_iff.mp hj).1
      omega
    have hget : (taggedLines content (edits.map ResolvedEdit.toSplice))[j]? = some line := by
      rw [htagged, List.getElem?_append_left (by omega), hj]
    obtain ⟨source', hsource', rfl⟩ := getElem?_taggedLines hget
    by_cases htouched' : touched (edits.map ResolvedEdit.toSplice) j = true
    · simp [htouched'] at hown
    · rw [Bool.not_eq_true] at htouched'
      have hending' : source'.ending = ['\n'] := by simpa [htouched'] using hown
      obtain ⟨-, hcleared', -⟩ := hagree hcrlf j source' hsource' hending' htouched'
      have := covered_iff_touched.mp
        (hcleared' i hlt (List.getElem?_eq_some_iff.mp hsource).1)
      rw [htouched] at this
      exact Bool.false_ne_true this

/-- Edits keep what they do not touch exactly when the ends of the untouched lines agree with the
one separator of the file. -/
theorem keepsUntouched_iff (h : resolveOps hashHex (splitLines content).1 ops = .ok edits) :
    KeepsUntouched content edits ↔ EndsAgree content edits := by
  have hfit : ∀ line ∈ editedLines content edits,
      line.ending (splitLines content).2.1 = (splitLines content).2.1 ∨
        line.ending (splitLines content).2.1 = ['\n'] ∧
          (splitLines content).2.1 = ['\r', '\n'] := by
    intro line hline
    cases hown : line.own with
    | none =>
      left
      rw [OutLine.ending, hown]
    | some own =>
      obtain ⟨i, source, hsource, rfl, -⟩ := source_of_kept h hline hown
      rw [OutLine.ending, hown]
      rcases LineEnds.ending_cases (List.mem_of_getElem? hsource) with heq | ⟨heq, hcrlf⟩ | heq
      · rw [heq]
        by_cases hcrlf : hasCrlf content = true
        · exact .inr ⟨rfl, by simp [splitLines, hcrlf]⟩
        · exact .inl (by simp [splitLines, hcrlf])
      · rw [heq]
        exact .inl (by simp [splitLines, hcrlf])
      · rw [heq]
        exact .inl rfl
  have hiff := @joinLines_eq_render_iff _ (splitLines content).2.2 _ hfit
  rw [map_text_editedLines, ended_iff_endsAgree h] at hiff
  constructor
  · rintro ⟨-, -, hbytes⟩
    exact hiff.mp hbytes
  · intro hagree
    exact ⟨map_text_editedLines content edits, filter_editedLines h, hiff.mpr hagree⟩

end Edited

/-! ## Round trips -/

theorem render_true (sep : Text) (out : List OutLine) :
    render sep true out = out.flatMap fun line => line.text ++ line.ending sep := by
  induction out with
  | nil => rfl
  | cons line out ih =>
    cases out with
    | nil => simp [render]
    | cons next rest => rw [render, ih, @List.flatMap_cons _ _ line (next :: rest)]

theorem render_false (sep : Text) (out : List OutLine) (last : OutLine) :
    render sep false (out ++ [last]) =
      (out.flatMap fun line => line.text ++ line.ending sep) ++ last.text := by
  induction out with
  | nil => simp [render]
  | cons line out ih =>
    cases out with
    | nil => simp [render]
    | cons next rest =>
      rw [List.cons_append, List.cons_append, render, ← List.cons_append, ih,
        @List.flatMap_cons _ _ line (next :: rest), List.append_assoc _ _ last.text]

theorem taggedLines_nil (content : Text) : taggedLines content [] =
    (sourceLines content).map fun source => ⟨source.text, some source.ending⟩ := by
  have hfun : (fun line : SourceLine × ℕ =>
      (⟨line.1.text, if touched [] line.2 then none else some line.1.ending⟩ : OutLine)) =
        (fun source => ⟨source.text, some source.ending⟩) ∘ Prod.fst := rfl
  rw [taggedLines, hfun, ← List.map_map, List.zipIdx_map_fst]

/-- Without edits the file is what it should be. -/
theorem render_unedited (content : Text) :
    render (splitLines content).2.1 (splitLines content).2.2 (taggedLines content []) = content := by
  have hown : ∀ lines : List SourceLine, (∀ line ∈ lines, line.ending ≠ []) →
      ((lines.map fun source => (⟨source.text, some source.ending⟩ : OutLine)).flatMap
        fun line => line.text ++ line.ending (splitLines content).2.1) =
          lines.flatMap fun line => line.text ++ line.ending := by
    intro lines hlines
    rw [List.flatMap_map]
    refine List.flatMap_congr fun line hline => ?_
    cases hending : line.ending with
    | nil => exact absurd hending (hlines line hline)
    | cons first rest => rfl
  have hbytes := LineEnds.sourceLines_bytes content
  have hflag : (splitLines content).2.2 = LineEnds.endsInNewline content := rfl
  obtain ⟨lines, hlines, ⟨hsource, htrailing⟩ | ⟨htrailing, last, hsource⟩⟩ :=
    LineEnds.sourceLines_cases content
  · rw [taggedLines_nil, hsource]
    rw [hsource] at hbytes
    rcases htrailing with htrailing | rfl
    · rw [hflag, htrailing, render_true, hown lines hlines, hbytes]
    · exact hbytes
  · rw [taggedLines_nil, hsource, hflag, htrailing, List.map_append, List.map_singleton, render_false,
      hown lines hlines]
    rw [hsource, List.flatMap_append] at hbytes
    simpa using hbytes

theorem editedLines_nil (content : Text) : editedLines content [] = taggedLines content [] := rfl

/-- A file with CRLF line ends has no bare newline. -/
def Uniform (content : Text) : Prop :=
  hasCrlf content = true → ∀ line ∈ sourceLines content, line.ending ≠ ['\n']

theorem endsAgree_nil {content : Text} : EndsAgree content [] ↔ Uniform content := by
  constructor
  · intro hagree hcrlf line hline hending
    obtain ⟨i, hi⟩ := List.mem_iff_getElem?.mp hline
    obtain ⟨htrailing, hcleared, -⟩ := hagree hcrlf i line hi hending rfl
    have hlt := (List.getElem?_eq_some_iff.mp hi).1
    -- The line is the last one, and the last one has no end.
    have hlast : i = (sourceLines content).length - 1 := by
      by_contra hne
      obtain ⟨e, he, -⟩ := hcleared ((sourceLines content).length - 1) (by omega) (by omega)
      cases he
    obtain ⟨lines, -, ⟨hsource, htrue | rfl⟩ | ⟨-, last, hsource⟩⟩ := LineEnds.sourceLines_cases content
    · exact absurd (htrailing.symm.trans htrue) Bool.false_ne_true
    · rw [hsource] at hline
      cases hline
    · rw [hsource, hlast, hsource, List.length_append, List.length_singleton,
        Nat.add_sub_cancel, List.getElem?_concat_length, Option.some.injEq] at hi
      rw [← hi] at hending
      cases hending
  · intro huniform hcrlf i line hline hending
    exact absurd hending (huniform hcrlf line (List.mem_of_getElem? hline))

/-- A file is split and joined back to itself exactly when its line ends are uniform, and accepted
edits keep the bytes they do not touch exactly when the untouched lines agree with them. -/
theorem untouched_bytes_kept_iff (hashHex : Text → String) (content : Text) :
    (joinLines (splitLines content).1 (splitLines content).2.1 (splitLines content).2.2 = content ↔
      Uniform content) ∧
      ∀ ops edits, resolveOps hashHex (splitLines content).1 ops = .ok edits →
        (KeepsUntouched content edits ↔ EndsAgree content edits) := by
  refine ⟨?_, fun ops edits h => keepsUntouched_iff h⟩
  have hnone : resolveOps hashHex (splitLines content).1 [] = .ok [] := rfl
  rw [← endsAgree_nil, ← keepsUntouched_iff hnone, KeepsUntouched]
  simp only [editedLines_nil, render_unedited]
  constructor
  · intro hjoin
    exact ⟨map_text_taggedLines content [], rfl, hjoin⟩
  · exact fun hkept => hkept.2.2

/-- One line of a file with CRLF ends is replaced. -/
theorem untouched_bytes_kept_iff_crlf : KeepsUntouched ['a', '\r', '\n', 'b', '\r', '\n', 'c']
    [.replacing 1 1 [['B'], ['B']]] := by
  have hok : resolveOps (fun _ => "") (splitLines ['a', '\r', '\n', 'b', '\r', '\n', 'c']).1
      [.replaceLines 2 "" 2 "" ['B', '\n', 'B']] = .ok [.replacing 1 1 [['B'], ['B']]] := rfl
  apply ((untouched_bytes_kept_iff _ _).2 _ _ hok).mpr
  intro _ i line hline hending
  match i, hline with
  | 0, hline =>
    cases hline
    cases hending
  | 1, hline =>
    cases hline
    cases hending
  | 2, hline =>
    cases hline
    cases hending

/-- A file with both ends is not joined back to itself. -/
theorem mixed_ends_not_kept : ¬ (∀ content : Text,
    joinLines (splitLines content).1 (splitLines content).2.1 (splitLines content).2.2 = content) := by
  intro hall
  exact absurd (hall ['a', '\r', '\n', 'b', '\n']) (by decide)

end LeanCtx.AnchorEdits
