import LeanCtx.RulesFile

/-!
# The rules section over a run of settings

Every change of the settings injects the section again. However often that happens, the
file holds the section of the last settings once, between the user's text as it was, and
the empty lines around it do not pile up.
-/

namespace LeanCtx.Rules

open RulesFile

/-- The file after the injections of several settings, one after another. -/
def injectAll (rs : List Rendered) (content : Text) : Text :=
  rs.foldl (fun c r => injectRules r c) content

/-- What stands around the section is the user's text, with an empty line more at most. -/
structure Around (x y front back : Text) : Prop where
  front_text : trim front = trim x
  back_text : trim back = trim y
  no_start : ¬ startMark <:+: front
  no_end : ¬ endMark <:+: front
  front_length : front.length ≤ x.length + 2
  back_length : back.length ≤ y.length + 3

/-- The file holds the section around which the user's text is, gives that text back without
the section, and is what the next injection of the same settings leaves. -/
structure Holds (r : Rendered) (x y c : Text) : Prop where
  placed : ∃ front back, c = front ++ r.text ++ back ∧ Around x y front back
  removed : ∃ gap, (∀ g ∈ gap, ByteText.isWhitespace g = true) ∧
    (parse c).withoutSection = trim x ++ gap ++ trim y
  settles : injectRules r c = c

theorem injectAll_concat (rs : List Rendered) (r : Rendered) (c : Text) :
    injectAll (rs ++ [r]) c = injectRules r (injectAll rs c) := by
  rw [injectAll, List.foldl_append]
  rfl

/-! ## Lengths -/

theorem length_trim_le (s : Text) : (trim s).length ≤ s.length :=
  (TextMarks.trim_within _ s).length_le

theorem length_spaced_le (s : Text) : (spaced s).length ≤ s.length + 2 := by
  rw [spaced]
  split_ifs with h
  · exact Nat.zero_le _
  · rw [List.length_append]
    exact Nat.le_refl _

theorem length_merged_le {f : RulesFile} (hstart : f.start.isSome) (r : Rendered) :
    (f.merged r).length ≤
      (spaced f.prefixText).length + r.text.length + (f.suffixText.length + 3) := by
  have hafter : (if f.suffixText = [] then [] else ['\n', '\n'] ++ f.suffixText).length ≤
      f.suffixText.length + 2 := by
    split_ifs with h
    · exact Nat.zero_le _
    · rw [List.length_append, Nat.add_comm]
      exact Nat.le_refl _
  rw [merged, if_pos hstart]
  dsimp only
  generalize (if f.suffixText = [] then [] else ['\n', '\n'] ++ f.suffixText) = after at hafter ⊢
  split_ifs
  · simp only [List.length_append]
    omega
  · simp only [List.length_append, List.length_singleton]
    omega

/-! ## One injection -/

theorem trim_marked (inner : Text) :
    trim (startMark ++ inner ++ endMark) = startMark ++ inner ++ endMark := by
  have hend : endMark = endMark.dropLast ++ ['>'] := rfl
  have hhead : (startMark ++ inner ++ endMark).dropWhile ByteText.isWhitespace =
      startMark ++ inner ++ endMark := by
    rw [startMark_eq, List.cons_append, List.cons_append,
      List.dropWhile_cons_of_neg (by decide)]
  rw [trim, TextMarks.trim, hhead, hend, ← List.append_assoc,
    List.rdropWhile_concat_neg _ _ _ (by decide)]

section Injection

variable {before inner y : Text} (hs : ¬ startMark <:+: before) (he : ¬ endMark <:+: before)
  (hinner : ¬ endMark <:+: inner)

include hs in
theorem start_section :
    (parse (before ++ startMark ++ inner ++ endMark ++ y)).start = some before.length := by
  rw [parse]
  show find startMark (before ++ startMark ++ inner ++ endMark ++ y) = _
  rw [List.append_assoc _ inner, List.append_assoc _ (inner ++ endMark)]
  exact find_startMark hs _

include he hinner in
theorem stop_section : (parse (before ++ startMark ++ inner ++ endMark ++ y)).stop =
    some (before ++ startMark ++ inner).length :=
  find_endMark_behind he hinner y

include hs he hinner in
theorem block_section : (parse (before ++ startMark ++ inner ++ endMark ++ y)).block =
    some (startMark ++ inner ++ endMark) := by
  rw [block, start_section hs, stop_section he hinner]
  have hle : before.length ≤ (before ++ startMark ++ inner).length := by
    simp only [List.length_append]
    omega
  show (if before.length ≤ (before ++ startMark ++ inner).length then
    some (((before ++ startMark ++ inner ++ endMark ++ y).take
      ((before ++ startMark ++ inner).length + endMark.length)).drop before.length) else none) = _
  rw [if_pos hle, ← List.length_append, List.take_left, List.append_assoc before,
    List.append_assoc before, List.drop_left]

include he hinner in
theorem suffixText_section :
    (parse (before ++ startMark ++ inner ++ endMark ++ y)).suffixText = trim y := by
  rw [suffixText, stop_section he hinner]
  show trim ((before ++ startMark ++ inner ++ endMark ++ y).drop
    ((before ++ startMark ++ inner).length + endMark.length)) = trim y
  rw [← List.length_append, List.drop_left]

end Injection

/-- A file with a section keeps it when it is the wanted one, and has it replaced otherwise. -/
theorem injectRules_around {x y before after inner : Text} (h : Around x y before after)
    (hinner : ¬ endMark <:+: inner) (r : Rendered) : ∃ front back,
    injectRules r (before ++ startMark ++ inner ++ endMark ++ after) = front ++ r.text ++ back ∧
      Around x y front back := by
  rw [injectRules]
  split_ifs with hskip
  · refine ⟨before, after, ?_, h⟩
    have hsame := hskip.2.2
    rw [blockMatchesRender, block_section h.no_start h.no_end hinner] at hsame
    have htrim := of_decide_eq_true hsame
    rw [trim_marked, text_eq, trim_marked, ← text_eq] at htrim
    rw [← htrim]
    simp only [List.append_assoc]
  · have hstart :
        (parse (before ++ startMark ++ inner ++ endMark ++ after)).start.isSome = true :=
      Option.isSome_of_eq_some (start_section h.no_start)
    obtain ⟨back, hm, hback⟩ := merged_of_start hstart r
    have hlen := length_merged_le hstart r
    have hbefore : (parse (before ++ startMark ++ inner ++ endMark ++ after)).prefixText =
        trim before := by
      rw [List.append_assoc _ inner, List.append_assoc _ (inner ++ endMark)]
      exact prefixText_of_start h.no_start
    rw [suffixText_section h.no_end hinner] at hback hlen
    rw [hm] at hlen
    rw [hbefore] at hm hlen
    refine ⟨spaced (trim before), back, hm, ?_, hback.trans h.back_text, ?_, ?_, ?_, ?_⟩
    · rw [trim_spaced, trim_trim, h.front_text]
    · exact fun hin => h.no_start (infix_trim_startMark.mp (startMark_infix_spaced.mp hin))
    · exact fun hin => h.no_end (infix_trim_endMark.mp (endMark_infix_spaced.mp hin))
    · rw [h.front_text]
      exact (length_spaced_le _).trans (Nat.add_le_add_right (length_trim_le x) 2)
    · have hy := length_trim_le y
      rw [h.back_text] at hlen
      simp only [List.length_append] at hlen
      omega

theorem injectRules_around_text {x y front back : Text} (r : Rendered) (h : Around x y front back)
    (r' : Rendered) : ∃ front' back', injectRules r' (front ++ r.text ++ back) =
      front' ++ r'.text ++ back' ∧ Around x y front' back' := by
  have hinner : ¬ endMark <:+: (renderedHead r.body).drop startMark.length :=
    fun hin => not_endMark_head r (hin.trans (List.drop_suffix _ _).isInfix)
  have htext : front ++ r.text ++ back = front ++ startMark ++
      (renderedHead r.body).drop startMark.length ++ endMark ++ back := by
    conv_lhs => rw [text_eq]
    simp only [List.append_assoc]
  rw [htext]
  exact injectRules_around h hinner r'

/-- The first injection, into a file whose marks come in order. -/
theorem injectRules_first {c : Text} (h : MarksInOrder c) : ∃ x y, Outside c x y ∧
    ∀ r, ∃ front back, injectRules r c = front ++ r.text ++ back ∧ Around x y front back := by
  rcases h with ⟨hs, he⟩ | ⟨before, rest, rfl, hs, he, hrest⟩
  · have hend : trimEnd c <:+: c := trimEnd_within c
    refine ⟨c, [], Or.inr ⟨?_, (List.append_nil c).symm⟩, fun r => ?_⟩
    · rintro ⟨x, inner, y, hc⟩
      exact he ⟨x ++ startMark ++ inner, y, hc.symm⟩
    · have hnone : (parse c).start = none := by
        rw [parse]
        show find startMark c = none
        rw [find, TextMarks.firstSplit_eq_none_iff.mpr hs, Option.map_none]
      refine ⟨spaced (trimEnd c), [], ?_, ?_, rfl, ?_, ?_, ?_, Nat.zero_le _⟩
      · rw [injectRules, hasContent, hnone, if_neg (by simp), merged_of_none hs, List.append_nil]
      · rw [trim_spaced, trim_trimEnd]
      · exact fun hin => hs ((startMark_infix_spaced.mp hin).trans hend)
      · exact fun hin => he ((endMark_infix_spaced.mp hin).trans hend)
      · exact (length_spaced_le _).trans (Nat.add_le_add_right hend.length_le 2)
  · obtain ⟨inner, y, hsplit⟩ := TextMarks.exists_firstSplit hrest
    have hinner : ¬ endMark <:+: inner := TextMarks.not_infix_before endMark_ne_nil hsplit
    have hc : before ++ startMark ++ rest = before ++ startMark ++ inner ++ endMark ++ y := by
      rw [TextSearch.eq_of_firstSplit hsplit]
      simp only [List.append_assoc]
    refine ⟨before, y, Or.inl ⟨inner, hc, hs, hinner⟩, fun r => ?_⟩
    rw [hc]
    exact injectRules_around ⟨rfl, rfl, hs, he, Nat.le_add_right _ _, Nat.le_add_right _ _⟩ hinner r

/-! ## A run -/

theorem injectAll_around {x y c : Text} (hfirst : ∀ r, ∃ front back,
    injectRules r c = front ++ r.text ++ back ∧ Around x y front back) (rs : List Rendered)
    (r : Rendered) : ∃ front back,
    injectAll (rs ++ [r]) c = front ++ r.text ++ back ∧ Around x y front back := by
  induction rs using List.reverseRecOn generalizing r with
  | nil => exact hfirst r
  | append_singleton rs last ih =>
    obtain ⟨front, back, hrun, haround⟩ := ih last
    rw [injectAll_concat, hrun]
    exact injectRules_around_text last haround r

theorem holds_of_around {x y front back : Text} (h : Around x y front back) (r : Rendered) :
    Holds r x y (front ++ r.text ++ back) := by
  have hcontent : (parse (front ++ r.text ++ back)).hasContent = true := by
    rw [hasContent, start_merged r h.no_start]
    rfl
  obtain ⟨gap, hgap, hwithout⟩ := withoutSection_of_start hcontent
  rw [prefixText_merged r h.no_start, suffixText_merged r h.no_end, h.front_text,
    h.back_text] at hwithout
  constructor
  · exact ⟨front, back, rfl, h⟩
  · exact ⟨gap, hgap, hwithout⟩
  · rw [injectRules]
    refine if_pos ⟨hcontent, ?_, ?_⟩
    · rw [isCurrent, version_merged r h.no_start]
      exact decide_eq_true (Nat.le_refl _)
    · rw [blockMatchesRender, block_merged r h.no_start h.no_end]
      exact decide_eq_true rfl

/-- After any run of settings the file holds the section of the last ones around which the user's
text is, and gives that text back without it. -/
theorem holds_injectAll {c : Text} (h : MarksInOrder c) :
    ∃ x y, Outside c x y ∧ ∀ rs r, Holds r x y (injectAll (rs ++ [r]) c) := by
  obtain ⟨x, y, hout, hfirst⟩ := injectRules_first h
  refine ⟨x, y, hout, fun rs r => ?_⟩
  obtain ⟨front, back, hrun, haround⟩ := injectAll_around hfirst rs r
  rw [hrun]
  exact holds_of_around haround r

theorem holds_injectAll_notes : MarksInOrder "My notes".toList ∧
    ∃ x y, Outside "My notes".toList x y ∧
      ∀ rs r, Holds r x y (injectAll (rs ++ [r]) "My notes".toList) :=
  ⟨Or.inl ⟨by decide, by decide⟩, holds_injectAll (Or.inl ⟨by decide, by decide⟩)⟩

end LeanCtx.Rules
