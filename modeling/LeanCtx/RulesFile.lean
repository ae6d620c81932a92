import LeanCtx.AuditTrail
import LeanCtx.TextMarks

/-!
# The rules section of a user's file

The section stands between a start mark and an end mark, and both are searched from
the front of the file, each on its own. The merge keeps the user's text and settles on
the files where they come in order: neither mark, or a first start mark with no end mark
before it and one behind it.
-/

namespace LeanCtx.Rules

open Audit (parseU64)
open TextMarks (firstSplit_of_absent infix_append_iff not_infix_before)
open TextSearch (firstSplit eq_of_firstSplit)

abbrev Text := List Char

/-! ## The rendered section -/

def startMark : Text := "<!-- lean-ctx-rules -->".toList

def endMark : Text := "<!-- /lean-ctx-rules -->".toList

def rulesVersion : ℕ := 13

def versionOpen : Text := "<!-- version: ".toList

def versionClose : Text := " -->".toList

/-- What stands in front of the end mark. -/
def renderedHead (body : Text) : Text :=
  startMark ++ ('\n' :: versionOpen ++ rulesVersion.repr.toList ++ versionClose ++ "\n\n".toList) ++
    body ++ ['\n']

/-- The sections of a profile in their frame; neither mark occurs in them. -/
structure Rendered where
  body : Text
  start_once : ¬ startMark <:+: (renderedHead body ++ endMark).tail
  end_once : ¬ endMark <:+: (renderedHead body ++ endMark).dropLast

def Rendered.text (r : Rendered) : Text := renderedHead r.body ++ endMark

/-! ## The file -/

def trim (s : Text) : Text := TextMarks.trim ByteText.isWhitespace s

def trimEnd (s : Text) : Text := TextMarks.trimEnd ByteText.isWhitespace s

/-- `str::find`. -/
def find (needle text : Text) : Option ℕ := (firstSplit needle text).map fun split => split.1.length

def parseVersionNumber (s : Text) : Option ℕ := do
  let vs ← find versionOpen s
  let num := s.drop (vs + versionOpen.length)
  let stop ← find versionClose num
  parseU64 (num.take stop)

structure RulesFile where
  content : Text
  start : Option ℕ
  stop : Option ℕ
  version : ℕ

namespace RulesFile

def parse (content : Text) : RulesFile where
  content := content
  start := find startMark content
  stop := find endMark content
  version := ((find startMark content).bind fun s =>
    parseVersionNumber (content.drop (s + startMark.length))).getD 0

def hasContent (f : RulesFile) : Bool := f.start.isSome

def isCurrent (f : RulesFile) : Bool := decide (rulesVersion ≤ f.version)

def prefixText (f : RulesFile) : Text := f.start.elim [] fun s => trim (f.content.take s)

def suffixText (f : RulesFile) : Text :=
  f.stop.elim [] fun e => trim (f.content.drop (e + endMark.length))

def block (f : RulesFile) : Option Text :=
  match f.start, f.stop with
  | some s, some e =>
    if s ≤ e then some ((f.content.take (e + endMark.length)).drop s) else none
  | _, _ => none

def blockMatchesRender (f : RulesFile) (r : Rendered) : Bool :=
  match f.block with
  | some block => decide (trim block = trim r.text)
  | none => false

/-- The text with an empty line behind it, when there is one. -/
def spaced (s : Text) : Text := if s = [] then [] else s ++ ['\n', '\n']

def merged (f : RulesFile) (r : Rendered) : Text :=
  if f.start.isSome then
    let after := if f.suffixText = [] then [] else ['\n', '\n'] ++ f.suffixText
    let out := spaced f.prefixText ++ r.text ++ after
    if out.getLast? = some '\n' then out else out ++ ['\n']
  else spaced (trimEnd f.content) ++ r.text

def withoutSection (f : RulesFile) : Text :=
  match f.start with
  | some s =>
    let before := trim (f.content.take s)
    let out := if before = [] then [] else before ++ ['\n']
    if f.suffixText = [] then out else out ++ '\n' :: f.suffixText
  | none => f.content

end RulesFile

open RulesFile

/-- What the file holds after an injection. -/
def injectRules (r : Rendered) (content : Text) : Text :=
  let file := parse content
  if file.hasContent ∧ file.isCurrent ∧ file.blockMatchesRender r then content else file.merged r

/-! ## Keeping the user's text -/

/-- The user's text in front of the section and behind it. Without a section all of it is the
user's, and the new one may come anywhere. -/
def Outside (c x y : Text) : Prop :=
  (∃ inner, c = x ++ startMark ++ inner ++ endMark ++ y ∧ ¬ startMark <:+: x ∧
    ¬ endMark <:+: inner) ∨
  (¬ ∃ x inner y, c = x ++ startMark ++ inner ++ endMark ++ y) ∧ c = x ++ y

/-- The merge keeps the user's text around the new section, in order and once, the section is
found again as it was written, and taking it out gives the user's text back. -/
structure Keeps (r : Rendered) (c : Text) : Prop where
  text : ∃ x y front back gap, Outside c x y ∧ (parse c).merged r = front ++ r.text ++ back ∧
    trim front = trim x ∧ trim back = trim y ∧ (∀ g ∈ gap, ByteText.isWhitespace g) ∧
    (parse ((parse c).merged r)).withoutSection = trim x ++ gap ++ trim y
  matchesRender : (parse ((parse c).merged r)).blockMatchesRender r
  current : (parse ((parse c).merged r)).isCurrent
  settles : injectRules r ((parse c).merged r) = (parse c).merged r

def MarksInOrder (c : Text) : Prop :=
  (¬ startMark <:+: c ∧ ¬ endMark <:+: c) ∨
  ∃ before rest, c = before ++ startMark ++ rest ∧ ¬ startMark <:+: before ∧
    ¬ endMark <:+: before ∧ endMark <:+: rest

/-! ## The marks -/

theorem startMark_eq : startMark = '<' :: startMark.tail := rfl

theorem endMark_eq : endMark = '<' :: endMark.tail := rfl

theorem not_mem_startMark : '<' ∉ startMark.tail := by decide

theorem not_mem_endMark : '<' ∉ endMark.tail := by decide

theorem endMark_ne_nil : endMark ≠ [] := List.cons_ne_nil _ _

theorem startMark_ne_nil : startMark ≠ [] := List.cons_ne_nil _ _

theorem find_startMark {a : Text} (ha : ¬ startMark <:+: a) (b : Text) :
    find startMark (a ++ startMark ++ b) = some a.length := by
  have hin : ¬ ('<' :: startMark.tail) <:+: a := startMark_eq ▸ ha
  have hsplit := firstSplit_of_absent not_mem_startMark hin b
  rw [← startMark_eq] at hsplit
  rw [find, hsplit, Option.map_some]

theorem find_endMark {a : Text} (ha : ¬ endMark <:+: a) (b : Text) :
    find endMark (a ++ endMark ++ b) = some a.length := by
  have hin : ¬ ('<' :: endMark.tail) <:+: a := endMark_eq ▸ ha
  have hsplit := firstSplit_of_absent not_mem_endMark hin b
  rw [← endMark_eq] at hsplit
  rw [find, hsplit, Option.map_some]

theorem endMark_infix_append {a b : Text} (hb : b.head? = some '<') :
    endMark <:+: a ++ b ↔ endMark <:+: a ∨ endMark <:+: b := by
  obtain ⟨t, rfl⟩ := List.head?_eq_some_iff.mp hb
  have h := infix_append_iff (a := a) (b := t) not_mem_endMark
  rw [← endMark_eq] at h
  exact h

theorem infix_trim_startMark {s : Text} : startMark <:+: trim s ↔ startMark <:+: s := by
  constructor
  · exact fun h => h.trans (TextMarks.trim_within _ s)
  · intro h
    rw [startMark_eq] at h ⊢
    exact TextMarks.infix_trim _ (by decide) rfl h

theorem infix_trim_endMark {s : Text} : endMark <:+: trim s ↔ endMark <:+: s := by
  constructor
  · exact fun h => h.trans (TextMarks.trim_within _ s)
  · intro h
    rw [endMark_eq] at h ⊢
    exact TextMarks.infix_trim _ (by decide) rfl h

/-! ## The file after a merge -/

section Merged

variable (r : Rendered) {front : Text} (hs : ¬ startMark <:+: front) (he : ¬ endMark <:+: front)

theorem text_eq : r.text = startMark ++ (renderedHead r.body).drop startMark.length ++ endMark := by
  have hhead : renderedHead r.body =
      startMark ++ (renderedHead r.body).drop startMark.length := by
    rw [renderedHead, List.append_assoc, List.append_assoc, List.drop_left]
  rw [Rendered.text]
  conv_lhs => rw [hhead]

theorem not_endMark_head : ¬ endMark <:+: renderedHead r.body := by
  intro h
  refine r.end_once (h.trans ?_)
  rw [List.dropLast_append_of_ne_nil endMark_ne_nil]
  exact (List.prefix_append _ _).isInfix

theorem head_renderedHead (body : Text) : (renderedHead body).head? = some '<' := by
  rw [renderedHead, startMark_eq]
  rfl

include he in
theorem not_endMark_front : ¬ endMark <:+: front ++ renderedHead r.body := by
  rw [endMark_infix_append (head_renderedHead r.body)]
  exact not_or.mpr ⟨he, not_endMark_head r⟩

include hs in
theorem start_merged (back : Text) :
    (parse (front ++ r.text ++ back)).start = some front.length := by
  have htext : front ++ r.text ++ back = front ++ startMark ++
      ((renderedHead r.body).drop startMark.length ++ endMark ++ back) := by
    conv_lhs => rw [text_eq]
    simp only [List.append_assoc]
  rw [parse, htext]
  exact find_startMark hs _

include he in
theorem stop_merged (back : Text) :
    (parse (front ++ r.text ++ back)).stop = some (front ++ renderedHead r.body).length := by
  have htext : front ++ r.text ++ back = front ++ renderedHead r.body ++ endMark ++ back := by
    rw [Rendered.text, List.append_assoc, List.append_assoc, List.append_assoc, List.append_assoc]
  rw [parse, htext]
  exact find_endMark (not_endMark_front r he) back

include hs in
theorem prefixText_merged (back : Text) :
    (parse (front ++ r.text ++ back)).prefixText = trim front := by
  rw [prefixText, start_merged r hs]
  show trim ((front ++ r.text ++ back).take front.length) = trim front
  rw [List.append_assoc, List.take_left]

include he in
theorem suffixText_merged (back : Text) :
    (parse (front ++ r.text ++ back)).suffixText = trim back := by
  rw [suffixText, stop_merged r he]
  show trim ((front ++ r.text ++ back).drop
    ((front ++ renderedHead r.body).length + endMark.length)) = trim back
  rw [← List.length_append, List.append_assoc front, ← Rendered.text, List.drop_left]

include hs he in
theorem block_merged (back : Text) : (parse (front ++ r.text ++ back)).block = some r.text := by
  rw [block, start_merged r hs, stop_merged r he]
  have hle : front.length ≤ (front ++ renderedHead r.body).length := by
    rw [List.length_append]
    exact Nat.le_add_right _ _
  show (if front.length ≤ (front ++ renderedHead r.body).length then
    some (((front ++ r.text ++ back).take
      ((front ++ renderedHead r.body).length + endMark.length)).drop front.length) else none) = _
  rw [if_pos hle, ← List.length_append, List.append_assoc front (renderedHead r.body),
    ← Rendered.text, List.take_left, List.drop_left]

theorem parseVersionNumber_eq {s : Text} {vs stop : ℕ} (hvs : find versionOpen s = some vs)
    (hstop : find versionClose (s.drop (vs + versionOpen.length)) = some stop) :
    parseVersionNumber s = parseU64 ((s.drop (vs + versionOpen.length)).take stop) := by
  rw [parseVersionNumber, hvs, Option.bind_eq_bind, Option.bind_some]
  dsimp only
  rw [hstop, Option.bind_some]

theorem parseVersionNumber_head (rest : Text) : parseVersionNumber
    ('\n' :: versionOpen ++ rulesVersion.repr.toList ++ versionClose ++ rest) =
      some rulesVersion := by
  have hopen : find versionOpen
      ('\n' :: versionOpen ++ rulesVersion.repr.toList ++ versionClose ++ rest) = some 1 := rfl
  have hclose : find versionClose ("13".toList ++ versionClose ++ rest) = some 2 := rfl
  have hnum : parseU64 "13".toList = some rulesVersion := by decide
  have hdrop : ('\n' :: versionOpen ++ rulesVersion.repr.toList ++ versionClose ++ rest).drop
      (1 + versionOpen.length) = "13".toList ++ versionClose ++ rest := rfl
  have htake : ("13".toList ++ versionClose ++ rest).take 2 = "13".toList := rfl
  rw [parseVersionNumber_eq hopen (by rw [hdrop, hclose]), hdrop, htake, hnum]

include hs in
theorem version_merged (back : Text) :
    (parse (front ++ r.text ++ back)).version = rulesVersion := by
  have hstart : find startMark (front ++ r.text ++ back) = some front.length :=
    start_merged r hs back
  have hdrop : (front ++ r.text ++ back).drop (front.length + startMark.length) =
      '\n' :: versionOpen ++ rulesVersion.repr.toList ++ versionClose ++
        ("\n\n".toList ++ r.body ++ ['\n'] ++ endMark ++ back) := by
    rw [← List.drop_drop, List.append_assoc, List.drop_left, Rendered.text, renderedHead]
    simp only [List.append_assoc, List.drop_left]
  rw [parse]
  show ((find startMark (front ++ r.text ++ back)).bind _).getD 0 = _
  rw [hstart, Option.bind_some, hdrop, parseVersionNumber_head, Option.getD_some]

end Merged

/-! ## The text before and behind the section -/

theorem isWhitespace_line : ∀ c ∈ ['\n'], ByteText.isWhitespace c = true := by
  intro c hc
  rw [List.mem_singleton.mp hc]
  rfl

theorem isWhitespace_lines : ∀ c ∈ ['\n', '\n'], ByteText.isWhitespace c = true := by
  intro c hc
  rw [(List.mem_cons.mp hc).elim id List.mem_singleton.mp]
  rfl

theorem trim_spaced (s : Text) : trim (spaced s) = trim s := by
  rw [spaced]
  split_ifs with h
  · rw [h]
  · exact TextMarks.trim_append_right _ isWhitespace_lines

theorem trim_trim (s : Text) : trim (trim s) = trim s := TextMarks.trim_trim _ s

theorem startMark_infix_spaced {s : Text} : startMark <:+: spaced s ↔ startMark <:+: s := by
  rw [← infix_trim_startMark, trim_spaced, infix_trim_startMark]

theorem endMark_infix_spaced {s : Text} : endMark <:+: spaced s ↔ endMark <:+: s := by
  rw [← infix_trim_endMark, trim_spaced, infix_trim_endMark]

theorem trim_suffixText (f : RulesFile) : trim f.suffixText = f.suffixText := by
  rw [suffixText]
  cases f.stop with
  | none => rfl
  | some e => exact TextMarks.trim_trim _ _

theorem prefixText_of_start {before rest : Text} (hs : ¬ startMark <:+: before) :
    (parse (before ++ startMark ++ rest)).prefixText = trim before := by
  have hstart : (parse (before ++ startMark ++ rest)).start = some before.length :=
    find_startMark hs rest
  rw [prefixText, hstart]
  show trim ((before ++ startMark ++ rest).take before.length) = trim before
  rw [List.append_assoc, List.take_left]

theorem merged_of_start {f : RulesFile} (hstart : f.start.isSome) (r : Rendered) :
    ∃ back, f.merged r = spaced f.prefixText ++ r.text ++ back ∧ trim back = f.suffixText := by
  rw [merged, if_pos hstart]
  have hafter : trim (if f.suffixText = [] then [] else ['\n', '\n'] ++ f.suffixText) =
      f.suffixText := by
    split_ifs with h
    · rw [h]
      rfl
    · rw [trim, TextMarks.trim_append_left _ isWhitespace_lines]
      exact trim_suffixText f
  dsimp only
  generalize (if f.suffixText = [] then [] else ['\n', '\n'] ++ f.suffixText) = after at hafter ⊢
  split_ifs with hlast
  · exact ⟨after, rfl, hafter⟩
  · refine ⟨after ++ ['\n'], List.append_assoc _ _ _, ?_⟩
    rw [trim, TextMarks.trim_append_right _ isWhitespace_line]
    exact hafter

/-- What stays of a file without its section. -/
theorem withoutSection_of_start {f : RulesFile} (hstart : f.start.isSome) :
    ∃ gap, (∀ g ∈ gap, ByteText.isWhitespace g = true) ∧
      f.withoutSection = f.prefixText ++ gap ++ f.suffixText := by
  obtain ⟨s, hs⟩ := Option.isSome_iff_exists.mp hstart
  rw [withoutSection, hs, prefixText, hs]
  dsimp only [Option.elim]
  by_cases hbefore : trim (f.content.take s) = [] <;> by_cases hafter : f.suffixText = []
  · refine ⟨[], by simp, ?_⟩
    rw [if_pos hbefore, if_pos hafter, hbefore, hafter]
    rfl
  · refine ⟨['\n'], isWhitespace_line, ?_⟩
    rw [if_pos hbefore, if_neg hafter, hbefore]
    rfl
  · refine ⟨['\n'], isWhitespace_line, ?_⟩
    rw [if_neg hbefore, if_pos hafter, hafter, List.append_nil]
  · refine ⟨['\n', '\n'], isWhitespace_lines, ?_⟩
    rw [if_neg hbefore, if_neg hafter]
    simp only [List.append_assoc, List.cons_append, List.nil_append]

theorem trimEnd_within (s : Text) : trimEnd s <:+: s := by
  have hfront : trimEnd s <+: s := List.rdropWhile_prefix _ _
  exact hfront.isInfix

theorem trim_trimEnd (s : Text) : trim (trimEnd s) = trim s := by
  have hs : s = trimEnd s ++ s.rtakeWhile ByteText.isWhitespace :=
    List.rdropWhile_append_rtakeWhile.symm
  conv_rhs => rw [hs]
  exact (TextMarks.trim_append_right _ fun c hc => List.mem_rtakeWhile_imp hc).symm

theorem merged_of_none {c : Text} (hc : ¬ startMark <:+: c) (r : Rendered) :
    (parse c).merged r = spaced (trimEnd c) ++ r.text := by
  have hstart : (parse c).start = none := by
    rw [parse]
    show find startMark c = none
    rw [find, TextMarks.firstSplit_eq_none_iff.mpr hc, Option.map_none]
  rw [merged, hstart, if_neg (by simp)]
  rfl

/-! ## Files the merge settles on -/

theorem keeps_of_merged {r : Rendered} {c x y front back : Text} (hout : Outside c x y)
    (hm : (parse c).merged r = front ++ r.text ++ back) (hfront : trim front = trim x)
    (hback : trim back = trim y) (hs : ¬ startMark <:+: front) (he : ¬ endMark <:+: front) :
    Keeps r c := by
  have hstart := start_merged r hs back
  have hmatch : (parse (front ++ r.text ++ back)).blockMatchesRender r = true := by
    rw [blockMatchesRender, block_merged r hs he]
    exact decide_eq_true rfl
  have hcurrent : (parse (front ++ r.text ++ back)).isCurrent = true := by
    rw [isCurrent, version_merged r hs]
    exact decide_eq_true (Nat.le_refl _)
  have hcontent : (parse (front ++ r.text ++ back)).hasContent = true := by
    rw [hasContent, hstart]
    rfl
  obtain ⟨gap, hgap, hwithout⟩ := withoutSection_of_start hcontent
  rw [prefixText_merged r hs, suffixText_merged r he, hfront, hback] at hwithout
  constructor
  · exact ⟨x, y, front, back, gap, hout, hm, hfront, hback, hgap, by rw [hm, hwithout]⟩
  · rw [hm]
    exact hmatch
  · rw [hm]
    exact hcurrent
  · rw [hm, injectRules]
    exact if_pos ⟨hcontent, hcurrent, hmatch⟩

theorem endMark_infix_startMark_append {s : Text} (h : endMark <:+: startMark ++ s) :
    endMark <:+: s := by
  rw [startMark_eq, List.cons_append, List.infix_cons_iff] at h
  rcases h with h | h
  · exfalso
    rw [← List.cons_append, ← startMark_eq] at h
    have hne : ¬ endMark <+: startMark ∧ ¬ startMark <+: endMark := by decide
    exact (List.prefix_or_prefix_of_prefix h (List.prefix_append startMark s)).elim hne.1 hne.2
  · rw [endMark_eq] at h ⊢
    exact TextMarks.infix_of_infix_append not_mem_startMark h

theorem find_endMark_behind {before inner : Text} (he : ¬ endMark <:+: before)
    (hinner : ¬ endMark <:+: inner) (y : Text) :
    find endMark (before ++ startMark ++ inner ++ endMark ++ y) =
      some (before ++ startMark ++ inner).length := by
  refine find_endMark ?_ y
  rw [List.append_assoc, endMark_infix_append (by rw [startMark_eq]; rfl)]
  exact not_or.mpr ⟨he, fun h => hinner (endMark_infix_startMark_append h)⟩

theorem keeps_of_marksInOrder (r : Rendered) {c : Text} (h : MarksInOrder c) : Keeps r c := by
  rcases h with ⟨hs, he⟩ | ⟨before, rest, rfl, hs, he, hrest⟩
  · have hend : trimEnd c <:+: c := trimEnd_within c
    have hout : Outside c c [] := by
      refine Or.inr ⟨?_, (List.append_nil c).symm⟩
      rintro ⟨x, inner, y, hc⟩
      exact he ⟨x ++ startMark ++ inner, y, hc.symm⟩
    have hm : (parse c).merged r = spaced (trimEnd c) ++ r.text ++ [] := by
      rw [merged_of_none hs, List.append_nil]
    refine keeps_of_merged hout hm ?_ rfl ?_ ?_
    · rw [trim_spaced, trim_trimEnd]
    · exact fun h => hs ((startMark_infix_spaced.mp h).trans hend)
    · exact fun h => he ((endMark_infix_spaced.mp h).trans hend)
  · obtain ⟨inner, y, hsplit⟩ := TextMarks.exists_firstSplit hrest
    have hinner : ¬ endMark <:+: inner := not_infix_before endMark_ne_nil hsplit
    have hc : before ++ startMark ++ rest = before ++ startMark ++ inner ++ endMark ++ y := by
      rw [eq_of_firstSplit hsplit]
      simp only [List.append_assoc]
    have hstart : (parse (before ++ startMark ++ rest)).start = some before.length :=
      find_startMark hs rest
    have hstop : (parse (before ++ startMark ++ rest)).stop =
        some (before ++ startMark ++ inner).length := by
      rw [hc]
      exact find_endMark_behind he hinner y
    have hsuffix : (parse (before ++ startMark ++ rest)).suffixText = trim y := by
      rw [suffixText, hstop]
      show trim ((before ++ startMark ++ rest).drop
        ((before ++ startMark ++ inner).length + endMark.length)) = trim y
      rw [hc, ← List.length_append, List.drop_left]
    obtain ⟨back, hm, hback⟩ := merged_of_start (by rw [hstart]; rfl) r
    rw [prefixText_of_start hs] at hm
    refine keeps_of_merged (Or.inl ⟨inner, hc, hs, hinner⟩) hm ?_ (hback.trans hsuffix) ?_ ?_
    · rw [trim_spaced, trim_trim]
    · exact fun h => hs (infix_trim_startMark.mp (startMark_infix_spaced.mp h))
    · exact fun h => he (infix_trim_endMark.mp (endMark_infix_spaced.mp h))

/-! ## Files it does not settle on -/

theorem not_matches_of_endMark (r : Rendered) {front : Text} (hs : ¬ startMark <:+: front)
    (he : endMark <:+: front) (back : Text) :
    (parse (front ++ r.text ++ back)).blockMatchesRender r = false := by
  obtain ⟨u, v, rfl⟩ := he
  have hstop : ∃ e, (parse (u ++ endMark ++ v ++ r.text ++ back)).stop = some e ∧
      e ≤ u.length := by
    obtain ⟨p, q, hsplit, hle⟩ := TextMarks.firstSplit_le endMark u (v ++ r.text ++ back)
    refine ⟨p.length, ?_, hle⟩
    have htext : u ++ endMark ++ v ++ r.text ++ back =
        u ++ endMark ++ (v ++ r.text ++ back) := by simp only [List.append_assoc]
    rw [parse, htext]
    show find endMark _ = _
    rw [find, hsplit, Option.map_some]
  obtain ⟨e, hstop, hle⟩ := hstop
  have hlt : ¬ (u ++ endMark ++ v).length ≤ e := by
    have hpos := List.length_pos_of_ne_nil endMark_ne_nil
    rw [List.length_append, List.length_append]
    omega
  have hblock : (parse (u ++ endMark ++ v ++ r.text ++ back)).block = none := by
    rw [block, start_merged r hs, hstop]
    exact if_neg hlt
  rw [blockMatchesRender, hblock]

/-- The section stands in a merged text only where the merge put it. -/
theorem front_unique (r : Rendered) {front back f b : Text}
    (h : front ++ r.text ++ back = f ++ r.text ++ b) (hf : ¬ startMark <:+: f)
    (hb : ∀ c ∈ b, ByteText.isWhitespace c = true) : front = f ∧ back = b := by
  have hle : f.length ≤ front.length := by
    have hfind : find startMark (f ++ r.text ++ b) = some f.length := start_merged r hf b
    obtain ⟨p, q, hsplit, hle⟩ := TextMarks.firstSplit_le startMark front
      ((renderedHead r.body).drop startMark.length ++ endMark ++ back)
    have htext : front ++ startMark ++ ((renderedHead r.body).drop startMark.length ++ endMark ++
        back) = f ++ r.text ++ b := by
      rw [← h]
      conv_rhs => rw [text_eq]
      simp only [List.append_assoc]
    rw [htext] at hsplit
    rw [find, hsplit, Option.map_some] at hfind
    exact (Option.some.inj hfind) ▸ hle
  have hlast (t : Text) : (t ++ r.text).getLast? = some '>' := by
    rw [Rendered.text, ← List.append_assoc, List.getLast?_append_of_ne_nil _ endMark_ne_nil]
    rfl
  rcases List.append_eq_append_iff.mp h with ⟨w, hw, hback⟩ | ⟨w, hw, hback⟩
  · have hlen := congrArg List.length hw
    simp only [List.length_append] at hlen
    have hnil : w = [] := List.length_eq_zero_iff.mp (by omega)
    subst hnil
    rw [List.append_nil] at hw
    exact ⟨(List.append_cancel_right hw).symm, hback⟩
  · by_cases hnil : w = []
    · subst hnil
      rw [List.append_nil] at hw
      exact ⟨List.append_cancel_right hw, hback.symm⟩
    · -- the section ends with its mark, not with white space
      have hend := hlast front
      rw [hw, List.getLast?_append_of_ne_nil _ hnil] at hend
      have hmem : '>' ∈ b := by
        rw [hback]
        exact List.mem_append_left back (List.mem_of_getLast? hend)
      exact absurd (hb '>' hmem) (by decide)

theorem not_keeps_without_endMark (r : Rendered) {c : Text} (hs : startMark <:+: c)
    (he : ¬ endMark <:+: c) : ¬ Keeps r c := by
  rintro ⟨⟨x, y, front, back, gap, hout, hm, hfront, hback, -, -⟩, -, -, -⟩
  have hc : c = x ++ y := by
    rcases hout with ⟨inner, hc, -, -⟩ | ⟨-, hc⟩
    · exact absurd ⟨x ++ startMark ++ inner, y, hc.symm⟩ he
    · exact hc
  obtain ⟨before, rest, hsplit⟩ := TextMarks.exists_firstSplit hs
  have hbefore : ¬ startMark <:+: before := not_infix_before startMark_ne_nil hsplit
  have hrest := eq_of_firstSplit hsplit
  have hsuffix : (parse c).suffixText = [] := by
    have hstop : (parse c).stop = none := by
      rw [parse]
      show find endMark c = none
      rw [find, TextMarks.firstSplit_eq_none_iff.mpr he, Option.map_none]
    rw [suffixText, hstop]
    rfl
  have hstart : (parse c).start.isSome := by
    rw [parse]
    show (find startMark c).isSome
    rw [find, hsplit]
    rfl
  obtain ⟨b, hmerged, hb⟩ := merged_of_start hstart r
  rw [hsuffix, trim, TextMarks.trim_eq_nil_iff] at hb
  rw [hrest, prefixText_of_start hbefore, ← hrest] at hmerged
  have hfree : ¬ startMark <:+: spaced (trim before) :=
    fun h => hbefore (infix_trim_startMark.mp (startMark_infix_spaced.mp h))
  obtain ⟨rfl, rfl⟩ := front_unique r (hm.symm.trans hmerged) hfree hb
  -- nothing of the user's text is left behind the section, and no start mark in front of it
  have hy : ∀ c ∈ y, ByteText.isWhitespace c = true := by
    rw [← TextMarks.trim_eq_nil_iff]
    exact hback.symm.trans ((TextMarks.trim_eq_nil_iff _).mpr hb)
  rw [← infix_trim_startMark, hc, trim, TextMarks.trim_append_right _ hy] at hs
  rw [← infix_trim_startMark, hfront] at hfree
  exact hfree hs

/-- The merge keeps the user's text, is found again and settles exactly on the files whose marks
come in order. -/
theorem keeps_iff (r : Rendered) (c : Text) : Keeps r c ↔ MarksInOrder c := by
  refine ⟨fun hkeeps => ?_, keeps_of_marksInOrder r⟩
  by_cases hs : startMark <:+: c
  · by_cases he : endMark <:+: c
    · obtain ⟨before, rest, hsplit⟩ := TextMarks.exists_firstSplit hs
      have hbefore : ¬ startMark <:+: before := not_infix_before startMark_ne_nil hsplit
      have hc := eq_of_firstSplit hsplit
      subst hc
      by_cases hend : endMark <:+: before
      · obtain ⟨back, hm, -⟩ := merged_of_start (f := parse (before ++ startMark ++ rest))
          (Option.isSome_iff_exists.mpr ⟨_, find_startMark hbefore rest⟩) r
        rw [prefixText_of_start hbefore] at hm
        have hnot := not_matches_of_endMark r
          (fun h => hbefore (infix_trim_startMark.mp (startMark_infix_spaced.mp h)))
          (endMark_infix_spaced.mpr (infix_trim_endMark.mpr hend)) back
        rw [← hm, hkeeps.matchesRender] at hnot
        cases hnot
      · refine Or.inr ⟨before, rest, rfl, hbefore, hend, ?_⟩
        rw [List.append_assoc, endMark_infix_append (by rw [startMark_eq]; rfl)] at he
        exact endMark_infix_startMark_append (he.resolve_left hend)
    · exact absurd hkeeps (not_keeps_without_endMark r hs he)
  · by_cases he : endMark <:+: c
    · have hend : trimEnd c <:+: c := trimEnd_within c
      have hin : endMark <:+: trimEnd c := by
        rw [← infix_trim_endMark, trim_trimEnd, infix_trim_endMark]
        exact he
      have hnot := not_matches_of_endMark r
        (fun h => hs ((startMark_infix_spaced.mp h).trans hend)) (endMark_infix_spaced.mpr hin) []
      rw [List.append_nil, ← merged_of_none hs, hkeeps.matchesRender] at hnot
      cases hnot
    · exact Or.inl ⟨hs, he⟩

set_option maxRecDepth 4000 in
/-- A profile without sections. -/
def emptyRendered : Rendered where
  body := []
  start_once := by decide
  end_once := by decide

/-- A file that lost its end mark loses the user's text behind the start mark. -/
theorem not_always_keeps : ¬ ∀ (r : Rendered) (c : Text), Keeps r c := by
  intro h
  exact not_keeps_without_endMark emptyRendered (c := startMark ++ "\nMy notes".toList)
    (List.prefix_append _ _).isInfix (by decide) (h _ _)

end LeanCtx.Rules
