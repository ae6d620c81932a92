import LeanCtx.AuditTrail
import LeanCtx.LineEnds

/-!
# Collapsing repeated lines without loss

A run of identical lines becomes the line and a marker with the length of the
run, under a header that says how many lines are left out. Expanding repeats the
last line at every marker.
-/

namespace LeanCtx.LosslessCollapse

open Audit (parseU64)

abbrev Text := List Char

def minRun : ℕ := 3

def headerPrefix : Text := "[lean-ctx: ".toList

def headerSuffix : Text := " repeated lines collapsed, lossless]".toList

def markerPrefix : Text := "[×".toList

def markerSuffix : Text := " identical lines]".toList

/-- A text in memory has at most `isize::MAX` bytes. -/
structure Str where
  toList : Text
  length_lt : toList.length < 2 ^ 63

structure Collapsed where
  text : Text
  linesBefore : ℕ
  linesAfter : ℕ
  deriving DecidableEq

/-! ## Reserved lines -/

def stripPrefix (pre s : Text) : Option Text :=
  if pre.isPrefixOf s then some (s.drop pre.length) else none

def stripSuffix (suf s : Text) : Option Text :=
  if suf.isSuffixOf s then some (s.take (s.length - suf.length)) else none

def markerCount (line : Text) : Option ℕ := do
  parseU64 (← stripSuffix markerSuffix (← stripPrefix markerPrefix line))

def isHeader (line : Text) : Bool :=
  headerPrefix.isPrefixOf line && headerSuffix.isSuffixOf line

def isReserved (line : Text) : Bool := (markerCount line).isSome || isHeader line

/-! ## Collapsing -/

def marker (run : ℕ) : Text := markerPrefix ++ run.repr.toList ++ markerSuffix

/-- The runs of equal lines, the first of which has been read in part. -/
def runsFrom (line : Text) (run : ℕ) : List Text → List (Text × ℕ)
  | [] => [(line, run)]
  | l :: rest =>
    if l = line then runsFrom line (run + 1) rest else (line, run) :: runsFrom l 1 rest

def runs : List Text → List (Text × ℕ)
  | [] => []
  | l :: rest => runsFrom l 1 rest

def shown : Text × ℕ → List Text
  | (line, run) => if minRun ≤ run then [line, marker run] else List.replicate run line

def removed : Text × ℕ → ℕ
  | (_, run) => if minRun ≤ run then run - 2 else 0

def collapse (input : Text) : Option Collapsed :=
  let lines := input.splitOn '\n'
  if lines.any isReserved then none
  else
    let out := (runs lines).flatMap shown
    let removed := ((runs lines).map removed).sum
    if removed = 0 then none
    else some
      { text := headerPrefix ++ removed.repr.toList ++ headerSuffix ++
          '\n' :: ['\n'].intercalate out
        linesBefore := lines.length
        linesAfter := out.length + 1 }

/-! ## Expanding -/

def expandLine (out : List Text) (line : Text) : List Text :=
  match markerCount line, out.getLast? with
  | some n, some prev => if minRun ≤ n then out ++ List.replicate (n - 1) prev else out ++ [line]
  | _, _ => out ++ [line]

def expand (collapsed : Text) : Text :=
  if '\n' ∈ collapsed then
    let header := collapsed.takeWhile (· ≠ '\n')
    let body := (collapsed.dropWhile (· ≠ '\n')).tail
    if isHeader header then
      ['\n'].intercalate ((body.splitOn '\n').foldl expandLine [])
    else collapsed
  else collapsed

/-! ## Runs -/

def repeated : Text × ℕ → List Text
  | (line, run) => List.replicate run line

theorem flatMap_runsFrom (line : Text) (run : ℕ) (rest : List Text) :
    (runsFrom line run rest).flatMap repeated = List.replicate run line ++ rest := by
  induction rest generalizing line run with
  | nil => simp [runsFrom, repeated]
  | cons l rest ih =>
    rw [runsFrom]
    split_ifs with h
    · rw [ih, h, List.replicate_succ', List.append_assoc, List.singleton_append]
    · rw [List.flatMap_cons, ih, repeated]
      rfl

theorem flatMap_runs (lines : List Text) : (runs lines).flatMap repeated = lines := by
  cases lines with
  | nil => rfl
  | cons l rest =>
    rw [runs, flatMap_runsFrom]
    rfl

theorem mem_runsFrom {line : Text} {run : ℕ} {rest : List Text} {r : Text × ℕ}
    (h : r ∈ runsFrom line run rest) :
    (r.1 = line ∨ r.1 ∈ rest) ∧ (0 < run → 0 < r.2) ∧ r.2 ≤ run + rest.length := by
  induction rest generalizing line run with
  | nil =>
    rw [runsFrom, List.mem_singleton] at h
    subst h
    exact ⟨.inl rfl, id, Nat.le_refl _⟩
  | cons l rest ih =>
    rw [runsFrom] at h
    split_ifs at h with heq
    · obtain ⟨hline, hpos, hlen⟩ := ih h
      refine ⟨hline.imp_right (List.mem_cons_of_mem l), fun _ => hpos (Nat.succ_pos run), ?_⟩
      rw [List.length_cons]
      omega
    · rw [List.length_cons]
      rcases List.mem_cons.mp h with rfl | h
      · exact ⟨.inl rfl, id, Nat.le_add_right _ _⟩
      · obtain ⟨hline, hpos, hlen⟩ := ih h
        refine ⟨.inr (List.mem_cons.mpr hline), fun _ => hpos Nat.one_pos, ?_⟩
        omega

theorem mem_runs {lines : List Text} {r : Text × ℕ} (h : r ∈ runs lines) :
    r.1 ∈ lines ∧ 0 < r.2 ∧ r.2 ≤ lines.length := by
  cases lines with
  | nil => cases h
  | cons l rest =>
    obtain ⟨hline, hpos, hlen⟩ := mem_runsFrom h
    refine ⟨List.mem_cons.mpr hline, hpos Nat.one_pos, ?_⟩
    rw [List.length_cons]
    omega

theorem length_shown (r : Text × ℕ) : (shown r).length + removed r = (repeated r).length := by
  obtain ⟨line, run⟩ := r
  rw [shown, removed, repeated, List.length_replicate]
  split_ifs with h
  · change 2 + (run - 2) = run
    rw [minRun] at h
    omega
  · rw [List.length_replicate, Nat.add_zero]

theorem length_flatMap_shown (rs : List (Text × ℕ)) :
    (rs.flatMap shown).length + (rs.map removed).sum = (rs.flatMap repeated).length := by
  induction rs with
  | nil => rfl
  | cons r rs ih =>
    rw [List.flatMap_cons, List.flatMap_cons, List.length_append, List.length_append,
      List.map_cons, List.sum_cons, ← ih, ← length_shown r]
    omega

/-! ## Markers -/

theorem parseU64_repr {n : ℕ} (h : n < 2 ^ 64) : parseU64 n.repr.toList = some n := by
  rw [Nat.toList_repr]
  have hdigit : ∀ c ∈ Nat.toDigits 10 n, c.isDigit = true := fun c hc =>
    Nat.isDigit_of_mem_toDigits (by decide) (by decide) hc
  have hall : (Nat.toDigits 10 n).all Audit.isAsciiDigit = true := by
    refine List.all_eq_true.mpr fun c hc => ?_
    have hc := hdigit c hc
    simp only [Char.isDigit, Bool.and_eq_true, decide_eq_true_eq] at hc
    rw [Audit.isAsciiDigit, Bool.and_eq_true, decide_eq_true_eq, decide_eq_true_eq]
    exact hc
  have hplus : ¬(Nat.toDigits 10 n).head? = some '+' := fun hhead =>
    absurd (hdigit '+' (List.mem_of_mem_head? hhead)) (by decide)
  have hvalue : Audit.digitsValue (Nat.toDigits 10 n) = n := Nat.ofDigitChars_ten_toDigits
  rw [parseU64, if_neg hplus, hvalue]
  exact if_pos ⟨Nat.toDigits_ne_nil, hall, h⟩

theorem stripPrefix_append (pre s : Text) : stripPrefix pre (pre ++ s) = some s := by
  rw [stripPrefix, if_pos (List.isPrefixOf_iff_prefix.mpr (List.prefix_append pre s)),
    List.drop_left]

theorem stripSuffix_append (s suf : Text) : stripSuffix suf (s ++ suf) = some s := by
  rw [stripSuffix, if_pos (List.isSuffixOf_iff_suffix.mpr (List.suffix_append s suf)),
    List.length_append, Nat.add_sub_cancel, List.take_left]

theorem markerCount_eq (line : Text) : markerCount line =
    (stripPrefix markerPrefix line).bind fun rest => (stripSuffix markerSuffix rest).bind parseU64 :=
  rfl

theorem markerCount_marker {n : ℕ} (h : n < 2 ^ 64) : markerCount (marker n) = some n := by
  rw [marker, List.append_assoc, markerCount_eq, stripPrefix_append, Option.bind_some,
    stripSuffix_append, Option.bind_some]
  exact parseU64_repr h

/-! ## Expanding what is shown -/

theorem expandLine_plain {line : Text} (h : markerCount line = none) (out : List Text) :
    expandLine out line = out ++ [line] := by
  rw [expandLine, h]

theorem foldl_expandLine_plain {line : Text} (h : markerCount line = none) (n : ℕ)
    (out : List Text) :
    (List.replicate n line).foldl expandLine out = out ++ List.replicate n line := by
  induction n generalizing out with
  | zero => rw [List.replicate_zero, List.foldl_nil, List.append_nil]
  | succ n ih =>
    rw [List.replicate_succ, List.foldl_cons, expandLine_plain h, ih, List.append_assoc,
      List.singleton_append]

theorem foldl_expandLine_shown {line : Text} {run : ℕ} (hline : markerCount line = none)
    (hrun : run < 2 ^ 64) (out : List Text) :
    (shown (line, run)).foldl expandLine out = out ++ repeated (line, run) := by
  rw [shown, repeated]
  split_ifs with h
  · have hlast : (out ++ [line]).getLast? = some line := List.getLast?_concat
    have hcount : (run - 1) + 1 = run := by
      rw [minRun] at h
      omega
    rw [List.foldl_cons, List.foldl_cons, List.foldl_nil, expandLine_plain hline, expandLine,
      markerCount_marker hrun, hlast]
    dsimp only
    rw [if_pos h, List.append_assoc, List.singleton_append, ← List.replicate_succ, hcount]
  · exact foldl_expandLine_plain hline run out

theorem foldl_expandLine_runs {rs : List (Text × ℕ)}
    (h : ∀ r ∈ rs, markerCount r.1 = none ∧ r.2 < 2 ^ 64) (out : List Text) :
    (rs.flatMap shown).foldl expandLine out = out ++ rs.flatMap repeated := by
  induction rs generalizing out with
  | nil => rw [List.flatMap_nil, List.flatMap_nil, List.foldl_nil, List.append_nil]
  | cons r rs ih =>
    obtain ⟨⟨hline, hrun⟩, hrs⟩ := List.forall_mem_cons.mp h
    rw [List.flatMap_cons, List.flatMap_cons, List.foldl_append,
      foldl_expandLine_shown hline hrun, ih hrs, List.append_assoc]

/-! ## The round trip -/

theorem length_splitOn_le (text : Text) : (text.splitOn '\n').length ≤ text.length + 1 := by
  induction text with
  | nil => exact Nat.le_refl 1
  | cons c text ih =>
    rw [List.splitOn_cons_eq_if_modifyHead]
    split_ifs with h
    · rw [List.length_cons, List.length_cons]
      omega
    · rw [List.length_modifyHead, List.length_cons]
      omega

theorem newline_not_mem_repr (n : ℕ) : '\n' ∉ n.repr.toList := by
  rw [Nat.toList_repr]
  exact fun h => absurd (Nat.isDigit_of_mem_toDigits (by decide) (by decide) h) (by decide)

theorem newline_not_mem_marker (n : ℕ) : '\n' ∉ marker n := by
  have hpre : '\n' ∉ markerPrefix := by decide
  have hsuf : '\n' ∉ markerSuffix := by decide
  rw [marker, List.mem_append, List.mem_append]
  exact fun h => h.elim (fun h => h.elim hpre (newline_not_mem_repr n)) hsuf

theorem newline_not_mem_shown {r : Text × ℕ} (hr : '\n' ∉ r.1) : ∀ l ∈ shown r, '\n' ∉ l := by
  obtain ⟨line, run⟩ := r
  intro l hl
  rw [shown] at hl
  split_ifs at hl with h
  · rw [List.mem_cons, List.mem_singleton] at hl
    rcases hl with rfl | rfl
    · exact hr
    · exact newline_not_mem_marker run
  · rw [List.eq_of_mem_replicate hl]
    exact hr

def header (left : ℕ) : Text := headerPrefix ++ left.repr.toList ++ headerSuffix

theorem isHeader_header (left : ℕ) : isHeader (header left) = true := by
  rw [isHeader, Bool.and_eq_true, header]
  refine ⟨List.isPrefixOf_iff_prefix.mpr ?_, List.isSuffixOf_iff_suffix.mpr ?_⟩
  · rw [List.append_assoc]
    exact List.prefix_append _ _
  · exact List.suffix_append _ _

theorem newline_not_mem_header (left : ℕ) : '\n' ∉ header left := by
  have hpre : '\n' ∉ headerPrefix := by decide
  have hsuf : '\n' ∉ headerSuffix := by decide
  rw [header, List.mem_append, List.mem_append]
  exact fun h => h.elim (fun h => h.elim hpre (newline_not_mem_repr left)) hsuf

theorem expand_header (left : ℕ) (body : Text) : expand (header left ++ '\n' :: body) =
    ['\n'].intercalate ((body.splitOn '\n').foldl expandLine []) := by
  have hheader : ∀ c ∈ header left, decide (c ≠ '\n') = true := fun c hc =>
    decide_eq_true fun heq => newline_not_mem_header left (heq ▸ hc)
  have htake : (header left ++ '\n' :: body).takeWhile (· ≠ '\n') = header left := by
    rw [List.takeWhile_append_of_pos hheader, List.takeWhile_cons_of_neg (by simp), List.append_nil]
  have hdrop : (header left ++ '\n' :: body).dropWhile (· ≠ '\n') = '\n' :: body := by
    rw [List.dropWhile_append_of_pos hheader, List.dropWhile_cons_of_neg (by simp)]
  rw [expand, if_pos (by simp), htake, hdrop]
  exact if_pos (isHeader_header left)

theorem collapse_eq_some {input : Text} {c : Collapsed} (h : collapse input = some c) :
    (∀ l ∈ input.splitOn '\n', isReserved l = false) ∧
      ∃ left body, left ≠ 0 ∧ left = ((runs (input.splitOn '\n')).map removed).sum ∧
        body = (runs (input.splitOn '\n')).flatMap shown ∧
        c = { text := header left ++ '\n' :: ['\n'].intercalate body
              linesBefore := (input.splitOn '\n').length
              linesAfter := body.length + 1 } := by
  unfold collapse at h
  dsimp only at h
  split_ifs at h with hreserved hnone
  rw [Option.some.injEq] at h
  refine ⟨fun l hl => ?_, _, _, hnone, rfl, rfl, h.symm⟩
  rw [Bool.not_eq_true, List.any_eq_false] at hreserved
  exact Bool.not_eq_true _ ▸ hreserved l hl

/-- Expanding gives back every text that is collapsed. -/
theorem expand_collapse (t : Str) {c : Collapsed} (h : collapse t.toList = some c) :
    expand c.text = t.toList ∧ c.linesAfter ≤ c.linesBefore ∧
      c.linesBefore = (t.toList.splitOn '\n').length ∧
      c.linesAfter = (c.text.splitOn '\n').length ∧
      ∃ left body, c.text = header left ++ '\n' :: body ∧
        left + (body.splitOn '\n').length = c.linesBefore := by
  obtain ⟨hreserved, left, body, hleft, hsum, hbody, rfl⟩ := collapse_eq_some h
  have hplain : ∀ r ∈ runs (t.toList.splitOn '\n'), markerCount r.1 = none ∧ r.2 < 2 ^ 64 := by
    intro r hr
    obtain ⟨hline, -, hrun⟩ := mem_runs hr
    have hsize := length_splitOn_le t.toList
    have hbound := t.length_lt
    refine ⟨?_, by omega⟩
    have hnot := hreserved r.1 hline
    rw [isReserved, Bool.or_eq_false_iff, Option.isSome_eq_false_iff, Option.isNone_iff_eq_none]
      at hnot
    exact hnot.1
  have hnewline : ∀ l ∈ body, '\n' ∉ l := by
    intro l hl
    rw [hbody] at hl
    obtain ⟨r, hr, hl⟩ := List.mem_flatMap.mp hl
    exact newline_not_mem_shown (TextFile.not_mem_of_mem_splitOn (mem_runs hr).1) l hl
  have hsize : body.length + left = (t.toList.splitOn '\n').length := by
    rw [hbody, hsum, length_flatMap_shown, flatMap_runs]
  have hne : body ≠ [] := by
    rintro rfl
    have hempty := foldl_expandLine_runs hplain []
    rw [← hbody, flatMap_runs, List.foldl_nil, List.nil_append] at hempty
    exact List.splitOn_ne_nil '\n' t.toList hempty.symm
  have hsplit : ((['\n'].intercalate body).splitOn '\n') = body :=
    List.splitOn_intercalate '\n' hnewline hne
  refine ⟨?_, ?_, rfl, ?_, left, _, rfl, ?_⟩
  · rw [expand_header, hsplit, hbody, foldl_expandLine_runs hplain, flatMap_runs, List.nil_append,
      List.intercalate_splitOn]
  · dsimp only
    omega
  · dsimp only
    rw [List.splitOn_append_cons_self_of_not_mem (newline_not_mem_header left), hsplit,
      List.length_cons]
  · dsimp only
    rw [hsplit]
    omega

/-- Two runs, one of empty lines, and a line that looks like a marker with no number. -/
def buildLog : Str := ⟨"a\na\na\n\n\n\n[×? identical lines]\nb".toList, by decide⟩

def buildLogCollapsed : Collapsed where
  text := "[lean-ctx: 2 repeated lines collapsed, lossless]\na\n[×3 identical lines]\n".toList ++
    "\n[×3 identical lines]\n[×? identical lines]\nb".toList
  linesBefore := 8
  linesAfter := 7

theorem expand_collapse_buildLog : expand buildLogCollapsed.text = buildLog.toList ∧
    buildLogCollapsed.linesAfter ≤ buildLogCollapsed.linesBefore ∧
      buildLogCollapsed.linesBefore = (buildLog.toList.splitOn '\n').length ∧
      buildLogCollapsed.linesAfter = (buildLogCollapsed.text.splitOn '\n').length ∧
      ∃ left body, buildLogCollapsed.text = header left ++ '\n' :: body ∧
        left + (body.splitOn '\n').length = buildLogCollapsed.linesBefore :=
  expand_collapse buildLog (by decide +kernel)

end LeanCtx.LosslessCollapse
