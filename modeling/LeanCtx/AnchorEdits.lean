import LeanCtx.ByteText
import LeanCtx.Splice
import Mathlib.Data.List.DropRight
import Mathlib.Data.List.Forall2
import Mathlib.Data.List.SplitOn
import Mathlib.Data.PNat.Basic

/-!
# Anchored batch edits

An anchor names a line by its number and the hash of its text. The operations of
a batch are resolved against one list of lines: each becomes a splice, unless an
anchor is stale, and no two splices may touch the same region. The edits are
then applied from the end of the file to its start.
-/

namespace LeanCtx.AnchorEdits

abbrev Text := List Char

inductive AnchorOp where
  | setLine (line : ℕ+) (hash : String) (newText : Text)
  | replaceLines (startLine : ℕ+) (startHash : String) (endLine : ℕ+) (endHash : String)
      (newText : Text)
  | insertAfter (line : ℕ) (hash : Option String) (newText : Text)
  | delete (startLine : ℕ+) (startHash : String) (endLine : ℕ+) (endHash : String)
  | create (newText : Text)

structure AnchorMiss where
  line : ℕ
  expected : String
  actual : String

inductive ResolveError where
  | conflict (misses : List AnchorMiss)
  | invalid (message : String)

/-- A validated edit with the lines it depends on, counted from one. -/
structure ResolvedEdit extends Splice Text where
  lo : ℕ
  hi : ℕ

def ResolvedEdit.replacing (idx count : ℕ) (newLines : List Text) : ResolvedEdit :=
  { startIdx := idx, removeCount := count, newLines, lo := idx + 1, hi := idx + count }

def ResolvedEdit.inserting (line : ℕ) (newLines : List Text) : ResolvedEdit :=
  { startIdx := line, removeCount := 0, newLines, lo := line, hi := line }

inductive Resolution where
  | edit (e : ResolvedEdit)
  | stale (misses : List AnchorMiss)

/-- `split_new_text`: one separator at the end belongs to the last line. -/
def splitNewText (s : Text) : List Text :=
  if s = [] then []
  else
    let trimmed := match s.reverse with
      | '\n' :: '\r' :: front => front.reverse
      | '\n' :: front => front.reverse
      | _ => s
    (trimmed.splitOn '\n').map (List.rdropWhile (· == '\r'))

section Anchors

-- The hexadecimal digest of a text.
variable (hashHex : Text → String)

def lineHash (line : Text) : String :=
  String.ofList ((hashHex (line.rdropWhile ByteText.isWhitespace)).toList.take 4)

/-- The hash is compared without regard to case. -/
def hashMatches (line : Text) (provided : String) : Bool :=
  (lineHash hashHex line).toList.map Char.toLower ==
    (ByteText.trim provided).toList.map Char.toLower

def matchesAt (lines : List Text) (line : ℕ+) (hash : String) : Bool :=
  (lines[line.natPred]?).any (hashMatches hashHex · hash)

def findUniqueShiftedLine (lines : List Text) (hash : String) : Option ℕ :=
  match (List.range lines.length).filter
      (fun i => (lines[i]?).any (hashMatches hashHex · hash)) with
  | [first] => some first
  | _ => none

def findUniqueShiftedSpan (lines : List Text) (startHash endHash : String) (spanLen : ℕ) :
    Option ℕ :=
  match (List.range lines.length).filter (fun i =>
      (lines[i]?).any (hashMatches hashHex · startHash) &&
        (lines[i + spanLen]?).any (hashMatches hashHex · endHash)) with
  | [first] => some first
  | _ => none

def miss (lines : List Text) (line : ℕ) (hash : String) : AnchorMiss :=
  { line, expected := hash,
    actual := ((lines[line - 1]?).map (lineHash hashHex)).getD "<eof>" }

def check (lines : List Text) (line : ℕ+) (hash : String) : List AnchorMiss :=
  if matchesAt hashHex lines line hash then [] else [miss hashHex lines line hash]

def checkRange (first last len : ℕ) : Except String Unit :=
  if last < first then .error s!"start_line {first} is after end_line {last}"
  else if len < last then .error s!"end_line {last} is past end of file ({len} lines)"
  else .ok ()

/-- `ReplaceLines` and `Delete`; the first takes an empty hash for no check. -/
def resolveSpan (lines : List Text) (hashOptional : Bool) (startLine : ℕ+) (startHash : String)
    (endLine : ℕ+) (endHash : String) (newLines : List Text) : Except String Resolution :=
  match checkRange startLine endLine lines.length with
  | .error message => .error message
  | .ok () =>
    let spanLen : ℕ := endLine - startLine
    let ok := fun (line : ℕ+) (hash : String) =>
      (hashOptional && hash == "") || matchesAt hashHex lines line hash
    if ok startLine startHash && ok endLine endHash then
      .ok (.edit (.replacing startLine.natPred (spanLen + 1) newLines))
    else
      match findUniqueShiftedSpan hashHex lines startHash endHash spanLen with
      | some idx => .ok (.edit (.replacing idx (spanLen + 1) newLines))
      | none => .ok (.stale
          (check hashHex lines startLine startHash ++ check hashHex lines endLine endHash))

/-- Where `InsertAfter` inserts. -/
def resolvedLine (lines : List Text) (line : ℕ) : Option String → Option ℕ
  | none => some line
  | some h =>
    if line = 0 then some line
    else if (lines[line - 1]?).any (hashMatches hashHex · h) then some line
    else (findUniqueShiftedLine hashHex lines h).map (· + 1)

def resolveOp (lines : List Text) : AnchorOp → Except String Resolution
  | .setLine line hash newText =>
    let len := lines.length
    let lineNo : ℕ := line
    if len < lineNo then .error s!"line {lineNo} is past end of file ({len} lines)"
    else
      let resolved :=
        if matchesAt hashHex lines line hash then some line.natPred
        else findUniqueShiftedLine hashHex lines hash
      match resolved with
      | some idx => .ok (.edit (.replacing idx 1 (splitNewText newText)))
      | none => .ok (.stale [miss hashHex lines line hash])
  | .replaceLines startLine startHash endLine endHash newText =>
    resolveSpan hashHex lines true startLine startHash endLine endHash (splitNewText newText)
  | .delete startLine startHash endLine endHash =>
    resolveSpan hashHex lines false startLine startHash endLine endHash []
  | .create _ =>
    .error "create cannot be combined with anchored ops (new files have no preimage)"
  | .insertAfter line hash newText =>
    let len := lines.length
    if len < line then
      .error (s!"insert_after line {line} is past end of file ({len} lines); " ++
        s!"use line={len} to append")
    else
      let newLines := splitNewText newText
      if newLines = [] then
        .error "insert_after needs non-empty new_text (use delete to remove lines)"
      else
        match resolvedLine hashHex lines line hash with
        | some l => .ok (.edit (.inserting l newLines))
        | none => .ok (.stale [miss hashHex lines line (hash.getD "")])

/-- The stale anchors and the edits of all operations; the first invalid operation ends it. -/
def resolveAll (lines : List Text) :
    List AnchorOp → Except String (List AnchorMiss × List ResolvedEdit)
  | [] => .ok ([], [])
  | op :: ops =>
    match resolveOp hashHex lines op with
    | .error message => .error message
    | .ok resolution =>
      (resolveAll lines ops).map fun rest => match resolution with
        | .edit e => (rest.1, e :: rest.2)
        | .stale misses => (misses ++ rest.1, rest.2)

end Anchors

def overlaps (a b : ResolvedEdit) : Bool := decide (a.lo ≤ b.hi) && decide (b.lo ≤ a.hi)

def firstOverlap : List ResolvedEdit → Option String
  | [] => none
  | a :: rest =>
    match rest.find? (overlaps a) with
    | some b => some (s!"overlapping edits: lines {a.lo}-{a.hi} and {b.lo}-{b.hi} touch the same " ++
        "region — split into separate calls or merge into one replace_lines")
    | none => firstOverlap rest

def resolveOps (hashHex : Text → String) (lines : List Text) (ops : List AnchorOp) :
    Except ResolveError (List ResolvedEdit) :=
  match resolveAll hashHex lines ops with
  | .error message => .error (.invalid message)
  | .ok (misses, edits) =>
    if misses.isEmpty then
      match firstOverlap edits with
      | some message => .error (.invalid message)
      | none => .ok edits
    else .error (.conflict misses)

/-- The splices of the edits, from the last to the first. -/
def applyEdits (lines : List Text) (edits : List ResolvedEdit) : List Text :=
  Splice.applyAll lines (edits.map ResolvedEdit.toSplice)

/-! ## What resolved edits look like -/

variable {hashHex : Text → String} {lines : List Text}

/-- An edit lies within the file and depends on the lines its splice touches. -/
structure Placed (lines : List Text) (e : ResolvedEdit) : Prop where
  within : Splice.Within lines e.toSplice
  lo_eq : e.lo = e.toSplice.lo
  hi_eq : e.hi = e.toSplice.hi

theorem placed_replacing {idx count : ℕ} (newLines : List Text) (h : idx + count ≤ lines.length)
    (hpos : 0 < count) : Placed lines (.replacing idx count newLines) where
  within := h
  lo_eq := (if_neg hpos.ne').symm
  hi_eq := rfl

theorem placed_inserting {line : ℕ} (newLines : List Text) (h : line ≤ lines.length) :
    Placed lines (.inserting line newLines) where
  within := h
  lo_eq := rfl
  hi_eq := rfl

theorem findUniqueShiftedLine_lt {hash : String} {i : ℕ}
    (h : findUniqueShiftedLine hashHex lines hash = some i) : i < lines.length := by
  rw [findUniqueShiftedLine] at h
  split at h
  · rename_i first heq
    cases h
    have hmem : i ∈ [i] := List.mem_singleton_self i
    rw [← heq, List.mem_filter, List.mem_range] at hmem
    exact hmem.1
  · cases h

theorem findUniqueShiftedSpan_lt {startHash endHash : String} {spanLen i : ℕ}
    (h : findUniqueShiftedSpan hashHex lines startHash endHash spanLen = some i) :
    i + spanLen < lines.length := by
  rw [findUniqueShiftedSpan] at h
  split at h
  · rename_i first heq
    cases h
    have hmem : i ∈ [i] := List.mem_singleton_self i
    rw [← heq, List.mem_filter, Bool.and_eq_true] at hmem
    obtain ⟨line, hline, -⟩ := (Option.any_eq_true _ _).mp hmem.2.2
    exact (List.getElem?_eq_some_iff.mp hline).1
  · cases h

theorem check_ne_nil {line : ℕ+} {hash : String} (h : matchesAt hashHex lines line hash = false) :
    check hashHex lines line hash ≠ [] := by
  simp [check, h]

theorem resolveSpan_cases {hashOptional : Bool} {startLine endLine : ℕ+}
    {startHash endHash : String} {newLines : List Text} {resolution : Resolution}
    (h : resolveSpan hashHex lines hashOptional startLine startHash endLine endHash newLines =
      .ok resolution) :
    (∃ e, resolution = .edit e ∧ Placed lines e) ∨
      ∃ misses, resolution = .stale misses ∧ misses ≠ [] := by
  rw [resolveSpan] at h
  split at h
  · cases h
  · rename_i hrange
    have hbounds : (startLine : ℕ) ≤ endLine ∧ (endLine : ℕ) ≤ lines.length := by
      rw [checkRange] at hrange
      split_ifs at hrange
      omega
    have hpred : startLine.natPred + 1 = startLine := PNat.natPred_add_one startLine
    dsimp only at h
    split_ifs at h with hok
    · cases h
      exact .inl ⟨_, rfl, placed_replacing newLines (by omega) (by omega)⟩
    · split at h
      · rename_i idx hidx
        cases h
        have := findUniqueShiftedSpan_lt hidx
        exact .inl ⟨_, rfl, placed_replacing newLines (by omega) (by omega)⟩
      · cases h
        refine .inr ⟨_, rfl, ?_⟩
        rw [Bool.not_eq_true, Bool.and_eq_false_iff] at hok
        rcases hok with hok | hok
        · rw [Bool.or_eq_false_iff] at hok
          exact List.append_ne_nil_of_left_ne_nil (check_ne_nil hok.2) _
        · rw [Bool.or_eq_false_iff] at hok
          exact List.append_ne_nil_of_right_ne_nil _ (check_ne_nil hok.2)

theorem resolvedLine_le {line l : ℕ} {hash : Option String} (hline : line ≤ lines.length)
    (h : resolvedLine hashHex lines line hash = some l) : l ≤ lines.length := by
  cases hash with
  | none =>
    cases h
    exact hline
  | some hash =>
    rw [resolvedLine] at h
    split_ifs at h
    · cases h
      exact hline
    · cases h
      exact hline
    · obtain ⟨i, hi, rfl⟩ := Option.map_eq_some_iff.mp h
      exact findUniqueShiftedLine_lt hi

theorem resolveOp_cases {op : AnchorOp} {resolution : Resolution}
    (h : resolveOp hashHex lines op = .ok resolution) :
    (∃ e, resolution = .edit e ∧ Placed lines e) ∨
      ∃ misses, resolution = .stale misses ∧ misses ≠ [] := by
  cases op with
  | setLine line hash newText =>
    simp only [resolveOp] at h
    split_ifs at h with hlen hmatch
    all_goals
      have hpred : line.natPred + 1 = line := PNat.natPred_add_one line
    · cases h
      exact .inl ⟨_, rfl, placed_replacing _ (by omega) (by omega)⟩
    · split at h
      · rename_i idx hidx
        cases h
        have := findUniqueShiftedLine_lt hidx
        exact .inl ⟨_, rfl, placed_replacing _ (by omega) (by omega)⟩
      · cases h
        exact .inr ⟨_, rfl, by simp⟩
  | replaceLines => exact resolveSpan_cases h
  | delete => exact resolveSpan_cases h
  | create => cases h
  | insertAfter line hash newText =>
    simp only [resolveOp] at h
    split_ifs at h with hlen hnew
    split at h
    · rename_i l hl
      cases h
      exact .inl ⟨_, rfl, placed_inserting _ (resolvedLine_le (by omega) hl)⟩
    · cases h
      exact .inr ⟨_, rfl, by simp⟩

def ResolvesTo (hashHex : Text → String) (lines : List Text) (op : AnchorOp) (e : ResolvedEdit) :
    Prop := resolveOp hashHex lines op = .ok (.edit e)

/-- Without a stale anchor each operation has its edit. -/
theorem resolveAll_eq_ok {ops : List AnchorOp} {edits : List ResolvedEdit} :
    resolveAll hashHex lines ops = .ok ([], edits) ↔
      List.Forall₂ (ResolvesTo hashHex lines) ops edits := by
  induction ops generalizing edits with
  | nil =>
    rw [List.forall₂_nil_left_iff, resolveAll]
    constructor
    · intro h
      cases h
      rfl
    · rintro rfl
      rfl
  | cons op ops ih =>
    rw [List.forall₂_cons_left_iff, resolveAll]
    constructor
    · intro h
      split at h
      · cases h
      · rename_i resolution hop
        cases hrest : resolveAll hashHex lines ops with
        | error message => simp [hrest, Except.map] at h
        | ok rest =>
          obtain ⟨misses, edits'⟩ := rest
          rcases resolveOp_cases hop with ⟨e, rfl, -⟩ | ⟨stale, rfl, hne⟩
          · simp only [hrest, Except.map, Except.ok.injEq, Prod.mk.injEq] at h
            obtain ⟨rfl, rfl⟩ := h
            exact ⟨e, edits', hop, ih.mp hrest, rfl⟩
          · simp [hrest, Except.map, hne] at h
    · rintro ⟨e, edits', hop, hrest, rfl⟩
      rw [ResolvesTo] at hop
      simp only [hop, ih.mpr hrest, Except.map]

theorem firstOverlap_eq_none {edits : List ResolvedEdit} :
    firstOverlap edits = none ↔ edits.Pairwise fun a b => overlaps a b = false := by
  induction edits with
  | nil => simp [firstOverlap]
  | cons a rest ih =>
    rw [List.pairwise_cons, ← ih, firstOverlap]
    cases hfind : rest.find? (overlaps a) with
    | none =>
      rw [List.find?_eq_none] at hfind
      simp only [iff_and_self]
      exact fun _ b hb => Bool.not_eq_true _ ▸ hfind b hb
    | some b =>
      simp only [reduceCtorEq, false_iff, not_and]
      intro hall
      have := hall b (List.mem_of_find?_eq_some hfind)
      rw [List.find?_some hfind] at this
      cases this

/-- What `resolveOps` accepts: an edit for each operation, and no overlap. -/
theorem resolveOps_eq_ok {ops : List AnchorOp} {edits : List ResolvedEdit} :
    resolveOps hashHex lines ops = .ok edits ↔
      List.Forall₂ (ResolvesTo hashHex lines) ops edits ∧
        edits.Pairwise fun a b => overlaps a b = false := by
  rw [← resolveAll_eq_ok, ← firstOverlap_eq_none, resolveOps]
  cases hall : resolveAll hashHex lines ops with
  | error message => simp
  | ok rest =>
    obtain ⟨misses, edits'⟩ := rest
    cases misses with
    | nil =>
      cases hoverlap : firstOverlap edits' with
      | none =>
        simp only [List.isEmpty_nil, if_true, hoverlap, Except.ok.injEq, Prod.mk.injEq, true_and]
        constructor
        · rintro rfl
          exact ⟨rfl, hoverlap⟩
        · exact And.left
      | some message =>
        simp only [List.isEmpty_nil, if_true, hoverlap, reduceCtorEq, Except.ok.injEq,
          Prod.mk.injEq, true_and, false_iff, not_and]
        rintro rfl
        simp [hoverlap]
    | cons m misses => simp

theorem placed_of_resolveOps {ops : List AnchorOp} {edits : List ResolvedEdit}
    (h : resolveOps hashHex lines ops = .ok edits) : ∀ e ∈ edits, Placed lines e := by
  obtain ⟨hall, -⟩ := resolveOps_eq_ok.mp h
  clear h
  induction hall with
  | nil => simp
  | cons hop _ ih =>
    rw [List.forall_mem_cons]
    refine ⟨?_, ih⟩
    rcases resolveOp_cases hop with ⟨e', heq, hplaced⟩ | ⟨misses, heq, -⟩
    · cases heq
      exact hplaced
    · cases heq

/-- The splices of accepted edits touch different lines of the file. -/
theorem apart_of_resolveOps {ops : List AnchorOp} {edits : List ResolvedEdit}
    (h : resolveOps hashHex lines ops = .ok edits) :
    (edits.map ResolvedEdit.toSplice).Pairwise Splice.Apart ∧
      ∀ e ∈ edits.map ResolvedEdit.toSplice, Splice.Within lines e := by
  have hplaced := placed_of_resolveOps h
  constructor
  · rw [List.pairwise_map]
    refine (resolveOps_eq_ok.mp h).2.imp_of_mem fun {a b} ha hb hab => ?_
    have hA := hplaced a ha
    have hB := hplaced b hb
    rw [overlaps, Bool.and_eq_false_iff, decide_eq_false_iff_not, decide_eq_false_iff_not] at hab
    rw [Splice.Apart, ← hA.lo_eq, ← hA.hi_eq, ← hB.lo_eq, ← hB.hi_eq]
    omega
  · intro e he
    obtain ⟨edit, hedit, rfl⟩ := List.mem_map.mp he
    exact (hplaced edit hedit).within

/-- The order of the operations does not matter for what is accepted. -/
theorem resolveOps_perm {ops ops' : List AnchorOp} {edits : List ResolvedEdit}
    (h : resolveOps hashHex lines ops = .ok edits) (hperm : ops'.Perm ops) :
    ∃ edits', resolveOps hashHex lines ops' = .ok edits' ∧ edits'.Perm edits := by
  obtain ⟨hall, hpair⟩ := resolveOps_eq_ok.mp h
  obtain ⟨edits', hall', hperm'⟩ := List.perm_comp_forall₂ hperm hall
  refine ⟨edits', resolveOps_eq_ok.mpr ⟨hall', hperm'.symm.pairwise hpair ?_⟩, hperm'⟩
  intro a b hab
  rwa [overlaps, Bool.and_comm]

/-- Every order of the accepted edits is the order of some accepted batch. -/
theorem exists_ops_of_perm {ops : List AnchorOp} {edits edits' : List ResolvedEdit}
    (h : resolveOps hashHex lines ops = .ok edits) (hperm : edits'.Perm edits) :
    ∃ ops', ops'.Perm ops ∧ resolveOps hashHex lines ops' = .ok edits' := by
  obtain ⟨hall, hpair⟩ := resolveOps_eq_ok.mp h
  obtain ⟨ops', hall', hperm'⟩ := List.perm_comp_forall₂ hperm hall.flip
  refine ⟨ops', hperm', resolveOps_eq_ok.mpr ⟨hall'.flip, hperm.symm.pairwise hpair ?_⟩⟩
  intro a b hab
  rwa [overlaps, Bool.and_comm]

theorem exists_edits_of_perm {edits : List ResolvedEdit} {es : List (Splice Text)}
    (hperm : es.Perm (edits.map ResolvedEdit.toSplice)) :
    ∃ edits' : List ResolvedEdit, edits'.Perm edits ∧ edits'.map ResolvedEdit.toSplice = es := by
  have hall : List.Forall₂ (fun (s : Splice Text) (e : ResolvedEdit) => s = e.toSplice)
      (edits.map ResolvedEdit.toSplice) edits := by
    rw [List.forall₂_map_left_iff]
    exact List.forall₂_same.mpr fun _ _ => rfl
  obtain ⟨edits', hall', hperm'⟩ := List.perm_comp_forall₂ hperm hall
  refine ⟨edits', hperm', ?_⟩
  clear hperm hperm' hall
  induction hall' with
  | nil => rfl
  | cons heq _ ih => rw [List.map_cons, ih, heq]

/-- An insertion `d` right above the span of `e`. When `d` came first, the splice of `e` takes the
first lines of the inserted ones and the span together. -/
def SameInEitherOrder (lines : List Text) (d e : ResolvedEdit) : Prop :=
  e.newLines ++ (d.newLines ++ (lines.drop e.startIdx).take e.removeCount).drop e.removeCount =
    d.newLines ++ e.newLines

instance (lines : List Text) (d e : ResolvedEdit) : Decidable (SameInEitherOrder lines d e) :=
  inferInstanceAs (Decidable (_ = _))

/-- The orders of an accepted batch all give the simultaneous application, unless an insertion
meets a span right below it: then only where it is the same in either order. -/
theorem batch_simultaneous_iff {ops : List AnchorOp} {edits : List ResolvedEdit}
    (h : resolveOps hashHex lines ops = .ok edits) :
    (∀ ops', ops'.Perm ops → ∃ edits', resolveOps hashHex lines ops' = .ok edits' ∧
      applyEdits lines edits' = Splice.simultaneous lines (edits.map ResolvedEdit.toSplice)) ↔
      ∀ d ∈ edits, ∀ e ∈ edits, d.removeCount = 0 → 0 < e.removeCount →
        d.startIdx = e.startIdx → SameInEitherOrder lines d e := by
  obtain ⟨hpair, hwithin⟩ := apart_of_resolveOps h
  have hiff := Splice.applyAll_perm_iff hpair hwithin
  simp only [List.forall_mem_map] at hiff
  refine Iff.trans ?_ hiff
  constructor
  · intro hall es hperm
    obtain ⟨edits', hperm', rfl⟩ := exists_edits_of_perm hperm
    obtain ⟨ops', hops, hresolved⟩ := exists_ops_of_perm h hperm'
    obtain ⟨edits'', hresolved', happly⟩ := hall ops' hops
    rw [hresolved, Except.ok.injEq] at hresolved'
    exact hresolved' ▸ happly
  · intro hall ops' hperm
    obtain ⟨edits', hresolved, hperm'⟩ := resolveOps_perm h hperm
    exact ⟨edits', hresolved, hall _ (hperm'.map _)⟩

/-- Line `b` is replaced while `x` is inserted below line `c`. -/
theorem batch_simultaneous_iff_apart :
    ∃ edits', resolveOps (fun _ => "") [['a'], ['b'], ['c']]
        [.insertAfter 3 none ['x'], .replaceLines 2 "" 2 "" ['B']] = .ok edits' ∧
      applyEdits [['a'], ['b'], ['c']] edits' = [['a'], ['B'], ['c'], ['x']] := by
  have hok : resolveOps (fun _ => "") [['a'], ['b'], ['c']]
      [.replaceLines 2 "" 2 "" ['B'], .insertAfter 3 none ['x']] =
        .ok [.replacing 1 1 [['B']], .inserting 3 [['x']]] := rfl
  have hall := (batch_simultaneous_iff hok).mpr (by decide)
  exact hall _ (List.Perm.swap ..)

/-- `x` is inserted below line `a` and line `b` is replaced: `x` is lost and `b` stays. -/
theorem insertion_overwritten : ¬ ∀ ops', ops'.Perm
      [.insertAfter 1 none ['x'], .replaceLines 2 "" 2 "" ['B']] →
    ∃ edits', resolveOps (fun _ => "") [['a'], ['b']] ops' = .ok edits' ∧
      applyEdits [['a'], ['b']] edits' = [['a'], ['x'], ['B']] := by
  intro hall
  obtain ⟨edits', hresolved, happly⟩ := hall _ (List.Perm.refl _)
  have hok : resolveOps (fun _ => "") [['a'], ['b']]
      [.insertAfter 1 none ['x'], .replaceLines 2 "" 2 "" ['B']] =
        .ok [.inserting 1 [['x']], .replacing 1 1 [['B']]] := rfl
  rw [hok, Except.ok.injEq] at hresolved
  rw [← hresolved] at happly
  exact absurd happly (by decide)

end LeanCtx.AnchorEdits
