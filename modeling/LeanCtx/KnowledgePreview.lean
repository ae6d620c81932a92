import LeanCtx.KnowledgeFacts

/-!
# Texts of the knowledge store cut for display

The message about an unreadable import line and the preview of a similar fact
show the first bytes of a text. A cut inside a character stops the program.
-/

namespace LeanCtx.Knowledge

/-! ## Cuts -/

/-- `&s[..n]`; nothing where `n` is inside a character or behind the end. -/
def sliceTo : Text → ℕ → Option Text
  | _, 0 => some []
  | [], _ + 1 => none
  | c :: s, n =>
    if c.utf8Size ≤ n then (sliceTo s (n - c.utf8Size)).map (c :: ·) else none

def IsCharBoundary (s : Text) (n : ℕ) : Prop := ∃ front back, s = front ++ back ∧ len front = n

theorem sliceTo_eq_some {s front : Text} {n : ℕ} :
    sliceTo s n = some front ↔ len front = n ∧ front <+: s := by
  induction s generalizing n front with
  | nil =>
    cases n with
    | zero =>
      simp only [sliceTo, Option.some.injEq, List.prefix_nil]
      constructor
      · rintro rfl
        exact ⟨rfl, rfl⟩
      · rintro ⟨-, rfl⟩
        rfl
    | succ n =>
      simp only [sliceTo, reduceCtorEq, List.prefix_nil, false_iff, not_and]
      rintro hlen rfl
      exact absurd hlen (Nat.zero_ne_add_one n)
  | cons c s ih =>
    have hpos := Char.utf8Size_pos c
    cases n with
    | zero =>
      simp only [sliceTo, Option.some.injEq]
      constructor
      · rintro rfl
        exact ⟨rfl, List.nil_prefix⟩
      · rintro ⟨hlen, -⟩
        cases front with
        | nil => rfl
        | cons d front =>
          have hd := Char.utf8Size_pos d
          simp only [len, List.map_cons, List.sum_cons] at hlen
          omega
    | succ n =>
      rw [sliceTo.eq_3 _ _ _ (Nat.succ_ne_zero n)]
      split_ifs with hc
      · rw [Option.map_eq_some_iff]
        constructor
        · rintro ⟨front, hfront, rfl⟩
          obtain ⟨hlen, hprefix⟩ := ih.mp hfront
          refine ⟨?_, (List.prefix_cons_inj c).mpr hprefix⟩
          simp only [len, List.map_cons, List.sum_cons] at hlen ⊢
          omega
        · rintro ⟨hlen, hprefix⟩
          cases front with
          | nil => exact absurd hlen (Nat.zero_ne_add_one n)
          | cons d front =>
            obtain ⟨rfl, htail⟩ := List.cons_prefix_cons.mp hprefix
            refine ⟨front, ih.mpr ⟨?_, htail⟩, rfl⟩
            simp only [len, List.map_cons, List.sum_cons] at hlen ⊢
            omega
      · simp only [false_iff, not_and]
        intro hlen hprefix
        cases front with
        | nil => exact absurd hlen (Nat.zero_ne_add_one n)
        | cons d front =>
          obtain ⟨rfl, -⟩ := List.cons_prefix_cons.mp hprefix
          simp only [len, List.map_cons, List.sum_cons] at hlen
          omega

theorem sliceTo_isSome {s : Text} {n : ℕ} : (sliceTo s n).isSome ↔ IsCharBoundary s n := by
  rw [Option.isSome_iff_exists]
  constructor
  · rintro ⟨front, hfront⟩
    obtain ⟨hlen, back, hback⟩ := sliceTo_eq_some.mp hfront
    exact ⟨front, back, hback.symm, hlen⟩
  · rintro ⟨front, back, rfl, hlen⟩
    exact ⟨front, sliceTo_eq_some.mpr ⟨hlen, List.prefix_append _ _⟩⟩

theorem isCharBoundary_len (s : Text) : IsCharBoundary s (len s) :=
  ⟨s, [], (List.append_nil s).symm, rfl⟩

/-! ## Imports -/

structure SimpleFactEntry where
  category : Text
  key : Text
  value : Text
  confidence : Option ℚ
  source : Option Text
  timestamp : Option Text

/-- What the JSON reader makes of a text: the facts of a store, an array of entries, one entry. -/
structure Reader where
  projectKnowledge : Text → Option (List KnowledgeFact)
  entries : Text → Option (List SimpleFactEntry)
  entry : Text → Option SimpleFactEntry

variable (env : Env) (reader : Reader)

def factOfEntry (now : Time) (e : SimpleFactEntry) : KnowledgeFact where
  origin := .unverified
  category := e.category
  key := e.key
  value := e.value
  sourceSession := e.source.getD "import".toList
  confidence := e.confidence.getD (env.quotient 4 5)
  createdAt := now
  lastConfirmed := now
  retrievalCount := 0
  lastRetrieved := none
  validFrom := some now
  validUntil := none
  supersedes := none
  confirmationCount := 1
  feedbackUp := 0
  feedbackDown := 0
  privacy := .projectOnly
  sensitivity := env.classifyContent e.value
  importedFrom := none
  archetype := inferFromCategory env e.category
  fidelity := none
  revisionCount := 0
  validity := none

def noFacts : Text :=
  "No facts found. Expected: native JSON, simple JSON array, or JSONL.".toList

/-- The lines from one on, with the facts of the lines before; nothing where a cut stops the
program. -/
def parseLines (now : Time) : List Text → List KnowledgeFact →
    Option (Except Text (List KnowledgeFact))
  | [], facts => some (if facts.isEmpty then .error noFacts else .ok facts)
  | line :: rest, facts =>
    if (trim line).isEmpty then parseLines now rest facts
    else
      match reader.entry (trim line) with
      | some e => parseLines now rest (facts ++ [factOfEntry env now e])
      | none => (sliceTo (trim line) (min (len (trim line)) 80)).map fun cut =>
          .error ("Invalid JSONL line: ".toList ++ cut)

def parseImportData (now : Time) (data : Text) : Option (Except Text (List KnowledgeFact)) :=
  match reader.projectKnowledge data with
  | some facts => some (.ok (facts.map fun f => { f with origin := importedOrigin f.origin }))
  | none =>
    match reader.entries data with
    | some entries => some (.ok (entries.map (factOfEntry env now)))
    | none => parseLines env reader now (TextFile.lineChars data) []

/-- The first line that is neither blank nor an entry. -/
def firstUnread (lines : List Text) : Option Text :=
  (lines.map trim).find? fun line => !line.isEmpty && (reader.entry line).isNone

theorem parseLines_isSome (now : Time) (lines : List Text) (facts : List KnowledgeFact) :
    (parseLines env reader now lines facts).isSome ↔
      ∀ line ∈ firstUnread reader lines, 80 < len line → IsCharBoundary line 80 := by
  induction lines generalizing facts with
  | nil => simp [parseLines, firstUnread]
  | cons line rest ih =>
    rw [parseLines]
    by_cases hblank : (trim line).isEmpty = true
    · have hfirst : firstUnread reader (line :: rest) = firstUnread reader rest := by
        simp [firstUnread, hblank]
      rw [if_pos hblank, ih, hfirst]
    · rw [if_neg hblank]
      cases hentry : reader.entry (trim line) with
      | some e =>
        have hfirst : firstUnread reader (line :: rest) = firstUnread reader rest := by
          simp [firstUnread, hentry]
        rw [ih, hfirst]
      | none =>
        have hfirst : firstUnread reader (line :: rest) = some (trim line) := by
          simp [firstUnread, hentry, hblank]
        rw [hfirst, Option.isSome_map, sliceTo_isSome]
        simp only [Option.mem_some_iff, forall_eq']
        by_cases hlong : 80 < len (trim line)
        · rw [min_eq_right hlong.le]
          exact ⟨fun h _ => h, fun h => h hlong⟩
        · rw [min_eq_left (not_lt.mp hlong)]
          exact ⟨fun _ h => absurd h hlong, fun _ => isCharBoundary_len _⟩

/-- A text read line by line has no bad cut at the first line that cannot be read. -/
def ImportCutsWell (data : Text) : Prop :=
  reader.projectKnowledge data = none → reader.entries data = none →
    ∀ line ∈ firstUnread reader (TextFile.lineChars data),
      80 < len line → IsCharBoundary line 80

theorem parseImportData_isSome (now : Time) (data : Text) :
    (parseImportData env reader now data).isSome ↔ ImportCutsWell reader data := by
  rw [parseImportData, ImportCutsWell]
  cases hknowledge : reader.projectKnowledge data with
  | some facts => simp
  | none =>
    cases hentries : reader.entries data with
    | some entries => simp
    | none =>
      simp only [forall_const]
      exact parseLines_isSome env reader now _ _

/-! ## Similar facts -/

structure JudgedPair where
  keyA : Text
  keyB : Text

structure SimilarFact where
  category : Text
  key : Text
  valuePreview : Text
  similarity : ℚ

def compositeKey (category key : Text) : Text := category ++ '/' :: key

def alreadyJudged (judged : List JudgedPair) (a b : Text) : Bool :=
  judged.any fun jp => (jp.keyA == a && jp.keyB == b) || (jp.keyA == b && jp.keyB == a)

def preview (value : Text) : Option Text :=
  if 60 < len value then (sliceTo value 57).map (· ++ "...".toList) else some value

section Similar

variable (newCategory newKey newValue : Text) (judged : List JudgedPair)

/-- A fact that is listed: current, of another key, not judged yet, and similar. -/
def listed (f : KnowledgeFact) : Bool :=
  f.isCurrent && compositeKey f.category f.key != compositeKey newCategory newKey &&
    !alreadyJudged judged (compositeKey newCategory newKey) (compositeKey f.category f.key) &&
    env.quotient 7 20 < stringSimilarity env newValue f.value

def similarFact (f : KnowledgeFact) : Option SimilarFact :=
  (preview f.value).map fun shown =>
    ⟨f.category, f.key, shown, stringSimilarity env newValue f.value⟩

def collectSimilar : List KnowledgeFact → Option (List SimilarFact)
  | [] => some []
  | f :: rest =>
    if listed env newCategory newKey newValue judged f then
      (similarFact env newValue f).bind fun shown => (collectSimilar rest).map (shown :: ·)
    else collectSimilar rest

def findCrossKeySimilar (allFacts : List KnowledgeFact) (limit : ℕ) : Option (List SimilarFact) :=
  (collectSimilar env newCategory newKey newValue judged allFacts).map fun results =>
    (results.mergeSort fun a b => b.similarity ≤ a.similarity).take limit

/-- No listed fact has a bad cut. -/
def PreviewsCutWell (allFacts : List KnowledgeFact) : Prop :=
  ∀ f ∈ allFacts, listed env newCategory newKey newValue judged f = true →
    60 < len f.value → IsCharBoundary f.value 57

theorem similarFact_isSome (f : KnowledgeFact) :
    (similarFact env newValue f).isSome ↔ (60 < len f.value → IsCharBoundary f.value 57) := by
  rw [similarFact, Option.isSome_map, preview]
  split_ifs with hlong
  · rw [Option.isSome_map, sliceTo_isSome]
    exact ⟨fun h _ => h, fun h => h hlong⟩
  · exact ⟨fun _ h => absurd h hlong, fun _ => rfl⟩

theorem collectSimilar_isSome (allFacts : List KnowledgeFact) :
    (collectSimilar env newCategory newKey newValue judged allFacts).isSome ↔
      PreviewsCutWell env newCategory newKey newValue judged allFacts := by
  induction allFacts with
  | nil => simp [collectSimilar, PreviewsCutWell]
  | cons f rest ih =>
    have hsplit : PreviewsCutWell env newCategory newKey newValue judged (f :: rest) ↔
        (listed env newCategory newKey newValue judged f = true →
          (similarFact env newValue f).isSome) ∧
        PreviewsCutWell env newCategory newKey newValue judged rest := by
      rw [similarFact_isSome]
      exact List.forall_mem_cons
    rw [hsplit, ← ih, collectSimilar]
    split_ifs with hlisted
    · cases similarFact env newValue f <;> simp [hlisted]
    · simp [hlisted]

end Similar

/-- Both functions return exactly when no cut falls inside a character. -/
theorem returns_iff :
    (∀ now data, (parseImportData env reader now data).isSome ↔ ImportCutsWell reader data) ∧
    ∀ newCategory newKey newValue judged allFacts limit,
      (findCrossKeySimilar env newCategory newKey newValue judged allFacts limit).isSome ↔
        PreviewsCutWell env newCategory newKey newValue judged allFacts := by
  constructor
  · exact parseImportData_isSome env reader
  · intro newCategory newKey newValue judged allFacts limit
    rw [findCrossKeySimilar, Option.isSome_map]
    exact collectSimilar_isSome env newCategory newKey newValue judged allFacts

/-! ## A text that is cut badly -/

/-- No text here is JSON. -/
def noJson : Reader := ⟨fun _ => none, fun _ => none, fun _ => none⟩

def accented (n : ℕ) : Text := List.replicate n 'é'

def accentedFact : KnowledgeFact where
  __ := factOfEntry plainEnv 0 ⟨"notes".toList, "menu".toList, accented 31, none, none, none⟩

theorem accented_text_stops :
    parseImportData plainEnv noJson 0 ('a' :: accented 40) = none ∧
    findCrossKeySimilar plainEnv "notes".toList "card".toList (accented 31) [] [accentedFact] 5 =
      none := by
  decide +kernel

end LeanCtx.Knowledge
