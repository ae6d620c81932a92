import LeanCtx.KnowledgeStore

/-!
# Recall

A query is cut into terms at white space. Each term is looked up in the index,
and the current facts that some term leads to are ranked.
-/

namespace LeanCtx.Knowledge

variable (env : StoreEnv)

/-! ## Ranking -/

def clamp (q : ℚ) : ℚ := max 0 (min q 1)

def qualityScore (f : KnowledgeFact) : ℚ :=
  let confirmationsNorm : ℚ := (min f.confirmationCount 5 : ℕ) / 5
  clamp (8 / 10 * clamp f.confidence + 2 / 10 * confirmationsNorm +
    env.feedbackEffect (f.feedbackUp - f.feedbackDown))

def KnowledgeArchetype.salienceBonus : KnowledgeArchetype → ℕ
  | .architecture => 15
  | .decision => 12
  | .gotcha => 14
  | .convention => 8
  | .dependency => 6
  | .pattern => 10
  | .workflow => 7
  | .preference => 5
  | .observation => 3
  | .fact => 0

def categoryPriority : List (List Text × ℕ) :=
  [(texts ["decision"], 70), (texts ["gotcha"], 75), (texts ["architecture", "arch"], 60),
    (texts ["security"], 65), (texts ["testing", "tests", "deployment", "deploy"], 55),
    (texts ["conventions", "convention"], 45), (texts ["finding"], 40)]

def salienceScore (now : Time) (f : KnowledgeFact) : ℕ :=
  let base := ((categoryPriority.find? fun row => row.1.contains (env.toLowercase f.category)).map
    Prod.snd).getD 30
  let qualityBonus := ⌊qualityScore env f * 60⌋₊
  let recencyBonus := f.lastRetrieved.elim 0 fun t =>
    if numDays (now - t) ≤ 7 then 10 else if numDays (now - t) ≤ 30 then 5 else 0
  let fidelityBonus := f.fidelity.elim 0 fun fi => ⌊fi.structural * 10⌋₊
  base + qualityBonus + recencyBonus + f.archetype.salienceBonus + fidelityBonus

def compareOption : Option Time → Option Time → Ordering
  | none, none => .eq
  | none, some _ => .lt
  | some _, none => .gt
  | some a, some b => compare a b

def sortFactForOutput (now : Time) (a b : KnowledgeFact) : Ordering :=
  (compare (salienceScore env now b) (salienceScore env now a)).then <|
  (compare (qualityScore env b) (qualityScore env a)).then <|
  (compare b.confidence a.confidence).then <|
  (compare b.confirmationCount a.confirmationCount).then <|
  (compare b.retrievalCount a.retrievalCount).then <|
  (compareOption b.lastRetrieved a.lastRetrieved).then <|
  (compare b.lastConfirmed a.lastConfirmed).then <|
  (compare a.category b.category).then <|
  (compare a.key b.key).then (compare a.value b.value)

def cognitionSynthesisSource : Text := "cognition-synthesis".toList

def isSynthesizedObservation (f : KnowledgeFact) : Bool :=
  f.archetype == .observation && f.sourceSession == cognitionSynthesisSource

/-! ## Matching -/

def matchingIndices (index : KnowledgeIndex) (term : Text) (includeSession : Bool) : List ℕ :=
  match entry index.tokenPositions term with
  | none => if includeSession then (entry index.sessionTokenPositions term).getD [] else []
  | some indices =>
    if !includeSession then indices
    else
      match entry index.sessionTokenPositions term with
      | none => indices
      | some sessionIndices => indices ++ sessionIndices.filter fun idx => !indices.contains idx

/-- How many terms lead to each current fact. -/
abbrev MatchCounts := List (ℕ × ℕ)

def countOne (facts : List KnowledgeFact) (counts : MatchCounts) (idx : ℕ) : MatchCounts :=
  if facts[idx]?.any (·.isCurrent) then
    KeyedList.put idx ((counts.lookup idx).getD 0 + 1) counts
  else counts

def matchCounts (pk : ProjectKnowledge) (terms : List Text) : MatchCounts :=
  terms.foldl (fun counts term =>
    (matchingIndices pk.index term true).foldl (countOne pk.facts) counts) []

/-- An order in which a hash table may be visited. -/
structure HashOrder where
  arrange : MatchCounts → MatchCounts
  perm : ∀ counts, (arrange counts).Perm counts

def queryTerms (query : Text) : List Text := splitWhitespace (env.toLowercase query)

/-- A fact after it was served. -/
def served (now : Time) (f : KnowledgeFact) : KnowledgeFact :=
  { f with
    retrievalCount := min (f.retrievalCount + 1) maxCount
    lastRetrieved := some now }

/-- The facts after one of them was served, and what has been served. -/
def serve (now : Time) (state : List KnowledgeFact × List KnowledgeFact) (idx : ℕ) :
    List KnowledgeFact × List KnowledgeFact :=
  match state.1[idx]? with
  | some f => (state.1.set idx (served now f), state.2 ++ [served now f])
  | none => state

def outputRelevance (query : Text) (terms count : ℕ) (f : KnowledgeFact) : ℚ :=
  let base := env.quotient count terms * f.confidence
  let exact := if env.toLowercase f.key = query then 1
    else if env.toLowercase f.category = query then 1 / 2 else 0
  base + exact + if isSynthesizedObservation f then 4 / 10 else 0

namespace ProjectKnowledge

def «recall» (order : HashOrder) (query : Text) (pk : ProjectKnowledge) : List KnowledgeFact :=
  let terms := queryTerms env query
  if terms.isEmpty then []
  else
    let results := (order.arrange (matchCounts pk terms)).filterMap fun (idx, count) =>
      pk.facts[idx]?.map fun f => (f, env.quotient count terms.length * qualityScore env f)
    (results.mergeSort fun a b => b.2 ≤ a.2).map Prod.fst

def recallForOutput (now : Time) (order : HashOrder) (query : Text) (limit : ℕ)
    (pk : ProjectKnowledge) : (List KnowledgeFact × ℕ) × ProjectKnowledge :=
  let terms := queryTerms env query
  if terms.isEmpty then (([], 0), pk)
  else
    let scored := (order.arrange (matchCounts pk terms)).filterMap fun (idx, count) =>
      pk.facts[idx]?.map fun f =>
        (idx, f, outputRelevance env (env.toLowercase query) terms.length count f)
    let sorted := scored.mergeSort fun (_, f, relevance) (_, f', relevance') =>
      ((compare relevance' relevance).then (sortFactForOutput env now f f')).isLE
    let state := ((sorted.take limit).map Prod.fst).foldl (serve now) (pk.facts, [])
    ((state.2, scored.length), { pk with facts := state.1 })

end ProjectKnowledge

/-! ## What the index holds -/

/-- A position stands under a token. -/
def Under (positions : Positions) (token : Text) (i : ℕ) : Prop :=
  i ∈ (entry positions token).getD []

variable {env}

theorem under_push (i j : ℕ) (positions : Positions) (token t : Text) :
    Under (push i positions token) t j ↔ Under positions t j ∨ t = token ∧ j = i := by
  rw [Under, push, entry, KeyedList.lookup_put]
  by_cases ht : t = token
  · subst ht
    simp [Under]
  · simp [Under, entry, ht]

theorem under_foldl_push (i j : ℕ) (tokens : List Text) (positions : Positions) (t : Text) :
    Under (tokens.foldl (push i) positions) t j ↔ Under positions t j ∨ t ∈ tokens ∧ j = i := by
  induction tokens generalizing positions with
  | nil => simp
  | cons token tokens ih =>
    rw [List.foldl_cons, ih, under_push, List.mem_cons]
    tauto

theorem under_foldl_facts (tokens : KnowledgeFact → List Text) (t : Text) (j : ℕ)
    (pairs : List (KnowledgeFact × ℕ)) (positions : Positions) :
    Under (pairs.foldl (fun positions (f, i) => (tokens f).foldl (push i) positions) positions)
      t j ↔ Under positions t j ∨ ∃ f, (f, j) ∈ pairs ∧ t ∈ tokens f := by
  induction pairs generalizing positions with
  | nil => simp
  | cons pair pairs ih =>
    obtain ⟨f, i⟩ := pair
    rw [List.foldl_cons, ih, under_foldl_push]
    constructor
    · rintro ((h | ⟨ht, rfl⟩) | ⟨f', hf', ht⟩)
      · exact .inl h
      · exact .inr ⟨f, List.mem_cons_self, ht⟩
      · exact .inr ⟨f', List.mem_cons_of_mem _ hf', ht⟩
    · rintro (h | ⟨f', hf', ht⟩)
      · exact .inl (.inl h)
      · rcases List.mem_cons.mp hf' with heq | hf'
        · obtain ⟨rfl, rfl⟩ := Prod.mk.inj heq
          exact .inl (.inr ⟨ht, rfl⟩)
        · exact .inr ⟨f', hf', ht⟩

theorem under_indexBy (tokens : KnowledgeFact → List Text) (facts : List KnowledgeFact)
    (t : Text) (j : ℕ) :
    Under (indexBy tokens facts) t j ↔ ∃ f, facts[j]? = some f ∧ t ∈ tokens f := by
  rw [indexBy, under_foldl_facts]
  simp only [Under, entry, List.lookup_nil, Option.getD_none, List.not_mem_nil, false_or,
    List.mem_zipIdx_iff_getElem?]

theorem under_sortDedup (positions : Positions) (t : Text) (j : ℕ) :
    Under (sortDedup positions) t j ↔ Under positions t j := by
  rw [Under, Under, sortDedup, entry, KeyedList.lookup_mapValues, ← entry]
  cases entry positions t with
  | none => rfl
  | some indices => simp

variable (env) in
/-- The tokens under which a fact is found. -/
def foundUnder (f : KnowledgeFact) : List Text :=
  factTokens env f ++ tokenizeLower env f.sourceSession

theorem mem_matchingIndices {facts : List KnowledgeFact} {term : Text} {i : ℕ} :
    i ∈ matchingIndices (buildKnowledgeIndex env facts) term true ↔
      ∃ f, facts[i]? = some f ∧ term ∈ foundUnder env f := by
  have hunion : ∀ index : KnowledgeIndex, i ∈ matchingIndices index term true ↔
      Under index.tokenPositions term i ∨ Under index.sessionTokenPositions term i := by
    intro index
    rw [matchingIndices, Under, Under]
    cases entry index.tokenPositions term with
    | none => simp
    | some indices =>
      cases entry index.sessionTokenPositions term with
      | none => simp
      | some sessionIndices =>
        by_cases hi : i ∈ indices <;> simp [hi]
  rw [hunion, buildKnowledgeIndex, under_sortDedup, under_sortDedup, under_indexBy, under_indexBy,
    ← exists_or]
  refine exists_congr fun f => ?_
  rw [foundUnder, List.mem_append]
  tauto

/-! ## What is matched -/

theorem lookup_countOne {facts : List KnowledgeFact} {counts : MatchCounts} {idx i : ℕ} :
    ((countOne facts counts idx).lookup i).isSome ↔
      (counts.lookup i).isSome ∨ i = idx ∧ facts[i]?.any (·.isCurrent) = true := by
  rw [countOne]
  split_ifs with hcurrent
  · rw [KeyedList.lookup_put]
    by_cases hi : i = idx
    · subst hi
      simp [hcurrent]
    · simp [hi]
  · constructor
    · exact .inl
    · rintro (h | ⟨rfl, h⟩)
      · exact h
      · exact absurd h hcurrent

theorem lookup_foldl_countOne {facts : List KnowledgeFact} (indices : List ℕ)
    (counts : MatchCounts) {i : ℕ} :
    ((indices.foldl (countOne facts) counts).lookup i).isSome ↔
      (counts.lookup i).isSome ∨ i ∈ indices ∧ facts[i]?.any (·.isCurrent) = true := by
  induction indices generalizing counts with
  | nil => simp
  | cons idx indices ih =>
    rw [List.foldl_cons, ih, lookup_countOne, List.mem_cons]
    tauto

theorem lookup_matchCounts {pk : ProjectKnowledge} (terms : List Text) {i : ℕ} :
    ((matchCounts pk terms).lookup i).isSome ↔
      pk.facts[i]?.any (·.isCurrent) = true ∧
        ∃ term ∈ terms, i ∈ matchingIndices pk.index term true := by
  have hrun : ∀ counts : MatchCounts, ((terms.foldl (fun counts term =>
      (matchingIndices pk.index term true).foldl (countOne pk.facts) counts) counts).lookup
        i).isSome ↔ (counts.lookup i).isSome ∨ pk.facts[i]?.any (·.isCurrent) = true ∧
          ∃ term ∈ terms, i ∈ matchingIndices pk.index term true := by
    induction terms with
    | nil => simp
    | cons term terms ih =>
      intro counts
      rw [List.foldl_cons, ih, lookup_foldl_countOne, List.exists_mem_cons_iff]
      tauto
  rw [matchCounts, hrun]
  simp

theorem ascending_matchCounts (pk : ProjectKnowledge) (terms : List Text) :
    KeyedList.Ascending (matchCounts pk terms) := by
  have hone : ∀ (counts : MatchCounts) (idx : ℕ), KeyedList.Ascending counts →
      KeyedList.Ascending (countOne pk.facts counts idx) := by
    intro counts idx h
    rw [countOne]
    split_ifs
    · exact h.put
    · exact h
  have hterm : ∀ (indices : List ℕ) (counts : MatchCounts), KeyedList.Ascending counts →
      KeyedList.Ascending (indices.foldl (countOne pk.facts) counts) := by
    intro indices
    induction indices with
    | nil => exact fun _ h => h
    | cons idx indices ih => exact fun counts h => ih _ (hone counts idx h)
  rw [matchCounts]
  generalize hstart : ([] : MatchCounts) = counts
  have h : KeyedList.Ascending counts := hstart ▸ List.Pairwise.nil
  clear hstart
  induction terms generalizing counts with
  | nil => exact h
  | cons term terms ih => exact ih _ (hterm _ counts h)

/-- A position is counted under some number exactly when it is looked up. -/
theorem exists_mem_matchCounts {pk : ProjectKnowledge} (terms : List Text) {i : ℕ} :
    (∃ count, (i, count) ∈ matchCounts pk terms) ↔ ∃ f, pk.facts[i]? = some f ∧
      f.isCurrent = true ∧ ∃ term ∈ terms, i ∈ matchingIndices pk.index term true := by
  have hlookup : (∃ count, (i, count) ∈ matchCounts pk terms) ↔
      ((matchCounts pk terms).lookup i).isSome := by
    rw [Option.isSome_iff_exists]
    constructor
    · rintro ⟨count, h⟩
      exact ⟨count, (ascending_matchCounts pk terms).lookup_of_mem h⟩
    · rintro ⟨count, h⟩
      exact ⟨count, KeyedList.mem_of_lookup h⟩
  rw [hlookup, lookup_matchCounts]
  cases hf : pk.facts[i]? with
  | none => simp
  | some f => simp

end LeanCtx.Knowledge
