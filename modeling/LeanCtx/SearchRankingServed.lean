import LeanCtx.SearchRanking
import LeanCtx.SearchIndexConsistent

/-!
# A ranking without the excluded chunks

Scoring with some chunks excluded runs in step with scoring an index that never
held them: every chunk that is kept has the same score under its new number, and
is touched at the same time. A gated search returns such a ranking.
-/

namespace LeanCtx.SearchIndex

open InvertedIndex TextFile

variable {F : Type} {env : Env} {a : Scoring F}

/-! ## The chunks that are kept -/

/-- Which of the first `n` positions are kept, from `start` on. -/
def keepsFrom (excluded : List Bool) (start n : ℕ) : List Bool :=
  (List.range' start n).map fun i => !isExcluded excluded i

/-- The new number of a chunk that is kept. -/
def newPosition (excluded : List Bool) (n i : ℕ) : Option ℕ :=
  ((renumber 0 (keepsFrom excluded 0 n))[i]?).join

theorem length_keepsFrom (excluded : List Bool) (start n : ℕ) :
    (keepsFrom excluded start n).length = n := by
  simp [keepsFrom]

theorem kept_keepsFrom {α : Type} (excluded : List Bool) (start : ℕ) (l : List α) :
    kept (keepsFrom excluded start l.length) l =
      ((l.zipIdx start).filter fun c => !isExcluded excluded c.2).map Prod.fst := by
  induction l generalizing start with
  | nil => rfl
  | cons c l ih =>
    rw [keepsFrom, List.length_cons, List.range'_succ, List.map_cons, kept, List.zipIdx_cons,
      List.filter_cons]
    have htail := ih (start + 1)
    rw [keepsFrom] at htail
    rw [htail]
    split <;> rfl

theorem newPosition_isSome {excluded : List Bool} {n i : ℕ} (hi : i < n) :
    (newPosition excluded n i).isSome = !isExcluded excluded i := by
  have hkeep : (keepsFrom excluded 0 n)[i]? = some (!isExcluded excluded i) := by
    simp [keepsFrom, hi]
  cases hex : isExcluded excluded i with
  | false =>
    rw [hex] at hkeep
    exact renumber_isSome hkeep
  | true =>
    cases hnew : newPosition excluded n i with
    | none => rfl
    | some j =>
      have hspec := (@renumber_eq_some _ 0 i j (keepsFrom excluded 0 n) _ rfl hnew).2.1
      rw [hkeep, hex] at hspec
      cases hspec

/-- Counting an entry without the excluded chunks counts the documents that are kept. -/
theorem docFreq_postingsOf (docs : List (List String)) (excluded : List Bool) (term : String) :
    docFreq (postingsOf docs term) excluded =
      freqOf (kept (keepsFrom excluded 0 docs.length) docs) term := by
  have hrep : ∀ (k n : ℕ) (last : Option ℕ) (idx : ℕ), last ≠ some idx →
      (List.replicate k (idx, (1 : ℚ))).foldl (fun (state : ℕ × Option ℕ) (e : ℕ × ℚ) =>
        if state.2 = some e.1 then state
        else (if isExcluded excluded e.1 then state.1 else state.1 + 1, some e.1)) (n, last) =
      if k = 0 then (n, last)
      else (if isExcluded excluded idx then n else n + 1, some idx) := by
    intro k n last idx hne
    cases k with
    | zero => rfl
    | succ k =>
      rw [List.replicate_succ, List.foldl_cons, if_neg hne, if_neg (Nat.succ_ne_zero k)]
      induction k with
      | zero => rfl
      | succ k ih =>
        rw [List.replicate_succ, List.foldl_cons, if_pos rfl]
        exact ih
  have hall : ∀ (docs : List (List String)) (start n : ℕ) (last : Option ℕ),
      (∀ i, last = some i → i < start) →
      ((postingsFrom start docs term).foldl (fun (state : ℕ × Option ℕ) (e : ℕ × ℚ) =>
        if state.2 = some e.1 then state
        else (if isExcluded excluded e.1 then state.1 else state.1 + 1, some e.1)) (n, last)).1 =
      n + freqOf (kept (keepsFrom excluded start docs.length) docs) term := by
    intro docs
    induction docs with
    | nil => intro start n last _; rfl
    | cons doc docs ih =>
      intro start n last hlast
      have hne : last ≠ some start := fun he => Nat.lt_irrefl _ (hlast start he)
      have hkept : kept (keepsFrom excluded start (doc :: docs).length) (doc :: docs) =
          if isExcluded excluded start then kept (keepsFrom excluded (start + 1) docs.length) docs
          else doc :: kept (keepsFrom excluded (start + 1) docs.length) docs := by
        rw [keepsFrom, List.length_cons, List.range'_succ, List.map_cons, kept]
        cases isExcluded excluded start <;> rfl
      rw [postingsFrom_cons, List.foldl_append, hrep _ _ _ _ hne, hkept]
      by_cases hmem : term ∈ doc
      · rw [if_neg (Nat.ne_of_gt (List.count_pos_iff.mpr hmem)), ih]
        · split
          · rfl
          · simp [freqOf, hmem]
            omega
        · intro i hi
          rw [← Option.some.inj hi]
          omega
      · rw [if_pos (List.count_eq_zero_of_not_mem hmem), ih]
        · split
          · rfl
          · simp [freqOf, hmem]
        · intro i hi
          have hlt := hlast i hi
          omega
  have hcount := hall docs 0 0 none (by simp)
  rwa [Nat.zero_add] at hcount

/-! ## Scoring in step -/

/-- Two indexes, the second holding what the first has left when some chunks are excluded. -/
structure Served (index other : BM25Index) (excluded : List Bool) (entries : List Entry) :
    Prop where
  full : Consistent index entries
  fullCount : Counted index
  rest : Consistent other (kept (keepsFrom excluded 0 entries.length) entries)
  restCount : Counted other

variable {index other : BM25Index} {excluded : List Bool} {entries : List Entry}

namespace Served

theorem length_chunks (h : Served index other excluded entries) :
    index.chunks.length = entries.length := by
  rw [h.full.chunks, List.length_map]

/-- A chunk is found under its new number. -/
theorem chunk_eq (h : Served index other excluded entries) {i j : ℕ}
    (hij : newPosition excluded entries.length i = some j) : other.chunks[j]? = index.chunks[i]? := by
  have hlen := length_keepsFrom excluded 0 entries.length
  have hplace := (renumber_eq_some hlen hij).2.2
  rw [Nat.sub_zero] at hplace
  rw [h.rest.chunks, h.full.chunks, List.getElem?_map, List.getElem?_map, hplace]

theorem entry_eq (h : Served index other excluded entries) (term : String) :
    other.postings.inverted[term]?.getD [] =
      moveEntries (newPosition excluded entries.length)
        (index.postings.inverted[term]?.getD []) := by
  rw [(h.rest.postings.inverted term).1, (h.full.postings.inverted term).1, ← kept_map_right]
  symm
  apply moveEntries_postingsFrom
  · rw [length_keepsFrom, List.length_map]
  · intro j
    rw [Nat.zero_add, newPosition]

theorem docFreq_eq (h : Served index other excluded entries) {term : String}
    {ps : List (ℕ × ℚ)} (hps : index.postings.inverted[term]? = some ps) :
    docFreq ps excluded = other.postings.docFreqs[term]?.getD 0 := by
  rw [h.full.postings.entry_eq hps, docFreq_postingsOf, (h.rest.postings.docFreqs term).1,
    List.length_map, kept_map_right]

end Served

/-- The states of the two scorings. -/
structure InStep (position : ℕ → Option ℕ) (state state' : Scored F) : Prop where
  scores : ∀ i j, position i = some j → state.scores i = state'.scores j
  touched : state.touched.map position = state'.touched.map some

theorem inStep_update {position : ℕ → Option ℕ} {f g : ℕ → F}
    (hinj : ∀ i i' j, position i = some j → position i' = some j → i = i')
    (h : ∀ i j, position i = some j → f i = g j) {k l : ℕ} (hkl : position k = some l) (v : F) :
    ∀ i j, position i = some j → Function.update f k v i = Function.update g l v j := by
  intro i j hij
  by_cases hi : i = k
  · subst hi
    have hj : l = j := Option.some.inj (hkl.symm.trans hij)
    subst hj
    rw [Function.update_self, Function.update_self]
  · have hj : j ≠ l := by
      rintro rfl
      exact hi (hinj i k j hij hkl)
    rw [Function.update_of_ne hi, Function.update_of_ne hj]
    exact h i j hij

theorem newPosition_injective (excluded : List Bool) (n : ℕ) :
    ∀ i i' j, newPosition excluded n i = some j → newPosition excluded n i' = some j → i = i' :=
  fun _ _ _ h h' => renumber_injective h h'

namespace Served

theorem scorePosting_inStep (h : Served index other excluded entries) {state state' : Scored F}
    (hstep : InStep (newPosition excluded entries.length) state state') (w avg : F)
    {e : ℕ × ℚ} {j : ℕ} (hj : newPosition excluded entries.length e.1 = some j) :
    InStep (newPosition excluded entries.length)
      (scorePosting a index.chunks w avg state e)
      (scorePosting a other.chunks w avg state' (j, e.2)) := by
  unfold scorePosting
  dsimp only
  rw [h.chunk_eq hj]
  cases index.chunks[e.1]? with
  | none => exact hstep
  | some chunk =>
    dsimp only
    rw [← hstep.scores e.1 j hj]
    constructor
    · exact inStep_update (newPosition_injective excluded entries.length) hstep.scores hj _
    · dsimp only
      split
      · rw [List.map_append, List.map_append, hstep.touched, List.map_singleton,
          List.map_singleton, hj]
      · exact hstep.touched

/-- The postings that are not excluded are scored in step. -/
theorem foldl_inStep (h : Served index other excluded entries) (w avg : F) (ps : List (ℕ × ℚ))
    (hrange : ∀ e ∈ ps, e.1 < entries.length) {state state' : Scored F}
    (hstep : InStep (newPosition excluded entries.length) state state') :
    InStep (newPosition excluded entries.length)
      ((ps.filter fun e => !isExcluded excluded e.1).foldl
        (scorePosting a index.chunks w avg) state)
      ((moveEntries (newPosition excluded entries.length) ps).foldl
        (scorePosting a other.chunks w avg) state') := by
  induction ps generalizing state state' with
  | nil => exact hstep
  | cons e ps ih =>
    obtain ⟨he, hps⟩ := List.forall_mem_cons.mp hrange
    have hsome := @newPosition_isSome excluded _ _ he
    rw [List.filter_cons, moveEntries, List.filterMap_cons]
    cases hnew : newPosition excluded entries.length e.1 with
    | none =>
      rw [hnew, Option.isSome_none] at hsome
      rw [← hsome, if_neg Bool.false_ne_true]
      exact ih hps hstep
    | some j =>
      rw [hnew, Option.isSome_some] at hsome
      rw [← hsome, if_pos rfl, List.foldl_cons, Option.map_some, List.foldl_cons]
      exact ih hps (h.scorePosting_inStep hstep w avg hnew)

theorem scoreTerm_inStep (h : Served index other excluded entries) (corpus : ℕ × F)
    (token : String) {state state' : Scored F}
    (hstep : InStep (newPosition excluded entries.length) state state') :
    InStep (newPosition excluded entries.length)
      (scoreTerm env a index (some excluded) corpus state token)
      (scoreTerm env a other none corpus state' token) := by
  have hentry := h.entry_eq (env.toLowercase token)
  have hnonempty := (h.rest.postings.inverted (env.toLowercase token)).2
  unfold scoreTerm
  dsimp only
  cases hps : index.postings.inverted[env.toLowercase token]? with
  | none =>
    rw [hps, Option.getD_none] at hentry
    cases hps' : other.postings.inverted[env.toLowercase token]? with
    | none => exact hstep
    | some ps' =>
      rw [hps', Option.getD_some] at hentry
      rw [hps', hentry] at hnonempty
      exact absurd rfl hnonempty
  | some ps =>
    have hrange : ∀ e ∈ ps, e.1 < entries.length := by
      intro e he
      rw [h.full.postings.entry_eq hps] at he
      have hlt := fst_lt_of_mem_postingsOf he
      rwa [List.length_map] at hlt
    have hfilter : (ps.filter fun e => !((some excluded).any fun ex => isExcluded ex e.1)) =
        ps.filter fun e => !isExcluded excluded e.1 := rfl
    rw [hps, Option.getD_some] at hentry
    have hfold (w : F) := h.foldl_inStep w corpus.2 ps hrange hstep (a := a)
    dsimp only
    rw [hfilter, h.docFreq_eq hps]
    cases hps' : other.postings.inverted[env.toLowercase token]? with
    | none =>
      rw [hps', Option.getD_none] at hentry
      dsimp only
      split
      · exact hstep
      · have hnone := hfold (idf a corpus.1
          (other.postings.docFreqs[env.toLowercase token]?.getD 0))
        rwa [← hentry, List.foldl_nil] at hnone
    | some ps' =>
      rw [hps', Option.getD_some] at hentry
      have hall : (ps'.filter fun e => !((none : Option (List Bool)).any fun ex =>
          isExcluded ex e.1)) = ps' := List.filter_eq_self.mpr fun _ _ => rfl
      dsimp only
      rw [hall, hentry]
      split
      · exact hstep
      · exact hfold _

theorem foldl_scoreTerm_inStep (h : Served index other excluded entries) (corpus : ℕ × F)
    (tokens : List String) {state state' : Scored F}
    (hstep : InStep (newPosition excluded entries.length) state state') :
    InStep (newPosition excluded entries.length)
      (tokens.foldl (scoreTerm env a index (some excluded) corpus) state)
      (tokens.foldl (scoreTerm env a other none corpus) state') := by
  induction tokens generalizing state state' with
  | nil => exact hstep
  | cons token tokens ih => exact ih (h.scoreTerm_inStep corpus token hstep)

/-- Boosts are added in step. -/
theorem boost_inStep (h : Served index other excluded entries) (query : String)
    {touched touched' : List ℕ} {f g : ℕ → F}
    (hf : ∀ i j, newPosition excluded entries.length i = some j → f i = g j)
    (htouched : touched.map (newPosition excluded entries.length) = touched'.map some) :
    ∀ i j, newPosition excluded entries.length i = some j →
      boostTouched env a query index.chunks ⟨f, touched⟩ i =
        boostTouched env a query other.chunks ⟨g, touched'⟩ j := by
  unfold boostTouched
  dsimp only
  induction touched generalizing touched' f g with
  | nil =>
    rw [List.map_nil, eq_comm, List.map_eq_nil_iff] at htouched
    subst htouched
    exact hf
  | cons k touched ih =>
    rw [List.map_cons, eq_comm, List.map_eq_cons_iff] at htouched
    obtain ⟨l, rest, rfl, hl, hrest⟩ := htouched
    rw [List.foldl_cons, List.foldl_cons]
    apply ih _ hrest.symm
    have hchunk := h.chunk_eq hl.symm
    rw [hchunk]
    cases index.chunks[k]? with
    | none => exact hf
    | some chunk =>
      rw [Option.elim_some, Option.elim_some, hf k l hl.symm]
      exact inStep_update (newPosition_injective excluded entries.length) hf hl.symm _

end Served

/-- A result under the new number of its chunk. -/
def renumbered (excluded : List Bool) (n : ℕ) (r : SearchResult F) : SearchResult F :=
  { r with chunkIdx := (newPosition excluded n r.chunkIdx).getD r.chunkIdx }

/-- Sorting does not read positions. -/
theorem sortResults_renumbered (excluded : List Bool) (n : ℕ) (results : List (SearchResult F)) :
    (sortResults a results).map (renumbered excluded n) =
      sortResults a (results.map (renumbered excluded n)) := by
  unfold sortResults
  apply List.map_mergeSort
  intro r _ r' _
  rfl

namespace Served

theorem results_inStep (h : Served index other excluded entries) (tokens : List String)
    {f g : ℕ → F} {touched touched' : List ℕ}
    (hf : ∀ i j, newPosition excluded entries.length i = some j → f i = g j)
    (htouched : touched.map (newPosition excluded entries.length) = touched'.map some) :
    ((touched.filter fun idx => a.isPositive (f idx)).filterMap fun idx =>
        (index.chunks[idx]?).map (resultOf env tokens idx (f idx))).map
          (renumbered excluded entries.length) =
      (touched'.filter fun idx => a.isPositive (g idx)).filterMap fun idx =>
        (other.chunks[idx]?).map (resultOf env tokens idx (g idx)) := by
  induction touched generalizing touched' with
  | nil =>
    rw [List.map_nil, eq_comm, List.map_eq_nil_iff] at htouched
    subst htouched
    rfl
  | cons k touched ih =>
    rw [List.map_cons, eq_comm, List.map_eq_cons_iff] at htouched
    obtain ⟨l, rest, rfl, hl, hrest⟩ := htouched
    have htail := ih hrest.symm
    rw [List.filter_cons, List.filter_cons, hf k l hl.symm]
    split
    · rw [List.filterMap_cons, List.filterMap_cons, h.chunk_eq hl.symm]
      cases index.chunks[k]? with
      | none => exact htail
      | some chunk =>
        rw [Option.map_some, Option.map_some]
        dsimp only
        rw [List.map_cons, htail, hf k l hl.symm]
        congr 1
        unfold renumbered resultOf
        dsimp only
        rw [hl.symm, Option.getD_some]
    · exact htail

/-- The statistics are those of the other index. -/
theorem servedCorpus_eq (h : Served index other excluded entries)
    (hne : (servedCorpus a index excluded).1 ≠ 0) :
    servedCorpus a index excluded = fullCorpus a other := by
  have hkept : ((index.chunks.zipIdx.filter fun c => !isExcluded excluded c.2).map Prod.fst) =
      other.chunks := by
    have hlen := h.length_chunks
    rw [← kept_keepsFrom, hlen, h.full.chunks, kept_map_right, h.rest.chunks]
  have hcount : (index.chunks.zipIdx.filter fun c => !isExcluded excluded c.2).length =
      other.docCount := by
    rw [h.restCount.1, ← hkept, List.length_map]
  have hsum : ((index.chunks.zipIdx.filter fun c => !isExcluded excluded c.2).map
      fun c => c.1.tokenCount) = other.chunks.map CodeChunk.tokenCount := by
    rw [← hkept, List.map_map]
    rfl
  unfold servedCorpus fullCorpus at *
  dsimp only at *
  split
  · rename_i hzero
    rw [if_pos hzero] at hne
    exact absurd rfl hne
  · rw [hcount, hsum]

theorem docCount_eq_zero_iff (h : Served index other excluded entries) :
    (servedCorpus a index excluded).1 = 0 ↔ other.docCount = 0 := by
  have hkept : ((index.chunks.zipIdx.filter fun c => !isExcluded excluded c.2).map Prod.fst) =
      other.chunks := by
    have hlen := h.length_chunks
    rw [← kept_keepsFrom, hlen, h.full.chunks, kept_map_right, h.rest.chunks]
  rw [h.restCount.1, ← hkept, List.length_map]
  unfold servedCorpus
  dsimp only
  split
  · rename_i hzero
    simp [hzero]
  · rfl

/-- The ranking with chunks excluded is the ranking of the index without them. -/
theorem rank_eq (h : Served index other excluded entries) (query : String) :
    (rank env a index query (some excluded)).map (renumbered excluded entries.length) =
      rank env a other query none := by
  unfold rank corpusOf
  dsimp only
  by_cases htokens : queryTokens env query = []
  · simp [htokens]
  · by_cases hserved : (servedCorpus a index excluded).1 = 0
    · have hother := h.docCount_eq_zero_iff.mp hserved
      rw [if_pos (by simp [hother] : (decide (queryTokens env query = []) ||
        decide (other.docCount = 0)) = true)]
      split <;> rfl
    · have hother : other.docCount ≠ 0 := fun hz => hserved (h.docCount_eq_zero_iff.mpr hz)
      have hindex : index.docCount ≠ 0 := by
        intro hz
        apply hserved
        have hnil : index.chunks = [] := by
          rw [h.fullCount.1] at hz
          exact List.eq_nil_of_length_eq_zero hz
        rw [servedCorpus, hnil]
        rfl
      have hcorpus := h.servedCorpus_eq hserved
      have hfull : (fullCorpus a other).1 ≠ 0 := hother
      have hask : ¬(decide (queryTokens env query = []) || decide (index.docCount = 0)) = true := by
        simp [htokens, hindex]
      have hask' : ¬(decide (queryTokens env query = []) || decide (other.docCount = 0)) = true := by
        simp [htokens, hother]
      rw [if_neg hask, if_neg hask', if_neg hserved, if_neg hfull, rankUnder, rankUnder,
        sortResults_renumbered, hcorpus]
      have hstart : InStep (newPosition excluded entries.length)
          (⟨fun _ => a.lit 0, []⟩ : Scored F) ⟨fun _ => a.lit 0, []⟩ := ⟨fun _ _ _ => rfl, rfl⟩
      have hstep := @h.foldl_scoreTerm_inStep _ env a _ _ _ _ (fullCorpus a other)
        (queryTokens env query) _ _ hstart
      have hboost := @h.boost_inStep _ env a _ _ _ _ query _ _ _ _ hstep.scores hstep.touched
      rw [h.results_inStep _ hboost hstep.touched]

end Served

end LeanCtx.SearchIndex
