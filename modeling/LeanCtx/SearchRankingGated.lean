import LeanCtx.SearchRankingServed

/-!
# Gated searches

A search through a gate ranks and walks until no further chunk is refused; where
a source authority is required it first decides which chunks count. What is
returned is the start of the ranking of an index that never held the chunks left
out.
-/

namespace LeanCtx.SearchIndex

open InvertedIndex TextFile

variable {F : Type} {env : Env} {a : Scoring F}

variable {index other : BM25Index} {excluded : List Bool} {entries : List Entry}

/-! ## Chunks of a ranking -/

/-- A result is of a chunk that was touched. -/
theorem mem_rank {query : String} {ex : Option (List Bool)} {r : SearchResult F}
    (h : r ∈ rank env a index query ex) : ∃ (corpus : ℕ × F) (chunk : CodeChunk),
      r.chunkIdx ∈ ((queryTokens env query).foldl (scoreTerm env a index ex corpus)
        ⟨fun _ => a.lit 0, []⟩).touched ∧ index.chunks[r.chunkIdx]? = some chunk := by
  unfold rank at h
  dsimp only at h
  generalize corpusOf a index ex = corpus at h
  split at h
  · cases h
  · split at h
    · cases h
    · rw [rankUnder, sortResults, List.mem_mergeSort, List.mem_filterMap] at h
      obtain ⟨idx, htouched, hr⟩ := h
      obtain ⟨chunk, hchunk, rfl⟩ := Option.map_eq_some_iff.mp hr
      exact ⟨corpus, chunk, List.mem_of_mem_filter htouched, hchunk⟩

/-- The index without the excluded chunks. -/
theorem served_ofEntries (h : Consistent index entries) (hcount : Counted index)
    (excluded : List Bool) :
    Served index (ofEntries (kept (keepsFrom excluded 0 entries.length) entries)) excluded
      entries where
  full := h
  fullCount := hcount
  rest := consistent_ofEntries fun e he => h.tokenCount e (mem_of_mem_kept he)
  restCount := counted_finalize _

theorem keepsFrom_nil (start n : ℕ) : keepsFrom [] start n = List.replicate n true := by
  have hall : ∀ i ∈ List.range' start n, (!isExcluded [] i) = true := fun i _ => rfl
  rw [keepsFrom, List.map_eq_replicate_iff.mpr hall, List.length_range']

theorem renumber_replicate_true (start n i : ℕ) (hi : i < n) :
    (renumber start (List.replicate n true))[i]? = some (some (start + i)) := by
  induction n generalizing start i with
  | zero => omega
  | succ n ih =>
    rw [List.replicate_succ, renumber]
    cases i with
    | zero => rfl
    | succ i =>
      rw [List.getElem?_cons_succ, ih _ _ (by omega), Nat.add_assoc, Nat.add_comm 1 i]

theorem kept_replicate_true {α : Type} (l : List α) :
    kept (List.replicate l.length true) l = l := by
  induction l with
  | nil => rfl
  | cons c l ih => rw [List.length_cons, List.replicate_succ, kept, if_pos rfl, ih]

/-- Nothing excluded. -/
theorem served_self (h : Consistent index entries) (hcount : Counted index) :
    Served index index [] entries where
  full := h
  fullCount := hcount
  rest := by
    rw [keepsFrom_nil, kept_replicate_true]
    exact h
  restCount := hcount

/-- Excluded chunks are not ranked. -/
theorem not_excluded_of_mem_rank (h : Consistent index entries) (hcount : Counted index)
    {query : String} {r : SearchResult F} (hr : r ∈ rank env a index query (some excluded)) :
    isExcluded excluded r.chunkIdx = false := by
  obtain ⟨corpus, chunk, htouched, hchunk⟩ := mem_rank hr
  have hserved := served_ofEntries h hcount excluded
  have hlt : r.chunkIdx < entries.length := by
    rw [← hserved.length_chunks]
    exact (List.getElem?_eq_some_iff.mp hchunk).1
  have hstart : InStep (newPosition excluded entries.length)
      (⟨fun _ => a.lit 0, []⟩ : Scored F) ⟨fun _ => a.lit 0, []⟩ := ⟨fun _ _ _ => rfl, rfl⟩
  have hstep := @hserved.foldl_scoreTerm_inStep _ env a _ _ _ _ corpus (queryTokens env query) _ _
    hstart
  have hmem := List.mem_map_of_mem (f := newPosition excluded entries.length) htouched
  rw [hstep.touched, List.mem_map] at hmem
  obtain ⟨j, -, hj⟩ := hmem
  have hsome := @newPosition_isSome excluded _ _ hlt
  rw [← hj, Option.isSome_some] at hsome
  simpa using hsome.symm

/-! ## Walks -/

/-- Every result is of a chunk that the gate serves. -/
def AllAdmitted (gate : SourceGate) (index : BM25Index) (results : List (SearchResult F)) : Prop :=
  ∀ r ∈ results, ∃ chunk, index.chunks[r.chunkIdx]? = some chunk ∧
    gate.serves chunk.filePath chunk.content = true

def Refused (gate : SourceGate) (index : BM25Index) (i : ℕ) : Prop :=
  ∀ chunk, index.chunks[i]? = some chunk → gate.serves chunk.filePath chunk.content = false

variable {gate : SourceGate} {topK : ℕ}

theorem refused_subset_walk (ranked : List (SearchResult F)) (w : Walk F) :
    w.refused ⊆ (walk index topK gate ranked w).refused := by
  induction ranked generalizing w with
  | nil => exact Finset.Subset.refl _
  | cons r ranked ih =>
    unfold walk
    split
    · exact Finset.Subset.refl _
    · split
      · exact (Finset.subset_insert _ _).trans
          (ih { w with refused := insert r.chunkIdx w.refused })
      · rename_i chunk _
        dsimp only
        split
        · exact ih { w with served := w.served ++ [r], asked := chunk.filePath :: w.asked }
        · exact (Finset.subset_insert _ _).trans (ih { w with
            refused := insert r.chunkIdx w.refused, asked := chunk.filePath :: w.asked })

/-- A walk serves what the gate admits and records what it refuses. -/
theorem walk_spec (ranked : List (SearchResult F)) (w : Walk F)
    (hserved : AllAdmitted gate index w.served) (hrefused : ∀ i ∈ w.refused, Refused gate index i) :
    AllAdmitted gate index (walk index topK gate ranked w).served ∧
      ∀ i ∈ (walk index topK gate ranked w).refused, Refused gate index i := by
  induction ranked generalizing w with
  | nil => exact ⟨hserved, hrefused⟩
  | cons r ranked ih =>
    have hinsert (h : Refused gate index r.chunkIdx) :
        ∀ i ∈ insert r.chunkIdx w.refused, Refused gate index i := by
      intro i hi
      rcases Finset.mem_insert.mp hi with rfl | hi
      · exact h
      · exact hrefused i hi
    unfold walk
    split
    · exact ⟨hserved, hrefused⟩
    · split
      · rename_i hnone
        apply ih { w with refused := insert r.chunkIdx w.refused } hserved
        apply hinsert
        intro chunk hchunk
        rw [hnone] at hchunk
        cases hchunk
      · rename_i chunk hchunk
        dsimp only
        split
        · rename_i hserves
          have happend : AllAdmitted gate index (w.served ++ [r]) := by
            intro r' hr'
            rcases List.mem_append.mp hr' with hr' | hr'
            · exact hserved r' hr'
            · rw [List.mem_singleton.mp hr']
              exact ⟨chunk, hchunk, hserves⟩
          exact ih { w with served := w.served ++ [r], asked := chunk.filePath :: w.asked }
            happend hrefused
        · rename_i hserves
          apply ih { w with
            refused := insert r.chunkIdx w.refused, asked := chunk.filePath :: w.asked } hserved
          apply hinsert
          intro chunk' hchunk'
          rw [hchunk, Option.some.injEq] at hchunk'
          subst hchunk'
          exact Bool.eq_false_of_not_eq_true hserves

/-- A walk that refuses nothing new serves the first results. -/
theorem walk_served (ranked : List (SearchResult F)) (w : Walk F)
    (hnew : ∀ r ∈ ranked, r.chunkIdx ∉ w.refused)
    (hsame : (walk index topK gate ranked w).refused = w.refused) :
    (walk index topK gate ranked w).served =
      w.served ++ ranked.take (topK - w.served.length) := by
  -- a chunk refused on the way would be new
  have habsurd {ranked : List (SearchResult F)} {w w' : Walk F} {r : SearchResult F}
      (hr : r.chunkIdx ∉ w.refused) (hw : w'.refused = insert r.chunkIdx w.refused)
      (hs : (walk index topK gate ranked w').refused = w.refused) : False := by
    apply hr
    rw [← hs]
    exact refused_subset_walk ranked w' (hw ▸ Finset.mem_insert_self _ _)
  induction ranked generalizing w with
  | nil => simp [walk]
  | cons r ranked ih =>
    obtain ⟨hr, hranked⟩ := List.forall_mem_cons.mp hnew
    unfold walk at hsame ⊢
    split
    · rename_i hfull
      rw [Nat.sub_eq_zero_of_le hfull, List.take_zero, List.append_nil]
    · rename_i hroom
      rw [if_neg hroom] at hsame
      split
      · rename_i hnone
        rw [hnone] at hsame
        exact (habsurd hr rfl hsame).elim
      · rename_i chunk hchunk
        rw [hchunk] at hsame
        dsimp only at hsame ⊢
        split
        · rename_i hserves
          rw [if_pos hserves] at hsame
          rw [ih { w with served := w.served ++ [r], asked := chunk.filePath :: w.asked } hranked
            hsame]
          dsimp only
          have hlen : topK - w.served.length = topK - (w.served ++ [r]).length + 1 := by
            rw [List.length_append, List.length_singleton]
            omega
          rw [hlen, List.take_succ_cons, List.append_assoc]
          rfl
        · rename_i hserves
          rw [if_neg hserves] at hsame
          exact (habsurd hr rfl hsame).elim

/-! ## Searches -/

/-- Only refused chunks are excluded. -/
def RefusedOnly (gate : SourceGate) (index : BM25Index) (excluded : List Bool) : Prop :=
  ∀ i, isExcluded excluded i = true → Refused gate index i

/-- The results are the first ones of the ranking of an index that never held some refused
chunks. -/
def RanksWithoutRefused (env : Env) (a : Scoring F) (index : BM25Index) (entries : List Entry)
    (gate : SourceGate) (query : String) (topK : ℕ) (results : List (SearchResult F)) : Prop :=
  ∃ excluded other, Served index other excluded entries ∧ RefusedOnly gate index excluded ∧
    results.map (renumbered excluded entries.length) = (rank env a other query none).take topK

/-- A ranking that is walked. -/
structure Ranking (env : Env) (a : Scoring F) (index : BM25Index) (entries : List Entry)
    (gate : SourceGate) (query : String) (ranked : List (SearchResult F)) (refused : Finset ℕ) :
    Prop where
  served : ∃ excluded other, Served index other excluded entries ∧
    RefusedOnly gate index excluded ∧
    ranked.map (renumbered excluded entries.length) = rank env a other query none
  known : ∀ i ∈ refused, Refused gate index i
  fresh : ∀ r ∈ ranked, r.chunkIdx ∉ refused

theorem isExcluded_zipIdx (p : CodeChunk × ℕ → Bool) (chunks : List CodeChunk) (i : ℕ) :
    isExcluded (chunks.zipIdx.map p) i = (chunks[i]?).elim false fun chunk => p (chunk, i) := by
  rw [isExcluded, List.getElem?_map, List.getElem?_zipIdx]
  cases chunks[i]? with
  | none => rfl
  | some chunk => simp

theorem rankings_spec {query : String} (h : Consistent index entries) (hcount : Counted index)
    (n : ℕ) (ranked : List (SearchResult F)) (refused : Finset ℕ) (asked : List String)
    (hranking : Ranking env a index entries gate query ranked refused) :
    rankings env a index query topK gate n ranked refused asked = [] ∨
      (RanksWithoutRefused env a index entries gate query topK
          (rankings env a index query topK gate n ranked refused asked) ∧
        AllAdmitted gate index (rankings env a index query topK gate n ranked refused asked)) := by
  induction n generalizing ranked refused asked with
  | zero => exact .inl rfl
  | succ n ih =>
    obtain ⟨hadmitted, hall⟩ := @walk_spec _ _ gate topK ranked ⟨[], refused, asked⟩
      (fun r hr => absurd hr List.not_mem_nil) hranking.known
    unfold rankings
    dsimp only
    split
    · rename_i hcard
      have hsame : (walk index topK gate ranked ⟨[], refused, asked⟩).refused = refused :=
        (Finset.eq_of_subset_of_card_le (refused_subset_walk ranked ⟨[], refused, asked⟩)
          (Nat.le_of_eq hcard)).symm
      have htake := walk_served ranked ⟨[], refused, asked⟩ hranking.fresh hsame
      rw [List.nil_append, List.length_nil, Nat.sub_zero] at htake
      refine .inr ⟨?_, hadmitted⟩
      obtain ⟨excluded, other, hserved, hrefused, heq⟩ := hranking.served
      refine ⟨excluded, other, hserved, hrefused, ?_⟩
      rw [htake, List.map_take, heq]
    · apply ih
      constructor
      · refine ⟨_, _, served_ofEntries h hcount _, ?_, (served_ofEntries h hcount _).rank_eq query⟩
        intro i hi chunk hchunk
        rw [isExcluded_zipIdx, hchunk, Option.elim_some, Bool.or_eq_true, decide_eq_true_eq,
          decide_eq_true_eq] at hi
        rcases hi with hi | hi
        · exact hall i hi chunk hchunk
        · unfold SourceGate.decided at hi
          split at hi
          · exact Option.some.inj hi
          · cases hi
      · exact hall
      · intro r hr hmem
        obtain ⟨-, chunk, -, hchunk⟩ := mem_rank hr
        have hnot := not_excluded_of_mem_rank h hcount hr
        rw [isExcluded_zipIdx, hchunk, Option.elim_some, Bool.or_eq_false_iff,
          decide_eq_false_iff_not] at hnot
        exact hnot.1 hmem

/-- The plain ranking leaves nothing out. -/
theorem ranking_none {query : String} (h : Consistent index entries) (hcount : Counted index) :
    Ranking env a index entries gate query (rank env a index query none) ∅ where
  served := by
    refine ⟨[], index, served_self h hcount, ?_, ?_⟩
    · intro i hi
      cases hi
    · rw [List.map_congr_left, List.map_id]
      intro r hr
      obtain ⟨-, chunk, -, hchunk⟩ := mem_rank hr
      have hlt : r.chunkIdx < entries.length := by
        rw [← (served_self h hcount).length_chunks]
        exact (List.getElem?_eq_some_iff.mp hchunk).1
      rw [renumbered, newPosition, keepsFrom_nil, renumber_replicate_true _ _ _ hlt, Nat.zero_add]
      rfl
  known := by simp
  fresh := by simp

theorem searchGated_unprotected {query : String} (h : Consistent index entries)
    (hcount : Counted index) (hgate : gate.isProtected = false) :
    searchGated env a index query topK (some gate) = [] ∨
      (RanksWithoutRefused env a index entries gate query topK
          (searchGated env a index query topK (some gate)) ∧
        AllAdmitted gate index (searchGated env a index query topK (some gate))) := by
  unfold searchGated
  dsimp only
  rw [if_neg (by simp [hgate])]
  exact rankings_spec h hcount maxRankings _ ∅ [] (ranking_none h hcount)

/-! ## Protected searches -/

/-- The source has a chunk that holds a term of the query. -/
def Matches (env : Env) (index : BM25Index) (query source : String) : Prop :=
  ∃ term ∈ (queryTokens env query).map env.toLowercase, ∃ ps,
    index.postings.inverted[term]? = some ps ∧
      ∃ e ∈ ps, ∃ chunk, index.chunks[e.1]? = some chunk ∧ chunk.filePath = source

theorem mem_countSource (found : OrdMap String (ℕ × ℕ)) (ps : List (ℕ × ℚ)) (source : String) :
    source ∈ countSource index found ps ↔ source ∈ found ∨
      ∃ e ∈ ps, ∃ chunk, index.chunks[e.1]? = some chunk ∧ chunk.filePath = source := by
  unfold countSource
  generalize ([] : List String) = holding
  induction ps generalizing found holding with
  | nil => simp
  | cons e ps ih =>
    rw [List.foldl_cons]
    cases hchunk : index.chunks[e.1]? with
    | none =>
      dsimp only
      rw [ih]
      simp [hchunk]
    | some chunk =>
      dsimp only
      split
      · rw [ih, Std.ExtTreeMap.mem_insert, Std.compare_eq_iff_eq]
        simp only [List.mem_cons, exists_eq_or_imp, hchunk, Option.some.injEq, exists_eq_left']
        tauto
      · rw [ih, Std.ExtTreeMap.mem_insert, Std.compare_eq_iff_eq]
        simp only [List.mem_cons, exists_eq_or_imp, hchunk, Option.some.injEq, exists_eq_left']
        tauto

theorem mem_foundSources (query source : String) :
    source ∈ foundSources env index query ↔ Matches env index query source := by
  have hfold : ∀ (terms : List String) (found : OrdMap String (ℕ × ℕ)),
      source ∈ terms.foldl (fun found term =>
        (index.postings.inverted[term]?).elim found (countSource index found)) found ↔
      source ∈ found ∨ ∃ term ∈ terms, ∃ ps, index.postings.inverted[term]? = some ps ∧
        ∃ e ∈ ps, ∃ chunk, index.chunks[e.1]? = some chunk ∧ chunk.filePath = source := by
    intro terms
    induction terms with
    | nil => simp
    | cons term terms ih =>
      intro found
      rw [List.foldl_cons, ih]
      cases hps : index.postings.inverted[term]? with
      | none => simp [hps]
      | some ps =>
        rw [Option.elim_some, mem_countSource]
        simp only [List.mem_cons, exists_eq_or_imp, hps, Option.some.injEq, exists_eq_left']
        rw [or_assoc]
  unfold foundSources
  dsimp only
  rw [hfold]
  simp [Matches]

theorem mem_candidateSources {query source : String}
    (h : (foundSources env index query).size ≤ maxSources) :
    source ∈ candidateSources env index query ↔ Matches env index query source := by
  have hlen : ((foundSources env index query).toList.mergeSort sourceBefore).length ≤
      maxSources := by
    rw [List.length_mergeSort, Std.ExtTreeMap.length_toList]
    exact h
  rw [candidateSources, List.take_of_length_le hlen, ← mem_foundSources, List.mem_map]
  constructor
  · rintro ⟨e, he, rfl⟩
    rw [List.mem_mergeSort] at he
    have hkey := List.mem_map_of_mem (f := Prod.fst) he
    rw [Std.ExtTreeMap.map_fst_toList_eq_keys] at hkey
    exact Std.ExtTreeMap.mem_keys.mp hkey
  · intro hmem
    have hkey := Std.ExtTreeMap.mem_keys.mpr hmem
    rw [← Std.ExtTreeMap.map_fst_toList_eq_keys, List.mem_map] at hkey
    obtain ⟨e, he, heq⟩ := hkey
    exact ⟨e, List.mem_mergeSort.mpr he, heq⟩

/-- The chunks that a protected search counts. -/
def admits (gate : SourceGate) (sources : List String) (chunk : CodeChunk) : Bool :=
  chunk.filePath ∈ sources && gate.serves chunk.filePath chunk.content

def admittedMask (gate : SourceGate) (sources : List String) (index : BM25Index) : List Bool :=
  index.chunks.map fun c => !admits gate sources c

theorem isExcluded_admittedMask {sources : List String} {i : ℕ} {chunk : CodeChunk}
    (h : index.chunks[i]? = some chunk) :
    isExcluded (admittedMask gate sources index) i = !admits gate sources chunk := by
  rw [isExcluded, admittedMask, List.getElem?_map, h]
  rfl

theorem kept_admittedMask (h : Consistent index entries) (sources : List String) :
    kept (keepsFrom (admittedMask gate sources index) 0 entries.length) entries =
      entries.filter fun e => admits gate sources e.1 := by
  have hkeeps : keepsFrom (admittedMask gate sources index) 0 entries.length =
      entries.map fun e => admits gate sources e.1 := by
    apply List.ext_getElem?
    intro i
    rw [keepsFrom, List.getElem?_map, List.getElem?_map]
    by_cases hi : i < entries.length
    · have hchunk : index.chunks[i]? = some entries[i].1 := by
        rw [h.chunks, List.getElem?_map, List.getElem?_eq_getElem hi, Option.map_some]
      rw [List.getElem?_range' hi, List.getElem?_eq_getElem hi, Option.map_some, Option.map_some,
        Nat.zero_add, Nat.one_mul, isExcluded_admittedMask hchunk, Bool.not_not]
    · rw [List.getElem?_eq_none (by simpa using hi), List.getElem?_eq_none (by omega)]
      rfl
  rw [hkeeps]
  have hmap := kept_map (fun e : Entry => admits gate sources e.1) id entries
  rwa [List.map_id, List.map_id] at hmap

/-- A protected search ranks an index that holds the admitted chunks of its sources only. -/
theorem searchAdmittedCorpus_eq (h : Consistent index entries) (hcount : Counted index)
    (query : String) :
    (searchAdmittedCorpus env a index query topK gate).map
        (renumbered (admittedMask gate (candidateSources env index query) index) entries.length) =
      (rank env a (ofEntries (entries.filter fun e =>
        admits gate (candidateSources env index query) e.1)) query none).take topK := by
  have hserved := served_ofEntries h hcount
    (admittedMask gate (candidateSources env index query) index)
  rw [kept_admittedMask h] at hserved
  rw [← hserved.rank_eq, ← List.map_take]
  rfl

theorem allAdmitted_searchAdmittedCorpus (h : Consistent index entries) (hcount : Counted index)
    (query : String) :
    AllAdmitted gate index (searchAdmittedCorpus env a index query topK gate) := by
  intro r hr
  have hrank := List.mem_of_mem_take hr
  obtain ⟨-, chunk, -, hchunk⟩ := mem_rank hrank
  have hnot := not_excluded_of_mem_rank h hcount hrank
  have hmask : isExcluded (admittedMask gate (candidateSources env index query) index)
      r.chunkIdx = false := hnot
  rw [isExcluded_admittedMask hchunk, Bool.not_eq_false', admits, Bool.and_eq_true] at hmask
  exact ⟨chunk, hchunk, hmask.2⟩

/-- A result without its position. -/
def unplaced (r : SearchResult F) : SearchResult F := { r with chunkIdx := 0 }

theorem unplaced_renumbered (excluded : List Bool) (n : ℕ) (r : SearchResult F) :
    unplaced (renumbered excluded n r) = unplaced r := rfl

/-- Two indexes whose matching sources have the same admitted chunks give the same results. -/
theorem searchAdmittedCorpus_congr {index' : BM25Index} {entries' : List Entry} {query : String}
    (h : Consistent index entries) (hcount : Counted index) (h' : Consistent index' entries')
    (hcount' : Counted index')
    (hsame : (entries.filter fun e => admits gate (candidateSources env index query) e.1) =
      entries'.filter fun e => admits gate (candidateSources env index' query) e.1) :
    (searchAdmittedCorpus env a index query topK gate).map unplaced =
      (searchAdmittedCorpus env a index' query topK gate).map unplaced := by
  have hleft := congrArg (List.map unplaced)
    (@searchAdmittedCorpus_eq _ env a _ _ gate topK h hcount query)
  have hright := congrArg (List.map unplaced)
    (@searchAdmittedCorpus_eq _ env a _ _ gate topK h' hcount' query)
  rw [List.map_map] at hleft hright
  simp only [Function.comp_def, unplaced_renumbered] at hleft hright
  rw [← hsame] at hright
  exact hleft.trans hright.symm

/-- Sources that match in both indexes or in neither, as far as they have admitted chunks. -/
theorem filter_admits_congr {index' : BM25Index} {entries' : List Entry} {query : String}
    (hsize : (foundSources env index query).size ≤ maxSources)
    (hsize' : (foundSources env index' query).size ≤ maxSources)
    (hsame : (entries.filter fun e => gate.serves e.1.filePath e.1.content) =
      entries'.filter fun e => gate.serves e.1.filePath e.1.content)
    (hsources : ∀ e ∈ entries, gate.serves e.1.filePath e.1.content = true →
      (Matches env index query e.1.filePath ↔ Matches env index' query e.1.filePath)) :
    (entries.filter fun e => admits gate (candidateSources env index query) e.1) =
      entries'.filter fun e => admits gate (candidateSources env index' query) e.1 := by
  unfold admits
  rw [← List.filter_filter, ← List.filter_filter, ← hsame]
  apply List.filter_congr
  intro e he
  obtain ⟨hmem, hserves⟩ := List.mem_filter.mp he
  rw [decide_eq_decide, mem_candidateSources hsize, mem_candidateSources hsize']
  exact hsources e hmem hserves

/-- Chunks that are withheld do not move a ranking: with chunks excluded it is that of an index
that never held them, and a gated search returns nothing or the start of such a ranking. -/
theorem withheld_chunks_do_not_rank (a : Scoring F) (h : Consistent index entries)
    (hcount : Counted index) (query : String) :
    (∀ excluded, (rank env a index query (some excluded)).map
        (renumbered excluded entries.length) =
      rank env a (ofEntries (kept (keepsFrom excluded 0 entries.length) entries)) query none) ∧
    (∀ gate topK, gate.isProtected = false →
      searchGated env a index query topK (some gate) = [] ∨
        (RanksWithoutRefused env a index entries gate query topK
            (searchGated env a index query topK (some gate)) ∧
          AllAdmitted gate index (searchGated env a index query topK (some gate)))) ∧
    (∀ gate topK, gate.isProtected = true →
      (searchGated env a index query topK (some gate)).map
          (renumbered (admittedMask gate (candidateSources env index query) index)
            entries.length) =
        (rank env a (ofEntries (entries.filter fun e =>
          admits gate (candidateSources env index query) e.1)) query none).take topK ∧
      AllAdmitted gate index (searchGated env a index query topK (some gate))) ∧
    ∀ gate topK index' entries', gate.isProtected = true →
      Consistent index' entries' → Counted index' →
      (foundSources env index query).size ≤ maxSources →
      (foundSources env index' query).size ≤ maxSources →
      (entries.filter fun e => gate.serves e.1.filePath e.1.content) =
        (entries'.filter fun e => gate.serves e.1.filePath e.1.content) →
      (∀ e ∈ entries, gate.serves e.1.filePath e.1.content = true →
        (Matches env index query e.1.filePath ↔ Matches env index' query e.1.filePath)) →
      (searchGated env a index query topK (some gate)).map unplaced =
        (searchGated env a index' query topK (some gate)).map unplaced := by
  have hprotected {gate : SourceGate} (hgate : gate.isProtected = true) (index : BM25Index)
      (topK : ℕ) : searchGated env a index query topK (some gate) =
        searchAdmittedCorpus env a index query topK gate := by
    rw [searchGated, if_pos hgate]
  refine ⟨fun excluded => (served_ofEntries h hcount excluded).rank_eq query,
    fun gate topK hgate => searchGated_unprotected h hcount hgate, ?_, ?_⟩
  · intro gate topK hgate
    rw [hprotected hgate]
    exact ⟨searchAdmittedCorpus_eq h hcount query, allAdmitted_searchAdmittedCorpus h hcount query⟩
  · intro gate topK index' entries' hgate h' hcount' hsize hsize' hsame hsources
    rw [hprotected hgate, hprotected hgate]
    exact searchAdmittedCorpus_congr h hcount h' hcount'
      (filter_admits_congr hsize hsize' hsame hsources)

/-! ## One chunk that matches -/

/-- The score of the only posting of the only query term. -/
def onlyScore (env : Env) (a : Scoring F) (query : String) (n d : ℕ) (avg : F) (w : ℚ)
    (chunk : CodeChunk) : F :=
  a.add (a.add (a.lit 0) (bm25 a (idf a n d) avg w chunk.tokenCount))
    (structuralQueryBoost env a query chunk)

theorem rank_single {query token : String} {i d : ℕ} {w : ℚ} {chunk : CodeChunk}
    (htokens : queryTokens env query = [token])
    (hps : index.postings.inverted[env.toLowercase token]? = some [(i, w)])
    (hchunk : index.chunks[i]? = some chunk) (hcount : index.docCount ≠ 0)
    (hd : index.postings.docFreqs[env.toLowercase token]?.getD 0 = d)
    (hdf : a.isZero (a.ofNat d) = false) (hzero : a.isZero (a.lit 0) = true)
    (hpos : a.isPositive
      (onlyScore env a query index.docCount d (fullCorpus a index).2 w chunk) = true) :
    rank env a index query none = [resultOf env [token] i
      (onlyScore env a query index.docCount d (fullCorpus a index).2 w chunk) chunk] := by
  have hcorpus : (corpusOf a index none).1 ≠ 0 := hcount
  have hstate : scoreTerm env a index none (corpusOf a index none) ⟨fun _ => a.lit 0, []⟩ token =
      ⟨Function.update (fun _ => a.lit 0) i (a.add (a.lit 0)
        (bm25 a (idf a index.docCount d) (fullCorpus a index).2 w chunk.tokenCount)), [i]⟩ := by
    simp [scoreTerm, hps, hd, hdf, scorePosting, hchunk, hzero, corpusOf, fullCorpus]
  have hboost : boostTouched env a query index.chunks
      ⟨Function.update (fun _ => a.lit 0) i (a.add (a.lit 0)
        (bm25 a (idf a index.docCount d) (fullCorpus a index).2 w chunk.tokenCount)), [i]⟩ i =
      onlyScore env a query index.docCount d (fullCorpus a index).2 w chunk := by
    simp [boostTouched, hchunk, onlyScore]
  unfold rank
  dsimp only
  rw [if_neg (by simp [htokens, hcount]), if_neg hcorpus, rankUnder, htokens, List.foldl_cons,
    List.foldl_nil, hstate]
  simp only [List.filter_cons, List.filter_nil, hboost, hpos, if_true, List.filterMap_cons, hchunk,
    Option.map_some, List.filterMap_nil]
  rw [sortResults, List.mergeSort_singleton]

theorem matches_of_mem_candidateSources {query source : String}
    (h : source ∈ candidateSources env index query) : Matches env index query source := by
  obtain ⟨e, he, rfl⟩ := List.mem_map.mp h
  have hmem := List.mem_mergeSort.mp (List.mem_of_mem_take he)
  have hkey := List.mem_map_of_mem (f := Prod.fst) hmem
  rw [Std.ExtTreeMap.map_fst_toList_eq_keys] at hkey
  exact (mem_foundSources query e.1).mp (Std.ExtTreeMap.mem_keys.mp hkey)

/-- No more sources are found than there are chunks. -/
theorem size_foundSources_le (query : String) :
    (foundSources env index query).size ≤ index.chunks.length := by
  have hnodup : (foundSources env index query).keys.Nodup := Std.ExtTreeMap.nodup_keys
  have hsub : (foundSources env index query).keys ⊆ index.chunks.map CodeChunk.filePath := by
    intro source hsource
    obtain ⟨_, _, _, _, _, _, chunk, hchunk, rfl⟩ :=
      (mem_foundSources query source).mp (Std.ExtTreeMap.mem_keys.mp hsource)
    exact List.mem_map_of_mem (List.mem_of_getElem? hchunk)
  rw [← Std.ExtTreeMap.length_keys, ← @List.length_map _ _ _ CodeChunk.filePath]
  exact (hnodup.subperm hsub).length_le

/-- Exact arithmetic, with the logarithm replaced by the identity. -/
def exactScoring : Scoring ℚ where
  ofNat n := n
  lit q := q
  add x y := x + y
  sub x y := x - y
  mul x y := x * y
  div x y := x / y
  max x y := if x ≤ y then y else x
  ln x := x
  isZero x := x = 0
  isPositive x := 0 < x
  partialCmp x y := some (compare x y)
  isLowercase := Char.isLower
  isWhitespace := Char.isWhitespace
  extension path := String.ofList ((path.toList.dropWhile (· ≠ '.')).drop 1)

def matchingEntry : Entry := (⟨"m.rs", "f", .function, 1, 1, "fn f() \x7b\x7d", [], 1⟩, ["fn"])

def otherEntry : Entry := (⟨"n.rs", "g", .function, 1, 1, "gg()", [], 1⟩, ["gg"])

/-- In an index in which one chunk matches, the query's entry has one posting. -/
theorem lookup_matchingEntry {index : BM25Index} {rest : List Entry}
    (h : Consistent index (matchingEntry :: rest)) (hrest : ∀ e ∈ rest, "fn" ∉ e.2) :
    index.postings.inverted["fn"]? = some [(0, 1)] ∧
      index.postings.docFreqs["fn"]?.getD 0 = 1 ∧ index.chunks[0]? = some matchingEntry.1 := by
  have htail : freqOf (rest.map Prod.snd) "fn" = 0 := by
    rw [freqOf, List.countP_eq_zero]
    intro doc hdoc
    obtain ⟨e, he, rfl⟩ := List.mem_map.mp hdoc
    simpa using hrest e he
  have hps : postingsOf ((matchingEntry :: rest).map Prod.snd) "fn" = [(0, 1)] := by
    have hcons := postingsFrom_cons 0 matchingEntry.2 (rest.map Prod.snd) "fn"
    rw [(postingsFrom_eq_nil_iff _ _ _).mpr htail] at hcons
    exact hcons
  have hne : postingsOf ((matchingEntry :: rest).map Prod.snd) "fn" ≠ [] := by
    rw [hps]
    exact List.cons_ne_nil _ _
  refine ⟨(h.postings.lookup hne).trans (by rw [hps]), ?_, ?_⟩
  · rw [(h.postings.docFreqs "fn").1, List.map_cons, freqOf, List.countP_cons]
    rw [freqOf] at htail
    rw [htail]
    rfl
  · rw [h.chunks]
    rfl

theorem queryTokens_fn : queryTokens plainEnv "fn" = ["fn"] := by decide +kernel

theorem toLowercase_fn : plainEnv.toLowercase "fn" = "fn" := by decide +kernel

/-- The ranking of such an index. -/
theorem rank_matchingEntry {index : BM25Index} {rest : List Entry}
    (h : Consistent index (matchingEntry :: rest)) (hcount : Counted index)
    (hrest : ∀ e ∈ rest, "fn" ∉ e.2) (hpos : exactScoring.isPositive (onlyScore plainEnv exactScoring
      "fn" index.docCount 1 (fullCorpus exactScoring index).2 1 matchingEntry.1) = true) :
    rank plainEnv exactScoring index "fn" none = [resultOf plainEnv ["fn"] 0
      (onlyScore plainEnv exactScoring "fn" index.docCount 1 (fullCorpus exactScoring index).2 1
        matchingEntry.1) matchingEntry.1] := by
  obtain ⟨hlookup, hfreq, hchunk⟩ := lookup_matchingEntry h hrest
  have hdocs : index.docCount ≠ 0 := by
    rw [hcount.1, h.chunks, List.length_map, List.length_cons]
    omega
  apply rank_single queryTokens_fn
  · rw [toLowercase_fn]
    exact hlookup
  · exact hchunk
  · exact hdocs
  · rw [toLowercase_fn]
    exact hfreq
  · decide +kernel
  · decide +kernel
  · exact hpos

/-- Only the source of that chunk matches. -/
theorem matches_matchingEntry {index : BM25Index} {rest : List Entry} {source : String}
    (h : Consistent index (matchingEntry :: rest)) (hrest : ∀ e ∈ rest, "fn" ∉ e.2) :
    Matches plainEnv index "fn" source ↔ source = "m.rs" := by
  obtain ⟨hlookup, -, hchunk⟩ := lookup_matchingEntry h hrest
  unfold Matches
  rw [queryTokens_fn, List.map_singleton, toLowercase_fn]
  simp only [List.mem_singleton, exists_eq_left, hlookup, Option.some.injEq, exists_eq_left',
    hchunk]
  exact eq_comm

/-- A query of one short lower-case word has no boost. -/
theorem boost_matchingEntry :
    structuralQueryBoost plainEnv exactScoring "fn" matchingEntry.1 = 0 := by
  have hraw : (((splitAt (fun c => !(plainEnv.isAlphanumeric c || c = '_')) "fn").filter
      fun term => 3 ≤ byteLen term.toList).map asciiLowercase).dedup = [] := by decide +kernel
  have hidentifier : ((splitAt exactScoring.isWhitespace "fn").any fun term =>
      (term.toList.any exactScoring.isLowercase && term.toList.any plainEnv.isUppercase) ||
        '_' ∈ term.toList || '.' ∈ term.toList) = false := by decide +kernel
  unfold structuralQueryBoost
  dsimp only
  rw [hraw, hidentifier]
  simp [exactScoring]

/-- The score in an index of the matching chunk alone, and of both chunks. -/
theorem onlyScore_alone {index : BM25Index} (h : Consistent index [matchingEntry])
    (hcount : Counted index) :
    onlyScore plainEnv exactScoring "fn" index.docCount 1 (fullCorpus exactScoring index).2 1
      matchingEntry.1 = 4 / 3 := by
  have hdocs : index.docCount = 1 := by rw [hcount.1, h.chunks]; rfl
  rw [onlyScore, boost_matchingEntry, fullCorpus, hdocs, h.chunks]
  norm_num [exactScoring, bm25, idf, average, matchingEntry]

theorem onlyScore_both {index : BM25Index} (h : Consistent index [matchingEntry, otherEntry])
    (hcount : Counted index) :
    onlyScore plainEnv exactScoring "fn" index.docCount 1 (fullCorpus exactScoring index).2 1
      matchingEntry.1 = 2 := by
  have hdocs : index.docCount = 2 := by rw [hcount.1, h.chunks]; rfl
  rw [onlyScore, boost_matchingEntry, fullCorpus, hdocs, h.chunks]
  norm_num [exactScoring, bm25, idf, average, matchingEntry, otherEntry]

theorem rank_alone {index : BM25Index} (h : Consistent index [matchingEntry])
    (hcount : Counted index) : rank plainEnv exactScoring index "fn" none =
      [resultOf plainEnv ["fn"] 0 (4 / 3) matchingEntry.1] := by
  rw [rank_matchingEntry h hcount (by simp), onlyScore_alone h hcount]
  rw [onlyScore_alone h hcount]
  norm_num [exactScoring]

theorem rank_both {index : BM25Index} (h : Consistent index [matchingEntry, otherEntry])
    (hcount : Counted index) : rank plainEnv exactScoring index "fn" none =
      [resultOf plainEnv ["fn"] 0 2 matchingEntry.1] := by
  rw [rank_matchingEntry h hcount (by simp [otherEntry]), onlyScore_both h hcount]
  rw [onlyScore_both h hcount]
  norm_num [exactScoring]

/-! ## What a protected search does not ask -/

def bothEntries : List Entry := [matchingEntry, otherEntry]

theorem consistent_both : Consistent (ofEntries bothEntries) bothEntries :=
  consistent_ofEntries (by simp [bothEntries, matchingEntry, otherEntry])

theorem counted_both : Counted (ofEntries bothEntries) := counted_finalize _

def openGate : SourceGate := ⟨fun _ _ => true, fun _ => true, true⟩

/-- A protected search of both chunks asks for the source of the matching one only. -/
theorem filter_admits_both :
    (bothEntries.filter fun e => admits openGate
      (candidateSources plainEnv (ofEntries bothEntries) "fn") e.1) = [matchingEntry] := by
  have hsize : (foundSources plainEnv (ofEntries bothEntries) "fn").size ≤ maxSources := by
    have hle := @size_foundSources_le plainEnv (ofEntries bothEntries) "fn"
    rw [consistent_both.chunks] at hle
    exact hle.trans (by decide)
  have hmem (source : String) : source ∈ candidateSources plainEnv (ofEntries bothEntries) "fn" ↔
      source = "m.rs" := by
    rw [mem_candidateSources hsize]
    exact matches_matchingEntry consistent_both (by simp [otherEntry])
  have hadmits (e : Entry) : admits openGate
      (candidateSources plainEnv (ofEntries bothEntries) "fn") e.1 =
        decide (e.1.filePath = "m.rs") := by
    simp [admits, hmem, openGate]
  rw [List.filter_congr fun e _ => hadmits e]
  rfl

/-- The chunk that was not asked for is left out of the statistics, though nothing is refused. -/
theorem protected_search_not_of_refused :
    ¬∀ (env : Env) (a : Scoring ℚ) (index : BM25Index) (entries : List Entry) (gate : SourceGate)
      (query : String) (topK : ℕ), Consistent index entries → Counted index →
      searchGated env a index query topK (some gate) = [] ∨
        (RanksWithoutRefused env a index entries gate query topK
            (searchGated env a index query topK (some gate)) ∧
          AllAdmitted gate index (searchGated env a index query topK (some gate))) := by
  intro hall
  have hclaim := hall plainEnv exactScoring (ofEntries bothEntries) bothEntries openGate "fn" 1
    consistent_both counted_both
  have hresult := @searchAdmittedCorpus_eq _ plainEnv exactScoring _ _ openGate 1 consistent_both
    counted_both "fn"
  rw [filter_admits_both, rank_alone (consistent_ofEntries (by simp [matchingEntry]))
    (counted_finalize _)] at hresult
  have hprotected : searchGated plainEnv exactScoring (ofEntries bothEntries) "fn" 1
      (some openGate) = searchAdmittedCorpus plainEnv exactScoring (ofEntries bothEntries) "fn" 1
        openGate := rfl
  rw [hprotected] at hclaim
  rcases hclaim with hempty | ⟨⟨excluded, other, hserved, hrefused, heq⟩, -⟩
  · rw [hempty] at hresult
    cases hresult
  · -- nothing is refused, so the other index holds both chunks
    have hkept : kept (keepsFrom excluded 0 bothEntries.length) bothEntries = bothEntries := by
      have hnot : ∀ i < 2, isExcluded excluded i = false := by
        intro i hi
        apply Bool.eq_false_of_not_eq_true
        intro hex
        have hlt : i < (ofEntries bothEntries).chunks.length := by
          rw [consistent_both.chunks]
          exact hi
        exact Bool.false_ne_true
          (hrefused i hex _ (List.getElem?_eq_getElem hlt)).symm
      have hkeeps : keepsFrom excluded 0 bothEntries.length = [true, true] := by
        have hrange : keepsFrom excluded 0 bothEntries.length =
            [!isExcluded excluded 0, !isExcluded excluded 1] := rfl
        rw [hrange, hnot 0 (by omega), hnot 1 (by omega)]
        rfl
      rw [hkeeps]
      rfl
    have hrest := hserved.rest
    rw [hkept] at hrest
    rw [rank_both hrest hserved.restCount] at heq
    have hleft := congrArg (List.map fun r => (unplaced r).score) hresult
    have hright := congrArg (List.map fun r => (unplaced r).score) heq
    rw [List.map_map] at hleft hright
    simp only [Function.comp_def, unplaced_renumbered] at hleft hright
    rw [hleft] at hright
    have hscores : [(4 / 3 : ℚ)] = [2] := hright
    norm_num at hscores

/-- Excluding the other chunk ranks as if it had never been there. -/
theorem both_without_other :
    (rank plainEnv exactScoring (ofEntries bothEntries) "fn" (some [false, true])).map
        (renumbered [false, true] bothEntries.length) =
      rank plainEnv exactScoring (ofEntries [matchingEntry]) "fn" none :=
  (withheld_chunks_do_not_rank exactScoring consistent_both counted_both "fn").1 [false, true]

end LeanCtx.SearchIndex
