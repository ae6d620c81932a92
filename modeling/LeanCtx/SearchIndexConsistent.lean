import LeanCtx.SearchIndexEdit

/-!
# The search index stays consistent

Behind every index stands a list of entries: the stored chunks, each with the
terms it was added under. Every change of the index is a change of that list,
and the entries' terms tell the postings, the frequencies and the counts.
-/

namespace LeanCtx.SearchIndex

open InvertedIndex Std

variable {O G : Type} (env : Env) (o : Origins O G)

/-- A stored chunk and the terms it was added under. -/
abbrev Entry := CodeChunk × List String

def entryOf (chunk : CodeChunk) : Entry :=
  ((prepareChunk env chunk).chunk, (prepareChunk env chunk).lowered)

/-- The chunks of another index that were taken over. -/
def takenEntries (positions : List (Option ℕ)) (entries : List Entry) : List Entry :=
  kept (positions.map Option.isSome) entries

def keptEntries (evicted : String → Bool) (entries : List Entry) : List Entry :=
  entries.filter fun e => !evicted e.1.filePath

/-- The indexes reached from the empty one, with the entries behind them. The flag tells whether
every change of the chunks has been followed by `finalize`; only single additions leave that to
their caller. -/
inductive Edited : StoredIndex O → List Entry → Bool → Prop
  | new : Edited .new [] true
  | addChunk {s entries b} (chunk : CodeChunk) :
      Edited s entries b → Edited (s.addChunk env chunk) (entries ++ [entryOf env chunk]) false
  | addPrepared {s entries b} (chunk : CodeChunk) :
      Edited s entries b → Edited (s.addPrepared env chunk) (entries ++ [entryOf env chunk]) false
  | finalize {s entries b} : Edited s entries b → Edited s.finalize entries true
  | ingestContentChunks {s entries b} (chunks : List (ContentChunk O)) :
      Edited s entries b →
      Edited (s.ingestContentChunks env o chunks)
        (entries ++ chunks.map fun c => entryOf env c.chunk) (b || 0 < chunks.length)
  | removeChunksWithPrefix {s entries b} (front : String) :
      Edited s entries b →
      Edited (s.removeChunksWithPrefix front)
        (keptEntries (fun source => front.toList.isPrefixOf source.toList) entries)
        (b || s.index.chunks.any fun c => front.toList.isPrefixOf c.filePath.toList)
  | removeSources {s entries b} (sources : List String) :
      Edited s entries b →
      Edited (s.removeSources sources) (keptEntries (fun source => source ∈ sources) entries)
        (b || s.index.chunks.any fun c => c.filePath ∈ sources)
  | evictSources {s entries b} (gone : List String) :
      Edited s entries b →
      Edited (s.evictSources o gone) (keptEntries (fun source => source ∈ gone) entries)
        (b || s.index.chunks.any fun c => c.filePath ∈ gone)
  | carryingExternalFrom {s entries b prev entries' b'} :
      Edited s entries b → Edited prev entries' b' →
      Edited (s.carryingExternalFrom env o prev)
        (entries ++ takenEntries (s.pushAdmitted env o prev).2 entries')
        (b || (s.pushAdmitted env o prev).2.any Option.isSome)
  | withServedExternalFrom {s entries b stored entries' b'} (gate : G) :
      Edited s entries b → Edited stored entries' b' →
      Edited (s.withServedExternalFrom o stored gate)
        (entries ++ takenEntries (s.pushServed o stored gate).2 entries')
        (b || (s.pushServed o stored gate).2.any Option.isSome)

/-- The entries tell the index. -/
structure Consistent (index : BM25Index) (entries : List Entry) : Prop where
  chunks : index.chunks = entries.map Prod.fst
  postings : Represents index.postings (entries.map Prod.snd)
  tokenCount : ∀ e ∈ entries, e.1.tokenCount = e.2.length

/-- The index counts the chunks it holds. -/
def Counted (index : BM25Index) : Prop :=
  index.docCount = index.chunks.length ∧
    (index.chunks ≠ [] →
      index.avgDocLen = (index.chunks.map CodeChunk.tokenCount).sum / index.chunks.length)

/-! ## One change -/

variable {env o}

theorem consistent_finalize {index : BM25Index} {entries : List Entry}
    (h : Consistent index entries) : Consistent index.finalize entries := by
  unfold BM25Index.finalize
  split <;> exact ⟨h.chunks, h.postings, h.tokenCount⟩

theorem counted_finalize (index : BM25Index) : Counted index.finalize := by
  unfold BM25Index.finalize Counted
  split
  · rename_i hzero
    exact ⟨hzero.symm, fun hne => absurd (List.eq_nil_of_length_eq_zero hzero) hne⟩
  · exact ⟨rfl, fun _ => rfl⟩

/-- An entry is added. -/
theorem consistent_add {index : BM25Index} {entries : List Entry} (h : Consistent index entries)
    {e : Entry} (he : e.1.tokenCount = e.2.length) :
    Consistent (index.addPrepared ⟨e.1, e.2⟩) (entries ++ [e]) where
  chunks := by
    rw [List.map_append, ← h.chunks]
    rfl
  postings := by
    have hlen : index.chunks.length = (entries.map Prod.snd).length := by
      rw [h.chunks, List.length_map, List.length_map]
    rw [List.map_append]
    unfold BM25Index.addPrepared
    dsimp only
    rw [hlen]
    exact represents_addDoc h.postings _
  tokenCount := by
    intro e' he'
    rcases List.mem_append.mp he' with he' | he'
    · exact h.tokenCount e' he'
    · rw [List.mem_singleton.mp he']
      exact he

theorem consistent_addPrepared {index : BM25Index} {entries : List Entry}
    (h : Consistent index entries) (chunk : CodeChunk) :
    Consistent (index.addPrepared (prepareChunk env chunk)) (entries ++ [entryOf env chunk]) := by
  have hcount : (entryOf env chunk).1.tokenCount = (entryOf env chunk).2.length := by
    simp [entryOf, prepareChunk]
  have hprepared : prepareChunk env chunk = ⟨(entryOf env chunk).1, (entryOf env chunk).2⟩ := rfl
  rw [hprepared]
  exact consistent_add h hcount

theorem consistent_addChunk {index : BM25Index} {entries : List Entry}
    (h : Consistent index entries) (chunk : CodeChunk) :
    Consistent (index.addChunk env chunk) (entries ++ [entryOf env chunk]) :=
  consistent_addPrepared h chunk

theorem consistent_ingest {s : StoredIndex O} {entries : List Entry}
    (h : Consistent s.index entries) (chunks : List (ContentChunk O)) :
    Consistent (s.ingestContentChunks env o chunks).index
      (entries ++ chunks.map fun c => entryOf env c.chunk) := by
  have hfold : Consistent (chunks.foldl (fun (s : StoredIndex O) (c : ContentChunk O) =>
      (c.origin.elim s fun origin => s.recordOrigin o c.chunk.filePath origin).addChunk env
        c.chunk) s).index (entries ++ chunks.map fun c => entryOf env c.chunk) := by
    induction chunks generalizing s entries with
    | nil => simpa using h
    | cons c chunks ih =>
      rw [List.foldl_cons, List.map_cons, List.append_cons]
      apply ih
      have hadded := @consistent_addChunk env _ _ h c.chunk
      cases c.origin with
      | none => exact hadded
      | some origin => exact hadded
  unfold StoredIndex.ingestContentChunks
  dsimp only
  split
  · exact consistent_finalize hfold
  · exact hfold

theorem length_renumber (start : ℕ) (keeps : List Bool) :
    (renumber start keeps).length = keeps.length := by
  induction keeps generalizing start with
  | nil => rfl
  | cons keep keeps ih =>
    cases keep with
    | true => rw [renumber, List.length_cons, List.length_cons, ih]
    | false => rw [renumber, List.length_cons, List.length_cons, ih]

/-- Nothing is removed exactly when no source is evicted. -/
theorem removed_eq_zero_iff (index : BM25Index) (evicted : String → Bool) :
    (renumber 0 (index.chunks.map fun c => !evicted c.filePath)).length -
        (index.chunks.filter fun c => !evicted c.filePath).length = 0 ↔
      ∀ c ∈ index.chunks, evicted c.filePath = false := by
  rw [length_renumber, List.length_map]
  have hle := List.length_filter_le (fun c : CodeChunk => !evicted c.filePath) index.chunks
  have hall : (index.chunks.filter fun c => !evicted c.filePath).length = index.chunks.length ↔
      ∀ c ∈ index.chunks, evicted c.filePath = false := by
    rw [List.length_filter_eq_length_iff]
    simp
  rw [← hall]
  omega

theorem consistent_removeChunksOf {index : BM25Index} {entries : List Entry}
    (h : Consistent index entries) (evicted : String → Bool) :
    Consistent (index.removeChunksOf evicted).1 (keptEntries evicted entries) := by
  have hkeeps : (index.chunks.map fun c => !evicted c.filePath) =
      entries.map fun e => !evicted e.1.filePath := by
    rw [h.chunks, List.map_map]
    rfl
  unfold BM25Index.removeChunksOf
  dsimp only
  split
  · rename_i hzero
    rw [removed_eq_zero_iff, h.chunks] at hzero
    have hsame : keptEntries evicted entries = entries := by
      rw [keptEntries, List.filter_eq_self]
      intro e he
      simp [hzero e.1 (List.mem_map_of_mem he)]
    rw [hsame]
    exact h
  · apply consistent_finalize
    constructor
    · dsimp only
      rw [h.chunks, List.filter_map]
      rfl
    · dsimp only
      rw [hkeeps, keptEntries, ← kept_map]
      apply represents_moved h.postings
      · rw [List.length_map, List.length_map]
      · exact fun j => rfl
    · intro e he
      exact h.tokenCount e (List.mem_of_mem_filter he)

theorem counted_removeChunksOf {index : BM25Index} (evicted : String → Bool)
    (h : Counted index ∨ ∃ c ∈ index.chunks, evicted c.filePath = true) :
    Counted (index.removeChunksOf evicted).1 := by
  unfold BM25Index.removeChunksOf
  dsimp only
  split
  · rename_i hzero
    rw [removed_eq_zero_iff] at hzero
    rcases h with h | ⟨c, hc, hevicted⟩
    · exact h
    · rw [hzero c hc] at hevicted
      cases hevicted
  · exact counted_finalize _

/-- The chunks taken over stand behind the own ones, numbered from there on. -/
theorem pushTaken_spec {H : Type} {takes : H → CodeChunk → Bool × H} {origins : OrdMap String O}
    (chunks : List CodeChunk) (h : H) (s : StoredIndex O) :
    let r := StoredIndex.pushTaken o takes origins h s chunks
    r.2.length = chunks.length ∧
      r.2 = renumber s.index.chunks.length (r.2.map Option.isSome) ∧
      r.1.index = { s.index with
        chunks := s.index.chunks ++ kept (r.2.map Option.isSome) chunks } := by
  induction chunks generalizing h s with
  | nil => simp [StoredIndex.pushTaken, renumber, kept]
  | cons chunk chunks ih =>
    unfold StoredIndex.pushTaken
    split
    · obtain ⟨hlen, hpositions, hindex⟩ := ih h s
      dsimp only
      refine ⟨by rw [List.length_cons, hlen, List.length_cons], ?_, ?_⟩
      · rw [List.map_cons, Option.isSome_none, renumber, ← hpositions]
      · rw [List.map_cons, Option.isSome_none, kept, if_neg Bool.false_ne_true, hindex]
    · rename_i origin _
      dsimp only
      split
      · have hpushed := ih (takes h chunk).2 (StoredIndex.recordOrigin o
          { s with index := { s.index with chunks := s.index.chunks ++ [chunk] } }
          chunk.filePath origin)
        obtain ⟨hlen, hpositions, hindex⟩ := hpushed
        have hrecorded : (StoredIndex.recordOrigin o
          { s with index := { s.index with chunks := s.index.chunks ++ [chunk] } }
          chunk.filePath origin).index = { s.index with chunks := s.index.chunks ++ [chunk] } := rfl
        rw [hrecorded] at hpositions hindex
        dsimp only at hpositions hindex
        refine ⟨by rw [List.length_cons, hlen, List.length_cons], ?_, ?_⟩
        · rw [List.length_append, List.length_singleton] at hpositions
          rw [List.map_cons, Option.isSome_some, renumber, ← hpositions]
        · rw [List.map_cons, Option.isSome_some, kept, if_pos rfl, hindex, List.append_assoc]
          rfl
      · obtain ⟨hlen, hpositions, hindex⟩ := ih (takes h chunk).2 s
        refine ⟨by rw [List.length_cons, hlen, List.length_cons], ?_, ?_⟩
        · rw [List.map_cons, Option.isSome_none, renumber, ← hpositions]
        · rw [List.map_cons, Option.isSome_none, kept, if_neg Bool.false_ne_true, hindex]

theorem kept_of_all_isNone {α : Type} {positions : List (Option ℕ)} (l : List α)
    (h : positions.all Option.isNone = true) : kept (positions.map Option.isSome) l = [] := by
  induction positions generalizing l with
  | nil => rfl
  | cons position positions ih =>
    rw [List.all_cons, Bool.and_eq_true] at h
    cases l with
    | nil => rfl
    | cons a l =>
      rw [Option.isNone_iff_eq_none.mp h.1, List.map_cons, Option.isSome_none, kept,
        if_neg Bool.false_ne_true]
      exact ih l h.2

/-- What pushing external chunks of another index gives: nothing, or the chunks taken with their
positions. -/
def PushedFrom (s prev : StoredIndex O) (r : StoredIndex O × List (Option ℕ)) : Prop :=
  r = (s, []) ∨
    (r.2.length = prev.index.chunks.length ∧
      r.2 = renumber s.index.chunks.length (r.2.map Option.isSome) ∧
      r.1.index = { s.index with
        chunks := s.index.chunks ++ kept (r.2.map Option.isSome) prev.index.chunks })

theorem pushedFrom_pushAdmitted (s prev : StoredIndex O) :
    PushedFrom s prev (s.pushAdmitted env o prev) := by
  unfold StoredIndex.pushAdmitted
  split
  · exact .inl rfl
  · split
    · exact .inl rfl
    · exact .inr (pushTaken_spec prev.index.chunks () s)

theorem pushedFrom_pushServed (s stored : StoredIndex O) (gate : G) :
    PushedFrom s stored (s.pushServed o stored gate) := by
  unfold StoredIndex.pushServed
  split
  · exact .inl rfl
  · exact .inr (pushTaken_spec stored.index.chunks gate s)

/-- Pushing nothing leaves the index as it is. -/
theorem PushedFrom.index_of_none {s prev : StoredIndex O} {r : StoredIndex O × List (Option ℕ)}
    (h : PushedFrom s prev r) (hnone : r.2.all Option.isNone = true) : r.1.index = s.index := by
  rcases h with rfl | ⟨-, -, hindex⟩
  · rfl
  · rw [hindex, kept_of_all_isNone _ hnone, List.append_nil]

theorem kept_map_right {α β : Type} (f : α → β) (keeps : List Bool) (l : List α) :
    kept keeps (l.map f) = (kept keeps l).map f := by
  induction l generalizing keeps with
  | nil => cases keeps <;> rfl
  | cons a l ih =>
    cases keeps with
    | nil => rfl
    | cons keep keeps =>
      rw [List.map_cons, kept, kept, ih]
      split <;> rfl

theorem mem_of_mem_kept {α : Type} {keeps : List Bool} {l : List α} {a : α}
    (h : a ∈ kept keeps l) : a ∈ l := by
  induction l generalizing keeps with
  | nil => cases keeps <;> cases h
  | cons b l ih =>
    cases keeps with
    | nil => cases h
    | cons keep keeps =>
      rw [kept] at h
      split at h
      · rcases List.mem_cons.mp h with rfl | h
        · exact List.mem_cons_self
        · exact List.mem_cons_of_mem _ (ih h)
      · exact List.mem_cons_of_mem _ (ih h)

theorem consistent_withPostingsOf {s prev : StoredIndex O} {entries entries' : List Entry}
    {r : StoredIndex O × List (Option ℕ)} (h : Consistent s.index entries)
    (hprev : Consistent prev.index entries') (hr : PushedFrom s prev r) :
    Consistent (r.1.withPostingsOf prev r.2).index (entries ++ takenEntries r.2 entries') := by
  unfold StoredIndex.withPostingsOf
  split
  · rename_i hnone
    rw [hr.index_of_none hnone, takenEntries, kept_of_all_isNone _ hnone, List.append_nil]
    exact h
  · rename_i hsome
    rcases hr with rfl | ⟨hlen, hpositions, hindex⟩
    · exact absurd rfl hsome
    · have hentries : (entries.map Prod.snd).length = s.index.chunks.length := by
        rw [h.chunks, List.length_map, List.length_map]
      apply consistent_finalize
      dsimp only
      rw [hindex]
      constructor
      · dsimp only
        rw [List.map_append, h.chunks, hprev.chunks, kept_map_right]
        rfl
      · dsimp only
        rw [List.map_append, takenEntries, ← kept_map_right]
        apply represents_carrying h.postings hprev.postings
        · rw [List.length_map, hlen, hprev.chunks, List.length_map, List.length_map]
        · intro j
          rw [hentries, ← hpositions]
      · intro e he
        rcases List.mem_append.mp he with he | he
        · exact h.tokenCount e he
        · exact hprev.tokenCount e (mem_of_mem_kept he)

theorem counted_withPostingsOf {s prev : StoredIndex O} {r : StoredIndex O × List (Option ℕ)}
    (hr : PushedFrom s prev r) (h : Counted s.index ∨ r.2.any Option.isSome = true) :
    Counted (r.1.withPostingsOf prev r.2).index := by
  unfold StoredIndex.withPostingsOf
  split
  · rename_i hnone
    rw [hr.index_of_none hnone]
    rcases h with h | hsome
    · exact h
    · obtain ⟨position, hmem, hsome⟩ := List.any_eq_true.mp hsome
      have hisNone := List.all_eq_true.mp hnone position hmem
      rw [Option.isNone_iff_eq_none.mp hisNone] at hsome
      cases hsome
  · exact counted_finalize _

theorem removeChunksOf_of_removed {index : BM25Index} {evicted : String → Bool}
    (h : (index.removeChunksOf evicted).2 = 0) : (index.removeChunksOf evicted).1 = index := by
  unfold BM25Index.removeChunksOf at h ⊢
  dsimp only at h ⊢
  split
  · rfl
  · rename_i hne
    rw [if_neg hne] at h
    exact absurd h hne

/-- An eviction removes chunks and stops tracking their files. -/
theorem evictSources_index (s : StoredIndex O) (gone : List String) :
    ∃ files, (s.evictSources o gone).index =
      { (s.index.removeChunksOf fun source => source ∈ gone).1 with files := files } := by
  unfold StoredIndex.evictSources
  dsimp only
  split
  · rename_i hremoved
    rw [removeChunksOf_of_removed hremoved]
    exact ⟨s.index.files, rfl⟩
  · exact ⟨_, rfl⟩

/-! ## Runs -/

theorem Edited.consistent {s : StoredIndex O} {entries : List Entry} {b : Bool}
    (h : Edited env o s entries b) : Consistent s.index entries := by
  induction h with
  | new => exact ⟨rfl, represents_empty, by simp⟩
  | addChunk chunk _ ih => exact consistent_addChunk ih chunk
  | addPrepared chunk _ ih => exact consistent_addPrepared ih chunk
  | finalize _ ih => exact consistent_finalize ih
  | ingestContentChunks chunks _ ih => exact consistent_ingest ih chunks
  | removeChunksWithPrefix front _ ih => exact consistent_removeChunksOf ih _
  | removeSources sources _ ih => exact consistent_removeChunksOf ih _
  | @evictSources s _ _ gone _ ih =>
    have hremoved := consistent_removeChunksOf ih fun source => source ∈ gone
    obtain ⟨files, hindex⟩ := @evictSources_index _ _ o s gone
    rw [hindex]
    exact ⟨hremoved.chunks, hremoved.postings, hremoved.tokenCount⟩
  | carryingExternalFrom _ _ ih ih' =>
    exact consistent_withPostingsOf ih ih' (pushedFrom_pushAdmitted _ _)
  | withServedExternalFrom gate _ _ ih ih' =>
    exact consistent_withPostingsOf ih ih' (pushedFrom_pushServed _ _ gate)

theorem counted_of_evicted {index : BM25Index} {evicted : String → Bool} {b : Bool}
    (h : b = true → Counted index)
    (hb : (b || index.chunks.any fun c => evicted c.filePath) = true) :
    Counted (index.removeChunksOf evicted).1 := by
  apply counted_removeChunksOf
  rw [Bool.or_eq_true, List.any_eq_true] at hb
  rcases hb with hb | hany
  · exact .inl (h hb)
  · exact .inr hany

/-- An index all of whose changes were finalized counts its chunks. -/
theorem Edited.counted {s : StoredIndex O} {entries : List Entry} {b : Bool}
    (h : Edited env o s entries b) : b = true → Counted s.index := by
  induction h with
  | new => exact fun _ => ⟨rfl, fun hne => absurd rfl hne⟩
  | addChunk chunk _ _ => exact fun hb => absurd hb Bool.false_ne_true
  | addPrepared chunk _ _ => exact fun hb => absurd hb Bool.false_ne_true
  | finalize _ _ => exact fun _ => counted_finalize _
  | @ingestContentChunks s _ b chunks _ ih =>
    intro hb
    unfold StoredIndex.ingestContentChunks
    dsimp only
    split
    · exact counted_finalize _
    · rename_i hlen
      rw [Bool.or_eq_true, decide_eq_true_eq] at hb
      have hnil : chunks = [] := List.eq_nil_of_length_eq_zero (by omega)
      subst hnil
      exact ih (hb.resolve_right hlen)
  | removeChunksWithPrefix front _ ih => exact fun hb => counted_of_evicted ih hb
  | removeSources sources _ ih => exact fun hb => counted_of_evicted ih hb
  | @evictSources s _ _ gone _ ih =>
    intro hb
    obtain ⟨files, hindex⟩ := @evictSources_index _ _ o s gone
    rw [hindex]
    exact counted_of_evicted ih hb
  | carryingExternalFrom _ _ ih _ =>
    intro hb
    rw [Bool.or_eq_true] at hb
    exact counted_withPostingsOf (pushedFrom_pushAdmitted _ _) (hb.imp_left ih)
  | withServedExternalFrom gate _ _ ih _ =>
    intro hb
    rw [Bool.or_eq_true] at hb
    exact counted_withPostingsOf (pushedFrom_pushServed _ _ gate) (hb.imp_left ih)

/-! ## What holds of every index -/

/-- Postings in order and in range, frequencies of exactly their terms, and token counts that are
the numbers of postings. -/
structure WellFormed (index : BM25Index) : Prop where
  ordered : ∀ (term : String) (entries : List (ℕ × ℚ)),
    index.postings.inverted[term]? = some entries →
    (entries.map Prod.fst).Pairwise (· ≤ ·) ∧ ∀ e ∈ entries, e.1 < index.chunks.length
  docFreqs : ∀ term : String, index.postings.docFreqs[term]? =
    (index.postings.inverted[term]?).map fun entries => (entries.map Prod.fst).toFinset.card
  tokenCount : ∀ (i : ℕ) (chunk : CodeChunk), index.chunks[i]? = some chunk → chunk.tokenCount =
    OrdMap.mapSum (fun _ entries => entries.countP fun e => e.1 = i) index.postings.inverted

theorem Consistent.wellFormed {index : BM25Index} {entries : List Entry}
    (h : Consistent index entries) : WellFormed index where
  ordered := by
    intro term ps hps
    rw [h.postings.entry_eq hps]
    refine ⟨pairwise_postingsFrom 0 _ term, ?_⟩
    intro e he
    have hlt := fst_lt_of_mem_postingsOf he
    rwa [List.length_map, ← @List.length_map _ _ _ Prod.fst, ← h.chunks] at hlt
  docFreqs := h.postings.docFreqs_eq
  tokenCount := by
    intro i chunk hchunk
    rw [h.chunks, List.getElem?_map, Option.map_eq_some_iff] at hchunk
    obtain ⟨e, he, rfl⟩ := hchunk
    rw [h.postings.total_eq, List.getElem?_map, he, Option.map_some, Option.getD_some]
    exact h.tokenCount e (List.mem_of_getElem? he)

/-- The index to which exactly the given entries were added. -/
def ofEntries (entries : List Entry) : BM25Index :=
  (entries.foldl (fun index e => index.addPrepared ⟨e.1, e.2⟩) BM25Index.new).finalize

theorem consistent_ofEntries {entries : List Entry}
    (h : ∀ e ∈ entries, e.1.tokenCount = e.2.length) : Consistent (ofEntries entries) entries := by
  apply consistent_finalize
  induction entries using List.reverseRecOn with
  | nil => exact ⟨rfl, represents_empty, by simp⟩
  | append_singleton entries e ih =>
    rw [List.foldl_append, List.foldl_cons, List.foldl_nil]
    have hfront := ih fun e' he' => h e' (List.mem_append_left _ he')
    exact consistent_add hfront (h e (by simp))

/-- The entries determine chunks and postings. -/
theorem Consistent.unique {index index' : BM25Index} {entries : List Entry}
    (h : Consistent index entries) (h' : Consistent index' entries) :
    index.chunks = index'.chunks ∧ index.postings = index'.postings := by
  refine ⟨h.chunks.trans h'.chunks.symm, ?_⟩
  rw [eq_iff_forall₂_perm h.postings h'.postings rfl]
  exact List.forall₂_same.mpr fun doc _ => List.Perm.refl doc

theorem Consistent.removed {index : BM25Index} {entries : List Entry}
    (h : Consistent index entries) (evicted : String → Bool) :
    (index.removeChunksOf evicted).1.chunks = (ofEntries (keptEntries evicted entries)).chunks ∧
      (index.removeChunksOf evicted).1.postings =
        (ofEntries (keptEntries evicted entries)).postings := by
  have hkept : ∀ e ∈ keptEntries evicted entries, e.1.tokenCount = e.2.length :=
    fun e he => h.tokenCount e (List.mem_of_mem_filter he)
  exact (consistent_removeChunksOf h evicted).unique (consistent_ofEntries hkept)

/-- Every index reached is well formed and, once finalized, counts its chunks; removing sources
gives the index to which their entries were never added. -/
theorem edited_index_consistent {s : StoredIndex O} {entries : List Entry} {b : Bool}
    (h : Edited env o s entries b) :
    WellFormed s.index ∧ (b = true → s.index.docCount = s.index.chunks.length) ∧
      ∀ evicted : String → Bool,
        let removed := (s.index.removeChunksOf evicted).1
        let never := ofEntries (keptEntries evicted entries)
        removed.chunks = never.chunks ∧ removed.postings = never.postings ∧
          ((b = true ∨ ∃ c ∈ s.index.chunks, evicted c.filePath = true) →
            removed.docCount = never.docCount) := by
  refine ⟨h.consistent.wellFormed, fun hb => (h.counted hb).1, ?_⟩
  intro evicted
  obtain ⟨hchunks, hpostings⟩ := h.consistent.removed evicted
  refine ⟨hchunks, hpostings, ?_⟩
  intro hcounted
  have hremoved := counted_removeChunksOf evicted (hcounted.imp_left h.counted)
  have hnever : Counted (ofEntries (keptEntries evicted entries)) := counted_finalize _
  rw [hremoved.1, hnever.1, hchunks]

/-! ## A single addition -/

/-- Origins that fit every source, and a gate that serves everything. -/
def openOrigins : Origins Unit Unit where
  fits _ _ := true
  size _ := some 0
  admitText text := some text
  serves g _ _ := (true, g)

def helloChunk : CodeChunk := ⟨"m.rs", "f", .function, 1, 1, "fn f() \x7b\x7d", [], 0⟩

/-- A chunk that was added but not counted yet. -/
theorem addChunk_not_counted :
    ¬∀ (env : Env) (o : Origins Unit Unit) (s : StoredIndex Unit) (entries : List Entry) (b : Bool),
      Edited env o s entries b → s.index.docCount = s.index.chunks.length := by
  intro hall
  have hcount := hall plainEnv openOrigins _ _ _ (.addChunk helloChunk .new)
  exact absurd hcount (by decide)

/-- The same chunk ingested, and removed again. -/
theorem ingested_index_consistent :
    WellFormed (StoredIndex.new.ingestContentChunks plainEnv openOrigins
        [⟨helloChunk, none⟩]).index ∧
      ((StoredIndex.new.ingestContentChunks plainEnv openOrigins
        [⟨helloChunk, none⟩]).removeSources ["m.rs"]).index.chunks = [] := by
  have hrun : Edited plainEnv openOrigins _ _ _ :=
    .ingestContentChunks [⟨helloChunk, none⟩] .new
  obtain ⟨hwell, -, hremoved⟩ := edited_index_consistent hrun
  refine ⟨hwell, ?_⟩
  obtain ⟨hchunks, -, -⟩ := hremoved fun source => source ∈ ["m.rs"]
  exact hchunks.trans rfl

end LeanCtx.SearchIndex
