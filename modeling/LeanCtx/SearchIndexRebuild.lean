import LeanCtx.SearchIndex

/-!
# Builds and rebuilds of the search index

Both ways of running merge the same chunks in file order, so an index is known
from the chunks that each file contributes. The stored chunks of a tracked file
are the first lines of the chunks that reading it gives, through any number of
rebuilds of changing trees.
-/

namespace LeanCtx.SearchIndex

open ByteText TextFile InvertedIndex

variable (env : Env)

/-! ## The chunks of a file list -/

abbrev ChunksOf := String → Option (IndexedFileState × List CodeChunk)

def mergeChunks (chunksOf : ChunksOf) (index : BM25Index) (rel : String) : BM25Index :=
  (chunksOf rel).elim index fun file => index.mergeFile (prepareChunks env rel file)

/-- The index of the chunks of a list of files. -/
def merged (chunksOf : ChunksOf) (files : List String) : BM25Index :=
  (files.foldl (mergeChunks env chunksOf) BM25Index.new).finalize

theorem addChunk_eq : BM25Index.addChunk env =
    fun index chunk => index.addPrepared (prepareChunk env chunk) := rfl

theorem sequentially_eq (chunksOf : ChunksOf) (files : List String) :
    sequentially env chunksOf files = merged env chunksOf files := by
  unfold sequentially merged
  congr 1
  apply List.foldl_ext
  intro index rel _
  unfold mergeChunks
  cases chunksOf rel with
  | none => rfl
  | some file =>
    simp only [Option.elim_some, BM25Index.mergeFile, prepareChunks, List.foldl_map, addChunk_eq]

theorem inBatches_flatten (batch : ℕ → ℕ) (filesDone : ℕ) (files : List String) :
    (inBatches batch filesDone files).flatten = files := by
  fun_induction inBatches batch filesDone files with
  | case1 => rfl
  | case2 filesDone files _ size ih => rw [List.flatten_cons, ih, List.take_append_drop]

theorem batched_eq (batch : ℕ → ℕ) (chunksOf : ChunksOf) (files : List String) :
    batched batch (fun rel => (chunksOf rel).map (prepareChunks env rel)) files =
      merged env chunksOf files := by
  have hstep : ∀ (rels : List String) (index : BM25Index),
      ((rels.map fun rel => (chunksOf rel).map (prepareChunks env rel)).filterMap id).foldl
        BM25Index.mergeFile index = rels.foldl (mergeChunks env chunksOf) index := by
    intro rels
    induction rels with
    | nil => intro index; rfl
    | cons rel rels ih =>
      intro index
      rw [List.map_cons, List.foldl_cons, ← ih, List.filterMap_cons]
      unfold mergeChunks
      cases chunksOf rel with
      | none => rfl
      | some file => rfl
  unfold batched merged
  simp only [hstep]
  rw [← List.foldl_flatten, inBatches_flatten]

/-! ## What an index holds -/

/-- A chunk as it is stored. -/
def stored (chunk : CodeChunk) : CodeChunk := (prepareChunk env chunk).chunk

/-- The terms that a chunk is found under. -/
def lowered (chunk : CodeChunk) : List String := (prepareChunk env chunk).lowered

def chunksIn (chunksOf : ChunksOf) (rel : String) : List CodeChunk :=
  ((chunksOf rel).map Prod.snd).getD []

/-- An index that is still being merged and holds the given chunks. -/
structure Holds (index : BM25Index) (cs : List CodeChunk) : Prop where
  chunks : index.chunks = cs.map (stored env)
  postings : Represents index.postings (cs.map (lowered env))
  avgDocLen : index.avgDocLen = 0
  docCount : index.docCount = 0
  admissionPolicy : index.admissionPolicy = none

variable {env}

theorem holds_new : Holds env .new [] := ⟨rfl, represents_empty, rfl, rfl, rfl⟩

theorem Holds.addPrepared {index : BM25Index} {cs : List CodeChunk}
    (h : Holds env index cs) (chunk : CodeChunk) :
    Holds env (index.addPrepared (prepareChunk env chunk)) (cs ++ [chunk]) where
  chunks := by
    rw [List.map_append, ← h.chunks]
    rfl
  postings := by
    have hrep := represents_addDoc h.postings (lowered env chunk)
    have hlen : (cs.map (lowered env)).length = index.chunks.length := by
      rw [h.chunks, List.length_map, List.length_map]
    rw [hlen] at hrep
    rw [List.map_append]
    exact hrep
  avgDocLen := h.avgDocLen
  docCount := h.docCount
  admissionPolicy := h.admissionPolicy

theorem Holds.insertFile {index : BM25Index} {cs : List CodeChunk} (h : Holds env index cs)
    (rel : String) (state : IndexedFileState) : Holds env (index.insertFile rel state) cs :=
  ⟨h.chunks, h.postings, h.avgDocLen, h.docCount, h.admissionPolicy⟩

theorem Holds.addAll {index : BM25Index} {cs : List CodeChunk} (h : Holds env index cs)
    (added : List CodeChunk) :
    Holds env ((added.map (prepareChunk env)).foldl BM25Index.addPrepared index) (cs ++ added) := by
  induction added generalizing index cs with
  | nil => simpa using h
  | cons c added ih =>
    rw [List.map_cons, List.foldl_cons, List.append_cons]
    exact ih (h.addPrepared c)

theorem Holds.mergeChunks {index : BM25Index} {cs : List CodeChunk} (h : Holds env index cs)
    (chunksOf : ChunksOf) (rel : String) :
    Holds env (mergeChunks env chunksOf index rel) (cs ++ chunksIn chunksOf rel) := by
  unfold SearchIndex.mergeChunks chunksIn
  cases chunksOf rel with
  | none => simpa using h
  | some file => exact (h.addAll file.2).insertFile rel file.1

/-- The index of a file list holds the chunks of its files. -/
theorem holds_foldl {index : BM25Index} {cs : List CodeChunk} (h : Holds env index cs)
    (chunksOf : ChunksOf) (files : List String) :
    Holds env (files.foldl (mergeChunks env chunksOf) index)
      (cs ++ files.flatMap (chunksIn chunksOf)) := by
  induction files generalizing index cs with
  | nil => simpa using h
  | cons rel files ih =>
    rw [List.foldl_cons, List.flatMap_cons, ← List.append_assoc]
    exact ih (h.mergeChunks chunksOf rel)

theorem files_addAll (prepared : List PreparedChunk) (index : BM25Index) :
    (prepared.foldl BM25Index.addPrepared index).files = index.files := by
  induction prepared generalizing index with
  | nil => rfl
  | cons p prepared ih => rw [List.foldl_cons, ih]; rfl

theorem files_mergeChunks (chunksOf : ChunksOf) (index : BM25Index) (rel r : String) :
    (mergeChunks env chunksOf index rel).files[r]? =
      if rel = r then ((chunksOf r).map Prod.fst).or index.files[r]? else index.files[r]? := by
  unfold mergeChunks
  by_cases hr : rel = r
  · subst hr
    cases chunksOf rel with
    | none => simp
    | some file =>
      simp [BM25Index.mergeFile, BM25Index.insertFile, prepareChunks]
  · rw [if_neg hr]
    cases chunksOf rel with
    | none => rfl
    | some file =>
      simp [BM25Index.mergeFile, BM25Index.insertFile, OrdMap.get_insert, prepareChunks, hr,
        files_addAll]

/-- It tracks the files that are not left out. -/
theorem files_foldl (chunksOf : ChunksOf) (files : List String) (index : BM25Index) (r : String) :
    (files.foldl (mergeChunks env chunksOf) index).files[r]? =
      if r ∈ files then ((chunksOf r).map Prod.fst).or index.files[r]? else index.files[r]? := by
  induction files generalizing index with
  | nil => rfl
  | cons rel files ih =>
    rw [List.foldl_cons, ih, files_mergeChunks]
    by_cases hr : rel = r
    · subst hr
      cases chunksOf rel with
      | none => simp
      | some file => simp
    · simp [hr, Ne.symm hr]

/-! ## Comparing two indexes of one file list -/

@[simp] theorem finalize_chunks (index : BM25Index) : index.finalize.chunks = index.chunks := by
  unfold BM25Index.finalize
  split <;> rfl

@[simp] theorem finalize_postings (index : BM25Index) :
    index.finalize.postings = index.postings := by
  unfold BM25Index.finalize
  split <;> rfl

@[simp] theorem finalize_files (index : BM25Index) : index.finalize.files = index.files := by
  unfold BM25Index.finalize
  split <;> rfl

theorem chunks_merged (chunksOf : ChunksOf) (files : List String) :
    (merged env chunksOf files).chunks = (files.flatMap (chunksIn chunksOf)).map (stored env) := by
  rw [merged, finalize_chunks]
  exact (holds_foldl holds_new chunksOf files).chunks

theorem represents_merged (chunksOf : ChunksOf) (files : List String) :
    Represents (merged env chunksOf files).postings
      ((files.flatMap (chunksIn chunksOf)).map (lowered env)) := by
  rw [merged, finalize_postings]
  exact (holds_foldl holds_new chunksOf files).postings

theorem files_merged (chunksOf : ChunksOf) (files : List String) (r : String) :
    (merged env chunksOf files).files[r]? =
      if r ∈ files then (chunksOf r).map Prod.fst else none := by
  rw [merged, finalize_files, files_foldl]
  have hnone : BM25Index.new.files[r]? = none := Std.ExtTreeMap.getElem?_empty
  rw [hnone, Option.or_none]

/-- Indexes of one file list are the same when their chunks, postings and tracked files are. -/
theorem merged_congr {f g : ChunksOf} {files : List String}
    (hchunks : (merged env f files).chunks = (merged env g files).chunks)
    (hpostings : (merged env f files).postings = (merged env g files).postings)
    (hfiles : (merged env f files).files = (merged env g files).files) :
    merged env f files = merged env g files := by
  unfold merged at hchunks hpostings hfiles ⊢
  rw [finalize_chunks, finalize_chunks] at hchunks
  rw [finalize_postings, finalize_postings] at hpostings
  rw [finalize_files, finalize_files] at hfiles
  congr 1
  have hf : Holds env _ _ := holds_foldl holds_new f files
  have hg : Holds env _ _ := holds_foldl holds_new g files
  exact BM25Index.ext hchunks hpostings (hf.avgDocLen.trans hg.avgDocLen.symm)
    (hf.docCount.trans hg.docCount.symm) hfiles (hf.admissionPolicy.trans hg.admissionPolicy.symm)

/-! ## The first lines of a chunk -/

/-- The chunk without the count of its terms. -/
def bare (chunk : CodeChunk) : CodeChunk := { chunk with tokens := [], tokenCount := 0 }

def firstLines (chunk : CodeChunk) : CodeChunk := bare (snippet snippetLines chunk)

theorem snippet_snippet (n : ℕ) (chunk : CodeChunk) :
    snippet n (snippet n chunk) = snippet n chunk := by
  by_cases hlong : (lines chunk.content)[n]?.isSome
  · have hshort : (snippet n chunk).content =
        "\n".intercalate ((lines chunk.content).take n) := by
      rw [snippet, if_pos hlong]
    have hlen : (lines (snippet n chunk).content).length ≤ n := by
      rw [hshort]
      have hle := @length_lines_intercalate_le ((lines chunk.content).take n)
        fun l hl => newline_not_mem_of_mem_lines (List.mem_of_mem_take hl)
      exact hle.trans (List.length_take_le _ _)
    rw [snippet.eq_def n (snippet n chunk), List.getElem?_eq_none hlen]
    rfl
  · have hsame : snippet n chunk = chunk := by rw [snippet, if_neg hlong]
    rw [hsame, hsame]

theorem bare_snippet (n : ℕ) (chunk : CodeChunk) :
    bare (snippet n chunk) = snippet n (bare chunk) := by
  unfold snippet bare
  dsimp only
  split <;> rfl

@[simp] theorem bare_bare (chunk : CodeChunk) : bare (bare chunk) = bare chunk := rfl

theorem bare_stored (chunk : CodeChunk) : bare (stored env chunk) = firstLines chunk := by
  simp only [bare, stored, prepareChunk, firstLines]

theorem firstLines_bare (chunk : CodeChunk) : firstLines (bare chunk) = firstLines chunk := by
  rw [firstLines, ← bare_snippet, bare_bare, firstLines]

theorem firstLines_firstLines (chunk : CodeChunk) :
    firstLines (firstLines chunk) = firstLines chunk := by
  rw [firstLines.eq_def chunk, firstLines_bare, firstLines, snippet_snippet]

theorem chunkTerms_bare (chunk : CodeChunk) : chunkTerms env (bare chunk) = chunkTerms env chunk :=
  rfl

theorem lowered_bare (chunk : CodeChunk) : lowered env (bare chunk) = lowered env chunk := rfl

/-- Chunks with the same first lines and equally many terms are stored alike. -/
theorem stored_congr {c c' : CodeChunk} (hlines : firstLines c = firstLines c')
    (hterms : (lowered env c).length = (lowered env c').length) : stored env c = stored env c' := by
  have hstored (c : CodeChunk) : stored env c =
      { firstLines c with tokenCount := (lowered env c).length } := by
    simp only [stored, prepareChunk, firstLines, bare, lowered, List.length_map]
  rw [hstored, hstored, hlines, hterms]

/-! ## Sorted chunks -/

theorem chunkBefore_trans (a b c : CodeChunk) (hab : chunkBefore a b) (hbc : chunkBefore b c) :
    chunkBefore a c := by
  simp only [chunkBefore, Bool.or_eq_true, Bool.and_eq_true, decide_eq_true_eq] at hab hbc ⊢
  rcases hab with hab | ⟨hab, hab | ⟨hab', hname⟩⟩
  · omega
  · omega
  · rcases hbc with hbc | ⟨hbc, hbc | ⟨hbc', hname'⟩⟩
    · omega
    · omega
    · exact .inr ⟨hab.trans hbc, .inr ⟨hab'.trans hbc', le_trans hname hname'⟩⟩

theorem chunkBefore_total (a b : CodeChunk) : chunkBefore a b || chunkBefore b a := by
  simp only [chunkBefore, Bool.or_eq_true, Bool.and_eq_true, decide_eq_true_eq]
  rcases Nat.lt_trichotomy a.startLine b.startLine with hlt | heq | hgt
  · exact .inl (.inl hlt)
  · rcases Nat.lt_trichotomy a.endLine b.endLine with hlt | heq' | hgt
    · exact .inl (.inr ⟨heq, .inl hlt⟩)
    · rcases le_total a.symbolName b.symbolName with hle | hge
      · exact .inl (.inr ⟨heq, .inr ⟨heq', hle⟩⟩)
      · exact .inr (.inr ⟨heq.symm, .inr ⟨heq'.symm, hge⟩⟩)
    · exact .inr (.inr ⟨heq.symm, .inl hgt⟩)
  · exact .inr (.inl hgt)

theorem pairwise_sortChunks (cs : List CodeChunk) :
    (sortChunks cs).Pairwise fun a b => chunkBefore a b :=
  List.pairwise_mergeSort chunkBefore_trans chunkBefore_total cs

/-- Where a chunk comes from does not change when it is stored. -/
theorem place_stored (chunk : CodeChunk) :
    (stored env chunk).filePath = chunk.filePath ∧
      (stored env chunk).symbolName = chunk.symbolName ∧
      (stored env chunk).startLine = chunk.startLine ∧
      (stored env chunk).endLine = chunk.endLine := by
  unfold stored prepareChunk snippet
  split <;> exact ⟨rfl, rfl, rfl, rfl⟩

theorem filePath_stored (chunk : CodeChunk) : (stored env chunk).filePath = chunk.filePath :=
  (place_stored chunk).1

theorem chunkBefore_stored (a b : CodeChunk) :
    chunkBefore (stored env a) (stored env b) = chunkBefore a b := by
  obtain ⟨-, hname, hstart, hend⟩ := @place_stored env a
  obtain ⟨-, hname', hstart', hend'⟩ := @place_stored env b
  simp only [chunkBefore, hname, hname', hstart, hstart', hend, hend']

/-- What a file's chunks are after sorting by place, each of that file. -/
structure Placed (rel : String) (cs : List CodeChunk) : Prop where
  sorted : cs.Pairwise fun a b => chunkBefore a b
  filePath : ∀ c ∈ cs, c.filePath = rel

theorem placed_sortChunks {rel : String} {cs : List CodeChunk} (h : ∀ c ∈ cs, c.filePath = rel) :
    Placed rel (sortChunks cs) :=
  ⟨pairwise_sortChunks cs, fun c hc => h c (List.mem_mergeSort.mp hc)⟩

theorem placed_groupPrevChunks (prev : BM25Index) (rel : String) :
    Placed rel (groupPrevChunks prev rel) := by
  apply placed_sortChunks
  intro c hc
  simpa using (List.mem_filter.mp hc).2

/-- Among the chunks of a file list, those of one file are its own. -/
theorem filter_flatMap_chunksIn {chunksOf : ChunksOf} {files : List String} (hnodup : files.Nodup)
    (h : ∀ rel ∈ files, ∀ c ∈ chunksIn chunksOf rel, c.filePath = rel) {rel : String}
    (hrel : rel ∈ files) :
    (files.flatMap (chunksIn chunksOf)).filter (fun c => c.filePath = rel) =
      chunksIn chunksOf rel := by
  have hother : ∀ r ∈ files, r ≠ rel →
      (chunksIn chunksOf r).filter (fun c => c.filePath = rel) = [] := by
    intro r hr hne
    rw [List.filter_eq_nil_iff]
    intro c hc
    simpa [h r hr c hc] using hne
  have hown : (chunksIn chunksOf rel).filter (fun c => c.filePath = rel) =
      chunksIn chunksOf rel := by
    rw [List.filter_eq_self]
    intro c hc
    simpa using h rel hrel c hc
  obtain ⟨front, back, rfl⟩ := List.append_of_mem hrel
  have hnone : ∀ part : List String, (∀ r ∈ part, r ∈ front ++ rel :: back ∧ r ≠ rel) →
      (part.flatMap (chunksIn chunksOf)).filter (fun c => c.filePath = rel) = [] := by
    intro part hpart
    rw [List.filter_flatMap, List.flatMap_eq_nil_iff]
    intro r hr
    exact hother r (hpart r hr).1 (hpart r hr).2
  obtain ⟨-, hback, hdisjoint⟩ := List.nodup_append.mp hnodup
  rw [List.flatMap_append, List.flatMap_cons, List.filter_append, List.filter_append, hown,
    hnone front, hnone back, List.nil_append, List.append_nil]
  · intro r hr
    refine ⟨by simp [hr], ?_⟩
    rintro rfl
    exact (List.nodup_cons.mp hback).1 hr
  · intro r hr
    exact ⟨by simp [hr], hdisjoint r hr rel List.mem_cons_self⟩

/-- The stored chunks of a file are found again, in their order. -/
theorem groupPrevChunks_merged {chunksOf : ChunksOf} {files : List String} (hnodup : files.Nodup)
    (h : ∀ rel ∈ files, Placed rel (chunksIn chunksOf rel)) {rel : String} (hrel : rel ∈ files) :
    groupPrevChunks (merged env chunksOf files) rel =
      (chunksIn chunksOf rel).map (stored env) := by
  have hfilter := filter_flatMap_chunksIn hnodup (fun r hr => (h r hr).filePath) hrel
  rw [groupPrevChunks, chunks_merged, List.filter_map]
  simp only [Function.comp_def, filePath_stored]
  rw [hfilter, sortChunks, List.mergeSort_of_pairwise]
  rw [List.pairwise_map]
  simp only [chunkBefore_stored]
  exact (h rel hrel).sorted

/-! ## Reading and reusing files -/

variable (env) in
/-- What a full build takes from a file. -/
abbrev readFull (tree : Tree) : ChunksOf := readFile env (admittedText env) tree

variable (env) in
/-- What a rebuild takes from a file. -/
def readAgain (headroom : Headroom) (tree : Tree) (prev : BM25Index) : ChunksOf := fun rel =>
  (reusedFile prev tree rel).or (readFile env
    (if (useBatches headroom tree).isSome then admittedText env else admittedTextNonempty env)
    tree rel)

theorem readFile_eq_some {admitted : String → FileEntry → Option String} {tree : Tree}
    {rel : String} {state : IndexedFileState} {cs : List CodeChunk}
    (h : readFile env admitted tree rel = some (state, cs)) :
    ∃ file content, tree.entry rel = some file ∧ file.state = state ∧
      state.sizeBytes ≤ maxFileSizeBytes ∧ admitted rel file = some content ∧
      looksMinified content = false ∧ cs = sortChunks (env.extractChunks rel content) := by
  unfold readFile at h
  cases hentry : tree.entry rel with
  | none => simp [hentry] at h
  | some file =>
    simp only [hentry] at h
    split at h
    · cases h
    · rename_i hsize
      cases hadmitted : admitted rel file with
      | none => simp [hadmitted] at h
      | some content =>
        simp only [hadmitted] at h
        split at h
        · cases h
        · rename_i hmin
          obtain ⟨rfl, rfl⟩ := Prod.mk.inj (Option.some.inj h)
          exact ⟨file, content, rfl, rfl, Nat.le_of_not_lt hsize, hadmitted, by simpa using hmin,
            rfl⟩

theorem readFile_of {admitted : String → FileEntry → Option String} {tree : Tree}
    {rel : String} {file : FileEntry} {content : String} (hentry : tree.entry rel = some file)
    (hsize : file.state.sizeBytes ≤ maxFileSizeBytes) (hadmitted : admitted rel file = some content)
    (hmin : looksMinified content = false) :
    readFile env admitted tree rel =
      some (file.state, sortChunks (env.extractChunks rel content)) := by
  simp [readFile, hentry, Nat.not_lt.mpr hsize, hadmitted, hmin]

theorem placed_readFile {admitted : String → FileEntry → Option String} {tree : Tree}
    {rel : String} {state : IndexedFileState} {cs : List CodeChunk}
    (h : readFile env admitted tree rel = some (state, cs)) : Placed rel cs := by
  obtain ⟨_, content, -, -, -, -, -, rfl⟩ := readFile_eq_some h
  exact placed_sortChunks (env.extractChunks_filePath rel content)

theorem admittedText_of_nonempty {rel : String} {file : FileEntry} {content : String}
    (h : admittedTextNonempty env rel file = some content) :
    admittedText env rel file = some content := by
  obtain ⟨text, htext, hpass⟩ := Option.bind_eq_some_iff.mp h
  split at hpass
  · cases hpass
  · rename_i hne
    unfold admittedText
    rw [htext, Option.bind_some, Option.bind_some, if_neg hne, ite_self]
    exact hpass

theorem readFull_of_nonempty {tree : Tree} {rel : String} {file : IndexedFileState × List CodeChunk}
    (h : readFile env (admittedTextNonempty env) tree rel = some file) :
    readFull env tree rel = some file := by
  obtain ⟨entry, content, hentry, hstate, hsize, hadmitted, hmin, hcs⟩ := readFile_eq_some h
  rw [readFull, readFile_of hentry (hstate ▸ hsize) (admittedText_of_nonempty hadmitted) hmin,
    hstate, ← hcs]

/-! ## Trees over time -/

/-- A file whose time and size are unchanged has unchanged text. -/
def Unchanged (tree tree' : Tree) : Prop :=
  ∀ rel file file', tree.entry rel = some file → tree'.entry rel = some file' →
    file.state = file'.state → file.text = file'.text

variable (env) in
/-- The indexes of a build and any number of rebuilds, each with the tree it was made for. -/
inductive Reached : Tree → BM25Index → Prop
  | build (headroom : Headroom) (tree : Tree) : Reached tree (buildFromDirectory env headroom tree)
  | rebuild {tree tree' : Tree} {prev : BM25Index} (headroom : Headroom) :
      Reached tree prev → Unchanged tree tree' →
      Reached tree' (rebuildIncremental env headroom tree' prev)

variable (env) in
/-- The stored chunks of every tracked file are the first lines of what reading it gives. -/
def Tracks (tree : Tree) (index : BM25Index) : Prop :=
  ∀ rel state, index.files[rel]? = some state → ∃ cs,
    readFull env tree rel = some (state, cs) ∧
      (groupPrevChunks index rel).map bare = cs.map firstLines

theorem reusedFile_eq_some {prev : BM25Index} {tree : Tree} {rel : String}
    {file : IndexedFileState × List CodeChunk} (h : reusedFile prev tree rel = some file) :
    ∃ entry, tree.entry rel = some entry ∧ prev.files[rel]? = some entry.state ∧
      file = (entry.state, groupPrevChunks prev rel) := by
  unfold reusedFile at h
  cases hentry : tree.entry rel with
  | none => simp [hentry] at h
  | some entry =>
    simp only [hentry] at h
    split at h
    · rename_i hreuse
      rw [Bool.and_eq_true, decide_eq_true_eq] at hreuse
      exact ⟨entry, rfl, hreuse.1, (Option.some.inj h).symm⟩
    · cases h

/-- A reused file is read as the tree has it, up to the lines left out. -/
theorem Tracks.reused {tree tree' : Tree} {prev : BM25Index} {rel : String}
    {file : IndexedFileState × List CodeChunk} (h : Tracks env tree prev)
    (hsame : Unchanged tree tree') (hreused : reusedFile prev tree' rel = some file) :
    ∃ cs, readFull env tree' rel = some (file.1, cs) ∧ file.2.map bare = cs.map firstLines := by
  obtain ⟨entry', hentry', htracked, rfl⟩ := reusedFile_eq_some hreused
  obtain ⟨cs, hread, hgroup⟩ := h rel _ htracked
  obtain ⟨entry, content, hentry, hstate, hsize, hadmitted, hmin, hcs⟩ := readFile_eq_some hread
  have hequal : entry = entry' := by
    have htext := hsame rel entry entry' hentry hentry' hstate
    cases entry
    cases entry'
    simp only at hstate htext
    rw [hstate, htext]
  subst hequal
  refine ⟨cs, ?_, hgroup⟩
  rw [readFull, readFile_of hentry' hsize hadmitted hmin, hcs]

/-- What a rebuild takes from a file has the first lines of what a build takes from it. -/
theorem Tracks.takes {tree tree' : Tree} {prev : BM25Index} {headroom : Headroom}
    {rel : String} {file : IndexedFileState × List CodeChunk} (h : Tracks env tree prev)
    (hsame : Unchanged tree tree') (hread : readAgain env headroom tree' prev rel = some file) :
    Placed rel file.2 ∧ ∃ cs, readFull env tree' rel = some (file.1, cs) ∧
      file.2.map firstLines = cs.map firstLines := by
  unfold readAgain at hread
  cases hreused : reusedFile prev tree' rel with
  | some file' =>
    rw [hreused, Option.some_or, Option.some.injEq] at hread
    subst hread
    obtain ⟨cs, hfull, hbare⟩ := h.reused hsame hreused
    obtain ⟨_, -, -, hgroup⟩ := reusedFile_eq_some hreused
    refine ⟨?_, cs, hfull, ?_⟩
    · rw [hgroup]
      exact placed_groupPrevChunks prev rel
    · calc file'.2.map firstLines = (file'.2.map bare).map firstLines := by
            rw [List.map_map]
            exact List.map_congr_left fun c _ => (firstLines_bare c).symm
        _ = (cs.map firstLines).map firstLines := by rw [hbare]
        _ = cs.map firstLines := by
            rw [List.map_map]
            exact List.map_congr_left fun c _ => firstLines_firstLines c
  | none =>
    rw [hreused, Option.none_or] at hread
    refine ⟨placed_readFile hread, file.2, ?_, rfl⟩
    split at hread
    · exact hread
    · exact readFull_of_nonempty hread

theorem tracks_merged {tree : Tree} {chunksOf : ChunksOf}
    (h : ∀ rel file, chunksOf rel = some file → Placed rel file.2 ∧ ∃ cs,
      readFull env tree rel = some (file.1, cs) ∧ file.2.map firstLines = cs.map firstLines)
    (policy : Option String) :
    Tracks env tree { merged env chunksOf tree.files with admissionPolicy := policy } := by
  have hplaced : ∀ rel ∈ tree.files, Placed rel (chunksIn chunksOf rel) := by
    intro rel _
    unfold chunksIn
    cases hfile : chunksOf rel with
    | none => exact ⟨List.Pairwise.nil, by simp⟩
    | some file => exact (h rel file hfile).1
  intro rel state htracked
  rw [files_merged] at htracked
  split at htracked
  · rename_i hrel
    obtain ⟨file, hfile, rfl⟩ := Option.map_eq_some_iff.mp htracked
    obtain ⟨-, cs, hfull, hlines⟩ := h rel file hfile
    refine ⟨cs, hfull, ?_⟩
    have hgroup : groupPrevChunks (merged env chunksOf tree.files) rel =
        file.2.map (stored env) := by
      rw [groupPrevChunks_merged tree.nodup hplaced hrel, chunksIn, hfile]
      rfl
    calc (groupPrevChunks (merged env chunksOf tree.files) rel).map bare
        = file.2.map firstLines := by
          rw [hgroup, List.map_map]
          exact List.map_congr_left fun c _ => bare_stored c
      _ = cs.map firstLines := hlines
  · cases htracked

theorem buildFromDirectory_eq (hsafe : env.isSafeRoot = true) (headroom : Headroom) (tree : Tree) :
    buildFromDirectory env headroom tree =
      { merged env (readFull env tree) tree.files with admissionPolicy := some env.digest } := by
  unfold buildFromDirectory
  rw [if_pos hsafe]
  cases useBatches headroom tree with
  | none => rw [buildSequential, sequentially_eq]
  | some batch =>
    have hbatched := batched_eq env batch (readFull env tree) tree.files
    dsimp only
    rw [buildParallel, ← hbatched]
    rfl

theorem rebuildIncremental_eq {prev : BM25Index} (hpolicy : prev.admissionPolicy = some env.digest)
    (headroom : Headroom) (tree : Tree) :
    rebuildIncremental env headroom tree prev =
      { merged env (readAgain env headroom tree prev) tree.files with
        admissionPolicy := some env.digest } := by
  unfold rebuildIncremental
  rw [if_neg (not_not_intro hpolicy)]
  cases hbatches : useBatches headroom tree with
  | none =>
    dsimp only
    rw [rebuildIncrementalSequential, sequentially_eq]
    unfold readAgain
    simp [hbatches]
  | some batch =>
    have hbatched := batched_eq env batch (readAgain env headroom tree prev) tree.files
    have hprepare : prepareIncrementalFile env tree prev =
        fun rel => (readAgain env headroom tree prev rel).map (prepareChunks env rel) := by
      funext rel
      unfold prepareIncrementalFile readAgain prepareFile
      rw [hbatches]
      cases reusedFile prev tree rel with
      | none => rfl
      | some file => rfl
    dsimp only
    rw [rebuildIncrementalParallel, hprepare, hbatched]

/-- An index of a safe root tracks the tree it was made for. -/
theorem Reached.tracks {tree : Tree} {index : BM25Index} (hsafe : env.isSafeRoot = true)
    (h : Reached env tree index) :
    index.admissionPolicy = some env.digest ∧ Tracks env tree index := by
  induction h with
  | build headroom tree =>
    rw [buildFromDirectory_eq hsafe]
    refine ⟨rfl, tracks_merged ?_ _⟩
    intro rel file hfile
    exact ⟨placed_readFile hfile, file.2, hfile, rfl⟩
  | rebuild headroom _ hsame ih =>
    obtain ⟨hpolicy, htracks⟩ := ih
    rw [rebuildIncremental_eq hpolicy]
    exact ⟨rfl, tracks_merged (fun rel file hfile => htracks.takes hsame hfile) _⟩

theorem Reached.eq_new {tree : Tree} {index : BM25Index} (hroot : env.isSafeRoot = false)
    (h : Reached env tree index) : index = .new := by
  induction h with
  | build headroom tree => simp [buildFromDirectory, hroot]
  | rebuild headroom _ _ ih =>
    subst ih
    have hpolicy : BM25Index.new.admissionPolicy = none := rfl
    simp [rebuildIncremental, hpolicy, buildFromDirectory, hroot]

end LeanCtx.SearchIndex
