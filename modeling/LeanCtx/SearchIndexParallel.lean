import LeanCtx.SearchIndexRebuild

/-!
# Parallel and sequential builds of the search index

A build takes a file's text from a hint given with the build, from the content
cache that all builds share, or from the disk. The cache may hold anything at
the time of a look-up, as long as what it holds of a file in its current state
is that file's admitted text. A full build then gives one index, file after file
or in batches of any sizes. A rebuild leaves an empty source out when it runs
file after file, and tracks it when it runs in batches.
-/

namespace LeanCtx.SearchIndexParallel

open SearchIndex

/-! ## Batch sizes -/

def minBatchFiles : ℕ := 1

def estTransientPerFile : ℕ := 256 * 1024

def batchSizeForHeadroom (headroomBytes minFiles maxFiles estimatedBytesPerFile : ℕ) : ℕ :=
  let minFiles := max minFiles 1
  let maxFiles := max maxFiles minFiles
  let estimate := max estimatedBytesPerFile 1
  let byHeadroom := min (headroomBytes / estimate) maxFiles
  max minFiles (min byHeadroom maxFiles)

/-- `headroom` is the free memory in bytes, where it can be told. -/
def adaptiveBatchSize (headroom : Option ℕ) (minFiles maxFiles estimatedBytesPerFile : ℕ) : ℕ :=
  match headroom with
  | none => max maxFiles 1
  | some bytes => batchSizeForHeadroom bytes minFiles maxFiles estimatedBytesPerFile

def effectiveBatchSize (headroom : Option ℕ) (maxFiles : ℕ) : ℕ :=
  adaptiveBatchSize headroom minBatchFiles (max 1 (min maxFiles maxBatchFiles))
    estTransientPerFile

theorem effectiveBatchSize_pos (headroom : Option ℕ) (maxFiles : ℕ) :
    0 < effectiveBatchSize headroom maxFiles := by
  unfold effectiveBatchSize adaptiveBatchSize
  cases headroom with
  | none => exact lt_max_of_lt_right Nat.one_pos
  | some bytes => exact lt_max_of_lt_left (lt_max_of_lt_right Nat.one_pos)

/-! ## The text of a file -/

/-- What the shared cache holds of a file, and the state it was read in. -/
abbrev ContentCache := String → Option (IndexedFileState × String)

def ContentCache.get (cache : ContentCache) (rel : String) (current : IndexedFileState) :
    Option String :=
  (cache rel).bind fun entry => if entry.1 = current then some entry.2 else none

def ContentCache.insert (cache : ContentCache) (rel : String) (state : IndexedFileState)
    (content : String) : ContentCache :=
  Function.update cache rel (some (state, content))

variable (env : Env)

/-- The admitted text of a source on disk. -/
def read (rel : String) (file : FileEntry) : Option String :=
  file.text.bind fun text => env.admitText text rel

def content (contentHint : String → Option String) (cache : ContentCache) (rel : String)
    (file : FileEntry) : Option String :=
  if env.isBinaryDocument rel then
    file.text.bind fun text => if text = "" then none else env.admitText text rel
  else
    match contentHint rel with
    | some cached => env.admitText cached rel
    | none =>
      match cache.get rel file.state with
      | some cached => some cached
      | none => read env rel file

/-- The cache holds of no source in its current state anything but its admitted text. -/
def Sound (tree : Tree) (cache : ContentCache) : Prop :=
  ∀ rel file text, tree.entry rel = some file → env.isBinaryDocument rel = false →
    cache.get rel file.state = some text → read env rel file = some text

/-! ## File after file -/

/-- `cacheAt i` is the cache when the file at place `i` is looked up. -/
def buildSequential (tree : Tree) (contentHint : String → Option String)
    (cacheAt : ℕ → ContentCache) (files : List String) : BM25Index :=
  (files.zipIdx.foldl (fun (index : BM25Index) (file : String × ℕ) =>
    match readFile env (content env contentHint (cacheAt file.2)) tree file.1 with
    | none => index
    | some (state, chunks) =>
      (chunks.foldl (BM25Index.addChunk env) index).insertFile file.1 state)
    BM25Index.new).finalize

def rebuildIncrementalSequential (tree : Tree) (prev : BM25Index) (files : List String) :
    BM25Index :=
  sequentially env (fun rel => (reusedFile prev tree rel).or
    (readFile env (admittedTextNonempty env) tree rel)) files

/-! ## In batches -/

def prepareFile (tree : Tree) (contentHint : String → Option String) (cache : ContentCache)
    (rel : String) : Option PreparedFile :=
  (readFile env (content env contentHint cache) tree rel).map (prepareChunks env rel)

def prepareIncrementalFile (tree : Tree) (prev : BM25Index) (cache : ContentCache) (rel : String) :
    Option PreparedFile :=
  match reusedFile prev tree rel with
  | some file => some (prepareChunks env rel file)
  | none => prepareFile env tree (fun _ => none) cache rel

/-- `headroom filesDone` is the free memory when so many files are merged. -/
def batchLoop (headroom : ℕ → Option ℕ) (maxFiles : ℕ) (prepare : ℕ → String → Option PreparedFile)
    (files : List String) (filesDone : ℕ) (index : BM25Index) : BM25Index :=
  if _h : filesDone < files.length then
    let batchEnd := min (filesDone + effectiveBatchSize (headroom filesDone) maxFiles) files.length
    let prepared := ((files.zipIdx.drop filesDone).take (batchEnd - filesDone)).map
      fun file => prepare file.2 file.1
    batchLoop headroom maxFiles prepare files batchEnd
      ((prepared.filterMap id).foldl BM25Index.mergeFile index)
  else index
termination_by files.length - filesDone
decreasing_by
  have hpos := effectiveBatchSize_pos (headroom filesDone) maxFiles
  omega

def buildParallelBatched (tree : Tree) (contentHint : String → Option String)
    (cacheAt : ℕ → ContentCache) (headroom : ℕ → Option ℕ) (files : List String)
    (maxBatchSize : ℕ) : BM25Index :=
  (batchLoop headroom (max 1 (min maxBatchSize maxBatchFiles))
    (fun i => prepareFile env tree contentHint (cacheAt i)) files 0 .new).finalize

def rebuildIncrementalParallel (tree : Tree) (prev : BM25Index) (cacheAt : ℕ → ContentCache)
    (headroom : ℕ → Option ℕ) (files : List String) : BM25Index :=
  (batchLoop headroom maxBatchFiles
    (fun i => prepareIncrementalFile env tree prev (cacheAt i)) files 0 .new).finalize

/-- A source without text that is read again: it is no binary document, within the size limit, and
admitted. -/
structure EmptyReread (tree : Tree) (prev : BM25Index) (rel : String) : Prop where
  reread : reusedFile prev tree rel = none
  read : ∃ file admitted, tree.entry rel = some file ∧
    file.state.sizeBytes ≤ maxFileSizeBytes ∧ file.text = some "" ∧
    env.admitText "" rel = some admitted ∧ looksMinified admitted = false
  source : env.isBinaryDocument rel = false

/-! ## The cache does not show -/

variable {env}

theorem Sound.insert {tree : Tree} {cache : ContentCache} (h : Sound env tree cache) {rel : String}
    {file : FileEntry} {text : String} (hentry : tree.entry rel = some file)
    (hread : read env rel file = some text) : Sound env tree (cache.insert rel file.state text) := by
  intro rel' file' text' hentry' hsource hget
  by_cases hrel : rel' = rel
  · subst hrel
    rw [hentry, Option.some.injEq] at hentry'
    subst hentry'
    simp only [ContentCache.get, ContentCache.insert, Function.update_self, Option.bind_some,
      if_true, Option.some.injEq] at hget
    rw [hread, hget]
  · apply h rel' file' text' hentry' hsource
    simpa only [ContentCache.get, ContentCache.insert, Function.update_of_ne hrel] using hget

theorem content_of_sound {tree : Tree} {cache : ContentCache} (h : Sound env tree cache)
    (contentHint : String → Option String) {rel : String} {file : FileEntry}
    (hentry : tree.entry rel = some file) :
    content env contentHint cache rel file = content env contentHint (fun _ => none) rel file := by
  unfold content
  cases hbinary : env.isBinaryDocument rel with
  | true => rfl
  | false =>
    cases contentHint rel with
    | some cached => rfl
    | none =>
      cases hget : cache.get rel file.state with
      | none => rfl
      | some cached => exact (h rel file cached hentry hbinary hget).symm

theorem readFile_congr {admitted admitted' : String → FileEntry → Option String} {tree : Tree}
    {rel : String}
    (h : ∀ file, tree.entry rel = some file → admitted rel file = admitted' rel file) :
    readFile env admitted tree rel = readFile env admitted' tree rel := by
  unfold readFile
  cases hentry : tree.entry rel with
  | none => rfl
  | some file =>
    dsimp only
    rw [h file hentry]

theorem readFile_of_sound {tree : Tree} {cache : ContentCache} (h : Sound env tree cache)
    (contentHint : String → Option String) (rel : String) :
    readFile env (content env contentHint cache) tree rel =
      readFile env (content env contentHint fun _ => none) tree rel :=
  readFile_congr fun _ hentry => content_of_sound h contentHint hentry

theorem content_of_nothing (rel : String) (file : FileEntry) :
    content env (fun _ => none) (fun _ => none) rel file = admittedText env rel file := rfl

/-! ## Both ways of running merge the same files -/

/-- A batch is merged file by file. -/
theorem merge_batch (chunksOf : ChunksOf) (batch : List (String × ℕ)) (index : BM25Index) :
    ((batch.map fun file => (chunksOf file.1).map (prepareChunks env file.1)).filterMap id).foldl
      BM25Index.mergeFile index =
        batch.foldl (fun index file => mergeChunks env chunksOf index file.1) index := by
  induction batch generalizing index with
  | nil => rfl
  | cons file batch ih =>
    rw [List.map_cons, List.foldl_cons, ← ih, List.filterMap_cons]
    unfold mergeChunks
    cases chunksOf file.1 with
    | none => rfl
    | some file => rfl

theorem batchLoop_eq (headroom : ℕ → Option ℕ) (maxFiles : ℕ)
    {prepare : ℕ → String → Option PreparedFile} {chunksOf : ChunksOf}
    (hprepare : ∀ i rel, prepare i rel = (chunksOf rel).map (prepareChunks env rel))
    (files : List String) (filesDone : ℕ) (index : BM25Index) :
    batchLoop headroom maxFiles prepare files filesDone index =
      (files.zipIdx.drop filesDone).foldl
        (fun index file => mergeChunks env chunksOf index file.1) index := by
  fun_induction batchLoop headroom maxFiles prepare files filesDone index with
  | case1 filesDone index hmore batchEnd prepared ih =>
    have hend : filesDone ≤ batchEnd := by
      have hle := Nat.le_add_right filesDone (effectiveBatchSize (headroom filesDone) maxFiles)
      exact le_min hle hmore.le
    have hprepared : prepared = ((files.zipIdx.drop filesDone).take (batchEnd - filesDone)).map
        fun file => (chunksOf file.1).map (prepareChunks env file.1) :=
      List.map_congr_left fun file _ => hprepare file.2 file.1
    have hdrop : files.zipIdx.drop batchEnd =
        (files.zipIdx.drop filesDone).drop (batchEnd - filesDone) := by
      rw [List.drop_drop, Nat.add_sub_cancel' hend]
    rw [ih, hprepared, merge_batch, ← List.foldl_append, hdrop, List.take_append_drop]
  | case2 filesDone index hdone =>
    have hlen : files.zipIdx.length ≤ filesDone := by
      rw [List.length_zipIdx]
      exact Nat.le_of_not_lt hdone
    rw [List.drop_of_length_le hlen]
    rfl

theorem batchLoop_merged (headroom : ℕ → Option ℕ) (maxFiles : ℕ)
    {prepare : ℕ → String → Option PreparedFile} {chunksOf : ChunksOf}
    (hprepare : ∀ i rel, prepare i rel = (chunksOf rel).map (prepareChunks env rel))
    (files : List String) :
    (batchLoop headroom maxFiles prepare files 0 .new).finalize = merged env chunksOf files := by
  have hfiles : files.zipIdx.map Prod.fst = files := List.zipIdx_map_fst 0 files
  unfold merged
  rw [batchLoop_eq headroom maxFiles hprepare, List.drop_zero]
  conv_rhs => rw [← hfiles, List.foldl_map]

variable {tree : Tree} {cacheAt : ℕ → ContentCache}

theorem buildSequential_eq (contentHint : String → Option String)
    (hcache : ∀ i, Sound env tree (cacheAt i)) (files : List String) :
    buildSequential env tree contentHint cacheAt files =
      merged env (readFile env (content env contentHint fun _ => none) tree) files := by
  have hsequentially := sequentially_eq env
    (readFile env (content env contentHint fun _ => none) tree) files
  have hfiles : files.zipIdx.map Prod.fst = files := List.zipIdx_map_fst 0 files
  rw [← hsequentially]
  unfold buildSequential sequentially
  conv_rhs => rw [← hfiles, List.foldl_map]
  congr 1
  apply List.foldl_ext
  intro index file _
  have hsame := readFile_of_sound (hcache file.2) contentHint file.1
  cases hread : readFile env (content env contentHint fun _ => none) tree file.1 with
  | none =>
    rw [hread] at hsame
    simp only [hsame]
  | some read =>
    rw [hread] at hsame
    simp only [hsame]

theorem buildParallelBatched_eq (contentHint : String → Option String)
    (hcache : ∀ i, Sound env tree (cacheAt i)) (headroom : ℕ → Option ℕ) (files : List String)
    (maxBatchSize : ℕ) :
    buildParallelBatched env tree contentHint cacheAt headroom files maxBatchSize =
      merged env (readFile env (content env contentHint fun _ => none) tree) files := by
  unfold buildParallelBatched
  apply batchLoop_merged
  intro i rel
  rw [prepareFile, readFile_of_sound (hcache i)]

theorem rebuildIncrementalParallel_eq (prev : BM25Index) (hcache : ∀ i, Sound env tree (cacheAt i))
    (headroom : ℕ → Option ℕ) (files : List String) :
    rebuildIncrementalParallel env tree prev cacheAt headroom files =
      merged env (fun rel => (reusedFile prev tree rel).or
        (readFile env (admittedText env) tree rel)) files := by
  unfold rebuildIncrementalParallel
  apply batchLoop_merged
  intro i rel
  have hread : readFile env (content env (fun _ => none) (cacheAt i)) tree rel =
      readFile env (admittedText env) tree rel := readFile_of_sound (hcache i) _ rel
  unfold prepareIncrementalFile prepareFile
  rw [hread]
  cases reusedFile prev tree rel with
  | none => rfl
  | some file => rfl

/-! ## Sources without text -/

theorem merged_congr_left {f g : ChunksOf} {files : List String}
    (h : ∀ rel ∈ files, f rel = g rel) : merged env f files = merged env g files := by
  unfold merged
  congr 1
  apply List.foldl_ext
  intro index rel hrel
  unfold mergeChunks
  rw [h rel hrel]

/-- Only a source without text is admitted by a build and not by a sequential rebuild. -/
theorem admittedText_eq_nonempty {rel : String} {file : FileEntry}
    (h : env.isBinaryDocument rel = true ∨ file.text ≠ some "" ∨ env.admitText "" rel = none) :
    admittedText env rel file = admittedTextNonempty env rel file := by
  unfold admittedText admittedTextNonempty
  cases hbinary : env.isBinaryDocument rel with
  | true => rfl
  | false =>
    cases htext : file.text with
    | none => rfl
    | some text =>
      by_cases hempty : text = ""
      · subst hempty
        rcases h with hdocument | hne | hnone
        · rw [hbinary] at hdocument
          cases hdocument
        · exact absurd htext hne
        · simpa using hnone
      · simp [hempty]

theorem readFile_empty {prev : BM25Index} {rel : String} (h : EmptyReread env tree prev rel) :
    (readFile env (admittedText env) tree rel).isSome ∧
      readFile env (admittedTextNonempty env) tree rel = none := by
  obtain ⟨file, admitted, hentry, hsize, htext, hadmit, hmin⟩ := h.read
  have hfull : admittedText env rel file = some admitted := by
    simp [admittedText, h.source, htext, hadmit]
  have hnone : admittedTextNonempty env rel file = none := by
    simp [admittedTextNonempty, htext]
  rw [readFile_of hentry hsize hfull hmin]
  exact ⟨rfl, by simp [readFile, hentry, hnone]⟩

theorem readFile_of_not_empty {prev : BM25Index} {rel : String}
    (hreread : reusedFile prev tree rel = none) (h : ¬ EmptyReread env tree prev rel) :
    readFile env (admittedText env) tree rel =
      readFile env (admittedTextNonempty env) tree rel := by
  cases hentry : tree.entry rel with
  | none => simp [readFile, hentry]
  | some file =>
    by_cases hagree : admittedText env rel file = admittedTextNonempty env rel file
    · apply readFile_congr
      intro file' hentry'
      rw [hentry, Option.some.injEq] at hentry'
      rw [← hentry', hagree]
    · have hempty := mt admittedText_eq_nonempty hagree
      push Not at hempty
      obtain ⟨hsource, htext, hadmit⟩ := hempty
      have hsource := Bool.eq_false_of_not_eq_true hsource
      obtain ⟨admitted, hadmit⟩ := Option.ne_none_iff_exists'.mp hadmit
      have hfull : admittedText env rel file = some admitted := by
        simp [admittedText, hsource, htext, hadmit]
      have hnone : admittedTextNonempty env rel file = none := by
        simp [admittedTextNonempty, htext]
      by_cases hsize : file.state.sizeBytes ≤ maxFileSizeBytes
      · have hmin : looksMinified admitted = true := by
          by_contra hmin
          exact h ⟨hreread, ⟨file, admitted, hentry, hsize, htext, hadmit, by simpa using hmin⟩,
            hsource⟩
        simp [readFile, hentry, hfull, hnone, hmin]
      · simp [readFile, hentry, Nat.lt_of_not_le hsize]

theorem rebuilds_ne_of_empty {prev : BM25Index} (hcache : ∀ i, Sound env tree (cacheAt i))
    (headroom : ℕ → Option ℕ) {files : List String} {rel : String} (hrel : rel ∈ files)
    (h : EmptyReread env tree prev rel) :
    rebuildIncrementalParallel env tree prev cacheAt headroom files ≠
      rebuildIncrementalSequential env tree prev files := by
  intro hsame
  rw [rebuildIncrementalParallel_eq prev hcache, rebuildIncrementalSequential,
    sequentially_eq] at hsame
  have htracked := congrArg (fun index => index.files[rel]?) hsame
  obtain ⟨hread, hskipped⟩ := readFile_empty h
  obtain ⟨file, hread⟩ := Option.isSome_iff_exists.mp hread
  simp only [files_merged, if_pos hrel, h.reread, Option.none_or, hread, hskipped,
    Option.map_some, Option.map_none] at htracked
  cases htracked

/-! ## One index -/

/-- Full builds agree, and rebuilds agree when no source without text is read again. -/
theorem parallel_eq_sequential_iff (env : Env) (tree : Tree) (contentHint : String → Option String)
    (cacheAt cacheAt' : ℕ → ContentCache) (hcache : ∀ i, Sound env tree (cacheAt i))
    (hcache' : ∀ i, Sound env tree (cacheAt' i)) (headroom : ℕ → Option ℕ) (maxBatchSize : ℕ)
    (prev : BM25Index) (files : List String) :
    buildParallelBatched env tree contentHint cacheAt headroom files maxBatchSize =
        buildSequential env tree contentHint cacheAt' files ∧
      (rebuildIncrementalParallel env tree prev cacheAt headroom files =
          rebuildIncrementalSequential env tree prev files ↔
        ∀ rel ∈ files, ¬ EmptyReread env tree prev rel) := by
  constructor
  · rw [buildParallelBatched_eq contentHint hcache, buildSequential_eq contentHint hcache']
  · constructor
    · intro hsame rel hrel hempty
      exact rebuilds_ne_of_empty hcache headroom hrel hempty hsame
    · intro hnone
      rw [rebuildIncrementalParallel_eq prev hcache, rebuildIncrementalSequential,
        sequentially_eq]
      apply merged_congr_left
      intro rel hrel
      cases hreused : reusedFile prev tree rel with
      | some file => rfl
      | none => rw [Option.none_or, Option.none_or, readFile_of_not_empty hreused (hnone rel hrel)]

/-! ## An empty source -/

/-- A tree of one empty source. -/
def emptyTree : Tree where
  files := ["__init__.py"]
  entry rel := if rel = "__init__.py" then some ⟨⟨7, 0⟩, some ""⟩ else none
  nodup := List.nodup_singleton _

theorem sound_empty (tree : Tree) : Sound plainEnv tree fun _ => none := by
  intro rel file text _ _ hget
  cases hget

theorem emptyReread_init : EmptyReread plainEnv emptyTree .new "__init__.py" where
  reread := by
    have htracked : BM25Index.new.files["__init__.py"]? = none := Std.ExtTreeMap.getElem?_empty
    simp [reusedFile, emptyTree, htracked]
  read := ⟨⟨⟨7, 0⟩, some ""⟩, "", rfl, Nat.zero_le _, rfl, rfl, by decide +kernel⟩
  source := rfl

/-- Rebuilt in batches, the index tracks the empty source; file after file, it does not. -/
theorem rebuilds_differ :
    rebuildIncrementalParallel plainEnv emptyTree .new (fun _ _ => none) (fun _ => none)
        ["__init__.py"] ≠
      rebuildIncrementalSequential plainEnv emptyTree .new ["__init__.py"] :=
  rebuilds_ne_of_empty (fun _ => sound_empty emptyTree) (fun _ => none) List.mem_cons_self
    emptyReread_init

/-- A source with text that the hint gives is indexed alike. -/
theorem parallel_eq_sequential_iff_grown :
    buildParallelBatched plainEnv emptyTree (fun _ => some "def f(): pass") (fun _ _ => none)
        (fun _ => some 0) ["__init__.py"] 2 =
        buildSequential plainEnv emptyTree (fun _ => some "def f(): pass") (fun _ _ => none)
          ["__init__.py"] ∧
      (rebuildIncrementalParallel plainEnv emptyTree .new (fun _ _ => none) (fun _ => some 0)
            ["__init__.py"] =
          rebuildIncrementalSequential plainEnv emptyTree .new ["__init__.py"] ↔
        ∀ rel ∈ ["__init__.py"], ¬ EmptyReread plainEnv emptyTree .new rel) :=
  parallel_eq_sequential_iff plainEnv emptyTree (fun _ => some "def f(): pass") (fun _ _ => none)
    (fun _ _ => none) (fun _ => sound_empty emptyTree) (fun _ => sound_empty emptyTree)
    (fun _ => some 0) 2 .new ["__init__.py"]

end LeanCtx.SearchIndexParallel
