import LeanCtx.SearchIndexConsistent
import LeanCtx.SearchIndexRebuild
import LeanCtx.SecretPaths

/-!
# When a search index is stale

A call takes the persisted index unless it looks stale, and otherwise builds or
rebuilds it. The check compares the tracked files with the tree and looks for
listed files that are not tracked, but a build leaves out a file that is too
large, cannot be decoded, is not admitted or looks minified. An index that holds
no chunk never looks stale.
-/

namespace LeanCtx.SearchIndex

open SecretPaths

variable {O G : Type}

/-- A tree as the corpus walk lists it: files that are there and not secret-like. -/
structure WalkedTree extends Tree where
  listed : ∀ rel ∈ files, (entry rel).isSome ∧ isSecretLike rel = none

/-! ## The check -/

def trimStartMatches (path : String) : String :=
  String.ofList (path.toList.dropWhile fun c => c = '/' || c = '\\')

/-- Every file is looked up once in the source, and its chunks' later ones are passed over. -/
def bm25IndexLooksStale (index : BM25Index) (tree : Tree) : Bool :=
  if index.chunks = [] then false
  else if index.files.toList.any fun (rel, _) => (isSecretLike rel).isSome then true
  else if index.files.isEmpty then
    index.chunks.any fun chunk =>
      trimStartMatches chunk.filePath ≠ "" && (tree.entry (trimStartMatches chunk.filePath)).isNone
  else if index.files.toList.any fun (rel, oldState) =>
      (tree.entry rel).map FileEntry.state ≠ some oldState then true
  else tree.files.any fun rel => index.files[rel]?.isNone

/-! ## Loading and building -/

variable (env : Env) (o : Origins O G)

/-- The persisted index, when it was admitted under the current policy, with the origins of the
chunks that it holds. -/
def load (persisted : Option (StoredIndex O)) : Option (StoredIndex O) :=
  (persisted.filter fun s => s.index.admissionPolicy = some env.digest).map fun s =>
    { s with providerOrigins := s.heldOrigins o }

inductive LoadOrBuild (O : Type)
  | unsafeRoot
  | loaded (s : StoredIndex O)
  | built (s : StoredIndex O)

/-- What a stale index is rebuilt to, before it takes over external chunks. -/
def rebuildStale (headroom : Headroom) (tree : Tree) (prev : BM25Index) : BM25Index :=
  if prev.files.isEmpty then buildFromDirectory env headroom tree
  else rebuildIncremental env headroom tree prev

def loadOrBuild (headroom : Headroom) (tree : Tree) (persisted : Option (StoredIndex O)) :
    LoadOrBuild O :=
  if env.isSafeRoot then
    match load env o persisted with
    | some idx =>
      if bm25IndexLooksStale idx.index tree then
        .built (StoredIndex.carryingExternalFrom env o
          ⟨rebuildStale env headroom tree idx.index, ∅⟩ idx)
      else .loaded idx
    | none => .built ⟨buildFromDirectory env headroom tree, ∅⟩
  else .unsafeRoot

/-- An index is stale exactly when its tree changed: it is not stale while the tree stays as it is,
so that a call that finds it persisted loads it, and it is stale when a tracked file is changed or
gone and when a listed file is new. -/
structure StaleWhenChanged (index : BM25Index) (tree : WalkedTree) : Prop where
  fresh : bm25IndexLooksStale index tree.toTree = false
  kept : ∀ (headroom : Headroom) (persisted : StoredIndex O), persisted.index = index →
    ∃ s, loadOrBuild env o headroom tree.toTree (some persisted) = .loaded s ∧ s.index = index
  changed : ∀ (tree' : WalkedTree) rel state, index.files[rel]? = some state →
    (tree'.entry rel).map FileEntry.state ≠ some state →
    bm25IndexLooksStale index tree'.toTree = true
  added : ∀ (tree' : WalkedTree), ∀ rel ∈ tree'.files, rel ∉ tree.files →
    bm25IndexLooksStale index tree'.toTree = true

/-! ## What a call takes from the files -/

/-- What a file of the tree gives to the index that a call builds, if anything. -/
def takes (headroom : Headroom) (tree : Tree) (persisted : Option (StoredIndex O)) : ChunksOf :=
  match load env o persisted with
  | some idx =>
    if idx.index.files.isEmpty then readFull env tree else readAgain env headroom tree idx.index
  | none => readFull env tree

/-- Whether a rebuild takes a chunk over, by the origins on record. -/
def takenOver (origins : OrdMap String O) (chunk : CodeChunk) : Bool :=
  origins[chunk.filePath]?.isSome && StoredIndex.admitsVerbatim env o chunk

def Carries (persisted : Option (StoredIndex O)) : Prop :=
  ∃ idx, load env o persisted = some idx ∧
    ∃ c ∈ idx.index.chunks, takenOver env o idx.providerOrigins c = true

/-- The tree has a listed file, none is left out, and there is a chunk. -/
structure Covered (headroom : Headroom) (tree : Tree) (persisted : Option (StoredIndex O)) :
    Prop where
  listed : tree.files ≠ []
  taken : ∀ rel ∈ tree.files, (takes env o headroom tree persisted rel).isSome
  chunk : (∃ rel ∈ tree.files, chunksIn (takes env o headroom tree persisted) rel ≠ []) ∨
    Carries env o persisted

/-! ## External chunks -/

variable {env} {o}

theorem chunks_pushTaken (origins : OrdMap String O) (chunks : List CodeChunk)
    (s : StoredIndex O) :
    (StoredIndex.pushTaken o (StoredIndex.takesAdmitted env o) origins () s chunks).1.index.chunks =
      s.index.chunks ++ chunks.filter (takenOver env o origins) := by
  induction chunks generalizing s with
  | nil => simp [StoredIndex.pushTaken]
  | cons chunk chunks ih =>
    unfold StoredIndex.pushTaken
    cases horigin : origins[chunk.filePath]? with
    | none =>
      have hleft : ¬ takenOver env o origins chunk = true := by
        rw [takenOver, horigin]
        exact Bool.false_ne_true
      rw [List.filter_cons_of_neg hleft]
      exact ih s
    | some origin =>
      have htaken : takenOver env o origins chunk = StoredIndex.admitsVerbatim env o chunk := by
        rw [takenOver, horigin]
        rfl
      cases hadmits : StoredIndex.admitsVerbatim env o chunk with
      | false =>
        rw [hadmits] at htaken
        simp only [StoredIndex.takesAdmitted, hadmits, Bool.false_eq_true, if_false]
        rw [ih, List.filter_cons_of_neg (by simp [htaken])]
      | true =>
        rw [hadmits] at htaken
        simp only [StoredIndex.takesAdmitted, hadmits, if_true]
        rw [ih, List.filter_cons_of_pos htaken]
        exact (List.append_cons s.index.chunks chunk _).symm

theorem index_withPostingsOf (s prev : StoredIndex O) (positions : List (Option ℕ)) :
    (s.withPostingsOf prev positions).index.chunks = s.index.chunks ∧
      (s.withPostingsOf prev positions).index.files = s.index.files ∧
      (s.withPostingsOf prev positions).index.admissionPolicy = s.index.admissionPolicy := by
  unfold StoredIndex.withPostingsOf
  split
  · exact ⟨rfl, rfl, rfl⟩
  · unfold StoredIndex.finalize BM25Index.finalize
    split <;> exact ⟨rfl, rfl, rfl⟩

theorem files_carryingExternalFrom (s prev : StoredIndex O) :
    (s.carryingExternalFrom env o prev).index.files = s.index.files ∧
      (s.carryingExternalFrom env o prev).index.admissionPolicy = s.index.admissionPolicy := by
  unfold StoredIndex.carryingExternalFrom
  obtain ⟨-, hfiles, hpolicy⟩ := index_withPostingsOf (s.pushAdmitted env o prev).1 prev
    (s.pushAdmitted env o prev).2
  rw [hfiles, hpolicy]
  have hpushed : PushedFrom s prev (s.pushAdmitted env o prev) := pushedFrom_pushAdmitted s prev
  rcases hpushed with hsame | ⟨-, -, hindex⟩
  · rw [hsame]
    exact ⟨rfl, rfl⟩
  · rw [hindex]
    exact ⟨rfl, rfl⟩

theorem chunks_carryingExternalFrom {s prev : StoredIndex O}
    (hs : s.index.admissionPolicy = some env.digest)
    (hprev : prev.index.admissionPolicy = some env.digest) :
    (s.carryingExternalFrom env o prev).index.chunks =
      s.index.chunks ++ prev.index.chunks.filter (takenOver env o prev.providerOrigins) := by
  unfold StoredIndex.carryingExternalFrom
  rw [(index_withPostingsOf _ prev _).1]
  unfold StoredIndex.pushAdmitted
  by_cases hsize : prev.providerOrigins.size = 0
  · have hnone (source : String) : prev.providerOrigins[source]? = none := by
      have hempty : prev.providerOrigins.isEmpty = true := by
        rw [Std.ExtTreeMap.isEmpty_eq_size_beq_zero, hsize]
        rfl
      rw [Std.ExtTreeMap.isEmpty_iff.mp hempty]
      exact Std.ExtTreeMap.getElem?_empty
    rw [if_pos hsize]
    simp [takenOver, hnone]
  · rw [if_neg hsize, if_neg (by simp [hs, hprev]), chunks_pushTaken]

/-! ## The built index -/

theorem load_eq_some {persisted : Option (StoredIndex O)} {idx : StoredIndex O}
    (h : load env o persisted = some idx) : idx.index.admissionPolicy = some env.digest := by
  obtain ⟨s, hs, rfl⟩ := Option.map_eq_some_iff.mp h
  have hpolicy := (Option.filter_eq_some_iff.mp hs).2
  simpa using hpolicy

theorem rebuildStale_eq (hsafe : env.isSafeRoot = true) (headroom : Headroom) (tree : Tree)
    {prev : BM25Index} (hprev : prev.admissionPolicy = some env.digest) :
    rebuildStale env headroom tree prev =
      { merged env (if prev.files.isEmpty then readFull env tree
          else readAgain env headroom tree prev) tree.files with
        admissionPolicy := some env.digest } := by
  unfold rebuildStale
  split
  · exact buildFromDirectory_eq hsafe headroom tree
  · exact rebuildIncremental_eq hprev headroom tree

variable {headroom : Headroom} {persisted : Option (StoredIndex O)} {s : StoredIndex O}

/-- What the index of a call holds: the files that are taken, and their chunks before those taken
over. -/
theorem built_index {tree : Tree} (h : loadOrBuild env o headroom tree persisted = .built s) :
    s.index.files = (merged env (takes env o headroom tree persisted) tree.files).files ∧
      s.index.admissionPolicy = some env.digest ∧
      (s.index.chunks ≠ [] ↔
        (∃ rel ∈ tree.files, chunksIn (takes env o headroom tree persisted) rel ≠ []) ∨
          Carries env o persisted) := by
  unfold loadOrBuild at h
  split at h
  · rename_i hsafe
    have hown (chunksOf : ChunksOf) : (merged env chunksOf tree.files).chunks ≠ [] ↔
        ∃ rel ∈ tree.files, chunksIn chunksOf rel ≠ [] := by
      rw [chunks_merged]
      simp
    cases hload : load env o persisted with
    | none =>
      rw [hload] at h
      obtain rfl := LoadOrBuild.built.inj h
      have htakes : takes env o headroom tree persisted = readFull env tree := by
        rw [takes, hload]
      have hcarries : ¬ Carries env o persisted := by
        rintro ⟨idx, hidx, -⟩
        rw [hload] at hidx
        cases hidx
      dsimp only
      rw [buildFromDirectory_eq hsafe, htakes, hown, or_iff_left hcarries]
      exact ⟨rfl, rfl, Iff.rfl⟩
    | some idx =>
      rw [hload] at h
      dsimp only at h
      split at h
      · obtain rfl := LoadOrBuild.built.inj h
        have hpolicy := load_eq_some hload
        have hrebuilt := rebuildStale_eq hsafe headroom tree hpolicy
        have htakes : takes env o headroom tree persisted =
            if idx.index.files.isEmpty then readFull env tree
            else readAgain env headroom tree idx.index := by
          rw [takes, hload]
        rw [← htakes] at hrebuilt
        obtain ⟨hfiles, hadmission⟩ := @files_carryingExternalFrom O G env o
          ⟨rebuildStale env headroom tree idx.index, ∅⟩ idx
        have hchunks := @chunks_carryingExternalFrom O G env o
          ⟨rebuildStale env headroom tree idx.index, ∅⟩ idx (by rw [hrebuilt]) hpolicy
        refine ⟨by rw [hfiles, hrebuilt], by rw [hadmission, hrebuilt], ?_⟩
        have hcarries : Carries env o persisted ↔
            ∃ c ∈ idx.index.chunks, takenOver env o idx.providerOrigins c = true := by
          simp [Carries, hload]
        have hfilter : ¬ idx.index.chunks.filter (takenOver env o idx.providerOrigins) = [] ↔
            ∃ c ∈ idx.index.chunks, takenOver env o idx.providerOrigins c = true := by
          simp
        rw [hchunks, hrebuilt, ← hown, hcarries, ne_eq, List.append_eq_nil_iff, not_and_or, hfilter]
      · cases h
  · cases h

theorem built_safe {tree : Tree} (h : loadOrBuild env o headroom tree persisted = .built s) :
    env.isSafeRoot = true := by
  by_contra hunsafe
  rw [loadOrBuild, if_neg hunsafe] at h
  cases h

theorem state_of_takes {tree : Tree} {rel : String} {file : IndexedFileState × List CodeChunk}
    (h : takes env o headroom tree persisted rel = some file) :
    (tree.entry rel).map FileEntry.state = some file.1 := by
  have hread {admitted : String → FileEntry → Option String}
      (h : readFile env admitted tree rel = some file) :
      (tree.entry rel).map FileEntry.state = some file.1 := by
    obtain ⟨entry, -, hentry, hstate, -⟩ := readFile_eq_some h
    rw [hentry, Option.map_some, hstate]
  unfold takes at h
  cases hload : load env o persisted with
  | none =>
    rw [hload] at h
    exact hread h
  | some idx =>
    rw [hload] at h
    dsimp only at h
    split at h
    · exact hread h
    · unfold readAgain at h
      cases hreused : reusedFile idx.index tree rel with
      | none =>
        rw [hreused, Option.none_or] at h
        exact hread h
      | some file' =>
        rw [hreused, Option.some_or, Option.some.injEq] at h
        subst h
        obtain ⟨entry, hentry, -, rfl⟩ := reusedFile_eq_some hreused
        rw [hentry, Option.map_some]

/-- A built index tracks the listed files that are taken, in their current state. -/
theorem tracked_iff {tree : Tree} (h : loadOrBuild env o headroom tree persisted = .built s)
    (rel : String) (state : IndexedFileState) : s.index.files[rel]? = some state ↔
      rel ∈ tree.files ∧ (takes env o headroom tree persisted rel).map Prod.fst = some state := by
  rw [(built_index h).1, files_merged]
  split
  · rename_i hrel
    rw [and_iff_right hrel]
  · rename_i hrel
    simp [hrel]

/-! ## Stale indexes -/

theorem any_files (index : BM25Index) (p : String → IndexedFileState → Bool) :
    index.files.toList.any (fun (rel, state) => p rel state) = true ↔
      ∃ rel state, index.files[rel]? = some state ∧ p rel state = true := by
  rw [List.any_eq_true]
  constructor
  · rintro ⟨⟨rel, state⟩, hmem, hp⟩
    exact ⟨rel, state, Std.ExtTreeMap.mem_toList_iff_getElem?_eq_some.mp hmem, hp⟩
  · rintro ⟨rel, state, hget, hp⟩
    exact ⟨(rel, state), Std.ExtTreeMap.mem_toList_iff_getElem?_eq_some.mpr hget, hp⟩

/-- An index with a chunk and a tracked file is stale when a tracked file is secret-like, changed or
gone, or a listed file is not tracked. -/
theorem looksStale_iff {index : BM25Index} (hchunks : index.chunks ≠ [])
    (hfiles : index.files.isEmpty = false) (tree : Tree) :
    bm25IndexLooksStale index tree = true ↔
      (∃ rel state, index.files[rel]? = some state ∧ (isSecretLike rel).isSome) ∨
      (∃ rel state, index.files[rel]? = some state ∧
        (tree.entry rel).map FileEntry.state ≠ some state) ∨
      ∃ rel ∈ tree.files, index.files[rel]? = none := by
  have hsecret := any_files index fun rel _ => (isSecretLike rel).isSome
  have hchanged := any_files index fun rel oldState =>
    (tree.entry rel).map FileEntry.state ≠ some oldState
  simp only [decide_eq_true_eq] at hchanged
  rw [← hsecret, ← hchanged]
  have hlisted : (tree.files.any fun rel => index.files[rel]?.isNone) = true ↔
      ∃ rel ∈ tree.files, index.files[rel]? = none := by
    rw [List.any_eq_true]
    simp only [Option.isNone_iff_eq_none]
  rw [← hlisted]
  unfold bm25IndexLooksStale
  rw [if_neg hchunks]
  split
  · rename_i hany
    exact iff_of_true rfl (.inl hany)
  · rename_i hnone
    rw [or_iff_right hnone, if_neg (by rw [hfiles]; exact Bool.false_ne_true)]
    split
    · rename_i hany
      exact iff_of_true rfl (.inl hany)
    · rename_i hsame
      rw [or_iff_right hsame]

/-- An index that has no chunk or tracks no file is not stale in any tree that has all paths. -/
theorem not_looksStale_of_empty {index : BM25Index} (h : index.chunks = [] ∨ index.files = ∅)
    {tree : Tree} (hall : ∀ rel, (tree.entry rel).isSome) :
    bm25IndexLooksStale index tree = false := by
  unfold bm25IndexLooksStale
  split
  · rfl
  · rename_i hchunks
    have hfiles := h.resolve_left hchunks
    have hempty : index.files.isEmpty = true := Std.ExtTreeMap.isEmpty_iff.mpr hfiles
    have hkeys : index.files.toList = [] := by
      rw [← List.isEmpty_iff, Std.ExtTreeMap.isEmpty_toList, hempty]
    rw [hkeys, List.any_nil, if_neg Bool.false_ne_true, if_pos hempty, List.any_eq_false]
    intro chunk _
    have hthere := hall (trimStartMatches chunk.filePath)
    rw [Option.isSome_iff_ne_none] at hthere
    simp [hthere]

/-- A persisted index that is not stale is loaded. -/
theorem loaded_of_fresh {tree : Tree} {idx : StoredIndex O} (hsafe : env.isSafeRoot = true)
    (hpolicy : idx.index.admissionPolicy = some env.digest)
    (hfresh : bm25IndexLooksStale idx.index tree = false) (headroom : Headroom) :
    ∃ s, loadOrBuild env o headroom tree (some idx) = .loaded s ∧ s.index = idx.index := by
  refine ⟨{ idx with providerOrigins := idx.heldOrigins o }, ?_, rfl⟩
  have hload : load env o (some idx) = some { idx with providerOrigins := idx.heldOrigins o } := by
    simp [load, Option.filter_some, hpolicy]
  rw [loadOrBuild, if_pos hsafe, hload]
  dsimp only
  rw [hfresh, if_neg Bool.false_ne_true]

/-- Some file name is new to a list of files and not secret-like. -/
theorem exists_new_name (files : List String) : ∃ rel, rel ∉ files ∧ isSecretLike rel = none := by
  have hinj : Function.Injective fun n => String.ofList (plainName n) := by
    intro n m hnm
    have hlen := congrArg List.length (String.ofList_injective hnm)
    simpa [plainName] using hlen
  have hinfinite := Set.infinite_range_of_injective hinj
  obtain ⟨rel, ⟨n, rfl⟩, hnew⟩ := hinfinite.exists_notMem_finset files.toFinset
  exact ⟨_, by simpa using hnew, isSecretLike_plainName n⟩

/-- A tree that has all paths and lists one file. -/
def fullTree (rel : String) (h : isSecretLike rel = none) : WalkedTree where
  files := [rel]
  entry _ := some ⟨⟨0, 0⟩, none⟩
  nodup := List.nodup_singleton rel
  listed := by
    intro rel' hrel'
    rw [List.mem_singleton.mp hrel']
    exact ⟨rfl, h⟩

theorem isEmpty_of_tracked {index : BM25Index} {rel : String} {state : IndexedFileState}
    (h : index.files[rel]? = some state) : index.files.isEmpty = false := by
  rw [Std.ExtTreeMap.isEmpty_eq_false_iff]
  intro hempty
  rw [hempty, Std.ExtTreeMap.getElem?_empty] at h
  cases h

/-- A file that is left out makes an index that holds a chunk of another file stale at once. -/
theorem stale_of_left_out {tree : WalkedTree}
    (h : loadOrBuild env o headroom tree.toTree persisted = .built s) {rel left : String}
    (hrel : rel ∈ tree.files)
    (hchunk : chunksIn (takes env o headroom tree.toTree persisted) rel ≠ [])
    (hleft : left ∈ tree.files) (hnone : takes env o headroom tree.toTree persisted left = none) :
    bm25IndexLooksStale s.index tree.toTree = true := by
  obtain ⟨hindex, -, hchunks⟩ := built_index h
  obtain ⟨file, hfile⟩ : ∃ file, takes env o headroom tree.toTree persisted rel = some file := by
    rw [← Option.ne_none_iff_exists']
    intro hnothing
    rw [chunksIn, hnothing] at hchunk
    exact hchunk rfl
  have htracked := (tracked_iff h rel file.1).mpr ⟨hrel, by rw [hfile, Option.map_some]⟩
  rw [looksStale_iff (hchunks.mpr (.inl ⟨rel, hrel, hchunk⟩)) (isEmpty_of_tracked htracked)]
  refine .inr (.inr ⟨left, hleft, ?_⟩)
  rw [hindex, files_merged, if_pos hleft, hnone, Option.map_none]

theorem isSecretLike_of_tracked {tree : WalkedTree}
    (h : loadOrBuild env o headroom tree.toTree persisted = .built s) {rel : String}
    {state : IndexedFileState} (hrel : s.index.files[rel]? = some state) :
    isSecretLike rel = none := (tree.listed rel ((tracked_iff h rel state).mp hrel).1).2

/-- An index that sees new files holds a chunk and tracks a file. -/
theorem held_of_added {index : BM25Index} {tree : WalkedTree}
    (h : StaleWhenChanged env o index tree) :
    index.chunks ≠ [] ∧ index.files ≠ ∅ := by
  obtain ⟨new, hnew, hplain⟩ := exists_new_name tree.files
  have hadded := h.added (fullTree new hplain) new List.mem_cons_self hnew
  rw [← not_or]
  intro hempty
  rw [not_looksStale_of_empty hempty fun _ => rfl] at hadded
  cases hadded

theorem covered_of_staleWhenChanged {tree : WalkedTree}
    (h : loadOrBuild env o headroom tree.toTree persisted = .built s)
    (hstale : StaleWhenChanged env o s.index tree) :
    Covered env o headroom tree.toTree persisted := by
  obtain ⟨hindex, -, hchunks⟩ := built_index h
  obtain ⟨hchunk, hfiles⟩ := held_of_added hstale
  have hfresh := hstale.fresh
  rw [← Bool.not_eq_true,
    looksStale_iff hchunk (Std.ExtTreeMap.isEmpty_eq_false_iff.mpr hfiles), not_or, not_or] at hfresh
  obtain ⟨-, -, htracked⟩ := hfresh
  refine ⟨?_, ?_, hchunks.mp hchunk⟩
  · intro hnil
    apply hfiles
    apply Std.ExtTreeMap.ext_getElem?
    intro rel
    rw [hindex, files_merged, hnil]
    simp
  · intro rel hrel
    by_contra hnone
    apply htracked
    refine ⟨rel, hrel, ?_⟩
    rw [hindex, files_merged, if_pos hrel, Option.not_isSome_iff_eq_none.mp hnone]
    rfl

theorem staleWhenChanged_of_covered {tree : WalkedTree}
    (h : loadOrBuild env o headroom tree.toTree persisted = .built s)
    (hcovered : Covered env o headroom tree.toTree persisted) :
    StaleWhenChanged env o s.index tree := by
  obtain ⟨hindex, hpolicy, hchunks⟩ := built_index h
  have htracked (rel : String) (hrel : rel ∈ tree.files) :
      ∃ state, s.index.files[rel]? = some state := by
    obtain ⟨file, hfile⟩ := Option.isSome_iff_exists.mp (hcovered.taken rel hrel)
    exact ⟨file.1, (tracked_iff h rel file.1).mpr ⟨hrel, by rw [hfile, Option.map_some]⟩⟩
  have hfiles : s.index.files.isEmpty = false := by
    obtain ⟨rel, hrel⟩ := List.exists_mem_of_ne_nil _ hcovered.listed
    obtain ⟨state, hstate⟩ := htracked rel hrel
    exact isEmpty_of_tracked hstate
  have hstale := looksStale_iff (hchunks.mpr hcovered.chunk) hfiles
  have hfresh : bm25IndexLooksStale s.index tree.toTree = false := by
    rw [← Bool.not_eq_true, hstale]
    rintro (⟨rel, state, hrel, hlike⟩ | ⟨rel, state, hrel, hdiffers⟩ | ⟨rel, hrel, hnone⟩)
    · rw [isSecretLike_of_tracked h hrel] at hlike
      cases hlike
    · obtain ⟨-, htaken⟩ := (tracked_iff h rel state).mp hrel
      obtain ⟨file, hfile, hstate⟩ := Option.map_eq_some_iff.mp htaken
      exact hdiffers (hstate ▸ state_of_takes hfile)
    · obtain ⟨state, hstate⟩ := htracked rel hrel
      rw [hnone] at hstate
      cases hstate
  refine ⟨hfresh, ?_, ?_, ?_⟩
  · intro headroom' persisted' hsame
    rw [← hsame] at hpolicy hfresh ⊢
    exact loaded_of_fresh (built_safe h) hpolicy hfresh headroom'
  · intro tree' rel state hrel hdiffers
    exact (hstale tree'.toTree).mpr (.inr (.inl ⟨rel, state, hrel, hdiffers⟩))
  · intro tree' rel hrel hnew
    refine (hstale tree'.toTree).mpr (.inr (.inr ⟨rel, hrel, ?_⟩))
    rw [hindex, files_merged, if_neg hnew]

/-- The index that a call builds is stale exactly when the tree changed, if and only if the tree is
covered. -/
theorem staleWhenChanged_iff (env : Env) (o : Origins O G) (headroom : Headroom) (tree : WalkedTree)
    (persisted : Option (StoredIndex O)) (s : StoredIndex O)
    (h : loadOrBuild env o headroom tree.toTree persisted = .built s) :
    StaleWhenChanged env o s.index tree ↔ Covered env o headroom tree.toTree persisted :=
  ⟨covered_of_staleWhenChanged h, staleWhenChanged_of_covered h⟩

/-! ## A tree with an undecodable file, and one without files -/

def noOrigins : Origins Unit Unit where
  fits _ _ := true
  size _ := some 0
  admitText := some
  serves _ _ _ := (true, ())

/-- Two sources, the second of which cannot be decoded. -/
def mixedTree : WalkedTree where
  files := ["a.rs", "b.rs"]
  entry rel :=
    if rel = "a.rs" then some ⟨⟨7, 9⟩, some "fn a();"⟩
    else if rel = "b.rs" then some ⟨⟨7, 3⟩, none⟩
    else none
  nodup := by decide
  listed := by decide +kernel

def noTree : WalkedTree where
  files := []
  entry _ := none
  nodup := List.nodup_nil
  listed := by simp

theorem readFull_mixedTree : readFull plainEnv mixedTree.toTree "b.rs" = none ∧
    chunksIn (readFull plainEnv mixedTree.toTree) "a.rs" ≠ [] := by
  have hmin : looksMinified "fn a();" = false := by decide +kernel
  have hread : readFull plainEnv mixedTree.toTree "a.rs" = some (⟨7, 9⟩,
      sortChunks (plainEnv.extractChunks "a.rs" "fn a();")) :=
    readFile_of (show mixedTree.entry "a.rs" = some ⟨⟨7, 9⟩, some "fn a();"⟩ from rfl)
      (by decide) rfl hmin
  refine ⟨rfl, ?_⟩
  rw [chunksIn, hread, Option.map_some, Option.getD_some, ne_eq, ← List.length_eq_zero_iff,
    sortChunks, List.length_mergeSort]
  decide

theorem staleWhenChanged_iff_mixed :
    StaleWhenChanged plainEnv noOrigins (buildFromDirectory plainEnv none mixedTree.toTree)
        mixedTree ↔
      Covered plainEnv noOrigins none mixedTree.toTree none :=
  staleWhenChanged_iff plainEnv noOrigins none mixedTree none
    ⟨buildFromDirectory plainEnv none mixedTree.toTree, ∅⟩ rfl

/-- A build that leaves a file out is stale at once, and one without files is never stale. -/
theorem stale_without_change :
    (loadOrBuild plainEnv noOrigins none mixedTree.toTree none =
        .built ⟨buildFromDirectory plainEnv none mixedTree.toTree, ∅⟩ ∧
      bm25IndexLooksStale (buildFromDirectory plainEnv none mixedTree.toTree) mixedTree.toTree =
        true) ∧
    loadOrBuild plainEnv noOrigins none noTree.toTree none =
        .built ⟨buildFromDirectory plainEnv none noTree.toTree, ∅⟩ ∧
      bm25IndexLooksStale (buildFromDirectory plainEnv none noTree.toTree) mixedTree.toTree =
        false := by
  obtain ⟨hleft, hchunk⟩ := readFull_mixedTree
  have hbuilt : loadOrBuild plainEnv noOrigins none mixedTree.toTree none =
    .built ⟨buildFromDirectory plainEnv none mixedTree.toTree, ∅⟩ := rfl
  have hnone : takes plainEnv noOrigins none mixedTree.toTree none "b.rs" = none := hleft
  refine ⟨⟨hbuilt, ?_⟩, rfl, rfl⟩
  exact stale_of_left_out hbuilt List.mem_cons_self hchunk (by decide) hnone

end LeanCtx.SearchIndex
