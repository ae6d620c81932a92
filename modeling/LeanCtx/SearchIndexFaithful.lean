import LeanCtx.SearchIndexRebuild

/-!
# When a rebuilt search index is the full one

A rebuild indexes what it reuses under the terms of the stored first lines, and
run file after file it drops a file whose text is empty. It gives the full index
exactly when the lines left out do not change the terms of any reused chunk and
no such file is dropped.
-/

namespace LeanCtx.SearchIndex

open ByteText TextFile InvertedIndex

variable {env : Env}

/-! ## Indexes of one file list -/

/-- Chunks that are found under the same terms, equally often. -/
def SameTerms (c c' : CodeChunk) : Prop := (lowered env c).Perm (lowered env c')

theorem map_stored_congr {cs cs' : List CodeChunk} (hlines : cs.map firstLines = cs'.map firstLines)
    (hterms : List.Forall₂ (@SameTerms env) cs cs') :
    cs.map (stored env) = cs'.map (stored env) := by
  induction hterms with
  | nil => rfl
  | cons hperm _ ih =>
    rw [List.map_cons, List.map_cons] at hlines
    obtain ⟨hhead, htail⟩ := List.cons.inj hlines
    rw [List.map_cons, List.map_cons, stored_congr hhead hperm.length_eq, ih htail]

/-- Lists put together from parts of equal lengths are related part by part. -/
theorem forall₂_flatMap_iff {α β : Type} {R : β → β → Prop} {f g : α → List β} {l : List α}
    (h : ∀ x ∈ l, (f x).length = (g x).length) :
    List.Forall₂ R (l.flatMap f) (l.flatMap g) ↔ ∀ x ∈ l, List.Forall₂ R (f x) (g x) := by
  induction l with
  | nil => simp
  | cons x l ih =>
    obtain ⟨hx, hl⟩ := List.forall_mem_cons.mp h
    rw [List.flatMap_cons, List.flatMap_cons, List.forall_mem_cons, ← ih hl]
    constructor
    · intro hall
      have htake := List.forall₂_take (f x).length hall
      have hdrop := List.forall₂_drop (f x).length hall
      rw [List.take_left, hx, List.take_left] at htake
      rw [List.drop_left, hx, List.drop_left] at hdrop
      exact ⟨htake, hdrop⟩
    · intro hall
      exact List.rel_append hall.1 hall.2

/-- The files that both take have the same first lines, so the indexes are the same when the files
taken and the terms of their chunks are. -/
theorem merged_eq_iff {f g : ChunksOf} {files : List String}
    (hlines : ∀ rel file, f rel = some file → ∃ cs, g rel = some (file.1, cs) ∧
      file.2.map firstLines = cs.map firstLines) :
    merged env f files = merged env g files ↔
      ∀ rel ∈ files, (f rel).map Prod.fst = (g rel).map Prod.fst ∧
        List.Forall₂ (@SameTerms env) (chunksIn f rel) (chunksIn g rel) := by
  have hparts : ∀ rel, (f rel).map Prod.fst = (g rel).map Prod.fst →
      (chunksIn f rel).map firstLines = (chunksIn g rel).map firstLines := by
    intro rel hfst
    unfold chunksIn
    cases hfile : f rel with
    | none =>
      rw [hfile, Option.map_none, eq_comm, Option.map_eq_none_iff] at hfst
      rw [hfst]
    | some file =>
      obtain ⟨cs, hg, hmap⟩ := hlines rel file hfile
      rw [hg]
      exact hmap
  have hpostings : ∀ f : ChunksOf, Represents (merged env f files).postings
      ((files.flatMap (chunksIn f)).map (lowered env)) := fun f => represents_merged f files
  constructor
  · intro hequal
    have hfst : ∀ rel ∈ files, (f rel).map Prod.fst = (g rel).map Prod.fst := by
      intro rel hrel
      have htracked := congrArg (fun index => index.files[rel]?) hequal
      simpa only [files_merged, if_pos hrel] using htracked
    have hlen : ((files.flatMap (chunksIn f)).map (lowered env)).length =
        ((files.flatMap (chunksIn g)).map (lowered env)).length := by
      have hchunks := congrArg (fun index => index.chunks.length) hequal
      simpa only [chunks_merged, List.length_map] using hchunks
    have hperm := (eq_iff_forall₂_perm (hpostings f) (hpostings g) hlen).mp
      (congrArg BM25Index.postings hequal)
    rw [List.forall₂_map_left_iff, List.forall₂_map_right_iff] at hperm
    have hparts' := (forall₂_flatMap_iff (R := @SameTerms env) fun rel hrel => by
      have hmap := congrArg List.length (hparts rel (hfst rel hrel))
      simpa only [List.length_map] using hmap).mp hperm
    exact fun rel hrel => ⟨hfst rel hrel, hparts' rel hrel⟩
  · intro hall
    have hterms : List.Forall₂ (@SameTerms env) (files.flatMap (chunksIn f))
        (files.flatMap (chunksIn g)) :=
      (forall₂_flatMap_iff fun rel hrel => (hall rel hrel).2.length_eq).mpr
        fun rel hrel => (hall rel hrel).2
    have hmap : (files.flatMap (chunksIn f)).map firstLines =
        (files.flatMap (chunksIn g)).map firstLines := by
      rw [List.map_flatMap, List.map_flatMap]
      exact List.flatMap_congr fun rel hrel => hparts rel (hall rel hrel).1
    apply merged_congr
    · rw [chunks_merged, chunks_merged, map_stored_congr hmap hterms]
    · have hlen : ((files.flatMap (chunksIn f)).map (lowered env)).length =
          ((files.flatMap (chunksIn g)).map (lowered env)).length := by
        rw [List.length_map, List.length_map, hterms.length_eq]
      rw [eq_iff_forall₂_perm (hpostings f) (hpostings g) hlen, List.forall₂_map_left_iff,
        List.forall₂_map_right_iff]
      exact hterms
    · apply Std.ExtTreeMap.ext_getElem?
      intro rel
      rw [files_merged, files_merged]
      split
      · rename_i hrel
        exact (hall rel hrel).1
      · rfl

/-! ## What a rebuild leaves out -/

variable (env) in
/-- The file is read as an empty text that a build tracks. -/
def ReadsEmpty (tree : Tree) (rel : String) : Prop :=
  ∃ file content, tree.entry rel = some file ∧ file.state.sizeBytes ≤ maxFileSizeBytes ∧
    file.text = some "" ∧ env.isBinaryDocument rel = false ∧ env.admitText "" rel = some content ∧
    looksMinified content = false

variable (env) in
/-- The lines left out of reused chunks do not change their terms, and file after file no empty
file is read again. -/
structure Faithful (headroom : Headroom) (tree : Tree) (prev : BM25Index) : Prop where
  reused : ∀ rel ∈ tree.files, (reusedFile prev tree rel).isSome → ∀ file content,
    tree.entry rel = some file → admittedText env rel file = some content →
    ∀ c ∈ env.extractChunks rel content, @SameTerms env (snippet snippetLines c) c
  reread : useBatches headroom tree = none → ∀ rel ∈ tree.files,
    reusedFile prev tree rel = none → ¬ReadsEmpty env tree rel

/-- Stored chunks are found under the terms of the chunks read exactly when their first lines
are. -/
theorem forall₂_sameTerms_iff {cs' cs : List CodeChunk} (h : cs'.map bare = cs.map firstLines) :
    List.Forall₂ (@SameTerms env) cs' cs ↔
      ∀ c ∈ cs, @SameTerms env (snippet snippetLines c) c := by
  induction cs generalizing cs' with
  | nil =>
    rw [List.map_nil, List.map_eq_nil_iff] at h
    simp [h]
  | cons c cs ih =>
    obtain ⟨c', rest, rfl, hhead, htail⟩ := List.map_eq_cons_iff.mp h
    have hterms : lowered env c' = lowered env (snippet snippetLines c) := by
      rw [← lowered_bare, hhead, firstLines, lowered_bare]
    rw [List.forall₂_cons, ih htail, List.forall_mem_cons, SameTerms, SameTerms, hterms]

/-- An empty text is all that reading file after file leaves out. -/
theorem readFile_nonempty_iff (tree : Tree) (rel : String) :
    (readFile env (admittedTextNonempty env) tree rel).map Prod.fst =
      (readFull env tree rel).map Prod.fst ↔ ¬ReadsEmpty env tree rel := by
  constructor
  · rintro hsame ⟨file, content, hentry, hsize, htext, hbinary, hpass, hmin⟩
    have hadmitted : admittedText env rel file = some content := by
      rw [admittedText, hbinary, htext, Option.bind_some, if_neg Bool.false_ne_true,
        Option.bind_some, hpass]
    rw [readFull, readFile_of hentry hsize hadmitted hmin, Option.map_some,
      Option.map_eq_some_iff] at hsame
    obtain ⟨⟨state, cs⟩, hread, -⟩ := hsame
    obtain ⟨file', content', hentry', -, -, hadmitted', -, -⟩ := readFile_eq_some hread
    obtain rfl : file = file' := Option.some.inj (hentry.symm.trans hentry')
    rw [admittedTextNonempty, htext, Option.bind_some, if_pos rfl] at hadmitted'
    cases hadmitted'
  · intro hempty
    cases hread : readFile env (admittedTextNonempty env) tree rel with
    | some file => rw [readFull_of_nonempty hread]
    | none =>
      cases hfull : readFull env tree rel with
      | none => rfl
      | some file =>
        obtain ⟨entry, content, hentry, hstate, hsize, hadmitted, hmin, -⟩ :=
          readFile_eq_some hfull
        -- a text that is not empty would be read by both
        have hnone : admittedTextNonempty env rel entry = none := by
          by_contra hsome
          obtain ⟨content', hcontent⟩ := Option.ne_none_iff_exists'.mp hsome
          have hagree := admittedText_of_nonempty hcontent
          rw [hadmitted, Option.some.injEq] at hagree
          subst hagree
          rw [readFile_of hentry (hstate ▸ hsize) hcontent hmin] at hread
          cases hread
        exfalso
        apply hempty
        refine ⟨entry, content, hentry, hstate ▸ hsize, ?_⟩
        unfold admittedText at hadmitted
        unfold admittedTextNonempty at hnone
        cases htext : entry.text with
        | none => simp [htext] at hadmitted
        | some text =>
          rw [htext, Option.bind_some, Option.bind_some] at hadmitted
          rw [htext, Option.bind_some] at hnone
          by_cases hbinary : env.isBinaryDocument rel = true
          · rw [if_pos hbinary, hnone] at hadmitted
            cases hadmitted
          · rw [if_neg hbinary] at hadmitted
            by_cases ht : text = ""
            · subst ht
              exact ⟨rfl, Bool.eq_false_of_not_eq_true hbinary, hadmitted, hmin⟩
            · rw [if_neg ht, hadmitted] at hnone
              cases hnone

/-- A reused file keeps its terms when the lines left out do not change them. -/
theorem Tracks.reused_iff {tree tree' : Tree} {prev : BM25Index} {headroom : Headroom}
    {rel : String} {file : IndexedFileState × List CodeChunk} (h : Tracks env tree prev)
    (hsame : Unchanged tree tree') (hreused : reusedFile prev tree' rel = some file) :
    ((readAgain env headroom tree' prev rel).map Prod.fst = (readFull env tree' rel).map Prod.fst ∧
      List.Forall₂ (@SameTerms env) (chunksIn (readAgain env headroom tree' prev) rel)
        (chunksIn (readFull env tree') rel)) ↔
    ∀ file content, tree'.entry rel = some file → admittedText env rel file = some content →
      ∀ c ∈ env.extractChunks rel content, @SameTerms env (snippet snippetLines c) c := by
  obtain ⟨cs, hfull, hbare⟩ := h.reused hsame hreused
  have hagain : readAgain env headroom tree' prev rel = some file := by
    rw [readAgain, hreused, Option.some_or]
  obtain ⟨entry, content, hentry, -, -, hadmitted, -, rfl⟩ := readFile_eq_some hfull
  unfold chunksIn
  rw [hagain, hfull, Option.map_some, Option.map_some, Option.map_some, Option.map_some,
    Option.getD_some, Option.getD_some, forall₂_sameTerms_iff hbare]
  constructor
  · rintro ⟨-, hall⟩ entry' content' hentry' hadmitted' c hc
    obtain rfl : entry = entry' := Option.some.inj (hentry.symm.trans hentry')
    obtain rfl : content = content' := Option.some.inj (hadmitted.symm.trans hadmitted')
    exact hall c (List.mem_mergeSort.mpr hc)
  · intro hall
    exact ⟨rfl, fun c hc => hall entry content hentry hadmitted c (List.mem_mergeSort.mp hc)⟩

/-- A file that is read again is taken as a build takes it, unless it is dropped as empty. -/
theorem reread_iff {tree : Tree} {prev : BM25Index} {headroom : Headroom} {rel : String}
    (hreused : reusedFile prev tree rel = none) :
    ((readAgain env headroom tree prev rel).map Prod.fst = (readFull env tree rel).map Prod.fst ∧
      List.Forall₂ (@SameTerms env) (chunksIn (readAgain env headroom tree prev) rel)
        (chunksIn (readFull env tree) rel)) ↔
    (useBatches headroom tree = none → ¬ReadsEmpty env tree rel) := by
  have hrefl : ∀ cs : List CodeChunk, List.Forall₂ (@SameTerms env) cs cs := by
    intro cs
    exact List.forall₂_same.mpr fun c _ => List.Perm.refl _
  cases hbatches : useBatches headroom tree with
  | some batch =>
    have hagain : readAgain env headroom tree prev rel = readFull env tree rel := by
      rw [readAgain, hreused, Option.none_or, hbatches]
      rfl
    unfold chunksIn
    simpa [hagain] using hrefl _
  | none =>
    have hagain : readAgain env headroom tree prev rel =
        readFile env (admittedTextNonempty env) tree rel := by
      rw [readAgain, hreused, Option.none_or, hbatches]
      rfl
    rw [hagain, readFile_nonempty_iff]
    constructor
    · exact fun hboth _ => hboth.1
    · intro hempty
      refine ⟨hempty rfl, ?_⟩
      have hsame := (readFile_nonempty_iff tree rel).mpr (hempty rfl)
      unfold chunksIn
      rw [hagain]
      cases hread : readFile env (admittedTextNonempty env) tree rel with
      | none =>
        rw [hread, Option.map_none, eq_comm, Option.map_eq_none_iff] at hsame
        rw [hsame]
        exact hrefl _
      | some file =>
        rw [readFull_of_nonempty hread]
        exact hrefl _

/-- Rebuilding an index of a safe root. -/
theorem Tracks.rebuild_eq_iff {tree tree' : Tree} {prev : BM25Index}
    (hsafe : env.isSafeRoot = true) (hpolicy : prev.admissionPolicy = some env.digest)
    (h : Tracks env tree prev) (hsame : Unchanged tree tree') (headroom headroom' : Headroom) :
    rebuildIncremental env headroom tree' prev = buildFromDirectory env headroom' tree' ↔
      Faithful env headroom tree' prev := by
  have hmerged : rebuildIncremental env headroom tree' prev = buildFromDirectory env headroom' tree' ↔
      merged env (readAgain env headroom tree' prev) tree'.files =
        merged env (readFull env tree') tree'.files := by
    rw [rebuildIncremental_eq hpolicy, buildFromDirectory_eq hsafe]
    constructor
    · intro hequal
      obtain ⟨hchunks, hpostings, -, -, hfiles, -⟩ := BM25Index.mk.inj hequal
      exact merged_congr hchunks hpostings hfiles
    · intro hequal
      rw [hequal]
  rw [hmerged, merged_eq_iff fun rel file hfile => (h.takes hsame hfile).2]
  constructor
  · intro hall
    constructor
    · intro rel hrel hsome
      obtain ⟨file, hreused⟩ := Option.isSome_iff_exists.mp hsome
      exact (h.reused_iff hsame hreused).mp (hall rel hrel)
    · intro hbatches rel hrel hreused
      exact (reread_iff hreused).mp (hall rel hrel) hbatches
  · intro hfaithful rel hrel
    cases hreused : reusedFile prev tree' rel with
    | some file =>
      apply (h.reused_iff hsame hreused).mpr
      exact hfaithful.reused rel hrel (hreused ▸ rfl)
    | none =>
      apply (reread_iff hreused).mpr
      exact fun hbatches => hfaithful.reread hbatches rel hrel hreused

/-- After a build and any number of rebuilds, one more rebuild gives the full index of the tree
exactly when it is faithful to it, whichever way each of them runs. -/
theorem rebuild_eq_build_iff {tree tree' : Tree} {prev : BM25Index} (h : Reached env tree prev)
    (hsame : Unchanged tree tree') (headroom headroom' : Headroom) :
    rebuildIncremental env headroom tree' prev = buildFromDirectory env headroom' tree' ↔
      (env.isSafeRoot = true → Faithful env headroom tree' prev) := by
  by_cases hsafe : env.isSafeRoot = true
  · obtain ⟨hpolicy, htracks⟩ := h.tracks hsafe
    rw [htracks.rebuild_eq_iff hsafe hpolicy hsame]
    simp [hsafe]
  · have hroot := Bool.eq_false_of_not_eq_true hsafe
    have hrebuilt := (Reached.rebuild headroom h hsame).eq_new hroot
    have hbuilt := (Reached.build headroom' tree').eq_new hroot
    rw [hrebuilt, hbuilt]
    simp [hsafe]

/-! ## A function of more than ten lines -/

/-- A tree of source files, all written at the same time. -/
def sourceTree (sources : List (String × String)) (h : (sources.map Prod.fst).Nodup) : Tree where
  files := sources.map Prod.fst
  entry rel := (sources.lookup rel).map fun text => ⟨⟨1, (utf8 text).length⟩, some text⟩
  nodup := h

theorem unchanged_self (tree : Tree) : Unchanged tree tree := by
  intro rel file file' hfile hfile' _
  rw [hfile, Option.some.injEq] at hfile'
  rw [hfile']

/-- A file that was read is reused when the tree has not changed. -/
theorem reusedFile_build {tree : Tree} {rel : String} {state : IndexedFileState}
    {cs : List CodeChunk} (hsafe : env.isSafeRoot = true) (hrel : rel ∈ tree.files)
    (hread : readFull env tree rel = some (state, cs)) (headroom : Headroom)
    (htext : (cs.map (stored env)).head?.any fun c => c.content ≠ "") :
    (reusedFile (buildFromDirectory env headroom tree) tree rel).isSome := by
  have hplaced : ∀ r ∈ tree.files, Placed r (chunksIn (readFull env tree) r) := by
    intro r _
    unfold chunksIn
    cases hfile : readFull env tree r with
    | none => exact ⟨List.Pairwise.nil, by simp⟩
    | some file => exact placed_readFile hfile
  have hgroup : groupPrevChunks (merged env (readFull env tree) tree.files) rel =
      cs.map (stored env) := by
    rw [groupPrevChunks_merged tree.nodup hplaced hrel, chunksIn, hread]
    rfl
  have hfiles : (merged env (readFull env tree) tree.files).files[rel]? = some state := by
    rw [files_merged, if_pos hrel, hread]
    rfl
  obtain ⟨file, _, hentry, hstate, -, -, -, -⟩ := readFile_eq_some hread
  rw [buildFromDirectory_eq hsafe, reusedFile, hentry]
  dsimp only
  have hgroup' : groupPrevChunks { merged env (readFull env tree) tree.files with
      admissionPolicy := some env.digest } rel = cs.map (stored env) := hgroup
  rw [hfiles, hgroup', hstate, htext]
  simp

/-- A call on the eleventh line of a function. -/
def longText : String := "fn f() \x7b\n\n\n\n\n\n\n\n\n\ngg();\n\x7d"

def longTree : Tree := sourceTree [("m.rs", longText)] (by decide)

def longChunk : CodeChunk := ⟨"m.rs", "f", .function, 1, (lines longText).length, longText, [], 0⟩

theorem plainEnv_extractChunks {text : String} (h : text ≠ "") (path : String) :
    plainEnv.extractChunks path text =
      [⟨path, "f", .function, 1, (lines text).length, text, [], 0⟩] := by
  unfold plainEnv
  dsimp only
  rw [if_neg h]

theorem extractChunks_longText : plainEnv.extractChunks "m.rs" longText = [longChunk] :=
  plainEnv_extractChunks (by decide) "m.rs"

theorem readFull_longTree :
    readFull plainEnv longTree "m.rs" = some (⟨1, (utf8 longText).length⟩, [longChunk]) := by
  have hmin : looksMinified longText = false := by decide +kernel
  have hsize : (utf8 longText).length ≤ maxFileSizeBytes := by decide +kernel
  have hread : readFull plainEnv longTree "m.rs" = some (⟨1, (utf8 longText).length⟩,
      sortChunks (plainEnv.extractChunks "m.rs" longText)) :=
    @readFile_of _ _ _ _ ⟨⟨1, (utf8 longText).length⟩, some longText⟩ _ rfl hsize rfl hmin
  rw [hread, extractChunks_longText, sortChunks, List.mergeSort_singleton]

/-- The call is not found any more after a rebuild of the unchanged tree. -/
theorem rebuild_drops_term :
    ¬∀ (env : Env) (tree tree' : Tree) (prev : BM25Index), Reached env tree prev →
      Unchanged tree tree' → ∀ headroom headroom' : Headroom,
      rebuildIncremental env headroom tree' prev = buildFromDirectory env headroom' tree' := by
  intro hall
  have hreached : Reached plainEnv longTree (buildFromDirectory plainEnv none longTree) :=
    .build none longTree
  have hsame := unchanged_self longTree
  obtain ⟨hpolicy, htracks⟩ := hreached.tracks rfl
  have hfaithful := (htracks.rebuild_eq_iff rfl hpolicy hsame none none).mp
    (hall _ _ _ _ hreached hsame none none)
  have hreused := reusedFile_build rfl List.mem_cons_self readFull_longTree none
    (by decide +kernel)
  have hterms := hfaithful.reused "m.rs" List.mem_cons_self hreused _ longText rfl rfl longChunk
    (by rw [extractChunks_longText]; exact List.mem_singleton_self _)
  have hlen : (lowered plainEnv (snippet snippetLines longChunk)).length ≠
      (lowered plainEnv longChunk).length := by decide +kernel
  exact hlen hterms.length_eq

/-- A chunk of at most ten lines is kept whole. -/
theorem snippet_short {chunk : CodeChunk} (h : (lines chunk.content).length ≤ snippetLines) :
    snippet snippetLines chunk = chunk := by
  rw [snippet, List.getElem?_eq_none h]
  rfl

/-- One file stays as it is and one is added. -/
def shortTree : Tree := sourceTree [("m.rs", "fn f() \x7b\x7d")] (by decide)

def grownTree : Tree :=
  sourceTree [("m.rs", "fn f() \x7b\x7d"), ("n.rs", "fn f() \x7bgg();\x7d")] (by decide)

theorem unchanged_grown : Unchanged shortTree grownTree := by
  intro rel file file' hfile hfile' _
  by_cases hrel : rel = "m.rs"
  · subst hrel
    rw [← Option.some.inj hfile, ← Option.some.inj hfile']
  · have hnone : shortTree.entry rel = none := by
      have hbeq : (rel == "m.rs") = false := by simpa using hrel
      simp [shortTree, sourceTree, List.lookup_cons, hbeq]
    rw [hnone] at hfile
    cases hfile

theorem entry_grown {rel : String} {file : FileEntry} (h : grownTree.entry rel = some file) :
    file.text = some "fn f() \x7b\x7d" ∨ file.text = some "fn f() \x7bgg();\x7d" := by
  unfold grownTree sourceTree at h
  obtain ⟨text, hlookup, rfl⟩ := Option.map_eq_some_iff.mp h
  rw [List.lookup_cons, List.lookup_cons] at hlookup
  split at hlookup
  · exact .inl hlookup.symm
  · split at hlookup
    · exact .inr hlookup.symm
    · cases hlookup

theorem faithful_grown : Faithful plainEnv none grownTree
    (buildFromDirectory plainEnv none shortTree) := by
  constructor
  · intro rel _ _ file content hentry hadmitted c hc
    have hadmitted' : file.text = some content := by
      have hplain : admittedText plainEnv rel file = file.text.bind some := rfl
      obtain ⟨text, htext, hsome⟩ := Option.bind_eq_some_iff.mp (hplain ▸ hadmitted)
      rw [htext, hsome]
    have htexts := entry_grown hentry
    rw [hadmitted', Option.some.injEq, Option.some.injEq] at htexts
    have hshort : content ≠ "" ∧ (lines content).length ≤ snippetLines := by
      rcases htexts with rfl | rfl
      · decide +kernel
      · decide +kernel
    rw [plainEnv_extractChunks hshort.1, List.mem_singleton] at hc
    rw [snippet_short (hc ▸ hshort.2)]
    exact List.Perm.refl _
  · rintro - rel - - ⟨file, content, hentry, -, htext, -⟩
    have htexts := entry_grown hentry
    rw [htext] at htexts
    revert htexts
    decide

/-- The rebuilt index of the grown tree is the full one. -/
theorem grownTree_rebuilt :
    rebuildIncremental plainEnv none grownTree (buildFromDirectory plainEnv none shortTree) =
      buildFromDirectory plainEnv none grownTree :=
  (rebuild_eq_build_iff (.build none shortTree) unchanged_grown none none).mpr
    fun _ => faithful_grown

end LeanCtx.SearchIndex
