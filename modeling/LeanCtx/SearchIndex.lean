import LeanCtx.InvertedIndex
import LeanCtx.TextFile

/-!
# The BM25 search index

The index holds the chunks of a project's files and, under each term, the chunks
it occurs in. Terms come from a chunk's whole text, but the stored chunk keeps
only its first lines for display. A rebuild takes over the stored chunks of
files whose time and size have not changed and reads the others again. Both a
build and a rebuild run file after file, or in batches that are prepared apart
and merged in file order.
-/

namespace LeanCtx.SearchIndex

open ByteText TextFile InvertedIndex

def maxFileSizeBytes : ℕ := 2 * 1024 * 1024

def parallelMinFiles : ℕ := 32

def maxBatchFiles : ℕ := 500

def snippetLines : ℕ := 10

inductive ChunkKind
  | function
  | struct
  | impl
  | module
  | «class»
  | method
  | other
  -- kinds of external sources
  | issue
  | pullRequest
  | wikiPage
  | dbSchema
  | apiEndpoint
  | ticket
  | externalOther
deriving DecidableEq

structure CodeChunk where
  filePath : String
  symbolName : String
  kind : ChunkKind
  startLine : ℕ
  endLine : ℕ
  content : String
  tokens : List String
  tokenCount : ℕ
deriving DecidableEq

structure IndexedFileState where
  mtimeMs : ℕ
  sizeBytes : ℕ
deriving DecidableEq

@[ext]
structure BM25Index where
  chunks : List CodeChunk
  postings : Postings String
  avgDocLen : ℚ
  docCount : ℕ
  files : OrdMap String IndexedFileState
  admissionPolicy : Option String

def BM25Index.new : BM25Index := ⟨[], Postings.empty, 0, 0, ∅, none⟩

/-- A file of a tree: its state, and the text that reading it gives. A document is read through
its extractor; a file that cannot be read or decoded whole gives nothing. -/
structure FileEntry where
  state : IndexedFileState
  text : Option String

/-- A project tree and its list of code files. -/
structure Tree where
  files : List String
  entry : String → Option FileEntry
  nodup : files.Nodup

/-- What the index takes from elsewhere: classes of characters, parts of a path, the admission
policy and the splitting of a file's text into chunks. -/
structure Env where
  isAlphanumeric : Char → Bool
  isUppercase : Char → Bool
  toLowercase : String → String
  stem : String → String
  dir : String → String
  isSafeRoot : Bool
  isBinaryDocument : String → Bool
  digest : String
  admitText : String → String → Option String
  extractChunks : String → String → List CodeChunk
  extractChunks_filePath : ∀ path content, ∀ c ∈ extractChunks path content, c.filePath = path

variable (env : Env)

/-! ## Terms -/

def byteLen (chars : List Char) : ℕ := (utf8 (String.ofList chars)).length

/-- The runs of word characters of at least two bytes. -/
def words (current : List Char) : List Char → List (List Char)
  | [] => if 2 ≤ byteLen current then [current] else []
  | c :: rest =>
    if env.isAlphanumeric c || c = '_' then words (current ++ [c]) rest
    else if 2 ≤ byteLen current then current :: words [] rest
    else words [] rest

/-- The camelCase parts of one word: a part starts at an upper-case character that no other
follows. `current` is the part being read, `cut` whether one was cut off before it. -/
def camelParts (current : List Char) (cut : Bool) : List Char → List (List Char)
  | [] => if cut && 2 ≤ byteLen current then [current] else []
  | c :: rest =>
    if current ≠ [] && env.isUppercase c && !rest.head?.any env.isUppercase then
      (if 2 ≤ byteLen current then [current] else []) ++ camelParts [c] true rest
    else camelParts (current ++ [c]) cut rest

def splitCamelWord (token : List Char) : List (List Char) := camelParts env [] false token

def tokenize (text : String) : List (List Char) :=
  (words env [] text.toList).flatMap fun token => token :: splitCamelWord env token

def indexTerms (text : String) : List String :=
  let terms := tokenize env text
  let parts := terms.flatMap fun term =>
    let parts := (term.splitOn '_').filter (· ≠ [])
    if 1 < parts.length then
      parts.flatMap fun part =>
        (if 2 ≤ byteLen part then [part] else []) ++ splitCamelWord env part
    else []
  (terms ++ parts).map String.ofList

def enrichForBm25 (chunk : CodeChunk) : String :=
  if env.stem chunk.filePath = "" then chunk.content
  else chunk.content ++ " " ++ env.stem chunk.filePath ++ " " ++ env.stem chunk.filePath ++ " " ++
    env.dir chunk.filePath

/-- The terms that a chunk is indexed under. -/
def chunkTerms (chunk : CodeChunk) : List String := indexTerms env (enrichForBm25 env chunk)

/-! ## Chunks -/

/-- The chunk with the lines kept for display. -/
def snippet (keepLines : ℕ) (chunk : CodeChunk) : CodeChunk :=
  if (lines chunk.content)[keepLines]?.isSome then
    { chunk with content := "\n".intercalate ((lines chunk.content).take keepLines) }
  else chunk

def chunkBefore (a b : CodeChunk) : Bool :=
  a.startLine < b.startLine || (a.startLine = b.startLine &&
    (a.endLine < b.endLine || (a.endLine = b.endLine && a.symbolName ≤ b.symbolName)))

def sortChunks (chunks : List CodeChunk) : List CodeChunk := chunks.mergeSort chunkBefore

def looksMinified (content : String) : Bool :=
  let size := (utf8 content).length
  let ls := lines content
  let longest := (ls.map fun l => (utf8 l).length).foldl max 0
  64 * 1024 ≤ size && 5000 ≤ longest && 500 ≤ size / max ls.length 1

namespace BM25Index

def addChunkWithContentLimit (index : BM25Index) (chunk : CodeChunk) (keepLines : Option ℕ) :
    BM25Index :=
  let tokens := chunkTerms env chunk
  let kept := match keepLines with
    | some n => snippet n chunk
    | none => chunk
  { index with
    chunks := index.chunks ++ [{ kept with tokenCount := tokens.length, tokens := [] }]
    postings := addDoc index.chunks.length index.postings (tokens.map env.toLowercase) }

def addChunk (index : BM25Index) (chunk : CodeChunk) : BM25Index :=
  index.addChunkWithContentLimit env chunk (some 10)

def insertFile (index : BM25Index) (rel : String) (state : IndexedFileState) : BM25Index :=
  { index with files := index.files.insert rel state }

def finalize (index : BM25Index) : BM25Index :=
  if index.chunks.length = 0 then { index with docCount := 0 }
  else
    { index with
      docCount := index.chunks.length
      avgDocLen := (index.chunks.map CodeChunk.tokenCount).sum / index.chunks.length }

end BM25Index

/-! ## Files -/

/-- The admitted text of a file in a build; only a document's text must not be empty. -/
def admittedText (rel : String) (file : FileEntry) : Option String :=
  if env.isBinaryDocument rel then
    file.text.bind fun text => if text = "" then none else env.admitText text rel
  else file.text.bind fun text => env.admitText text rel

/-- The admitted text of a file in a sequential rebuild. -/
def admittedTextNonempty (rel : String) (file : FileEntry) : Option String :=
  file.text.bind fun text => if text = "" then none else env.admitText text rel

/-- The chunks of a file that is read again, none for a file that is left out. -/
def readFile (admitted : String → FileEntry → Option String) (tree : Tree) (rel : String) :
    Option (IndexedFileState × List CodeChunk) :=
  match tree.entry rel with
  | none => none
  | some file =>
    if maxFileSizeBytes < file.state.sizeBytes then none
    else match admitted rel file with
      | none => none
      | some content =>
        if looksMinified content then none
        else some (file.state, sortChunks (env.extractChunks rel content))

def groupPrevChunks (prev : BM25Index) (rel : String) : List CodeChunk :=
  sortChunks (prev.chunks.filter fun c => c.filePath = rel)

/-- The stored chunks of a file whose state is the tracked one, when the first of them has text. -/
def reusedFile (prev : BM25Index) (tree : Tree) (rel : String) :
    Option (IndexedFileState × List CodeChunk) :=
  match tree.entry rel with
  | none => none
  | some file =>
    if prev.files[rel]? = some file.state &&
        (groupPrevChunks prev rel).head?.any fun c => c.content ≠ "" then
      some (file.state, groupPrevChunks prev rel)
    else none

/-! ## File after file -/

/-- The index of the files that `chunksOf` does not leave out. -/
def sequentially (chunksOf : String → Option (IndexedFileState × List CodeChunk))
    (files : List String) : BM25Index :=
  (files.foldl (fun (index : BM25Index) (rel : String) =>
    match chunksOf rel with
    | none => index
    | some (state, chunks) => (chunks.foldl (BM25Index.addChunk env) index).insertFile rel state)
    BM25Index.new).finalize

def buildSequential (tree : Tree) : BM25Index :=
  sequentially env (readFile env (admittedText env) tree) tree.files

def rebuildIncrementalSequential (tree : Tree) (prev : BM25Index) : BM25Index :=
  sequentially env (fun rel => (reusedFile prev tree rel).or
    (readFile env (admittedTextNonempty env) tree rel)) tree.files

/-! ## In batches -/

structure PreparedChunk where
  chunk : CodeChunk
  lowered : List String

structure PreparedFile where
  rel : String
  state : IndexedFileState
  chunks : List PreparedChunk

def prepareChunk (chunk : CodeChunk) : PreparedChunk where
  chunk := { snippet snippetLines chunk with
    tokenCount := (chunkTerms env chunk).length, tokens := [] }
  lowered := (chunkTerms env chunk).map env.toLowercase

def prepareChunks (rel : String) (file : IndexedFileState × List CodeChunk) : PreparedFile :=
  ⟨rel, file.1, file.2.map (prepareChunk env)⟩

def prepareFile (tree : Tree) (rel : String) : Option PreparedFile :=
  (readFile env (admittedText env) tree rel).map (prepareChunks env rel)

def prepareIncrementalFile (tree : Tree) (prev : BM25Index) (rel : String) : Option PreparedFile :=
  match reusedFile prev tree rel with
  | some file => some (prepareChunks env rel file)
  | none => prepareFile env tree rel

def BM25Index.addPrepared (index : BM25Index) (prepared : PreparedChunk) : BM25Index :=
  { index with
    chunks := index.chunks ++ [prepared.chunk]
    postings := addDoc index.chunks.length index.postings prepared.lowered }

def BM25Index.mergeFile (index : BM25Index) (file : PreparedFile) : BM25Index :=
  (file.chunks.foldl BM25Index.addPrepared index).insertFile file.rel file.state

/-- The files cut into batches; `batch` is the size that the free memory allows after some files
are done, at least one and at most `maxBatchFiles`. -/
def inBatches (batch : ℕ → ℕ) (filesDone : ℕ) (files : List String) : List (List String) :=
  if _h : files = [] then []
  else
    let size := max 1 (min (batch filesDone) maxBatchFiles)
    files.take size :: inBatches batch (filesDone + size) (files.drop size)
termination_by files.length
decreasing_by
  have hpos := List.length_pos_of_ne_nil _h
  rw [List.length_drop]
  omega

def batched (batch : ℕ → ℕ) (prepare : String → Option PreparedFile) (files : List String) :
    BM25Index :=
  ((inBatches batch 0 files).foldl (fun (index : BM25Index) (rels : List String) =>
    ((rels.map prepare).filterMap id).foldl BM25Index.mergeFile index) BM25Index.new).finalize

def buildParallel (batch : ℕ → ℕ) (tree : Tree) : BM25Index :=
  batched batch (prepareFile env tree) tree.files

def rebuildIncrementalParallel (batch : ℕ → ℕ) (tree : Tree) (prev : BM25Index) : BM25Index :=
  batched batch (prepareIncrementalFile env tree prev) tree.files

/-! ## Builds and rebuilds -/

/-- Whether the memory estimate lets a call run in batches, and of what size. -/
abbrev Headroom := Option (ℕ → ℕ)

def useBatches (headroom : Headroom) (tree : Tree) : Headroom :=
  if parallelMinFiles ≤ tree.files.length then headroom else none

def buildFromDirectory (headroom : Headroom) (tree : Tree) : BM25Index :=
  if env.isSafeRoot then
    match useBatches headroom tree with
    | some batch => { buildParallel env batch tree with admissionPolicy := some env.digest }
    | none => { buildSequential env tree with admissionPolicy := some env.digest }
  else .new

def rebuildIncremental (headroom : Headroom) (tree : Tree) (prev : BM25Index) : BM25Index :=
  if prev.admissionPolicy ≠ some env.digest then buildFromDirectory env headroom tree
  else
    match useBatches headroom tree with
    | some batch =>
      { rebuildIncrementalParallel env batch tree prev with admissionPolicy := some env.digest }
    | none =>
      { rebuildIncrementalSequential env tree prev with admissionPolicy := some env.digest }

/-! ## A plain environment -/

/-- Names of Latin letters, files at the root and no restricted text. -/
def plainEnv : Env where
  isAlphanumeric := Char.isAlphanum
  isUppercase := Char.isUpper
  toLowercase s := String.ofList (s.toList.map Char.toLower)
  stem path := String.ofList (path.toList.takeWhile (· ≠ '.'))
  dir _ := ""
  isSafeRoot := true
  isBinaryDocument _ := false
  digest := "policy"
  admitText text _ := some text
  -- the source of one function
  extractChunks path content :=
    if content = "" then [] else [⟨path, "f", .function, 1, (lines content).length, content, [], 0⟩]
  extractChunks_filePath := by
    intro path content c hc
    split at hc
    · cases hc
    · rw [List.mem_singleton.mp hc]

end LeanCtx.SearchIndex
