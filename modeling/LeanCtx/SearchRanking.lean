import LeanCtx.SearchIndex

/-!
# Ranking the chunks of a search index

A query is scored against every chunk that holds one of its terms, with the
statistics of the corpus: number of chunks, average length and, per term, the
number of chunks that hold it. With some chunks excluded the statistics are
recomputed without them. The arithmetic of the scores is a parameter.
-/

namespace LeanCtx.SearchIndex

open InvertedIndex TextFile

def maxRankings : ℕ := 16

def maxSources : ℕ := 128

/-- The arithmetic of scores, and the classes of characters that only a query's boost reads. -/
structure Scoring (F : Type) where
  ofNat : ℕ → F
  lit : ℚ → F
  add : F → F → F
  sub : F → F → F
  mul : F → F → F
  div : F → F → F
  max : F → F → F
  ln : F → F
  isZero : F → Bool
  isPositive : F → Bool
  partialCmp : F → F → Option Ordering
  isLowercase : Char → Bool
  isWhitespace : Char → Bool
  extension : String → String

structure SearchResult (F : Type) where
  chunkIdx : ℕ
  score : F
  filePath : String
  symbolName : String
  kind : ChunkKind
  startLine : ℕ
  endLine : ℕ
  snippet : String
deriving DecidableEq

variable {F : Type} (env : Env) (a : Scoring F)

/-! ## What a query asks -/

def asciiLowercase (s : String) : String := String.ofList (s.toList.map Char.toLower)

/-- The texts between characters that a test picks out. -/
def splitAt (separates : Char → Bool) (text : String) : List String :=
  (text.toList.splitOnP separates).map String.ofList

def queryTokens (query : String) : List String := (tokenize env query).map String.ofList

def structuralQueryBoost (query : String) (chunk : CodeChunk) : F :=
  let rawTerms := (((splitAt (fun c => !(env.isAlphanumeric c || c = '_')) query).filter
    fun term => 3 ≤ byteLen term.toList).map asciiLowercase).dedup
  let pathTerms := (tokenize env chunk.filePath).map fun term => asciiLowercase (String.ofList term)
  let boost := a.lit 0
  let boost := if asciiLowercase chunk.symbolName ∈ rawTerms then a.add boost (a.lit 32) else boost
  let shared := rawTerms.filter (· ∈ pathTerms)
  let boost := a.add boost (a.mul (a.ofNat shared.length) (a.lit 8))
  let hasIdentifier := (splitAt a.isWhitespace query).any fun term =>
    (term.toList.any a.isLowercase && term.toList.any env.isUppercase) ||
      '_' ∈ term.toList || '.' ∈ term.toList
  if hasIdentifier then
    let extension := asciiLowercase (a.extension chunk.filePath)
    if extension ∈ ["md", "mdx", "rst", "txt", "adoc"] then a.sub boost (a.lit 8)
    else if extension ≠ "" then a.add boost (a.lit 4)
    else boost
  else boost

/-- The lines around the first one that holds a query term. -/
def querySnippet (content : String) (tokens : List String) : String :=
  let query := tokens.map env.toLowercase
  let holds := fun line => (tokenize env line).any fun token =>
    env.toLowercase (String.ofList token) ∈ query
  let matching := ((lines content).findIdx? holds).getD 0
  "\n".intercalate (((lines content).drop (matching - 1)).take 5)

/-! ## Statistics -/

def isExcluded (excluded : List Bool) (idx : ℕ) : Bool := excluded[idx]?.getD false

/-- The chunks of an entry that are not excluded; postings of one chunk are adjacent. -/
def docFreq (entries : List (ℕ × ℚ)) (excluded : List Bool) : ℕ :=
  (entries.foldl (fun (state : ℕ × Option ℕ) (e : ℕ × ℚ) =>
    if state.2 = some e.1 then state
    else (if isExcluded excluded e.1 then state.1 else state.1 + 1, some e.1)) (0, none)).1

def average (total documents : ℕ) : F := a.div (a.ofNat total) (a.ofNat documents)

def servedCorpus (index : BM25Index) (excluded : List Bool) : ℕ × F :=
  let served := index.chunks.zipIdx.filter fun c => !isExcluded excluded c.2
  if served.length = 0 then (0, a.lit 0)
  else (served.length, average a (served.map fun c => c.1.tokenCount).sum served.length)

/-- The statistics that `finalize` stores. -/
def fullCorpus (index : BM25Index) : ℕ × F :=
  (index.docCount, average a (index.chunks.map CodeChunk.tokenCount).sum index.docCount)

/-! ## Scores -/

structure Scored (F : Type) where
  scores : ℕ → F
  touched : List ℕ

def idf (docCount df : ℕ) : F :=
  a.ln (a.add (a.div (a.add (a.sub (a.ofNat docCount) (a.ofNat df)) (a.lit (1 / 2)))
    (a.add (a.ofNat df) (a.lit (1 / 2)))) (a.lit 1))

def bm25 (idf avgDocLen : F) (weight : ℚ) (tokenCount : ℕ) : F :=
  let k1 := a.lit (12 / 10)
  let b := a.lit (75 / 100)
  let normLen := a.div (a.ofNat tokenCount) (a.max avgDocLen (a.lit 1))
  a.div (a.mul idf (a.mul (a.lit weight) (a.add k1 (a.lit 1))))
    (a.add (a.lit weight) (a.mul k1 (a.add (a.sub (a.lit 1) b) (a.mul b normLen))))

/-- One posting adds to the score of its chunk; a posting out of range has none. -/
def scorePosting (chunks : List CodeChunk) (idf avgDocLen : F) (state : Scored F)
    (e : ℕ × ℚ) : Scored F :=
  match chunks[e.1]? with
  | none => state
  | some chunk =>
    let touched :=
      if a.isZero (state.scores e.1) then state.touched ++ [e.1] else state.touched
    ⟨Function.update state.scores e.1
      (a.add (state.scores e.1) (bm25 a idf avgDocLen e.2 chunk.tokenCount)), touched⟩

def scoreTerm (index : BM25Index) (excluded : Option (List Bool)) (corpus : ℕ × F)
    (state : Scored F) (token : String) : Scored F :=
  let lower := env.toLowercase token
  match index.postings.inverted[lower]? with
  | none => state
  | some entries =>
    let df := match excluded with
      | none => index.postings.docFreqs[lower]?.getD 0
      | some excluded => docFreq entries excluded
    if a.isZero (a.ofNat df) then state
    else
      (entries.filter fun e => !(excluded.any fun excluded => isExcluded excluded e.1)).foldl
        (scorePosting a index.chunks (idf a corpus.1 df) corpus.2) state

/-- The boost is added once for every time the chunk was touched. -/
def boostTouched (query : String) (chunks : List CodeChunk) (state : Scored F) : ℕ → F :=
  state.touched.foldl (fun scores idx => (chunks[idx]?).elim scores fun chunk =>
    Function.update scores idx (a.add (scores idx) (structuralQueryBoost env a query chunk)))
    state.scores

def resultOf (tokens : List String) (idx : ℕ) (score : F) (chunk : CodeChunk) : SearchResult F :=
  ⟨idx, score, chunk.filePath, chunk.symbolName, chunk.kind, chunk.startLine, chunk.endLine,
    querySnippet env chunk.content tokens⟩

/-- Best score first, then by path, name and lines. -/
def compareResults (r r' : SearchResult F) : Ordering :=
  ((a.partialCmp r'.score r.score).getD .eq).then ((compare r.filePath r'.filePath).then
    ((compare r.symbolName r'.symbolName).then ((compare r.startLine r'.startLine).then
      (compare r.endLine r'.endLine))))

def sortResults (results : List (SearchResult F)) : List (SearchResult F) :=
  results.mergeSort fun r r' => compareResults a r r' != .gt

/-- The ranking under given statistics. -/
def rankUnder (index : BM25Index) (query : String) (excluded : Option (List Bool))
    (corpus : ℕ × F) : List (SearchResult F) :=
  let tokens := queryTokens env query
  let state := tokens.foldl (scoreTerm env a index excluded corpus) ⟨fun _ => a.lit 0, []⟩
  let scores := boostTouched env a query index.chunks state
  sortResults a ((state.touched.filter fun idx => a.isPositive (scores idx)).filterMap
    fun idx => (index.chunks[idx]?).map (resultOf env tokens idx (scores idx)))

def corpusOf (index : BM25Index) : Option (List Bool) → ℕ × F
  | none => fullCorpus a index
  | some excluded => servedCorpus a index excluded

def rank (index : BM25Index) (query : String) (excluded : Option (List Bool)) :
    List (SearchResult F) :=
  if queryTokens env query = [] || index.docCount = 0 then []
  else
    let corpus := corpusOf a index excluded
    if corpus.1 = 0 then [] else rankUnder env a index query excluded corpus

/-! ## Gated searches -/

/-- A gate with fixed decisions on (source, text); some sources are remembered once asked. -/
structure SourceGate where
  serves : String → String → Bool
  remembers : String → Bool
  isProtected : Bool

/-- The decision on record for a text of a source. -/
def SourceGate.decided (gate : SourceGate) (asked : List String) (source text : String) :
    Option Bool :=
  if gate.remembers source && source ∈ asked then some (gate.serves source text) else none

structure Walk (F : Type) where
  served : List (SearchResult F)
  refused : Finset ℕ
  asked : List String

/-- The first results that pass the gate, with what was refused on the way. -/
def walk (index : BM25Index) (topK : ℕ) (gate : SourceGate) : List (SearchResult F) → Walk F → Walk F
  | [], w => w
  | r :: ranked, w =>
    if topK ≤ w.served.length then w
    else
      match index.chunks[r.chunkIdx]? with
      | none => walk index topK gate ranked { w with refused := insert r.chunkIdx w.refused }
      | some chunk =>
        let asked := chunk.filePath :: w.asked
        if gate.serves chunk.filePath chunk.content then
          walk index topK gate ranked { w with served := w.served ++ [r], asked := asked }
        else
          walk index topK gate ranked
            { w with refused := insert r.chunkIdx w.refused, asked := asked }

/-- Rank and walk again without what was refused, until a walk refuses nothing new. -/
def rankings (index : BM25Index) (query : String) (topK : ℕ) (gate : SourceGate) :
    ℕ → List (SearchResult F) → Finset ℕ → List String → List (SearchResult F)
  | 0, _, _, _ => []
  | n + 1, ranked, refused, asked =>
    let w := walk index topK gate ranked ⟨[], refused, asked⟩
    if w.refused.card = refused.card then w.served
    else
      let excluded := index.chunks.zipIdx.map fun c =>
        c.2 ∈ w.refused || gate.decided w.asked c.1.filePath c.1.content = some false
      rankings index query topK gate n (rank env a index query (some excluded)) w.refused w.asked

/-- Per source: its distinct query terms and its postings of query terms. -/
def countSource (index : BM25Index) (found : OrdMap String (ℕ × ℕ)) (entries : List (ℕ × ℚ)) :
    OrdMap String (ℕ × ℕ) :=
  (entries.foldl (fun (state : OrdMap String (ℕ × ℕ) × List String) (e : ℕ × ℚ) =>
    match index.chunks[e.1]? with
    | none => state
    | some chunk =>
      let old := state.1[chunk.filePath]?.getD (0, 0)
      if chunk.filePath ∈ state.2 then
        (state.1.insert chunk.filePath (old.1, old.2 + 1), state.2)
      else
        (state.1.insert chunk.filePath (old.1 + 1, old.2 + 1), chunk.filePath :: state.2))
    (found, [])).1

def foundSources (index : BM25Index) (query : String) : OrdMap String (ℕ × ℕ) :=
  let terms := (((queryTokens env query).map env.toLowercase).mergeSort).dedup
  terms.foldl (fun found term =>
    (index.postings.inverted[term]?).elim found (countSource index found)) ∅

def sourceBefore (s s' : String × ℕ × ℕ) : Bool :=
  (compare s'.2.1 s.2.1).then ((compare s'.2.2 s.2.2).then (compare s.1 s'.1)) != .gt

def candidateSources (index : BM25Index) (query : String) : List String :=
  (((foundSources env index query).toList.mergeSort sourceBefore).take maxSources).map Prod.fst

def searchAdmittedCorpus (index : BM25Index) (query : String) (topK : ℕ) (gate : SourceGate) :
    List (SearchResult F) :=
  let sources := candidateSources env index query
  let excluded := index.chunks.map fun c =>
    !(c.filePath ∈ sources && gate.serves c.filePath c.content)
  (rank env a index query (some excluded)).take topK

def searchGated (index : BM25Index) (query : String) (topK : ℕ) (gate : Option SourceGate) :
    List (SearchResult F) :=
  match gate with
  | none => (rank env a index query none).take topK
  | some gate =>
    if gate.isProtected then searchAdmittedCorpus env a index query topK gate
    else rankings env a index query topK gate maxRankings (rank env a index query none) ∅ []

end LeanCtx.SearchIndex
