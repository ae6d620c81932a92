import LeanCtx.SearchIndex

/-!
# Changing a search index in place

Chunks of external sources are added to an index that is already there, chunks
of given sources are removed from it, and a rebuilt index takes over external
chunks of the one before. Entries name chunks by position, so what is kept or
taken over is renumbered.
-/

namespace LeanCtx.SearchIndex

open InvertedIndex

def maxOrigins : ℕ := 4096

def maxOriginBytes : ℕ := 32 * 1024

/-- Origins of external chunks, and the checks on them: which source an origin fits and its
serialized size, the admission of a plain text, and a gate that remembers what it was asked. -/
structure Origins (O G : Type) where
  fits : O → String → Bool
  size : O → Option ℕ
  admitText : String → Option String
  serves : G → String → String → Bool × G

/-- An index and the origins recorded for its external chunks. -/
structure StoredIndex (O : Type) where
  index : BM25Index
  providerOrigins : OrdMap String O

structure ContentChunk (O : Type) where
  chunk : CodeChunk
  origin : Option O

variable {O G : Type} (env : Env) (o : Origins O G)

def isExternal (source : String) : Bool :=
  source.toList.tails.any fun rest => "://".toList.isPrefixOf rest

namespace StoredIndex

def new : StoredIndex O := ⟨.new, ∅⟩

def addChunk (s : StoredIndex O) (chunk : CodeChunk) : StoredIndex O :=
  { s with index := s.index.addChunk env chunk }

def addPrepared (s : StoredIndex O) (chunk : CodeChunk) : StoredIndex O :=
  { s with index := s.index.addPrepared (prepareChunk env chunk) }

def finalize (s : StoredIndex O) : StoredIndex O := { s with index := s.index.finalize }

def recordOrigin (s : StoredIndex O) (source : String) (origin : O) : StoredIndex O :=
  let bounded := o.fits origin source &&
    (s.providerOrigins.size < maxOrigins || s.providerOrigins[source]?.isSome) &&
    (o.size origin).any (· ≤ maxOriginBytes)
  { s with providerOrigins :=
      if bounded then s.providerOrigins.insert source origin else s.providerOrigins.erase source }

def ingestContentChunks (s : StoredIndex O) (chunks : List (ContentChunk O)) : StoredIndex O :=
  let added := chunks.foldl (fun (s : StoredIndex O) (c : ContentChunk O) =>
    (c.origin.elim s fun origin => s.recordOrigin o c.chunk.filePath origin).addChunk env c.chunk) s
  if 0 < chunks.length then added.finalize else added

end StoredIndex

/-! ## Removing -/

/-- The index without the chunks of evicted sources, and how many were removed. -/
def BM25Index.removeChunksOf (index : BM25Index) (evicted : String → Bool) : BM25Index × ℕ :=
  let positions := renumber 0 (index.chunks.map fun c => !evicted c.filePath)
  let removed := positions.length - (index.chunks.filter fun c => !evicted c.filePath).length
  if removed = 0 then (index, 0)
  else
    (BM25Index.finalize
      { index with
        chunks := index.chunks.filter fun c => !evicted c.filePath
        postings := index.postings.moved fun i => (positions[i]?).join }, removed)

namespace StoredIndex

def removeChunksOf (s : StoredIndex O) (evicted : String → Bool) : StoredIndex O :=
  { s with index := (s.index.removeChunksOf evicted).1 }

def removeChunksWithPrefix (s : StoredIndex O) (front : String) : StoredIndex O :=
  s.removeChunksOf fun source => front.toList.isPrefixOf source.toList

def removeSources (s : StoredIndex O) (sources : List String) : StoredIndex O :=
  s.removeChunksOf fun source => source ∈ sources

/-- The origins that are saved with an index: those of sources it still holds. -/
def heldOrigins (s : StoredIndex O) : OrdMap String O :=
  s.providerOrigins.filter fun source origin =>
    s.index.chunks.any (fun c => c.filePath = source) && o.fits origin source

/-- The persisted index after an eviction that was saved. -/
def evictSources (s : StoredIndex O) (gone : List String) : StoredIndex O :=
  let (index, removed) := s.index.removeChunksOf fun source => source ∈ gone
  if removed = 0 then s
  else
    let files := gone.foldl (fun files source => files.erase source) index.files
    let persisted : StoredIndex O := { s with index := { index with files := files } }
    { persisted with providerOrigins := persisted.heldOrigins o }

/-! ## Taking over external chunks -/

/-- The chunks that are taken from another index are pushed one after another; the answer holds
the new position of each chunk of that index, if any. -/
def pushTaken {H : Type} (takes : H → CodeChunk → Bool × H) (origins : OrdMap String O) :
    H → StoredIndex O → List CodeChunk → StoredIndex O × List (Option ℕ)
  | _, s, [] => (s, [])
  | h, s, chunk :: rest =>
    match origins[chunk.filePath]? with
    | none =>
      let (s', positions) := pushTaken takes origins h s rest
      (s', none :: positions)
    | some origin =>
      let (taken, h') := takes h chunk
      if taken then
        let pushed : StoredIndex O :=
          { s with index := { s.index with chunks := s.index.chunks ++ [chunk] } }
        let (s', positions) :=
          pushTaken takes origins h' (pushed.recordOrigin o chunk.filePath origin) rest
        (s', some s.index.chunks.length :: positions)
      else
        let (s', positions) := pushTaken takes origins h' s rest
        (s', none :: positions)

def withPostingsOf (s prev : StoredIndex O) (positions : List (Option ℕ)) : StoredIndex O :=
  if positions.all Option.isNone then s
  else
    finalize { s with index := { s.index with
      postings := s.index.postings.carrying (fun i => (positions[i]?).join) prev.index.postings } }

/-- An external chunk is carried when the current policy admits its text and name as they are. -/
def admitsVerbatim (chunk : CodeChunk) : Bool :=
  isExternal chunk.filePath && env.admitText chunk.content chunk.filePath = some chunk.content &&
    o.admitText chunk.symbolName = some chunk.symbolName

def takesAdmitted (u : Unit) (chunk : CodeChunk) : Bool × Unit := (admitsVerbatim env o chunk, u)

def takesServed (g : G) (chunk : CodeChunk) : Bool × G :=
  if isExternal chunk.filePath then o.serves g chunk.filePath chunk.content else (false, g)

/-- The index with the admitted external chunks of another one pushed, and their positions; none
when no origin is on record or one of the two was admitted under another policy. -/
def pushAdmitted (s prev : StoredIndex O) : StoredIndex O × List (Option ℕ) :=
  if prev.providerOrigins.size = 0 then (s, [])
  else if s.index.admissionPolicy ≠ some env.digest ||
      prev.index.admissionPolicy ≠ some env.digest then (s, [])
  else pushTaken o (takesAdmitted env o) prev.providerOrigins () s prev.index.chunks

def carryingExternalFrom (s prev : StoredIndex O) : StoredIndex O :=
  (s.pushAdmitted env o prev).1.withPostingsOf prev (s.pushAdmitted env o prev).2

/-- The same for the external chunks that a gate serves. -/
def pushServed (s stored : StoredIndex O) (gate : G) : StoredIndex O × List (Option ℕ) :=
  if stored.providerOrigins.size = 0 then (s, [])
  else pushTaken o (takesServed o) stored.providerOrigins gate s stored.index.chunks

def withServedExternalFrom (s stored : StoredIndex O) (gate : G) : StoredIndex O :=
  (s.pushServed o stored gate).1.withPostingsOf stored (s.pushServed o stored gate).2

end StoredIndex

end LeanCtx.SearchIndex
