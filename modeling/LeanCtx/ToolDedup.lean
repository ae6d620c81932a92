import LeanCtx.Json
import LeanCtx.TextFile
import LeanCtx.Trace
import Mathlib.Data.List.MinMax

/-!
# Repeated tool outputs

Within one request a repeated tool output is replaced by a reference to an
earlier one that stays as it is, and a near duplicate by such a reference and
the lines that changed. The walk over the messages hands every string output
with its tool-call id to a step that keeps the state of the request.
-/

namespace LeanCtx.ToolDedup

/-! ## Texts -/

def recentToolOutputs : ℕ := 2

def deltaWindow : ℕ := 16

def estimateTokens (content : String) : ℕ := (content.utf8ByteSize + 3) / 4

structure DedupStats where
  chunksSeen : ℕ := 0
  exactDeduped : ℕ := 0
  deltaDeduped : ℕ := 0
  tokensSaved : ℕ := 0

/-- An earlier tool result that stays as it is. -/
structure Canonical where
  id : String
  content : String

def exactStub (canonicalId : String) : String :=
  "[lean-ctx: identical to tool result " ++ canonicalId ++ " above]"

def lineSpan (before count : ℕ) (singular plural : String) : String :=
  let first := before + 1
  if count = 1 then "line " ++ first.repr ++ " " ++ singular
  else "lines " ++ first.repr ++ "–" ++ (before + count).repr ++ " " ++ plural

/-- A block of lines after the first `before` ones is changed: how many go, and what comes. -/
structure Delta where
  before : ℕ
  removed : ℕ
  inserted : List String

/-- The text of the stub, if the block is not empty on both sides. -/
def Delta.text (id : String) (delta : Delta) : Option String :=
  let withLines (change : String) : String :=
    "[lean-ctx: tool result " ++ id ++ " above, except " ++ change ++ ":\n" ++
      "\n".intercalate delta.inserted ++ "\n]"
  match decide (delta.removed = 0), delta.inserted.isEmpty with
  | true, true => none
  | true, false =>
    if delta.before = 0 then some (withLines "these lines are inserted at the start")
    else some (withLines ("these lines are inserted after line " ++ delta.before.repr))
  | false, true =>
    some ("[lean-ctx: tool result " ++ id ++ " above, except " ++
      lineSpan delta.before delta.removed "is" "are" ++ " removed]")
  | false, false =>
    some (withLines (lineSpan delta.before delta.removed "is" "are" ++ " replaced by"))

def endsInNewline (content : String) : Bool := content.toList.getLast? == some '\n'

/-- How many elements two lists have in common at the front. -/
def commonLength (old new : List String) : ℕ :=
  ((old.zip new).takeWhile fun (a, b) => a == b).length

/-- The changed block: what two texts do not share at the front nor then at the end. -/
def changedBlock (old new : List String) : Delta :=
  let before := commonLength old new
  let maxSuffix := min old.length new.length - before
  let suffix :=
    (((old.reverse.zip new.reverse).take maxSuffix).takeWhile fun (a, b) => a == b).length
  { before
    removed := ((old.take (old.length - suffix)).drop before).length
    inserted := (new.take (new.length - suffix)).drop before }

def deltaStub (canonical : Canonical) (content : String) : Option String :=
  if '\r' ∈ canonical.content.toList ∨ '\r' ∈ content.toList ∨
      endsInNewline canonical.content ≠ endsInNewline content then none
  else (changedBlock (TextFile.lines canonical.content) (TextFile.lines content)).text canonical.id

def bestDeltaStub (window : List Canonical) (content : String) : Option String :=
  let budget := estimateTokens content / 2
  ((window.filterMap fun canonical => deltaStub canonical content).filter fun stub =>
    estimateTokens stub ≤ budget).argmin String.utf8ByteSize

/-! ## The step -/

structure Dedup (H : Type) where
  stats : DedupStats := {}
  byHash : List (H × String) := []
  window : List Canonical := []
  chunkIndex : ℕ := 0

/-- A tool output with its tool-call id. -/
abbrev Output := Option String × String

section Step

variable {H : Type} [DecidableEq H] (hash : String → H)

/-- The output stays, for later ones to refer to when it has an id. -/
def Dedup.keep (s : Dedup H) : Output → Dedup H
  | (none, _) => s
  | (some id, content) =>
    { s with
      byHash := if (s.byHash.lookup (hash content)).isSome then s.byHash
        else (hash content, id) :: s.byHash
      window := (if s.window.length = deltaWindow then s.window.tail else s.window) ++
        [⟨id, content⟩] }

def Dedup.saved (s : Dedup H) (content stub : String) : Dedup H :=
  { s with stats.tokensSaved :=
      s.stats.tokensSaved + (estimateTokens content - estimateTokens stub) }

/-- `protect` is what `protected()` says when it is asked. -/
def step (protect : Bool) (chunkCount : ℕ) (s : Dedup H) (output : Output) : String × Dedup H :=
  let content := output.2
  let isRecent := decide (chunkCount ≤ s.chunkIndex + recentToolOutputs)
  let s := { s with chunkIndex := s.chunkIndex + 1 }
  let exact := ((s.byHash.lookup (hash content)).map exactStub).filter fun stub =>
    estimateTokens stub < estimateTokens content
  match isRecent, exact, bestDeltaStub s.window content with
  | false, some stub, _ =>
    (stub, { s.saved content stub with stats.exactDeduped := s.stats.exactDeduped + 1 })
  | false, none, some stub =>
    if protect then (content, s.keep hash output)
    else (stub, { s.saved content stub with stats.deltaDeduped := s.stats.deltaDeduped + 1 })
  | _, _, _ => (content, s.keep hash output)

end Step

/-! ## The messages -/

/-- `get_mut("content")`, assigned. -/
def setContent (content : Json) : Json → Json
  | .object entries => .object <| entries.map fun e => if e.1 = "content" then (e.1, content) else e
  | value => value

def isToolMessage (message : Json) : Bool :=
  (message.get "role").bind Json.asStr = some "tool" ∨ (message.get "tool_use_id").isSome

def stringContent (value : Json) : Option String := (value.get "content").bind Json.asStr

def toolOutputCount (message : Json) : ℕ :=
  if isToolMessage message then (if (stringContent message).isSome then 1 else 0)
  else
    match (message.get "content").bind Json.asArray with
    | none => 0
    | some blocks =>
      blocks.countP fun block => (block.get "tool_use_id").isSome && (stringContent block).isSome

def toolId (message : Json) : Option String :=
  ((message.get "tool_call_id").bind Json.asStr).or ((message.get "tool_use_id").bind Json.asStr)

section Visit

variable {σ : Type} (visit : σ → Output → String × σ)

def visitContent (id : Option String) (s : σ) (value : Json) : Json × σ :=
  match stringContent value with
  | none => (value, s)
  | some content =>
    let (content, s) := visit s (id, content)
    (setContent (.string content) value, s)

def visitBlock (s : σ) (block : Json) : Json × σ :=
  match (block.get "tool_use_id").bind Json.asStr with
  | none => (block, s)
  | some id => visitContent visit (some id) s block

/-- A loop over values that are changed in place. -/
def visitEach (visitOne : σ → Json → Json × σ) : σ → List Json → List Json × σ
  | s, [] => ([], s)
  | s, value :: rest =>
    let (value, s) := visitOne s value
    let (rest, s) := visitEach visitOne s rest
    (value :: rest, s)

def visitToolOutputs (s : σ) (message : Json) : Json × σ :=
  if isToolMessage message then visitContent visit (toolId message) s message
  else
    match (message.get "content").bind Json.asArray with
    | none => (message, s)
    | some blocks =>
      let (blocks, s) := visitEach (visitBlock visit) s blocks
      (setContent (.array blocks) message, s)

end Visit

def dedupToolOutputs {H : Type} [DecidableEq H] (hash : String → H) (protect : Bool)
    (messages : List Json) : List Json × DedupStats :=
  let chunkCount := (messages.map toolOutputCount).sum
  let start : Dedup H := { stats := { chunksSeen := chunkCount } }
  let (messages, s) := visitEach (visitToolOutputs (step hash protect chunkCount)) start messages
  (messages, s.stats)

end LeanCtx.ToolDedup
