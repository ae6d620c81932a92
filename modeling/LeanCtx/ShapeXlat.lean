import LeanCtx.ByteText
import LeanCtx.JsonPrint
import LeanCtx.Transducer

/-!
# Chat completions rewritten as Messages

A caller that speaks Messages gets the answer of a chat-completions upstream in
its own shape: a whole completion becomes one message, and a stream of
completion chunks becomes a stream of message events. The stream translator
keeps one content block open at a time. The parser of the JSON text of a line
is a parameter.
-/

namespace LeanCtx.ShapeXlat

open ByteText Transducer

/-- `Value::as_u64`. -/
def asU64 : Json → Option UInt64
  | .number (.posInt value) => some value
  | _ => none

/-- `Value::pointer` with two keys. -/
def pointer (outer inner : String) (value : Json) : Option Json :=
  (value.get outer).bind (Json.get inner)

def count (value : UInt64) : Json := .number (.posInt value)

/-! ## Whole completions -/

def stopReason (finish : Option String) : String :=
  if finish = some "length" then "max_tokens"
  else if finish = some "tool_calls" ∨ finish = some "function_call" then "tool_use"
  else "end_turn"

/-- The input count leaves out what was read from the cache. -/
def usageToAnthropic (usage : Option Json) : Json :=
  let prompt := ((usage.bind (Json.get "prompt_tokens")).bind asU64).getD 0
  let completion := ((usage.bind (Json.get "completion_tokens")).bind asU64).getD 0
  let cached := ((usage.bind (pointer "prompt_tokens_details" "cached_tokens")).bind asU64).getD 0
  .object [("cache_creation_input_tokens", count 0), ("cache_read_input_tokens", count cached),
    ("input_tokens", count (if cached ≤ prompt then prompt - cached else 0)),
    ("output_tokens", count completion)]

section Whole

variable (fromStr : String → Option Json)

/-- The `tool_use` block of one entry of `tool_calls`, nothing without a function. -/
def toolUse (call : Json) : Option Json := do
  let f ← call.get "function"
  let args := ((((f.get "arguments").bind Json.asStr).bind fromStr)).getD (.object [])
  return .object [("id", .string (call.strField "id")), ("input", args),
    ("name", .string (f.strField "name")), ("type", .string "tool_use")]

/-- `chat_to_messages`. -/
def chatToMessages (openai : Json) : Option Json := do
  let choices ← (openai.get "choices").bind Json.asArray
  let choice ← choices.head?
  let message ← choice.get "message"
  let text := message.strField "content"
  let calls ← (((message.get "tool_calls").bind Json.asArray).getD []).mapM (toolUse fromStr)
  let texts := if text = "" then [] else
    [Json.object [("text", .string text), ("type", .string "text")]]
  let finish := (choice.get "finish_reason").bind Json.asStr
  let id := ((openai.get "id").bind Json.asStr).getD "xlat"
  return .object [("content", .array (texts ++ calls)), ("id", .string ("msg_" ++ id)),
    ("model", .string (openai.strField "model")), ("role", .string "assistant"),
    ("stop_reason", .string (stopReason finish)), ("stop_sequence", .null),
    ("type", .string "message"), ("usage", usageToAnthropic (openai.get "usage"))]

end Whole

/-! ## Events -/

/-- The block that a `content_block_start` event opens. -/
inductive ContentBlock
  | text
  | toolUse (id name : String)
  deriving DecidableEq, Repr

inductive Delta
  | text (text : String)
  | inputJson (partialJson : String)
  deriving DecidableEq, Repr

inductive Event
  | messageStart (id model : String)
  | contentBlockStart (index : ℕ) (block : ContentBlock)
  | contentBlockDelta (index : ℕ) (delta : Delta)
  | contentBlockStop (index : ℕ)
  | messageDelta (stopReason : String) (usage : Json)
  | messageStop
  deriving DecidableEq, Repr

def ContentBlock.json : ContentBlock → Json
  | .text => .object [("text", .string ""), ("type", .string "text")]
  | .toolUse id name => .object [("id", .string id), ("input", .object []), ("name", .string name),
      ("type", .string "tool_use")]

def Delta.json : Delta → Json
  | .text value => .object [("text", .string value), ("type", .string "text_delta")]
  | .inputJson partialJson => .object [("partial_json", .string partialJson),
      ("type", .string "input_json_delta")]

def Event.name : Event → String
  | messageStart _ _ => "message_start"
  | contentBlockStart _ _ => "content_block_start"
  | contentBlockDelta _ _ => "content_block_delta"
  | contentBlockStop _ => "content_block_stop"
  | messageDelta _ _ => "message_delta"
  | messageStop => "message_stop"

def blockNumber (index : ℕ) : Json := count (UInt64.ofNat index)

def Event.data (e : Event) : Json := match e with
  | messageStart id model => .object [("message", .object [("content", .array []),
      ("id", .string ("msg_" ++ id)), ("model", .string model), ("role", .string "assistant"),
      ("stop_reason", .null), ("stop_sequence", .null), ("type", .string "message"),
      ("usage", .object [("input_tokens", count 0), ("output_tokens", count 0)])]),
      ("type", .string e.name)]
  | contentBlockStart index block => .object [("content_block", block.json),
      ("index", blockNumber index), ("type", .string e.name)]
  | contentBlockDelta index delta => .object [("delta", delta.json), ("index", blockNumber index),
      ("type", .string e.name)]
  | contentBlockStop index => .object [("index", blockNumber index), ("type", .string e.name)]
  | messageDelta stopReason usage => .object [("delta", .object [
      ("stop_reason", .string stopReason), ("stop_sequence", .null)]), ("type", .string e.name),
      ("usage", usage)]
  | messageStop => .object [("type", .string e.name)]

/-- The bytes of an event on the translated stream. -/
def emitEvent (e : Event) : Bytes :=
  utf8 ("event: " ++ e.name ++ "\ndata: " ++ e.data.text ++ "\n\n")

/-! ## The stream translator -/

inductive OpenBlock
  | text
  | tool (index : UInt64)
  deriving DecidableEq, Repr

/-- The block counter does not reach the end of its 64-bit range. -/
structure StreamXlat where
  lineBuf : Bytes := []
  started : Bool := false
  finished : Bool := false
  blockIndex : ℕ := 0
  openBlock : Option OpenBlock := none
  finishReason : Option String := none
  usage : Option Json := none
  deriving DecidableEq

def maxLineBytes : ℕ := 2 ^ 20

abbrev Writes := Move StreamXlat Event

def closeBlock : Writes := fun x => match x.openBlock with
  | none => (x, [])
  | some _ => ({ x with openBlock := none, blockIndex := x.blockIndex + 1 },
      [.contentBlockStop x.blockIndex])

def startBlock (tag : OpenBlock) (block : ContentBlock) : Writes := fun x =>
  ({ x with openBlock := some tag }, [.contentBlockStart x.blockIndex block])

def writeDelta (delta : Delta) : Writes := fun x => (x, [.contentBlockDelta x.blockIndex delta])

def emitMessageStart (chunk : Json) : Writes := fun x =>
  ({ x with started := true }, [.messageStart (((chunk.get "id").bind Json.asStr).getD "xlat")
    (((chunk.get "model").bind Json.asStr).getD "")])

def closeMessage : Writes := fun x =>
  ({ x with usage := none }, [.messageDelta (stopReason x.finishReason)
    (x.usage.getD (.object [("output_tokens", count 0)])), .messageStop])

/-- Without anything usable from the upstream, the message is started here. -/
def emitClosing : Writes := fun x =>
  if x.finished then (x, [])
  else andThen (if x.started then idle else emitMessageStart (.object []))
    (andThen closeBlock closeMessage) { x with finished := true }

/-- What the translator reads of an entry of `tool_calls`. -/
structure ToolDelta where
  index : UInt64
  id : Option String
  name : Option String
  arguments : Option String
  deriving DecidableEq, Repr

def ToolDelta.ofJson (call : Json) : ToolDelta where
  index := ((call.get "index").bind asU64).getD 0
  id := (call.get "id").bind Json.asStr
  name := (pointer "function" "name" call).bind Json.asStr
  arguments := (pointer "function" "arguments" call).bind Json.asStr

def writeArguments (d : ToolDelta) : Writes :=
  if d.arguments.getD "" = "" then idle else writeDelta (.inputJson (d.arguments.getD ""))

/-- A named entry starts a block, an entry without a name goes on with the block that is open
for its index. -/
def processToolDelta (d : ToolDelta) : Writes := fun x =>
  let continues := x.openBlock = some (.tool d.index) ∧ d.name = none
  let start := if continues then idle else
    andThen closeBlock (startBlock (.tool d.index) (.toolUse (d.id.getD "") (d.name.getD "")))
  andThen start (writeArguments d) x

def processText (text : String) : Writes := fun x =>
  let start := if x.openBlock = some .text then idle else
    andThen closeBlock (startBlock .text .text)
  andThen start (writeDelta (.text text)) x

def firstChoice (chunk : Json) : Option Json :=
  ((chunk.get "choices").bind Json.asArray).bind List.head?

/-- The `usage` of a chunk that is not null. -/
def chunkUsage (chunk : Json) : Option Json :=
  (chunk.get "usage").bind fun usage => if usage = .null then none else some usage

def noteUsage (chunk : Json) : Writes := fun x => match chunkUsage chunk with
  | none => (x, [])
  | some usage => ({ x with usage := some (usageToAnthropic (some usage)) }, [])

def noteFinish (choice : Json) : Writes := fun x =>
  match (choice.get "finish_reason").bind Json.asStr with
  | none => (x, [])
  | some reason => ({ x with finishReason := some reason }, [])

def processDelta (delta : Json) : Writes :=
  let text := delta.strField "content"
  let calls := ((delta.get "tool_calls").bind Json.asArray).getD []
  andThen (if text = "" then idle else processText text)
    (run (fun call => processToolDelta (.ofJson call)) calls)

def processChunk (chunk : Json) : Writes :=
  andThen (noteUsage chunk) <|
  andThen (fun x => if x.started then (x, []) else emitMessageStart chunk x) <|
    match firstChoice chunk with
    | none => idle
    | some choice => andThen (noteFinish choice) <| match choice.get "delta" with
      | none => idle
      | some delta => processDelta delta

/-- What a line of the upstream says. -/
inductive Line
  | other
  | done
  | chunk (value : Json)
  deriving DecidableEq, Repr

section Stream

variable (fromStr : String → Option Json)

def stripPrefix (pre s : String) : Option String :=
  if pre.toList.isPrefixOf s.toList then some (String.ofList (s.toList.drop pre.toList.length))
  else none

/-- Lines that are not UTF-8 count as empty, as do comments and event names. -/
def readLine (line : Bytes) : Line :=
  match stripPrefix "data:" (trim ((fromUtf8 line).getD "")) with
  | none => .other
  | some field =>
    if trim field = "[DONE]" then .done
    else match fromStr (trim field) with
      | none => .other
      | some chunk => .chunk chunk

def process : Line → Writes
  | .other => idle
  | .done => emitClosing
  | .chunk chunk => processChunk chunk

def processLine (line : Bytes) : Writes := process (readLine fromStr line)

/-- Bytes of a line beyond the limit are dropped. -/
def feedByte (byte : UInt8) : Writes := fun x =>
  if byte = newline then processLine fromStr x.lineBuf { x with lineBuf := [] }
  else if x.lineBuf.length < maxLineBytes then ({ x with lineBuf := x.lineBuf ++ [byte] }, [])
  else (x, [])

def feed (chunk : Bytes) : Writes := run (feedByte fromStr) chunk

def finish : Writes := emitClosing

/-- Everything written for the pieces of a stream and the calls of `finish` after them. -/
def output (pieces : List Bytes) (finishes : ℕ) : List Event :=
  (andThen (run (feed fromStr) pieces) (run (fun _ => finish) (List.replicate finishes ())) {}).2

/-- The output as bytes. -/
def outputBytes (pieces : List Bytes) (finishes : ℕ) : Bytes :=
  (output fromStr pieces finishes).flatMap emitEvent

end Stream

end LeanCtx.ShapeXlat
