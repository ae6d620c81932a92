import LeanCtx.LosslessCollapse
import LeanCtx.TextFile
import LeanCtx.TextMarks
import LeanCtx.Transducer

/-!
# Messages on standard input and output

A client sends its messages as lines of JSON or as frames with a content length,
and the server answers the way the client began. The codec decodes what has
arrived so far; `Session` reads chunks, as `FramedRead` does, and hands over each
message as soon as it is complete. What serde makes of a payload is `Serde`.
-/

namespace LeanCtx.Stdio

open ByteText (Bytes newline utf8)
open TextSearch (firstSplit)

inductive WireProtocol
  | jsonLine
  | contentLength
  deriving DecidableEq, Repr

/-! ## Payloads -/

def isStandardNotification (method : String) : Bool :=
  ["notifications/cancelled", "notifications/initialized", "notifications/message",
    "notifications/progress", "notifications/prompts/list_changed",
    "notifications/resources/list_changed", "notifications/resources/updated",
    "notifications/roots/list_changed", "notifications/tools/list_changed"].contains method

def isStandardMethod (method : String) : Bool :=
  ["initialize", "ping", "prompts/get", "prompts/list", "resources/list", "resources/read",
    "resources/subscribe", "resources/unsubscribe", "resources/templates/list", "tools/call",
    "tools/list", "completion/complete", "logging/setLevel", "roots/list",
    "sampling/createMessage"].contains method || isStandardNotification method

def shouldIgnoreNotification (value : Json) (method : String) : Bool :=
  if (value.get "id").isNone && !isStandardMethod method then true
  else "notifications/".toList.isPrefixOf method.toList && !isStandardNotification method

/-- What serde reads as a message of the role, what it reads as JSON, and how it writes one. -/
structure Serde (T : Type) where
  fromSlice : Bytes → Option T
  fromStr : String → Option Json
  toVec : T → Bytes

inductive Parsed (T : Type)
  | item (message : T)
  | ignored
  | notFound (id : Json) (method : String)
  | malformed

variable {T : Type} (serde : Serde T)

def tryParseWithCompatibility (payload : Bytes) : Parsed T :=
  match serde.fromSlice payload with
  | some message => .item message
  | none =>
    match (ByteText.fromUtf8 payload).bind serde.fromStr with
    | none => .malformed
    | some value =>
      match (value.get "method").bind Json.asStr with
      | none => .malformed
      | some method =>
        if shouldIgnoreNotification value method then .ignored
        else match value.get "id" with
          | none => .malformed
          | some id => if isStandardMethod method then .malformed else .notFound id method

/-- What the client notices: a message that is handed over, or the reply to an unknown request. -/
inductive Event (T : Type)
  | message (message : T)
  | notFound (id : Json) (method : String) (protocol : Option WireProtocol)

def Parsed.events (protocol : Option WireProtocol) : Parsed T → List (Event T)
  | .item message => [.message message]
  | .notFound id method => [.notFound id method protocol]
  | .ignored | .malformed => []

/-- What a payload gives, whichever call decodes it. -/
def events (protocol : Option WireProtocol) (payload : Bytes) : List (Event T) :=
  (tryParseWithCompatibility serde payload).events protocol

/-! ## The codec -/

inductive CodecError
  | maxLineLengthExceeded
  | missingContentLength
  | invalidContentLength (value : List Char)
  | invalidHeaderFrame

/-- `protocol` is shared with the codec that writes. -/
structure Codec where
  nextIndex : ℕ := 0
  maxLength : ℕ := 32 * 1024 * 1024
  isDiscarding : Bool := false
  protocol : Option WireProtocol := none

def Codec.setIfUnset (c : Codec) (protocol : WireProtocol) : Codec :=
  { c with protocol := some (c.protocol.getD protocol) }

inductive Answer (T : Type)
  | item (message : T)
  | pending
  | failed (error : CodecError)

/-- A call's answer, what it leaves of the codec and the buffer, and the replies it wrote. -/
structure Decoded (T : Type) where
  answer : Answer T
  codec : Codec
  buffer : Bytes
  replies : List (Event T) := []

/-- What a payload adds to the call that goes on after it, unless it is the answer. -/
def Decoded.after (d : Decoded T) (replies : List (Event T)) : Decoded T :=
  { d with replies := replies ++ d.replies }

def withoutCarriageReturn (s : Bytes) : Bytes := if s.getLast? = some 13 then s.dropLast else s

def toAsciiLowercase (b : UInt8) : UInt8 := if 65 ≤ b ∧ b ≤ 90 then b + 32 else b

def contentLengthName : Bytes := utf8 "content-length"

def looksLikeContentLengthFrame (buf : Bytes) : Bool :=
  (buf.take contentLengthName.length).map toAsciiLowercase = contentLengthName

def headerEnd : Bytes := [13, 10, 13, 10]

def blankLine : Bytes := [10, 10]

def findHeaderTerminator (buf : Bytes) : Option (ℕ × ℕ) :=
  match firstSplit headerEnd buf with
  | some split => some (split.1.length, 4)
  | none => (firstSplit blankLine buf).map fun split => (split.1.length, 2)

def headerTrim (text : List Char) : List Char := TextMarks.trim ByteText.isWhitespace text

/-- The value of the first content length that the lines name. -/
def contentLengthLine : List (List Char) → Except CodecError ℕ
  | [] => .error .missingContentLength
  | rawLine :: lines =>
    match firstSplit [':'] (rawLine.rdropWhile (· = '\r')) with
    | none => contentLengthLine lines
    | some (name, value) =>
      if (headerTrim name).map Char.toLower = "content-length".toList then
        match Audit.parseU64 (headerTrim value) with
        | some length => .ok length
        | none => .error (.invalidContentLength (headerTrim value))
      else contentLengthLine lines

def parseContentLength (header : String) : Except CodecError ℕ :=
  contentLengthLine (TextFile.lineChars header.toList)

/-- One turn consumes a byte at least, so `fuel` beyond the length is never used up. -/
def decodeContentLength : ℕ → Codec → Bytes → Decoded T
  | 0, c, buf => { answer := .pending, codec := c, buffer := buf }
  | fuel + 1, c, buf =>
    match findHeaderTerminator buf with
    | none => { answer := .pending, codec := c, buffer := buf }
    | some (stop, delimiter) =>
      match ByteText.fromUtf8 (buf.take stop) with
      | none => { answer := .failed .invalidHeaderFrame, codec := c, buffer := buf }
      | some header =>
        match parseContentLength header with
        | .error e => { answer := .failed e, codec := c, buffer := buf }
        | .ok length =>
          if c.maxLength < length ∨ 2 ^ 64 ≤ stop + delimiter + length then
            { answer := .failed .maxLineLengthExceeded, codec := c, buffer := buf }
          else if buf.length < stop + delimiter + length then
            { answer := .pending, codec := c, buffer := buf }
          else
            let payload := (buf.take (stop + delimiter + length)).drop (stop + delimiter)
            let rest := buf.drop (stop + delimiter + length)
            let c := c.setIfUnset .contentLength
            match tryParseWithCompatibility serde payload with
            | .item message => { answer := .item message, codec := c, buffer := rest }
            | parsed => (decodeContentLength fuel c rest).after (parsed.events c.protocol)

def decodeJsonLine : ℕ → Codec → Bytes → Decoded T
  | 0, c, buf => { answer := .pending, codec := c, buffer := buf }
  | fuel + 1, c, buf =>
    let readTo := min (c.maxLength + 1) buf.length
    match c.isDiscarding, ((buf.take readTo).drop c.nextIndex).findIdx? (· = newline) with
    | true, some offset =>
      decodeJsonLine fuel { c with isDiscarding := false, nextIndex := 0 }
        (buf.drop (offset + c.nextIndex + 1))
    | true, none =>
      let rest := buf.drop readTo
      if rest = [] then { answer := .pending, codec := { c with nextIndex := 0 }, buffer := rest }
      else decodeJsonLine fuel { c with nextIndex := 0 } rest
    | false, some offset =>
      let line := buf.take (offset + c.nextIndex)
      let rest := buf.drop (offset + c.nextIndex + 1)
      let c := ({ c with nextIndex := 0 } : Codec).setIfUnset .jsonLine
      match tryParseWithCompatibility serde (withoutCarriageReturn line) with
      | .item message => { answer := .item message, codec := c, buffer := rest }
      | parsed => (decodeJsonLine fuel c rest).after (parsed.events c.protocol)
    | false, none =>
      if c.maxLength < buf.length then
        { answer := .failed .maxLineLengthExceeded, codec := { c with isDiscarding := true },
          buffer := buf }
      else { answer := .pending, codec := { c with nextIndex := readTo }, buffer := buf }

def decode (c : Codec) (buf : Bytes) : Decoded T :=
  match c.protocol with
  | some .contentLength => decodeContentLength serde (buf.length + 1) c buf
  | some .jsonLine => decodeJsonLine serde (buf.length + 1) c buf
  | none =>
    if looksLikeContentLengthFrame buf then decodeContentLength serde (buf.length + 1) c buf
    else decodeJsonLine serde (buf.length + 1) c buf

def decodeEof (c : Codec) (buf : Bytes) : Decoded T :=
  if c.protocol = some .contentLength ∧ buf ≠ [] then
    decodeContentLength serde (buf.length + 1) c buf
  else
    let d := decode serde c buf
    match d.answer with
    | .pending =>
      let c : Codec := { d.codec with nextIndex := 0 }
      if d.buffer = [] ∨ d.buffer = [13] then { d with codec := c }
      else match tryParseWithCompatibility serde (withoutCarriageReturn d.buffer) with
        | .item message => { d with answer := .item message, codec := c, buffer := [] }
        | parsed => { d with codec := c, buffer := [],
                             replies := d.replies ++ parsed.events c.protocol }
    | _ => d

def encode (protocol : Option WireProtocol) (message : T) : Bytes :=
  let payload := serde.toVec message
  match protocol.getD .contentLength with
  | .contentLength => utf8 ("Content-Length: " ++ payload.length.repr) ++ headerEnd ++ payload
  | .jsonLine => payload ++ [newline]

/-! ## Reading a stream -/

/-- The reading end: a failed call ends the stream, and the service with it. -/
structure Session where
  codec : Codec := {}
  buffer : Bytes := []
  closed : Bool := false

/-- Calls of `decode` until one has no message. -/
def drain : ℕ → Transducer.Move Session (Event T)
  | 0, s => (s, [])
  | fuel + 1, s =>
    let d := decode serde s.codec s.buffer
    match d.answer with
    | .item message =>
      let rest := drain fuel ⟨d.codec, d.buffer, false⟩
      (rest.1, d.replies ++ .message message :: rest.2)
    | .pending => (⟨d.codec, d.buffer, false⟩, d.replies)
    | .failed _ => (⟨d.codec, d.buffer, true⟩, d.replies)

/-- A chunk arrives. -/
def feed (chunk : Bytes) : Transducer.Move Session (Event T) := fun s =>
  if s.closed then (s, [])
  else
    let buffer := s.buffer ++ chunk
    drain serde (buffer.length + 1) { s with buffer }

/-- Calls of `decode_eof` until one has no message. -/
def drainEof : ℕ → Session → List (Event T)
  | 0, _ => []
  | fuel + 1, s =>
    let d := decodeEof serde s.codec s.buffer
    match d.answer with
    | .item message => d.replies ++ .message message :: drainEof fuel ⟨d.codec, d.buffer, false⟩
    | _ => d.replies

/-- Everything a client's stream gives that arrives in the given chunks. -/
def received (c : Codec) (chunks : List Bytes) : List (Event T) :=
  let run := Transducer.run (feed serde) chunks { codec := c }
  run.2 ++ if run.1.closed then [] else drainEof serde (run.1.buffer.length + 2) run.1

end LeanCtx.Stdio
