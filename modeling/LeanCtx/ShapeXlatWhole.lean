import LeanCtx.ShapeXlatAssemble
import LeanCtx.TextFile
import Mathlib.Data.List.Sort

/-!
# The stream and the whole

The chunks of a stream make up one completion, whose tool calls are put
together by their index. The message a reader gets from the translated stream
says the same as the translation of that completion exactly when no call goes
on after another call or text came in between: a call whose block was closed is
started anew, without id and name.
-/

namespace LeanCtx.ShapeXlat

open ByteText TextFile Transducer

/-! ## The completion of a stream -/

def streamPieces (chunks : List Json) : List Piece := chunks.flatMap chunkPieces

def streamText (chunks : List Json) : String :=
  String.join ((streamPieces chunks).map Piece.content)

def streamFinish (chunks : List Json) : Option String :=
  (chunks.filterMap chunkFinish).getLast?

def streamUsage (chunks : List Json) : Option Json := (chunks.filterMap chunkUsage).getLast?

def Call.json (c : Call) : Json :=
  .object [("function", .object [("arguments", .string c.arguments), ("name", .string c.name)]),
    ("id", .string c.id), ("type", .string "function")]

/-- The calls by tool index. -/
def completionCalls (entries : List ToolDelta) : List Call :=
  ((entries.filter ToolDelta.starts).insertionSort fun s t => s.index ≤ t.index).map
    (callOf entries)

/-- The completion that the chunks of a stream make up. -/
def completion (chunks : List Json) : Json :=
  .object [
    ("choices", .array [.object [
      ("finish_reason", ((streamFinish chunks).map Json.string).getD .null),
      ("message", .object [("content", .string (streamText chunks)), ("role", .string "assistant"),
        ("tool_calls", .array ((completionCalls (tools (streamPieces chunks))).map Call.json))])]]),
    ("id", (chunks.head?.bind (Json.get "id")).getD .null),
    ("model", (chunks.head?.bind (Json.get "model")).getD .null),
    ("usage", (streamUsage chunks).getD .null)]

/-- The chunks of one choice, in which each call is started once, with its id and name. -/
structure ChatStream (chunks : List Json) : Prop where
  oneChoice : ∀ chunk ∈ chunks, (((chunk.get "choices").bind Json.asArray).getD []).length ≤ 1
  calls : inOrder [] (tools (streamPieces chunks)) = true

/-! ## What a message says -/

/-- A tool call with its input. -/
structure ToolUse where
  id : String
  name : String
  input : Json
  deriving DecidableEq, Repr

section Said

variable (fromStr : String → Option Json)

/-- Arguments that are not JSON count as an empty input. -/
def Call.toolUse (c : Call) : ToolUse :=
  ⟨c.id, c.name, (fromStr c.arguments).getD (.object [])⟩

end Said

def contentText (block : Json) : Option String :=
  if (block.get "type").bind Json.asStr = some "text" then some (block.strField "text") else none

def contentToolUse (block : Json) : Option ToolUse :=
  if (block.get "type").bind Json.asStr = some "tool_use" then
    some ⟨block.strField "id", block.strField "name", (block.get "input").getD .null⟩
  else none

def contentBlocks (message : Json) : List Json :=
  ((message.get "content").bind Json.asArray).getD []

/-- The message from the stream says what the translated completion says. -/
structure Agrees (fromStr : String → Option Json) (m : Message) (chunks : List Json)
    (whole : Json) : Prop where
  text : blocksText m.blocks = String.join ((contentBlocks whole).filterMap contentText)
  calls : ((blocksCalls m.blocks).map (Call.toolUse fromStr)).Perm
    ((contentBlocks whole).filterMap contentToolUse)
  stopReason : (whole.get "stop_reason").bind Json.asStr = some m.stopReason
  usage : (streamUsage chunks).isSome = true → whole.get "usage" = some m.usage

/-! ## The whole -/

section Whole

variable (fromStr : String → Option Json)

/-- The content block of a call of a whole completion. -/
def Call.block (c : Call) : Json :=
  .object [("id", .string c.id), ("input", (c.toolUse fromStr).input), ("name", .string c.name),
    ("type", .string "tool_use")]

theorem mapM_toolUse (calls : List Call) :
    (calls.map Call.json).mapM (toolUse fromStr) = some (calls.map (Call.block fromStr)) := by
  induction calls with
  | nil => rfl
  | cons c calls ih =>
    have hfirst : toolUse fromStr c.json = some (c.block fromStr) := rfl
    rw [List.map_cons, List.mapM_cons, ih, hfirst]
    rfl

/-- The content of the translated completion. -/
def wholeContent (chunks : List Json) : List Json :=
  (if streamText chunks = "" then [] else
    [.object [("text", .string (streamText chunks)), ("type", .string "text")]]) ++
    (completionCalls (tools (streamPieces chunks))).map (Call.block fromStr)

theorem chatToMessages_completion (chunks : List Json) : ∃ whole,
    chatToMessages fromStr (completion chunks) = some whole ∧
      contentBlocks whole = wholeContent fromStr chunks ∧
      (whole.get "stop_reason").bind Json.asStr = some (stopReason (streamFinish chunks)) ∧
      whole.get "usage" = some (usageToAnthropic (some ((streamUsage chunks).getD .null))) := by
  have hfinish : Json.asStr (((streamFinish chunks).map Json.string).getD .null) =
      streamFinish chunks := by
    cases streamFinish chunks <;> rfl
  refine ⟨.object [("content", .array (wholeContent fromStr chunks)),
    ("id", .string ("msg_" ++
      ((Json.asStr ((chunks.head?.bind (Json.get "id")).getD .null)).getD "xlat"))),
    ("model", .string ((Json.asStr ((chunks.head?.bind (Json.get "model")).getD .null)).getD "")),
    ("role", .string "assistant"), ("stop_reason", .string (stopReason (streamFinish chunks))),
    ("stop_sequence", .null), ("type", .string "message"),
    ("usage", usageToAnthropic (some ((streamUsage chunks).getD .null)))], ?_, rfl, rfl, rfl⟩
  have hcalls := mapM_toolUse fromStr (completionCalls (tools (streamPieces chunks)))
  rw [wholeContent, ← hfinish]
  change ((List.map Call.json (completionCalls (tools (streamPieces chunks)))).mapM
    (toolUse fromStr)).bind _ = _
  rw [hcalls]
  rfl

theorem text_wholeContent (chunks : List Json) :
    String.join ((wholeContent fromStr chunks).filterMap contentText) = streamText chunks := by
  have hcalls : ((completionCalls (tools (streamPieces chunks))).map
      (Call.block fromStr)).filterMap contentText = [] := by
    apply List.filterMap_eq_nil_iff.mpr
    intro b hb
    obtain ⟨c, -, rfl⟩ := List.mem_map.mp hb
    rfl
  rw [wholeContent, List.filterMap_append, hcalls, List.append_nil]
  split_ifs with hempty
  · exact hempty.symm
  · have htext : contentText (.object [("text", .string (streamText chunks)),
        ("type", .string "text")]) = some (streamText chunks) := rfl
    simp [htext]

theorem toolUses_wholeContent (chunks : List Json) :
    (wholeContent fromStr chunks).filterMap contentToolUse =
      (completionCalls (tools (streamPieces chunks))).map (Call.toolUse fromStr) := by
  have htext : ∀ text, contentToolUse (.object [("text", .string text),
      ("type", .string "text")]) = none := fun _ => rfl
  have hcalls : ((completionCalls (tools (streamPieces chunks))).map
      (Call.block fromStr)).filterMap contentToolUse =
      (completionCalls (tools (streamPieces chunks))).map (Call.toolUse fromStr) := by
    rw [List.filterMap_map, ← List.filterMap_eq_map]
    rfl
  rw [wholeContent, List.filterMap_append, hcalls]
  split_ifs <;> simp [htext]

/-- The calls of the stream are those of the completion, up to their order. -/
theorem streamCalls_perm (entries : List ToolDelta) :
    (streamCalls entries).Perm (completionCalls entries) :=
  (List.perm_insertionSort _ _).symm.map (callOf entries)

end Whole

/-! ## The stream -/

/-- The usage that the end of the stream carries. -/
def deliveredUsage (chunks : List Json) : Option Json :=
  (streamUsage chunks).map fun usage => usageToAnthropic (some usage)

theorem getLast?_filterMap_concat {α β : Type*} (f : α → Option β) (l : List α) (a : α) :
    ((l ++ [a]).filterMap f).getLast? = (f a).or (l.filterMap f).getLast? := by
  cases h : f a <;> simp [h]

/-- After the chunks, the translator knows how the stream ends, and has written their pieces. -/
theorem run_chunks (chunks : List Json) :
    (run processChunk chunks {}).1.finishReason = streamFinish chunks ∧
      (run processChunk chunks {}).1.usage = deliveredUsage chunks ∧
      ((Fresh (run processChunk chunks {}).1 ∧ (run processChunk chunks {}).2 = [] ∧
          streamPieces chunks = []) ∨
        ∃ id model, Writing (run processChunk chunks {}).1 id model
          ((streamPieces chunks).foldl Draft.add {}) (run processChunk chunks {}).2) := by
  induction chunks using List.reverseRecOn with
  | nil => exact ⟨rfl, rfl, Or.inl ⟨⟨rfl, rfl, rfl, rfl⟩, rfl, rfl⟩⟩
  | append_singleton chunks c ih =>
    obtain ⟨hfinish, husage, hdraft⟩ := ih
    obtain ⟨_, _, hstate⟩ := processChunk_state c (run processChunk chunks {}).1
    have hpieces : streamPieces (chunks ++ [c]) = streamPieces chunks ++ chunkPieces c := by
      simp [streamPieces]
    rw [run_append, run_cons, run_nil, andThen_idle, andThen_state, andThen_output]
    refine ⟨?_, ?_, Or.inr ?_⟩
    · rw [hstate, streamFinish, getLast?_filterMap_concat, ← streamFinish, ← hfinish]
      rfl
    · have hlast : streamUsage (chunks ++ [c]) = (chunkUsage c).or (streamUsage chunks) :=
        getLast?_filterMap_concat _ _ _
      rw [hstate, deliveredUsage, hlast, Option.map_or, ← deliveredUsage, ← husage]
      rfl
    · rw [hpieces, List.foldl_append]
      rcases hdraft with ⟨hfresh, hempty, hnone⟩ | ⟨id, model, hwriting⟩
      · rw [hempty, List.nil_append, hnone]
        exact ⟨_, _, hfresh.processChunk c⟩
      · exact ⟨id, model, hwriting.processChunk c⟩

/-- The message a stream of chunks is translated to. -/
theorem run_chunks_done (chunks : List Json) : ∃ id model,
    (run process (chunks.map Line.chunk ++ [.done]) {}).2 = Message.events ⟨id, model,
        ((streamPieces chunks).foldl Draft.add {}).blocks, stopReason (streamFinish chunks),
        (deliveredUsage chunks).getD (.object [("output_tokens", count 0)])⟩ ∧
      (run process (chunks.map Line.chunk ++ [.done]) {}).1.finished = true := by
  obtain ⟨hfinish, husage, hdraft⟩ := run_chunks chunks
  have hchunks : run process (chunks.map Line.chunk) = run processChunk chunks := run_map _ _ _
  rw [run_append, run_cons, run_nil, andThen_idle, hchunks, andThen_output, andThen_state, process,
    ← hfinish, ← husage]
  rcases hdraft with ⟨hfresh, hempty, hnone⟩ | ⟨id, model, hwriting⟩
  · rw [hempty, hnone]
    exact ⟨_, _, hfresh.closing.1, hfresh.closing.2.finished⟩
  · exact ⟨id, model, hwriting.closing.1, hwriting.closing.2.finished⟩

theorem run_filter_other (lines : List Line) :
    run process (lines.filter (· ≠ .other)) = run process lines := by
  induction lines with
  | nil => rfl
  | cons l lines ih =>
    by_cases h : l = .other
    · subst h
      rw [List.filter_cons_of_neg (by simp), ih, run_cons, process, idle_andThen]
    · rw [List.filter_cons_of_pos (by simpa using h), run_cons, run_cons, ih]

section Stream

variable (fromStr : String → Option Json)

/-- The lines of an upstream that say something. -/
def dataLines (bytes : Bytes) : List Line :=
  ((splitLines bytes).1.map (readLine fromStr)).filter (· ≠ .other)

theorem upstream_of_lt {bytes : Bytes} (h : ∀ l ∈ (splitLines bytes).1, l.length < maxLineBytes) :
    upstream fromStr bytes = (splitLines bytes).1.map (readLine fromStr) := by
  apply List.map_congr_left
  intro l hl
  rw [List.take_of_length_le (h l hl).le]

/-- What a reader of the translated stream gets. -/
theorem assemble_output {pieces : List Bytes} {chunks : List Json} (finishes : ℕ)
    (hlimit : ∀ l ∈ (splitLines pieces.flatten).1, l.length < maxLineBytes)
    (hdata : dataLines fromStr pieces.flatten = chunks.map Line.chunk ++ [.done]) :
    ∃ id model, assemble (output fromStr pieces finishes) = ⟨id, model,
      ((streamPieces chunks).foldl Draft.add {}).blocks, stopReason (streamFinish chunks),
      (deliveredUsage chunks).getD (.object [("output_tokens", count 0)])⟩ := by
  obtain ⟨id, model, hevents, hfinished⟩ := run_chunks_done chunks
  obtain ⟨lineBuf, hout⟩ := output_eq fromStr pieces finishes
  have hrun : run process (upstream fromStr pieces.flatten) =
      run process (chunks.map Line.chunk ++ [.done]) := by
    rw [upstream_of_lt fromStr hlimit, ← run_filter_other, ← dataLines, hdata]
  have hnothing := run_finish_closed
    (x := { (run process (chunks.map Line.chunk ++ [.done]) {}).1 with lineBuf }) hfinished finishes
  rw [hrun, hnothing, List.append_nil, hevents] at hout
  exact ⟨id, model, by rw [hout, assemble_events]⟩

/-- The number of calls is the same exactly when every entry comes while its call is open. -/
theorem Agrees.contiguous {m : Message} {chunks : List Json} {whole : Json}
    (h : Agrees fromStr m chunks whole)
    (hm : m.blocks = ((streamPieces chunks).foldl Draft.add {}).blocks)
    (hwhole : chatToMessages fromStr (completion chunks) = some whole) :
    contiguous none (streamPieces chunks) = true := by
  obtain ⟨other, hother, hcontent, -⟩ := chatToMessages_completion fromStr chunks
  obtain rfl : whole = other := Option.some.inj (hwhole.symm.trans hother)
  have hlength := h.calls.length_eq
  rw [hm, hcontent, toolUses_wholeContent, List.length_map, List.length_map,
    ← (streamCalls_perm _).length_eq, streamCalls, List.length_map] at hlength
  exact (length_calls _).2.mpr hlength

/-- A reader of the translated stream and the translation of the whole completion agree exactly
when every entry that goes on with a call directly follows another entry of that call. -/
theorem stream_agrees_iff {pieces : List Bytes} {chunks : List Json} (finishes : ℕ)
    (hlimit : ∀ l ∈ (splitLines pieces.flatten).1, l.length < maxLineBytes)
    (hdata : dataLines fromStr pieces.flatten = chunks.map Line.chunk ++ [.done])
    (hchat : ChatStream chunks) :
    (∃ whole, chatToMessages fromStr (completion chunks) = some whole ∧
        Agrees fromStr (assemble (output fromStr pieces finishes)) chunks whole) ↔
      contiguous none (streamPieces chunks) = true := by
  obtain ⟨id, model, hmessage⟩ := assemble_output fromStr finishes hlimit hdata
  rw [hmessage]
  constructor
  · rintro ⟨whole, hwhole, h⟩
    exact h.contiguous fromStr rfl hwhole
  · intro hcontiguous
    obtain ⟨whole, hwhole, hcontent, hstop, husage⟩ := chatToMessages_completion fromStr chunks
    refine ⟨whole, hwhole, ?_, ?_, hstop, ?_⟩
    · rw [hcontent, text_wholeContent]
      exact Draft.text_pieces _
    · rw [hcontent, toolUses_wholeContent, (calls_eq hchat.calls hcontiguous).1]
      exact (streamCalls_perm _).map _
    · intro hsome
      obtain ⟨usage, hlast⟩ := Option.isSome_iff_exists.mp hsome
      rw [husage, deliveredUsage, hlast]
      rfl

/-- The stream of the given chunks. -/
def sse (chunks : List Json) : Bytes :=
  joinLines (chunks.map (fun c => utf8 ("data: " ++ c.text)) ++ [utf8 "data: [DONE]"])

end Stream

/-- The chunk is an object whose text fits one line. -/
def Sendable (chunk : Json) : Prop :=
  '\n' ∉ chunk.chars ∧ chunk.chars.length < 2 ^ 17 ∧ chunk.kind = (Json.object []).kind

instance (chunk : Json) : Decidable (Sendable chunk) := inferInstanceAs (Decidable (_ ∧ _ ∧ _))

theorem getLast?_charsEntries (first : Bool) (entries : List (String × Json)) :
    (Json.charsEntries first entries).getLast? = some '\x7d' := by
  induction entries generalizing first with
  | nil => simp [Json.charsEntries]
  | cons e entries ih =>
    obtain ⟨key, v⟩ := e
    simp [Json.charsEntries, List.getLast?_append, List.getLast?_cons, ih]

theorem trim_of_ends {w s : List Char} (hw : ∀ c ∈ w, isWhitespace c = true)
    (hhead : ∀ c ∈ s.head?, isWhitespace c = false)
    (hlast : ∀ c ∈ s.getLast?, isWhitespace c = false) :
    trim (String.ofList (w ++ s)) = String.ofList s := by
  have hdrop : (w ++ s).dropWhile isWhitespace = s := by
    rw [List.dropWhile_append_of_pos hw]
    cases s with
    | nil => rfl
    | cons c s => exact List.dropWhile_cons_of_neg (by simpa using hhead c rfl)
  have hback : s.reverse.dropWhile isWhitespace = s.reverse := by
    cases hs : s.reverse with
    | nil => rfl
    | cons c r =>
      have hc : s.getLast? = some c := by rw [← List.head?_reverse, hs]; rfl
      exact List.dropWhile_cons_of_neg (by simpa using hlast c hc)
  rw [trim, String.toList_ofList, hdrop, hback, List.reverse_reverse]

theorem stripPrefix_append (pre s : String) : stripPrefix pre (pre ++ s) = some s := by
  have hprefix : pre.toList.isPrefixOf (pre ++ s).toList = true := by simp
  rw [stripPrefix, if_pos hprefix, String.toList_append, List.drop_left, String.ofList_toList]

section Stream

variable (fromStr : String → Option Json)

theorem readLine_sendable {chunk : Json} (h : Sendable chunk)
    (hread : fromStr chunk.text = some chunk) :
    readLine fromStr (utf8 ("data: " ++ chunk.text)) = .chunk chunk := by
  obtain ⟨-, -, hkind⟩ := h
  cases chunk with
  | object entries =>
    have hlast : (Json.object entries).chars.getLast? = some '\x7d' := by
      rw [Json.chars, List.getLast?_cons, getLast?_charsEntries]
      rfl
    have hspace : isWhitespace ' ' = true := by decide
    have hopen : isWhitespace '\x7b' = false := by decide
    have hclose : isWhitespace '\x7d' = false := by decide
    have hfield : trim (String.ofList ([' '] ++ (Json.object entries).chars)) =
        (Json.object entries).text := by
      apply trim_of_ends
      · simpa using hspace
      · simpa [Json.chars] using hopen
      · simpa [hlast] using hclose
    have hline : trim ("data: " ++ (Json.object entries).text) =
        "data:" ++ String.ofList ([' '] ++ (Json.object entries).chars) := by
      have hsame : "data: " ++ (Json.object entries).text =
          String.ofList ([] ++ ("data: ".toList ++ (Json.object entries).chars)) := by
        rw [List.nil_append, String.ofList_append, String.ofList_toList, Json.text]
      have hsplit : "data:" ++ String.ofList ([' '] ++ (Json.object entries).chars) =
          String.ofList ("data: ".toList ++ (Json.object entries).chars) := by
        rw [String.ofList_append, ← String.append_assoc, String.ofList_append]
        rfl
      rw [hsame, hsplit]
      apply trim_of_ends
      · simp
      · have hletter : isWhitespace 'd' = false := by decide
        simpa using hletter
      · rw [List.getLast?_append, hlast]
        simpa using hclose
    have hdone : (Json.object entries).text ≠ "[DONE]" := by
      intro h
      have hchars := congrArg String.toList h
      rw [Json.text, String.toList_ofList, Json.chars] at hchars
      exact absurd (List.cons.inj hchars).1 (by decide)
    delta readLine
    rw [fromUtf8_utf8, Option.getD_some, hline, stripPrefix_append]
    simp only [hfield, hdone, hread, if_false]
  | _ => cases hkind

theorem splitLines_sse {chunks : List Json} (h : ∀ c ∈ chunks, Sendable c) :
    (splitLines (sse chunks)).1 =
      chunks.map (fun c => utf8 ("data: " ++ c.text)) ++ [utf8 "data: [DONE]"] := by
  have hlines : ∀ l ∈ chunks.map (fun c => utf8 ("data: " ++ c.text)) ++ [utf8 "data: [DONE]"],
      newline ∉ l := by
    intro l hl
    rcases List.mem_append.mp hl with hl | hl
    · obtain ⟨c, hc, rfl⟩ := List.mem_map.mp hl
      have hnot := (h c hc).1
      rw [newline_mem_utf8, Json.text]
      simpa using hnot
    · rw [List.mem_singleton.mp hl]
      decide
  rw [sse, splitLines_joinLines hlines]

theorem sse_lt {chunks : List Json} (h : ∀ c ∈ chunks, Sendable c) :
    ∀ l ∈ (splitLines ([sse chunks].flatten)).1, l.length < maxLineBytes := by
  intro l hl
  rw [List.flatten_singleton, splitLines_sse h] at hl
  rcases List.mem_append.mp hl with hl | hl
  · obtain ⟨c, hc, rfl⟩ := List.mem_map.mp hl
    have hbytes := length_utf8_le c.text
    have hlength := (h c hc).2.1
    have hdata : (utf8 "data: ").length = 6 := by decide
    rw [Json.text, String.toList_ofList] at hbytes
    rw [utf8_append, List.length_append, hdata, maxLineBytes, Json.text]
    omega
  · have hdone : (utf8 "data: [DONE]").length = 12 := by decide
    rw [List.mem_singleton.mp hl, hdone, maxLineBytes]
    norm_num

theorem dataLines_sse {chunks : List Json} (h : ∀ c ∈ chunks, Sendable c)
    (hread : ∀ c, fromStr c.text = some c) :
    dataLines fromStr [sse chunks].flatten = chunks.map Line.chunk ++ [.done] := by
  have hchunks : (chunks.map fun c => utf8 ("data: " ++ c.text)).map (readLine fromStr) =
      chunks.map Line.chunk := by
    rw [List.map_map]
    apply List.map_congr_left
    intro c hc
    rw [Function.comp_apply, readLine_sendable fromStr (h c hc) (hread c)]
  have hdone : readLine fromStr (utf8 "data: [DONE]") = .done := by
    have hline : trim "data: [DONE]" = "data:" ++ " [DONE]" := by decide
    delta readLine
    rw [fromUtf8_utf8, Option.getD_some, hline, stripPrefix_append]
    rfl
  rw [dataLines, List.flatten_singleton, splitLines_sse h, List.map_append, hchunks,
    List.map_singleton, hdone, List.filter_append]
  congr 1
  apply List.filter_eq_self.mpr
  intro l hl
  obtain ⟨c, -, rfl⟩ := List.mem_map.mp hl
  simp

end Stream

/-- A chunk with one entry of `tool_calls`: one that starts a call, or one that goes on. -/
def startChunk (index : UInt64) (id name : String) : Json :=
  .object [("choices", .array [.object [("delta", .object [("tool_calls", .array [.object [
    ("function", .object [("arguments", .string ""), ("name", .string name)]),
    ("id", .string id), ("index", count index)]])])]])]

def moreChunk (index : UInt64) (arguments : String) : Json :=
  .object [("choices", .array [.object [("delta", .object [("tool_calls", .array [.object [
    ("function", .object [("arguments", .string arguments)]), ("index", count index)]])])]])]

def usageChunk (prompt completion : UInt64) : Json :=
  .object [("choices", .array []), ("usage", .object [("completion_tokens", count completion),
    ("prompt_tokens", count prompt)])]

/-- Text, one call and the usage. -/
def oneCall : List Json :=
  [textChunk "Hel", textChunk "lo", startChunk 0 "call_1" "get_weather", moreChunk 0 "\x7b",
    moreChunk 0 "\x7d", usageChunk 50 12]

theorem oneCall_agrees :
    ∃ whole, chatToMessages Json.ofText (completion oneCall) = some whole ∧
      Agrees Json.ofText (assemble (output Json.ofText [sse oneCall] 1)) oneCall whole := by
  have hsend : ∀ c ∈ oneCall, Sendable c := by decide +kernel
  have hchat : ChatStream oneCall := ⟨by decide +kernel, by decide +kernel⟩
  have hcontiguous : contiguous none (streamPieces oneCall) = true := by decide +kernel
  exact (stream_agrees_iff _ 1 (sse_lt hsend) (dataLines_sse _ hsend Json.ofText_text) hchat).mpr
    hcontiguous

/-- Two calls whose arguments come in turns. -/
def twoCalls : List Json :=
  [startChunk 0 "call_1" "get_weather", startChunk 1 "call_2" "get_time", moreChunk 0 "\x7b\x7d",
    moreChunk 1 "\x7b\x7d"]

/-- The arguments of both calls end up in two further calls without id and name. -/
theorem twoCalls_disagree : ChatStream twoCalls ∧
    dataLines Json.ofText [sse twoCalls].flatten = twoCalls.map Line.chunk ++ [.done] ∧
    ¬ ∃ whole, chatToMessages Json.ofText (completion twoCalls) = some whole ∧
      Agrees Json.ofText (assemble (output Json.ofText [sse twoCalls] 1)) twoCalls whole := by
  have hsend : ∀ c ∈ twoCalls, Sendable c := by decide +kernel
  have hchat : ChatStream twoCalls := ⟨by decide +kernel, by decide +kernel⟩
  have hbroken : ¬ contiguous none (streamPieces twoCalls) = true := by decide +kernel
  have hdata := dataLines_sse _ hsend Json.ofText_text
  obtain ⟨id, model, hmessage⟩ := assemble_output _ 1 (sse_lt hsend) hdata
  refine ⟨hchat, hdata, ?_⟩
  rintro ⟨whole, hwhole, h⟩
  rw [hmessage] at h
  exact hbroken (h.contiguous _ rfl hwhole)

end LeanCtx.ShapeXlat
