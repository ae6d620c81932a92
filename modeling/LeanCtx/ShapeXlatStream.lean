import LeanCtx.ShapeXlat

/-!
# The translated stream as a message

A stream of events is well formed when it writes out a message: its start, its
content blocks in order, each with its own number, and its end. While a stream
is translated, the events so far are those of a draft of a message, of which
the last block may still be open. What the translator writes depends on the
lines of the upstream alone.
-/

namespace LeanCtx.ShapeXlat

open ByteText Transducer

/-! ## Messages -/

/-- A content block with the texts of its deltas. -/
structure Block where
  start : ContentBlock
  deltas : List String
  deriving DecidableEq, Repr

/-- The delta of a block's own kind. -/
def ContentBlock.delta : ContentBlock → String → Delta
  | .text, piece => .text piece
  | .toolUse _ _, piece => .inputJson piece

/-- The events of a block that is not stopped. -/
def Block.opened (b : Block) (index : ℕ) : List Event :=
  .contentBlockStart index b.start ::
    b.deltas.map fun piece => .contentBlockDelta index (b.start.delta piece)

def Block.events (b : Block) (index : ℕ) : List Event :=
  b.opened index ++ [.contentBlockStop index]

/-- The events of blocks numbered from `index` on. -/
def blockEvents (index : ℕ) : List Block → List Event
  | [] => []
  | b :: rest => b.events index ++ blockEvents (index + 1) rest

structure Message where
  id : String
  model : String
  blocks : List Block
  stopReason : String
  usage : Json

def Message.events (m : Message) : List Event :=
  .messageStart m.id m.model :: (blockEvents 0 m.blocks ++
    [.messageDelta m.stopReason m.usage, .messageStop])

/-- One start first, blocks numbered from zero that do not overlap, each delta of the kind and the
number of its block, one `message_delta` and one `message_stop` last. -/
def WellFormed (events : List Event) : Prop := ∃ m : Message, events = m.events

theorem blockEvents_append (index : ℕ) (front rest : List Block) :
    blockEvents index (front ++ rest) =
      blockEvents index front ++ blockEvents (index + front.length) rest := by
  induction front generalizing index with
  | nil => simp [blockEvents]
  | cons b front ih =>
    rw [List.cons_append, blockEvents, ih, blockEvents, List.append_assoc, List.length_cons]
    congr 3
    omega

theorem messageStop_not_mem_opened (b : Block) (index : ℕ) : .messageStop ∉ b.opened index := by
  simp [Block.opened]

theorem messageStop_not_mem_blockEvents (index : ℕ) (blocks : List Block) :
    .messageStop ∉ blockEvents index blocks := by
  induction blocks generalizing index with
  | nil => simp [blockEvents]
  | cons b blocks ih => simp [blockEvents, Block.events, messageStop_not_mem_opened, ih]

theorem WellFormed.messageStop_mem {events : List Event} (h : WellFormed events) :
    .messageStop ∈ events := by
  obtain ⟨m, rfl⟩ := h
  simp [Message.events]

theorem WellFormed.getLast? {events : List Event} (h : WellFormed events) :
    events.getLast? = some .messageStop := by
  obtain ⟨m, rfl⟩ := h
  simp [Message.events, List.getLast?_cons]

/-- Nothing may follow a well-formed stream but another `message_stop`. -/
theorem not_wellFormed_append {events late : List Event} (hlate : late ≠ [])
    (hstop : .messageStop ∉ late) : ¬ WellFormed (events ++ late) := by
  intro h
  have hlast := h.getLast?
  rw [List.getLast?_append_of_ne_nil _ hlate] at hlast
  exact hstop (List.mem_of_getLast? hlast)

/-! ## Drafts -/

/-- The blocks written so far, the last of them open when there is a current one. -/
structure Draft where
  closed : List Block := []
  current : Option (OpenBlock × Block) := none

namespace Draft

def blocks (d : Draft) : List Block := d.closed ++ (d.current.map Prod.snd).toList

def events (d : Draft) : List Event :=
  blockEvents 0 d.closed ++ (d.current.map fun c => c.2.opened d.closed.length).getD []

def close (d : Draft) : Draft := { closed := d.blocks }

def start (d : Draft) (tag : OpenBlock) (block : ContentBlock) : Draft :=
  { closed := d.blocks, current := some (tag, ⟨block, []⟩) }

def write (d : Draft) (piece : String) : Draft :=
  { d with current := d.current.map fun c => (c.1, ⟨c.2.start, c.2.deltas ++ [piece]⟩) }

def text (d : Draft) (piece : String) : Draft :=
  (if d.current.map Prod.fst = some .text then d else d.start .text .text).write piece

def arguments (d : Draft) (t : ToolDelta) : Draft :=
  if t.arguments.getD "" = "" then d else d.write (t.arguments.getD "")

def tool (d : Draft) (t : ToolDelta) : Draft :=
  (if d.current.map Prod.fst = some (.tool t.index) ∧ t.name = none then d
    else d.start (.tool t.index) (.toolUse (t.id.getD "") (t.name.getD ""))).arguments t

/-- The open block is of the kind its tag says. -/
def Typed (d : Draft) : Prop :=
  ∀ tag b, d.current = some (tag, b) → (tag = .text ↔ b.start = .text)

theorem events_close (d : Draft) :
    d.close.events = d.events ++
      (d.current.map fun _ => Event.contentBlockStop d.closed.length).toList := by
  cases h : d.current with
  | none => simp [close, events, blocks, h]
  | some c => simp [close, events, blocks, h, blockEvents_append, blockEvents, Block.events]

theorem events_start (d : Draft) (tag : OpenBlock) (block : ContentBlock) :
    (d.start tag block).events =
      d.close.events ++ [.contentBlockStart d.close.closed.length block] := by
  simp [start, close, events, Block.opened]

theorem events_write {d : Draft} {tag : OpenBlock} {b : Block} (h : d.current = some (tag, b))
    (piece : String) : (d.write piece).events =
      d.events ++ [.contentBlockDelta d.closed.length (b.start.delta piece)] := by
  simp [write, events, h, Block.opened]

end Draft

/-- The stream is begun and not ended, and the draft says what was written. -/
structure Writing (x : StreamXlat) (id model : String) (d : Draft) (out : List Event) : Prop where
  started : x.started = true
  unfinished : x.finished = false
  index : x.blockIndex = d.closed.length
  opened : x.openBlock = d.current.map Prod.fst
  typed : d.Typed
  written : out = .messageStart id model :: d.events

namespace Writing

variable {x : StreamXlat} {id model : String} {d : Draft} {out : List Event}

theorem closeBlock (h : Writing x id model d out) :
    Writing (closeBlock x).1 id model d.close (out ++ (ShapeXlat.closeBlock x).2) := by
  have hevents := d.events_close
  cases hc : d.current with
  | none =>
    have hopen : x.openBlock = none := by rw [h.opened, hc]; rfl
    have hsame : ShapeXlat.closeBlock x = (x, []) := by simp [ShapeXlat.closeBlock, hopen]
    rw [hsame, List.append_nil]
    rw [hc, Option.map_none, Option.toList_none, List.append_nil] at hevents
    refine ⟨h.started, h.unfinished, ?_, hopen, nofun, ?_⟩
    · simp [h.index, Draft.close, Draft.blocks, hc]
    · rw [h.written, hevents]
  | some c =>
    have hopen : x.openBlock = some c.1 := by rw [h.opened, hc]; rfl
    have hsame : ShapeXlat.closeBlock x =
        ({ x with openBlock := none, blockIndex := x.blockIndex + 1 },
          [.contentBlockStop x.blockIndex]) := by
      simp [ShapeXlat.closeBlock, hopen]
    rw [hsame]
    refine ⟨h.started, h.unfinished, ?_, rfl, nofun, ?_⟩
    · simp [h.index, Draft.close, Draft.blocks, hc]
    · rw [h.written, hevents, hc, h.index]
      rfl

theorem startBlock (h : Writing x id model d out) (tag : OpenBlock) {block : ContentBlock}
    (hkind : tag = .text ↔ block = .text) :
    Writing (andThen ShapeXlat.closeBlock (startBlock tag block) x).1 id model
      (d.start tag block) (out ++ (andThen ShapeXlat.closeBlock (ShapeXlat.startBlock tag block) x).2) := by
  have hclosed := h.closeBlock
  refine ⟨hclosed.started, hclosed.unfinished, hclosed.index, rfl, ?_, ?_⟩
  · intro tag' b hb
    obtain ⟨rfl, rfl⟩ := Prod.mk.inj (Option.some.inj hb)
    exact hkind
  · rw [andThen_output, ← List.append_assoc, hclosed.written, Draft.events_start]
    simp [ShapeXlat.startBlock, hclosed.index]

theorem writeDelta (h : Writing x id model d out) {tag : OpenBlock} {b : Block}
    (hc : d.current = some (tag, b)) (piece : String) :
    Writing (writeDelta (b.start.delta piece) x).1 id model (d.write piece)
      (out ++ (ShapeXlat.writeDelta (b.start.delta piece) x).2) := by
  refine ⟨h.started, h.unfinished, h.index, ?_, ?_, ?_⟩
  · have hopen := h.opened
    rw [hc] at hopen
    simpa [Draft.write, hc, ShapeXlat.writeDelta] using hopen
  · intro tag' b' hb'
    rw [Draft.write, hc] at hb'
    obtain ⟨rfl, rfl⟩ := Prod.mk.inj (Option.some.inj hb')
    exact h.typed tag b hc
  · rw [h.written, Draft.events_write hc, ← h.index]
    rfl

theorem processText (h : Writing x id model d out) (piece : String) :
    Writing (processText piece x).1 id model (d.text piece)
      (out ++ (ShapeXlat.processText piece x).2) := by
  by_cases hopen : x.openBlock = some .text
  · obtain ⟨⟨tag, b⟩, hc, rfl⟩ := Option.map_eq_some_iff.mp (h.opened.symm.trans hopen)
    have hkind : b.start = .text := (h.typed _ _ hc).mp rfl
    have hdelta := h.writeDelta hc piece
    rw [hkind] at hdelta
    have hsame : ShapeXlat.processText piece x = ShapeXlat.writeDelta (.text piece) x := by
      rw [ShapeXlat.processText, if_pos hopen, idle_andThen]
    rw [hsame, Draft.text, if_pos (h.opened.symm.trans hopen)]
    exact hdelta
  · have hstart := @h.startBlock _ _ _ _ _ .text .text (by simp)
    have hdelta := hstart.writeDelta rfl piece
    rw [ShapeXlat.processText, if_neg hopen, Draft.text, if_neg (h.opened ▸ hopen)]
    rwa [andThen_state, andThen_output, ← List.append_assoc]

theorem writeArguments (h : Writing x id model d out) {t : ToolDelta} {b : Block}
    (hc : d.current = some (.tool t.index, b)) :
    Writing (writeArguments t x).1 id model (d.arguments t)
      (out ++ (ShapeXlat.writeArguments t x).2) := by
  rw [ShapeXlat.writeArguments, Draft.arguments]
  split_ifs with hempty
  · simpa using h
  · have hkind : b.start.delta (t.arguments.getD "") = .inputJson (t.arguments.getD "") := by
      cases hb : b.start with
      | text => exact absurd ((h.typed _ _ hc).mpr hb) (by simp)
      | toolUse id name => rfl
    rw [← hkind]
    exact h.writeDelta hc (t.arguments.getD "")

theorem processToolDelta (h : Writing x id model d out) (t : ToolDelta) :
    Writing (processToolDelta t x).1 id model (d.tool t)
      (out ++ (ShapeXlat.processToolDelta t x).2) := by
  by_cases hcont : x.openBlock = some (.tool t.index) ∧ t.name = none
  · obtain ⟨⟨tag, b⟩, hc, htag⟩ := Option.map_eq_some_iff.mp (h.opened.symm.trans hcont.1)
    obtain rfl : tag = .tool t.index := htag
    rw [ShapeXlat.processToolDelta, if_pos hcont, idle_andThen, Draft.tool,
      if_pos ⟨h.opened.symm.trans hcont.1, hcont.2⟩]
    exact h.writeArguments hc
  · have hstart := @h.startBlock _ _ _ _ _ (.tool t.index)
      (.toolUse (t.id.getD "") (t.name.getD "")) (by simp)
    rw [ShapeXlat.processToolDelta, if_neg hcont, Draft.tool, if_neg (h.opened ▸ hcont),
      andThen_state, andThen_output, ← List.append_assoc]
    exact hstart.writeArguments rfl

end Writing

/-! ## Chunks -/

/-- What a chunk adds to the message: some text or an entry of `tool_calls`. -/
inductive Piece
  | text (text : String)
  | tool (delta : ToolDelta)
  deriving DecidableEq, Repr

def deltaPieces (delta : Json) : List Piece :=
  (if delta.strField "content" = "" then [] else [.text (delta.strField "content")]) ++
    (((delta.get "tool_calls").bind Json.asArray).getD []).map fun call => .tool (.ofJson call)

/-- The pieces of the first choice of a chunk, in the order in which they are written. -/
def chunkPieces (chunk : Json) : List Piece :=
  (((firstChoice chunk).bind (Json.get "delta")).map deltaPieces).getD []

def chunkFinish (chunk : Json) : Option String :=
  (firstChoice chunk).bind fun choice => (choice.get "finish_reason").bind Json.asStr

def Piece.process : Piece → Writes
  | .text piece => processText piece
  | .tool delta => processToolDelta delta

def Draft.add (d : Draft) : Piece → Draft
  | .text piece => d.text piece
  | .tool delta => d.tool delta

theorem processDelta_eq (delta : Json) :
    processDelta delta = run Piece.process (deltaPieces delta) := by
  rw [processDelta, deltaPieces, run_append, run_map]
  by_cases h : delta.strField "content" = ""
  · rw [if_pos h, if_pos h]
    rfl
  · rw [if_neg h, if_neg h, run_cons, run_nil, andThen_idle]
    rfl

/-- The state before the pieces of a chunk are written. -/
def noted (chunk : Json) (x : StreamXlat) : StreamXlat :=
  { x with
    started := true
    finishReason := (chunkFinish chunk).or x.finishReason
    usage := ((chunkUsage chunk).map fun usage => usageToAnthropic (some usage)).or x.usage }

def chunkStart (chunk : Json) (x : StreamXlat) : List Event :=
  if x.started then [] else (emitMessageStart chunk x).2

theorem processChunk_eq (chunk : Json) (x : StreamXlat) :
    processChunk chunk x = ((run Piece.process (chunkPieces chunk) (noted chunk x)).1,
      chunkStart chunk x ++ (run Piece.process (chunkPieces chunk) (noted chunk x)).2) := by
  have husage : noteUsage chunk x = ({ x with usage :=
      ((chunkUsage chunk).map fun usage => usageToAnthropic (some usage)).or x.usage }, []) := by
    rw [noteUsage]
    cases chunkUsage chunk <;> rfl
  obtain ⟨lineBuf, started, finished, blockIndex, openBlock, finishReason, usage⟩ := x
  rw [processChunk, chunkPieces]
  cases hchoice : firstChoice chunk with
  | none =>
    cases started <;> simp [andThen, husage, noted, chunkStart, chunkFinish, hchoice,
      emitMessageStart]
  | some choice =>
    have hfinish : ∀ y : StreamXlat, noteFinish choice y =
        ({ y with finishReason := (chunkFinish chunk).or y.finishReason }, []) := by
      intro y
      rw [noteFinish, chunkFinish, hchoice, Option.bind_some]
      cases (choice.get "finish_reason").bind Json.asStr <;> rfl
    cases hdelta : choice.get "delta" with
    | none => cases started <;> simp [andThen, husage, hfinish, noted, chunkStart, hdelta,
        emitMessageStart]
    | some delta => cases started <;> simp [andThen, husage, hfinish, noted, chunkStart, hdelta,
        emitMessageStart, processDelta_eq]

theorem Writing.pieces {x : StreamXlat} {id model : String} {d : Draft} {out : List Event}
    (h : Writing x id model d out) (pieces : List Piece) :
    Writing (run Piece.process pieces x).1 id model (pieces.foldl Draft.add d)
      (out ++ (run Piece.process pieces x).2) := by
  induction pieces generalizing x d out with
  | nil => simpa using h
  | cons p pieces ih =>
    have hfirst : Writing (p.process x).1 id model (d.add p) (out ++ (p.process x).2) := by
      cases p with
      | text text => exact h.processText text
      | tool delta => exact h.processToolDelta delta
    have hrest := ih hfirst
    rwa [List.append_assoc] at hrest

/-- Nothing was written yet. -/
structure Fresh (x : StreamXlat) : Prop where
  started : x.started = false
  unfinished : x.finished = false
  index : x.blockIndex = 0
  opened : x.openBlock = none

def chunkId (chunk : Json) : String := ((chunk.get "id").bind Json.asStr).getD "xlat"

def chunkModel (chunk : Json) : String := ((chunk.get "model").bind Json.asStr).getD ""

theorem Fresh.processChunk {x : StreamXlat} (h : Fresh x) (chunk : Json) :
    Writing (processChunk chunk x).1 (chunkId chunk) (chunkModel chunk)
      ((chunkPieces chunk).foldl Draft.add {}) (ShapeXlat.processChunk chunk x).2 := by
  have hnoted : Writing (noted chunk x) (chunkId chunk) (chunkModel chunk) {}
      (chunkStart chunk x) := by
    refine ⟨rfl, h.unfinished, h.index, h.opened, nofun, ?_⟩
    rw [chunkStart, h.started]
    rfl
  rw [processChunk_eq]
  exact hnoted.pieces _

theorem Writing.processChunk {x : StreamXlat} {id model : String} {d : Draft} {out : List Event}
    (h : Writing x id model d out) (chunk : Json) :
    Writing (processChunk chunk x).1 id model ((chunkPieces chunk).foldl Draft.add d)
      (out ++ (ShapeXlat.processChunk chunk x).2) := by
  have hnoted : Writing (noted chunk x) id model d out :=
    ⟨rfl, h.unfinished, h.index, h.opened, h.typed, h.written⟩
  have hstart : chunkStart chunk x = [] := by rw [chunkStart, h.started]; rfl
  rw [processChunk_eq, hstart]
  exact hnoted.pieces _

end LeanCtx.ShapeXlat
