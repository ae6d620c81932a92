import LeanCtx.ShapeXlatWellFormed

/-!
# Messages put together from pieces

A reader of the translated stream puts the message together block by block. Its
text is the text of all pieces, whatever their order. Its tool calls are those
of the stream exactly when every entry that goes on with a call directly
follows another entry of the same call.
-/

namespace LeanCtx.ShapeXlat

/-! ## Reading the events -/

/-- What one event adds for a reader of the stream. -/
def Message.read (m : Message) : Event → Message
  | .messageStart id model => { m with id, model }
  | .contentBlockStart _ block => { m with blocks := m.blocks ++ [⟨block, []⟩] }
  | .contentBlockDelta index (.text piece) | .contentBlockDelta index (.inputJson piece) =>
    { m with blocks := m.blocks.modify index fun b => { b with deltas := b.deltas ++ [piece] } }
  | .contentBlockStop _ => m
  | .messageDelta stopReason usage => { m with stopReason, usage }
  | .messageStop => m

def assemble (events : List Event) : Message :=
  events.foldl Message.read ⟨"", "", [], "", .null⟩

theorem read_delta (m : Message) (index : ℕ) (block : ContentBlock) (piece : String) :
    m.read (.contentBlockDelta index (block.delta piece)) =
      { m with blocks :=
        m.blocks.modify index fun b => { b with deltas := b.deltas ++ [piece] } } := by
  cases block <;> rfl

theorem read_deltas (m : Message) (front : List Block) (b : Block) (deltas : List String)
    (block : ContentBlock) (hm : m.blocks = front ++ [b]) :
    (deltas.map fun piece => Event.contentBlockDelta front.length (block.delta piece)).foldl
        Message.read m =
      { m with blocks := front ++ [{ b with deltas := b.deltas ++ deltas }] } := by
  induction deltas generalizing m b with
  | nil => cases m; simp_all
  | cons piece deltas ih =>
    rw [List.map_cons, List.foldl_cons, read_delta]
    have hnext : m.blocks.modify front.length (fun b => { b with deltas := b.deltas ++ [piece] }) =
        front ++ [{ b with deltas := b.deltas ++ [piece] }] := by
      rw [hm]
      exact List.modifyTailIdx_add (List.modifyHead _) 0 front [b]
    rw [hnext, ih _ _ rfl]
    simp

theorem read_blockEvents (m : Message) (blocks : List Block) :
    (blockEvents m.blocks.length blocks).foldl Message.read m =
      { m with blocks := m.blocks ++ blocks } := by
  induction blocks generalizing m with
  | nil => simp [blockEvents]
  | cons b blocks ih =>
    have hblock : (b.events m.blocks.length).foldl Message.read m =
        { m with blocks := m.blocks ++ [b] } := by
      rw [Block.events, Block.opened, List.cons_append, List.foldl_cons, List.foldl_append,
        Message.read, read_deltas _ m.blocks ⟨b.start, []⟩ b.deltas b.start rfl]
      rfl
    rw [blockEvents, List.foldl_append, hblock]
    have hrest := ih { m with blocks := m.blocks ++ [b] }
    rw [List.length_append, List.length_singleton] at hrest
    rw [hrest, List.append_assoc, List.singleton_append]

/-- A reader of the events of a message gets the message. -/
theorem assemble_events (m : Message) : assemble m.events = m := by
  have hblocks := read_blockEvents ⟨m.id, m.model, [], "", .null⟩ m.blocks
  rw [assemble, Message.events, List.foldl_cons, List.foldl_append]
  change [Event.messageDelta m.stopReason m.usage, .messageStop].foldl Message.read
    ((blockEvents 0 m.blocks).foldl Message.read ⟨m.id, m.model, [], "", .null⟩) = m
  rw [show 0 = ([] : List Block).length from rfl, hblocks]
  rfl

/-! ## Texts and calls -/

/-- A tool call of a stream, its arguments as text. -/
structure Call where
  id : String
  name : String
  arguments : String
  deriving DecidableEq, Repr

def Block.text? (b : Block) : Option String := match b.start with
  | .text => some (String.join b.deltas)
  | .toolUse _ _ => none

def Block.call? (b : Block) : Option Call := match b.start with
  | .text => none
  | .toolUse id name => some ⟨id, name, String.join b.deltas⟩

def blocksText (blocks : List Block) : String := String.join (blocks.filterMap Block.text?)

def blocksCalls (blocks : List Block) : List Call := blocks.filterMap Block.call?

section Concat

variable (front : List Block) (deltas : List String) (id name : String)

@[simp] theorem blocksText_concat_text :
    blocksText (front ++ [⟨.text, deltas⟩]) = blocksText front ++ String.join deltas := by
  simp [blocksText, Block.text?, String.join_append]

@[simp] theorem blocksText_concat_tool :
    blocksText (front ++ [⟨.toolUse id name, deltas⟩]) = blocksText front := by
  rw [blocksText, List.filterMap_append, String.join_append]
  exact String.append_empty

@[simp] theorem blocksCalls_concat_text :
    blocksCalls (front ++ [⟨.text, deltas⟩]) = blocksCalls front := by
  simp [blocksCalls, Block.call?]

@[simp] theorem blocksCalls_concat_tool : blocksCalls (front ++ [⟨.toolUse id name, deltas⟩]) =
    blocksCalls front ++ [⟨id, name, String.join deltas⟩] := by
  simp [blocksCalls, Block.call?]

end Concat

def Piece.content : Piece → String
  | .text piece => piece
  | .tool _ => ""

def Piece.tool? : Piece → Option ToolDelta
  | .text _ => none
  | .tool delta => some delta

def Piece.tag : Piece → OpenBlock
  | .text _ => .text
  | .tool delta => .tool delta.index

/-- The piece names no call of its own. -/
def Piece.continues : Piece → Bool
  | .text _ => false
  | .tool delta => delta.name.isNone

/-- Every entry without a name directly follows an entry of the same index. -/
def contiguous : Option OpenBlock → List Piece → Bool
  | _, [] => true
  | last, p :: rest => (!p.continues || last == some p.tag) && contiguous (some p.tag) rest

theorem contiguous_append (last : Option OpenBlock) (front rest : List Piece) :
    contiguous last (front ++ rest) =
      (contiguous last front && contiguous ((front.getLast?.map Piece.tag).or last) rest) := by
  induction front generalizing last with
  | nil => simp [contiguous]
  | cons p front ih =>
    have hlast : (((p :: front).getLast?.map Piece.tag).or last) =
        ((front.getLast?.map Piece.tag).or (some p.tag)) := by
      rw [List.getLast?_cons]
      cases front.getLast? <;> rfl
    rw [List.cons_append, contiguous, ih, contiguous, hlast, Bool.and_assoc]

namespace Draft

theorem blocks_start (d : Draft) (tag : OpenBlock) (block : ContentBlock) :
    (d.start tag block).blocks = d.blocks ++ [⟨block, []⟩] := rfl

variable {d : Draft} {tag : OpenBlock} {b : Block}

theorem blocks_of_current (hc : d.current = some (tag, b)) : d.blocks = d.closed ++ [b] := by
  simp [blocks, hc]

theorem blocks_write (hc : d.current = some (tag, b)) (piece : String) :
    (d.write piece).blocks = d.closed ++ [⟨b.start, b.deltas ++ [piece]⟩] := by
  simp [blocks, write, hc]

theorem blocks_arguments (hc : d.current = some (tag, b)) (t : ToolDelta) :
    ∃ deltas, (d.arguments t).blocks = d.closed ++ [⟨b.start, deltas⟩] ∧
      String.join deltas = String.join b.deltas ++ t.arguments.getD "" := by
  rw [arguments]
  split_ifs with hempty
  · exact ⟨b.deltas, blocks_of_current hc, by simp [hempty]⟩
  · exact ⟨b.deltas ++ [t.arguments.getD ""], blocks_write hc _, by simp [String.join_append]⟩

theorem tag_write (d : Draft) (piece : String) :
    (d.write piece).current.map Prod.fst = d.current.map Prod.fst := by
  cases hc : d.current <;> simp [write, hc]

/-- The open block is that of the last piece. -/
theorem tag_add (d : Draft) (p : Piece) : (d.add p).current.map Prod.fst = some p.tag := by
  cases p with
  | text piece =>
    rw [add, text, tag_write]
    split_ifs with hopen
    · exact hopen
    · rfl
  | tool t =>
    have hargs : ∀ d : Draft, (d.arguments t).current.map Prod.fst = d.current.map Prod.fst := by
      intro d
      rw [arguments]
      split_ifs
      · rfl
      · exact tag_write d _
    rw [add, tool, hargs]
    split_ifs with hopen
    · exact hopen.1
    · rfl

theorem tag_pieces (d : Draft) (pieces : List Piece) :
    (pieces.foldl add d).current.map Prod.fst =
      (pieces.getLast?.map Piece.tag).or (d.current.map Prod.fst) := by
  induction pieces using List.reverseRecOn with
  | nil => rfl
  | append_singleton pieces p => simp [tag_add]

theorem typed_pieces (pieces : List Piece) : (pieces.foldl add {}).Typed := by
  have hstart : Writing { started := true } "" "" {} [.messageStart "" ""] :=
    ⟨rfl, rfl, rfl, rfl, nofun, rfl⟩
  exact (hstart.pieces pieces).typed

/-- The open block is of the kind of the piece that goes on with it. -/
theorem Typed.text_block (h : d.Typed) (hopen : d.current.map Prod.fst = some .text) :
    ∃ deltas, d.current = some (.text, ⟨.text, deltas⟩) := by
  obtain ⟨⟨tag, b⟩, hc, rfl⟩ := Option.map_eq_some_iff.mp hopen
  obtain ⟨start, deltas⟩ := b
  obtain rfl : start = .text := (h _ _ hc).mp rfl
  exact ⟨deltas, hc⟩

theorem Typed.tool_block (h : d.Typed) {index : UInt64}
    (hopen : d.current.map Prod.fst = some (.tool index)) :
    ∃ id name deltas, d.current = some (.tool index, ⟨.toolUse id name, deltas⟩) := by
  obtain ⟨⟨tag, b⟩, hc, rfl⟩ := Option.map_eq_some_iff.mp hopen
  obtain ⟨start, deltas⟩ := b
  cases start with
  | text => exact absurd ((h _ _ hc).mpr rfl) (by simp)
  | toolUse id name => exact ⟨id, name, deltas, hc⟩

/-- The blocks after an entry that starts a call. -/
theorem blocks_tool_start {t : ToolDelta}
    (hopen : ¬ (d.current.map Prod.fst = some (.tool t.index) ∧ t.name = none)) :
    ∃ deltas, (d.tool t).blocks =
        d.blocks ++ [⟨.toolUse (t.id.getD "") (t.name.getD ""), deltas⟩] ∧
      String.join deltas = t.arguments.getD "" := by
  rw [tool, if_neg hopen]
  obtain ⟨deltas, hblocks, hjoin⟩ := @blocks_arguments (d.start (.tool t.index)
    (.toolUse (t.id.getD "") (t.name.getD ""))) _ _ rfl t
  exact ⟨deltas, hblocks, by simpa using hjoin⟩

/-- Text goes to the end of the text. -/
theorem text_add (h : d.Typed) (p : Piece) :
    blocksText (d.add p).blocks = blocksText d.blocks ++ p.content := by
  cases p with
  | text piece =>
    rw [add, text]
    split_ifs with hopen
    · obtain ⟨deltas, hc⟩ := h.text_block hopen
      simp [blocks_write hc, blocks_of_current hc, String.join_append, Piece.content,
        String.append_assoc]
    · rw [blocks_write rfl]
      simp [start, Piece.content]
  | tool t =>
    rw [add, Piece.content, String.append_empty]
    by_cases hopen : d.current.map Prod.fst = some (.tool t.index) ∧ t.name = none
    · obtain ⟨id, name, deltas, hc⟩ := h.tool_block hopen.1
      obtain ⟨deltas', hblocks, -⟩ := blocks_arguments hc t
      rw [tool, if_pos hopen, hblocks, blocks_of_current hc, blocksText_concat_tool,
        blocksText_concat_tool]
    · obtain ⟨deltas, hblocks, -⟩ := blocks_tool_start hopen
      rw [hblocks, blocksText_concat_tool]

/-- The text of the pieces, in their order. -/
theorem text_pieces (pieces : List Piece) :
    blocksText (pieces.foldl add {}).blocks = String.join (pieces.map Piece.content) := by
  induction pieces using List.reverseRecOn with
  | nil => rfl
  | append_singleton pieces p ih =>
    rw [List.foldl_append, List.foldl_cons, List.foldl_nil, text_add (typed_pieces pieces), ih,
      List.map_append, String.join_append]
    simp

theorem calls_text (h : d.Typed) (piece : String) :
    blocksCalls (d.text piece).blocks = blocksCalls d.blocks := by
  rw [text]
  split_ifs with hopen
  · obtain ⟨deltas, hc⟩ := h.text_block hopen
    rw [blocks_write hc, blocks_of_current hc, blocksCalls_concat_text, blocksCalls_concat_text]
  · rw [blocks_write rfl]
    exact blocksCalls_concat_text _ _

/-- An entry that goes on with the open call extends the last call. -/
theorem calls_tool_continue (h : d.Typed) {t : ToolDelta}
    (hopen : d.current.map Prod.fst = some (.tool t.index) ∧ t.name = none) :
    ∃ front c, blocksCalls d.blocks = front ++ [c] ∧ blocksCalls (d.tool t).blocks =
      front ++ [{ c with arguments := c.arguments ++ t.arguments.getD "" }] := by
  obtain ⟨id, name, deltas, hc⟩ := h.tool_block hopen.1
  obtain ⟨deltas', hblocks, hjoin⟩ := blocks_arguments hc t
  refine ⟨blocksCalls d.closed, ⟨id, name, String.join deltas⟩, ?_, ?_⟩
  · rw [blocks_of_current hc, blocksCalls_concat_tool]
  · rw [tool, if_pos hopen, hblocks, blocksCalls_concat_tool, hjoin]

/-- Any other entry starts a call. -/
theorem calls_tool_start {t : ToolDelta}
    (hopen : ¬ (d.current.map Prod.fst = some (.tool t.index) ∧ t.name = none)) :
    blocksCalls (d.tool t).blocks = blocksCalls d.blocks ++
      [⟨t.id.getD "", t.name.getD "", t.arguments.getD ""⟩] := by
  obtain ⟨deltas, hblocks, hjoin⟩ := blocks_tool_start hopen
  rw [hblocks, blocksCalls_concat_tool, hjoin]

end Draft

/-! ## The calls of a stream -/

def tools (pieces : List Piece) : List ToolDelta := pieces.filterMap Piece.tool?

def ToolDelta.starts (t : ToolDelta) : Bool := t.name.isSome

/-- Each call is started by an entry with its id and name, and goes on in entries without a name
that carry its index. -/
def inOrder : List UInt64 → List ToolDelta → Bool
  | _, [] => true
  | seen, t :: rest =>
    (if t.starts then t.id.isSome && !seen.contains t.index else seen.contains t.index) &&
      inOrder (seen ++ [t.index]) rest

/-- The arguments of a call, from all entries with its index. -/
def argumentsOf (entries : List ToolDelta) (index : UInt64) : String :=
  String.join ((entries.filter fun t => t.index = index).map fun t => t.arguments.getD "")

def callOf (entries : List ToolDelta) (t : ToolDelta) : Call :=
  ⟨t.id.getD "", t.name.getD "", argumentsOf entries t.index⟩

/-- The calls of a stream by tool index, in the order in which they are started. -/
def streamCalls (entries : List ToolDelta) : List Call :=
  (entries.filter ToolDelta.starts).map (callOf entries)

theorem inOrder_append (seen : List UInt64) (front rest : List ToolDelta) :
    inOrder seen (front ++ rest) =
      (inOrder seen front && inOrder (seen ++ front.map ToolDelta.index) rest) := by
  induction front generalizing seen with
  | nil => simp [inOrder]
  | cons t front ih => simp [inOrder, ih, Bool.and_assoc]

@[simp] theorem tools_concat_text (pieces : List Piece) (piece : String) :
    tools (pieces ++ [.text piece]) = tools pieces := by
  simp [tools, Piece.tool?]

@[simp] theorem tools_concat_tool (pieces : List Piece) (t : ToolDelta) :
    tools (pieces ++ [.tool t]) = tools pieces ++ [t] := by
  simp [tools, Piece.tool?]

theorem argumentsOf_concat (entries : List ToolDelta) (t : ToolDelta) (index : UInt64) :
    argumentsOf (entries ++ [t]) index = argumentsOf entries index ++
      if t.index = index then t.arguments.getD "" else "" := by
  rw [argumentsOf, List.filter_append, List.map_append, String.join_append, ← argumentsOf]
  split_ifs with h <;> simp [h]

theorem argumentsOf_eq_empty {entries : List ToolDelta} {index : UInt64}
    (h : index ∉ entries.map ToolDelta.index) : argumentsOf entries index = "" := by
  have hnone : entries.filter (fun t => t.index = index) = [] := by
    apply List.filter_eq_nil_iff.mpr
    intro t ht hindex
    exact h (List.mem_map.mpr ⟨t, ht, by simpa using hindex⟩)
  rw [argumentsOf, hnone]
  rfl

/-- Whether the block that is open is that of the entry. -/
theorem open_iff (pieces : List Piece) (t : ToolDelta) :
    ((pieces.foldl Draft.add {}).current.map Prod.fst = some (.tool t.index) ∧ t.name = none) ↔
      pieces.getLast?.map Piece.tag = some (.tool t.index) ∧ t.starts = false := by
  rw [Draft.tag_pieces, Option.map_none, Option.or_none, ToolDelta.starts]
  simp

/-- There is a block for every call that is started, and one more for every entry that goes on
with a call whose block is not open. -/
theorem length_calls (pieces : List Piece) :
    ((tools pieces).filter ToolDelta.starts).length ≤
        (blocksCalls (pieces.foldl Draft.add {}).blocks).length ∧
      (contiguous none pieces = true ↔
        (blocksCalls (pieces.foldl Draft.add {}).blocks).length =
          ((tools pieces).filter ToolDelta.starts).length) := by
  induction pieces using List.reverseRecOn with
  | nil => simp [contiguous, tools, blocksCalls, Draft.blocks]
  | append_singleton pieces p ih =>
    rw [List.foldl_append, List.foldl_cons, List.foldl_nil, contiguous_append]
    have htyped := Draft.typed_pieces pieces
    cases p with
    | text piece =>
      rw [Draft.add, Draft.calls_text htyped, tools_concat_text]
      simpa [contiguous, Piece.continues] using ih
    | tool t =>
      rw [Draft.add, tools_concat_tool, List.filter_append, List.length_append]
      by_cases hopen : (pieces.foldl Draft.add {}).current.map Prod.fst = some (.tool t.index) ∧
          t.name = none
      · obtain ⟨front, c, hbefore, hafter⟩ := Draft.calls_tool_continue htyped hopen
        obtain ⟨hlast, hstarts⟩ := (open_iff pieces t).mp hopen
        rw [hbefore] at ih
        rw [hafter]
        simpa [contiguous, Piece.tag, hlast, hstarts] using ih
      · have hlast := mt (open_iff pieces t).mpr hopen
        rw [Draft.calls_tool_start hopen, List.length_append, List.length_singleton]
        cases hstarts : t.starts with
        | true =>
          have hname : t.name.isNone = false := by
            rw [ToolDelta.starts] at hstarts
            rw [Option.isNone_eq_false_iff, hstarts]
          simpa [contiguous, Piece.continues, hname, hstarts] using ih
        | false =>
          have hname : t.name.isNone = true := by
            rw [ToolDelta.starts] at hstarts
            simpa using hstarts
          have hbroken : ¬ pieces.getLast?.map Piece.tag = some (.tool t.index) :=
            fun h => hlast ⟨h, hstarts⟩
          have hcontiguous : (contiguous none pieces &&
              contiguous ((pieces.getLast?.map Piece.tag).or none) [.tool t]) = false := by
            simp [contiguous, Piece.continues, Piece.tag, hname, hbroken]
          have hnone : [t].filter ToolDelta.starts = [] := by simp [hstarts]
          have hle := ih.1
          rw [hcontiguous, hnone, List.length_nil, Nat.add_zero]
          refine ⟨by omega, iff_of_false (by simp) (by omega)⟩

theorem callOf_concat_of_ne {entries : List ToolDelta} {s t : ToolDelta} (h : t.index ≠ s.index) :
    callOf (entries ++ [t]) s = callOf entries s := by
  rw [callOf, argumentsOf_concat, if_neg h, String.append_empty, callOf]

theorem inOrder_concat {entries : List ToolDelta} {t : ToolDelta}
    (h : inOrder [] (entries ++ [t]) = true) : inOrder [] entries = true ∧
      (t.starts = true → t.index ∉ entries.map ToolDelta.index) := by
  rw [inOrder_append, Bool.and_eq_true] at h
  refine ⟨h.1, fun hstarts => ?_⟩
  have hseen := h.2
  rw [inOrder, if_pos hstarts, List.nil_append, Bool.and_eq_true, Bool.and_eq_true] at hseen
  simpa using hseen.1.2

theorem starts_nodup {entries : List ToolDelta} (h : inOrder [] entries = true) :
    ((entries.filter ToolDelta.starts).map ToolDelta.index).Nodup := by
  induction entries using List.reverseRecOn with
  | nil => simp
  | append_singleton entries t ih =>
    obtain ⟨hentries, hfresh⟩ := inOrder_concat h
    rw [List.filter_append, List.map_append]
    cases hstarts : t.starts with
    | false => simpa [hstarts] using ih hentries
    | true =>
      have hnot : t.index ∉ (entries.filter ToolDelta.starts).map ToolDelta.index := by
        intro hmem
        obtain ⟨s, hs, hindex⟩ := List.mem_map.mp hmem
        exact hfresh hstarts (List.mem_map.mpr ⟨s, List.mem_of_mem_filter hs, hindex⟩)
      have hsingle : [t].filter ToolDelta.starts = [t] := by simp [hstarts]
      rw [hsingle, List.map_singleton, ← List.concat_eq_append]
      exact (List.nodup_concat _ _).mpr ⟨hnot, ih hentries⟩

/-- When every entry comes while its call is open, the blocks are the calls of the stream. The
block that is open is that of the call started last. -/
theorem calls_eq {pieces : List Piece} (horder : inOrder [] (tools pieces) = true)
    (hcontiguous : contiguous none pieces = true) :
    blocksCalls (pieces.foldl Draft.add {}).blocks = streamCalls (tools pieces) ∧
      ∀ index, pieces.getLast?.map Piece.tag = some (.tool index) →
        ∃ front s, (tools pieces).filter ToolDelta.starts = front ++ [s] ∧ s.index = index := by
  induction pieces using List.reverseRecOn with
  | nil => exact ⟨rfl, by simp⟩
  | append_singleton pieces p ih =>
    have htyped := Draft.typed_pieces pieces
    rw [contiguous_append, Bool.and_eq_true, Option.or_none] at hcontiguous
    rw [List.foldl_append, List.foldl_cons, List.foldl_nil]
    cases p with
    | text piece =>
      rw [tools_concat_text] at horder ⊢
      rw [Draft.add, Draft.calls_text htyped]
      refine ⟨(ih horder hcontiguous.1).1, ?_⟩
      simp [Piece.tag]
    | tool t =>
      rw [tools_concat_tool] at horder ⊢
      obtain ⟨hentries, hfresh⟩ := inOrder_concat horder
      obtain ⟨hcalls, hopened⟩ := ih hentries hcontiguous.1
      rw [Draft.add, streamCalls, List.filter_append]
      cases hstarts : t.starts with
      | true =>
        have hclosed : ¬ ((pieces.foldl Draft.add {}).current.map Prod.fst =
            some (.tool t.index) ∧ t.name = none) := by
          rw [open_iff, hstarts]
          simp
        have hsingle : [t].filter ToolDelta.starts = [t] := by simp [hstarts]
        have hothers : ((tools pieces).filter ToolDelta.starts).map
            (callOf (tools pieces ++ [t])) = streamCalls (tools pieces) := by
          apply List.map_congr_left
          intro s hs
          apply callOf_concat_of_ne
          intro hindex
          exact hfresh hstarts (List.mem_map.mpr ⟨s, List.mem_of_mem_filter hs, hindex.symm⟩)
        have hself : callOf (tools pieces ++ [t]) t =
            ⟨t.id.getD "", t.name.getD "", t.arguments.getD ""⟩ := by
          rw [callOf, argumentsOf_concat, if_pos rfl, argumentsOf_eq_empty (hfresh hstarts),
            String.empty_append]
        rw [hsingle, List.map_append, hothers, List.map_singleton, hself,
          Draft.calls_tool_start hclosed, hcalls]
        refine ⟨rfl, ?_⟩
        intro index hindex
        exact ⟨_, t, rfl, by simpa [Piece.tag] using hindex⟩
      | false =>
        have hname : t.name.isNone = true := by
          rw [ToolDelta.starts] at hstarts
          simpa using hstarts
        have hlast : pieces.getLast?.map Piece.tag = some (.tool t.index) := by
          simpa [contiguous, Piece.continues, Piece.tag, hname] using hcontiguous.2
        obtain ⟨front, s, hfront, hindex⟩ := hopened _ hlast
        obtain ⟨before, c, hbefore, hafter⟩ :=
          Draft.calls_tool_continue htyped ((open_iff pieces t).mpr ⟨hlast, hstarts⟩)
        have hnone : [t].filter ToolDelta.starts = [] := by simp [hstarts]
        have hnodup := starts_nodup hentries
        rw [hfront, List.map_append, List.nodup_append] at hnodup
        have hothers : front.map (callOf (tools pieces ++ [t])) =
            front.map (callOf (tools pieces)) := by
          apply List.map_congr_left
          intro u hu
          apply callOf_concat_of_ne
          rw [← hindex]
          exact (hnodup.2.2 _ (List.mem_map_of_mem hu) _ (by simp)).symm
        rw [hnone, List.append_nil, hfront, List.map_append, hothers, List.map_singleton, hafter]
        rw [hbefore, streamCalls, hfront, List.map_append, List.map_singleton] at hcalls
        obtain ⟨rfl, hc⟩ := List.append_inj' hcalls rfl
        obtain rfl : c = callOf (tools pieces) s := by simpa using hc
        refine ⟨?_, ?_⟩
        · rw [callOf, callOf, argumentsOf_concat, if_pos hindex.symm]
        · intro index hlast'
          exact ⟨front, s, rfl, by rw [hindex]; simpa [Piece.tag] using hlast'⟩

end LeanCtx.ShapeXlat
