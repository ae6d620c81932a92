import LeanCtx.ShapeXlatStream

/-!
# When the translated stream is well formed

The translator reads its upstream line by line, however the bytes are cut. It
closes the message at the first `[DONE]` or at the first call of `finish`, and
what is written up to there is one whole message. Lines after `[DONE]` are
still processed, so the stream is well formed exactly when none of them adds
anything to the message.
-/

namespace LeanCtx.ShapeXlat

open ByteText Transducer

/-! ## What a piece leaves alone -/

theorem closeBlock_state (x : StreamXlat) : ∃ blockIndex openBlock,
    (closeBlock x).1 = { x with blockIndex, openBlock } := by
  rw [closeBlock]
  split
  · exact ⟨_, _, rfl⟩
  · exact ⟨_, _, rfl⟩

theorem Piece.process_state (p : Piece) (x : StreamXlat) : ∃ blockIndex openBlock,
    (p.process x).1 = { x with blockIndex, openBlock } := by
  obtain ⟨blockIndex, openBlock, hclose⟩ := closeBlock_state x
  cases p with
  | text piece =>
    rw [Piece.process, processText]
    split_ifs
    · exact ⟨_, _, rfl⟩
    · simp only [andThen_state, writeDelta, startBlock, hclose]
      exact ⟨_, _, rfl⟩
  | tool delta =>
    have hargs : ∀ y, (writeArguments delta y).1 = y := by
      intro y
      rw [writeArguments]
      split_ifs <;> rfl
    rw [Piece.process, processToolDelta]
    simp only [andThen_state, hargs]
    split_ifs
    · exact ⟨_, _, rfl⟩
    · simp only [andThen_state, startBlock, hclose]
      exact ⟨_, _, rfl⟩

theorem pieces_state (pieces : List Piece) (x : StreamXlat) : ∃ blockIndex openBlock,
    (run Piece.process pieces x).1 = { x with blockIndex, openBlock } := by
  induction pieces generalizing x with
  | nil => exact ⟨_, _, rfl⟩
  | cons p pieces ih =>
    obtain ⟨blockIndex, openBlock, hfirst⟩ := p.process_state x
    rw [run_cons, andThen_state, hfirst]
    exact ih _

/-- A chunk changes the block, and what it says about the end. -/
theorem processChunk_state (chunk : Json) (x : StreamXlat) : ∃ blockIndex openBlock,
    (processChunk chunk x).1 = { noted chunk x with blockIndex, openBlock } := by
  rw [processChunk_eq]
  exact pieces_state _ _

theorem messageStop_not_mem_process (p : Piece) (x : StreamXlat) :
    .messageStop ∉ (p.process x).2 := by
  have hclose : .messageStop ∉ (closeBlock x).2 := by
    rw [closeBlock]
    split <;> simp
  cases p with
  | text piece =>
    rw [Piece.process, processText]
    split_ifs <;> simp [writeDelta, startBlock, hclose]
  | tool delta =>
    have hargs : ∀ y, .messageStop ∉ (writeArguments delta y).2 := by
      intro y
      rw [writeArguments]
      split_ifs <;> simp [writeDelta]
    rw [Piece.process, processToolDelta, andThen_output, List.mem_append, not_or]
    refine ⟨?_, hargs _⟩
    split_ifs <;> simp [startBlock, hclose]

theorem messageStop_not_mem_pieces (pieces : List Piece) (x : StreamXlat) :
    .messageStop ∉ (run Piece.process pieces x).2 := by
  induction pieces generalizing x with
  | nil => simp
  | cons p pieces ih => simp [messageStop_not_mem_process, ih]

theorem messageStop_not_mem_processChunk (chunk : Json) (x : StreamXlat) :
    .messageStop ∉ (processChunk chunk x).2 := by
  rw [processChunk_eq, chunkStart]
  split_ifs <;> simp [emitMessageStart, messageStop_not_mem_pieces]

/-! ## The end of the message -/

/-- The message is ended and nothing is open. -/
structure Closed (x : StreamXlat) : Prop where
  started : x.started = true
  finished : x.finished = true
  opened : x.openBlock = none

/-- The message that a draft becomes. -/
def Draft.message (d : Draft) (id model : String) (x : StreamXlat) : Message where
  id := id
  model := model
  blocks := d.blocks
  stopReason := stopReason x.finishReason
  usage := x.usage.getD (.object [("output_tokens", count 0)])

theorem closeBlock_finished (x : StreamXlat) : closeBlock { x with finished := true } =
    ({ (closeBlock x).1 with finished := true }, (closeBlock x).2) := by
  obtain ⟨lineBuf, started, finished, blockIndex, openBlock, finishReason, usage⟩ := x
  cases openBlock <;> rfl

theorem Writing.closing {x : StreamXlat} {id model : String} {d : Draft} {out : List Event}
    (h : Writing x id model d out) :
    out ++ (emitClosing x).2 = (d.message id model x).events ∧ Closed (emitClosing x).1 := by
  obtain ⟨blockIndex, openBlock, hstate⟩ := closeBlock_state x
  have hclosed := h.closeBlock
  have hopen : openBlock = none := by
    have := hclosed.opened
    rwa [hstate] at this
  rw [emitClosing, if_neg (by simp [h.unfinished]), if_pos h.started, idle_andThen]
  constructor
  · rw [andThen_output, ← List.append_assoc, closeBlock_finished, hclosed.written, hstate]
    simp [Draft.message, Message.events, Draft.events, Draft.close, closeMessage]
  · rw [andThen_state, closeBlock_finished, hstate]
    exact ⟨h.started, rfl, hopen⟩

theorem Fresh.closing {x : StreamXlat} (h : Fresh x) :
    (emitClosing x).2 = (Draft.message {} "xlat" "" x).events ∧ Closed (emitClosing x).1 := by
  have hclose : ShapeXlat.closeBlock { x with finished := true, started := true } =
      ({ x with finished := true, started := true }, []) := by
    rw [ShapeXlat.closeBlock, h.opened]
  have hstart : emitMessageStart (.object []) { x with finished := true } =
      ({ x with finished := true, started := true }, [.messageStart "xlat" ""]) := rfl
  rw [emitClosing, if_neg (by simp [h.unfinished]), if_neg (by simp [h.started])]
  simp only [andThen_output, andThen_state, hstart, hclose]
  exact ⟨rfl, rfl, rfl, h.opened⟩

theorem emitClosing_finished {x : StreamXlat} (h : x.finished = true) : emitClosing x = (x, []) := by
  rw [emitClosing, if_pos h]

/-! ## Lines -/

/-- The line adds something to the message. -/
def Line.adds : Line → Bool
  | .chunk value => !(chunkPieces value).isEmpty
  | _ => false

/-- The lines after the first `[DONE]`. -/
def late (lines : List Line) : List Line := (lines.dropWhile (· ≠ .done)).tail

theorem late_of_done {front rest : List Line} (h : .done ∉ front) :
    late (front ++ .done :: rest) = rest := by
  have hfront : ∀ l ∈ front, decide (l ≠ Line.done) = true := by
    intro l hl
    rw [decide_eq_true_iff]
    rintro rfl
    exact h hl
  rw [late, List.dropWhile_append_of_pos hfront]
  simp

theorem late_eq_nil {lines : List Line} (h : .done ∉ lines) : late lines = [] := by
  have hall : ∀ l ∈ lines, decide (l ≠ Line.done) = true := by
    intro l hl
    rw [decide_eq_true_iff]
    rintro rfl
    exact h hl
  rw [late, List.dropWhile_eq_nil_iff.mpr hall]
  rfl

/-- The message is not ended: nothing was written, or a draft of it. -/
def Drafted (x : StreamXlat) (out : List Event) : Prop :=
  (Fresh x ∧ out = []) ∨ ∃ id model d, Writing x id model d out

theorem Drafted.lineBuf {x : StreamXlat} {out : List Event} (h : Drafted x out) (buf : Bytes) :
    Drafted { x with lineBuf := buf } out := by
  rcases h with ⟨h, hempty⟩ | ⟨id, model, d, h⟩
  · exact Or.inl ⟨⟨h.started, h.unfinished, h.index, h.opened⟩, hempty⟩
  · exact Or.inr ⟨id, model, d, h.started, h.unfinished, h.index, h.opened, h.typed, h.written⟩

/-- Before `[DONE]`, the output is a draft. -/
theorem before_done {lines : List Line} (h : .done ∉ lines) :
    Drafted (run process lines {}).1 (run process lines {}).2 := by
  have hstep : ∀ l ∈ lines, ∀ x out, Drafted x out →
      Drafted (process l x).1 (out ++ (process l x).2) := by
    intro l hl x out hx
    cases l with
    | other => simpa [process] using hx
    | done => exact absurd hl h
    | chunk chunk =>
      rcases hx with ⟨hfresh, rfl⟩ | ⟨id, model, d, hwriting⟩
      · exact Or.inr ⟨_, _, _, hfresh.processChunk chunk⟩
      · exact Or.inr ⟨_, _, _, hwriting.processChunk chunk⟩
  have hstart : Drafted {} [] := Or.inl ⟨⟨rfl, rfl, rfl, rfl⟩, rfl⟩
  exact run_keeps hstep hstart

/-- A draft is closed into one message. -/
theorem Drafted.closing {x : StreamXlat} {out : List Event} (h : Drafted x out) :
    WellFormed (out ++ (emitClosing x).2) ∧ Closed (emitClosing x).1 := by
  rcases h with ⟨hfresh, rfl⟩ | ⟨id, model, d, hwriting⟩
  · exact ⟨⟨_, hfresh.closing.1⟩, hfresh.closing.2⟩
  · exact ⟨⟨_, hwriting.closing.1⟩, hwriting.closing.2⟩

theorem Drafted.not_wellFormed {x : StreamXlat} {out : List Event} (h : Drafted x out) :
    ¬ WellFormed out := by
  intro hout
  have hmem := hout.messageStop_mem
  rcases h with ⟨-, rfl⟩ | ⟨id, model, d, hwriting⟩
  · simp at hmem
  · rw [hwriting.written, Draft.events] at hmem
    cases hc : d.current <;>
      simp [hc, messageStop_not_mem_blockEvents, messageStop_not_mem_opened] at hmem

/-- A piece that arrives with no block open starts one. -/
theorem process_ne_nil {x : StreamXlat} (h : x.openBlock = none) (p : Piece) :
    (p.process x).2 ≠ [] := by
  cases p with
  | text piece => simp [Piece.process, processText, writeDelta]
  | tool delta => simp [Piece.process, processToolDelta, startBlock, h]

theorem Closed.processChunk {x : StreamXlat} (h : Closed x) (chunk : Json) :
    (processChunk chunk x).2 = [] ↔ chunkPieces chunk = [] := by
  have hstart : chunkStart chunk x = [] := by rw [chunkStart, h.started]; rfl
  rw [processChunk_eq, hstart, List.nil_append]
  cases hpieces : chunkPieces chunk with
  | nil => simp
  | cons p pieces => simp [process_ne_nil (show (noted chunk x).openBlock = none from h.opened) p]

theorem process_finished {x : StreamXlat} (h : x.finished = true) (l : Line) :
    (process l x).1.finished = true ∧ .messageStop ∉ (process l x).2 := by
  cases l with
  | other => exact ⟨h, by simp [process]⟩
  | done => simp [process, emitClosing_finished h, h]
  | chunk chunk =>
    obtain ⟨blockIndex, openBlock, hstate⟩ := processChunk_state chunk x
    refine ⟨?_, messageStop_not_mem_processChunk chunk x⟩
    rw [process, hstate]
    exact h

theorem run_finished {x : StreamXlat} (h : x.finished = true) (lines : List Line) :
    (run process lines x).1.finished = true ∧ .messageStop ∉ (run process lines x).2 := by
  induction lines generalizing x with
  | nil => exact ⟨h, by simp⟩
  | cons l lines ih =>
    obtain ⟨hfinished, hfirst⟩ := process_finished h l
    obtain ⟨hrest, hlate⟩ := ih hfinished
    exact ⟨hrest, by simp [hfirst, hlate]⟩

/-- After the end, lines write nothing exactly when none of them adds anything. -/
theorem run_closed {x : StreamXlat} (h : Closed x) (lines : List Line) :
    (run process lines x).2 = [] ↔ ∀ l ∈ lines, l.adds = false := by
  induction lines generalizing x with
  | nil => simp
  | cons l lines ih =>
    rw [run_cons, andThen_output, List.append_eq_nil_iff, List.forall_mem_cons]
    cases l with
    | other => simpa [process, Line.adds] using ih h
    | done => simpa [process, Line.adds, emitClosing_finished h.finished] using ih h
    | chunk chunk =>
      have hadds : Line.adds (.chunk chunk) = false ↔ chunkPieces chunk = [] := by
        simp [Line.adds]
      rw [hadds, process, h.processChunk]
      apply and_congr_right
      intro hpieces
      apply ih
      rw [processChunk_eq, hpieces]
      exact ⟨rfl, h.finished, h.opened⟩

/-! ## Bytes -/

section Stream

variable (fromStr : String → Option Json)

/-- The lines of the upstream, as far as the line buffer keeps them. -/
def upstream (bytes : Bytes) : List Line :=
  (splitLines bytes).1.map fun line => readLine fromStr (line.take maxLineBytes)

theorem process_lineBuf (l : Line) (x : StreamXlat) : (process l x).1.lineBuf = x.lineBuf := by
  cases l with
  | other => rfl
  | done =>
    rw [process, emitClosing]
    split_ifs
    · rfl
    · obtain ⟨_, _, hidle⟩ := closeBlock_state { x with finished := true }
      simp [closeMessage, hidle]
    · obtain ⟨_, _, hstart⟩ := closeBlock_state { x with finished := true, started := true }
      simp [closeMessage, emitMessageStart, hstart]
  | chunk value =>
    obtain ⟨_, _, hstate⟩ := processChunk_state value x
    rw [process, hstate]
    rfl

/-- The bytes of a stream are read as its lines. `buf` is all that came since the last newline,
of which the line buffer holds the front. -/
theorem run_feedByte {buf : Bytes} (hbuf : newline ∉ buf) (bytes : Bytes) {x : StreamXlat}
    (hx : x.lineBuf = buf.take maxLineBytes) :
    (run (feedByte fromStr) bytes x).2 =
        (run process (upstream fromStr (buf ++ bytes)) { x with lineBuf := [] }).2 ∧
      ∃ lineBuf, (run (feedByte fromStr) bytes x).1 =
        { (run process (upstream fromStr (buf ++ bytes)) { x with lineBuf := [] }).1 with
          lineBuf } := by
  induction bytes generalizing buf x with
  | nil =>
    rw [List.append_nil, upstream, splitLines_tail hbuf]
    exact ⟨rfl, x.lineBuf, rfl⟩
  | cons b bytes ih =>
    rw [run_cons]
    by_cases hb : b = newline
    · subst hb
      have hfirst : feedByte fromStr newline x =
          process (readLine fromStr (buf.take maxLineBytes)) { x with lineBuf := [] } := by
        rw [feedByte, if_pos rfl, processLine, hx]
      have hkept := process_lineBuf (readLine fromStr (buf.take maxLineBytes))
        { x with lineBuf := [] }
      have hrest := ih (List.not_mem_nil (a := newline)) hkept
      have hsame : ∀ y : StreamXlat, y.lineBuf = [] → { y with lineBuf := [] } = y := by
        rintro ⟨⟩ h
        simp_all
      rw [hsame _ hkept, List.nil_append] at hrest
      have hlines : upstream fromStr (buf ++ newline :: bytes) =
          readLine fromStr (buf.take maxLineBytes) :: upstream fromStr bytes := by
        rw [upstream, splitLines_cons_line hbuf]
        rfl
      rw [andThen_output, andThen_state, hfirst, hlines, run_cons, andThen_output, andThen_state,
        hrest.1]
      exact ⟨rfl, hrest.2⟩
    · have hfirst : feedByte fromStr b x =
          ({ x with lineBuf := (buf ++ [b]).take maxLineBytes }, []) := by
        rw [feedByte, if_neg hb]
        by_cases hlen : buf.length < maxLineBytes
        · have hall : buf.take maxLineBytes = buf := List.take_of_length_le hlen.le
          have hnext : (buf ++ [b]).take maxLineBytes = buf ++ [b] :=
            List.take_of_length_le (by simpa using hlen)
          rw [hx, hall, if_pos hlen, hnext]
        · have hfull : (buf ++ [b]).take maxLineBytes = buf.take maxLineBytes :=
            List.take_append_of_le_length (by omega)
          have hlen' : ¬ (buf.take maxLineBytes).length < maxLineBytes := by
            rw [List.length_take]
            omega
          rw [hx, if_neg hlen', hfull, ← hx]
      have hnot : newline ∉ buf ++ [b] := by
        simp [hbuf, Ne.symm hb]
      have hrest := ih hnot (x := { x with lineBuf := (buf ++ [b]).take maxLineBytes }) rfl
      rw [List.append_assoc, List.singleton_append] at hrest
      rw [andThen_output, andThen_state, hfirst, List.nil_append]
      exact hrest

/-- The output is that of the lines, and what the calls of `finish` add. -/
theorem output_eq (pieces : List Bytes) (finishes : ℕ) : ∃ lineBuf,
    output fromStr pieces finishes = (run process (upstream fromStr pieces.flatten) {}).2 ++
      (run (fun _ => emitClosing) (List.replicate finishes ())
        { (run process (upstream fromStr pieces.flatten) {}).1 with lineBuf }).2 := by
  obtain ⟨hout, lineBuf, hstate⟩ := run_feedByte fromStr (List.not_mem_nil (a := newline))
    pieces.flatten (x := {}) rfl
  have hfeed : run (feed fromStr) pieces = run (feedByte fromStr) pieces.flatten :=
    run_run (feedByte fromStr) pieces
  refine ⟨lineBuf, ?_⟩
  rw [output, andThen_output, hfeed, hstate, hout]
  rfl

theorem run_finish_closed {x : StreamXlat} (h : x.finished = true) (finishes : ℕ) :
    (run (fun _ => emitClosing) (List.replicate finishes ()) x).2 = [] := by
  induction finishes with
  | zero => rfl
  | succ n ih => simp [List.replicate_succ, emitClosing_finished h, ih]

/-- What the translator writes for a stream is one well-formed message, however the stream is cut,
exactly when the message is ended and no line after `[DONE]` adds to it. -/
theorem output_wellFormed_iff (pieces : List Bytes) (finishes : ℕ) :
    ((∀ pieces' : List Bytes, pieces'.flatten = pieces.flatten →
        outputBytes fromStr pieces' finishes = outputBytes fromStr pieces finishes) ∧
      WellFormed (output fromStr pieces finishes)) ↔
    (finishes ≠ 0 ∨ .done ∈ upstream fromStr pieces.flatten) ∧
      ∀ l ∈ late (upstream fromStr pieces.flatten), l.adds = false := by
  have hcuts : ∀ pieces' : List Bytes, pieces'.flatten = pieces.flatten →
      outputBytes fromStr pieces' finishes = outputBytes fromStr pieces finishes := by
    intro pieces' hsame
    have hfeed : run (feed fromStr) pieces' = run (feed fromStr) pieces := by
      have hrun : ∀ ps, run (feed fromStr) ps = run (feedByte fromStr) ps.flatten :=
        fun ps => run_run (feedByte fromStr) ps
      rw [hrun, hrun, hsame]
    rw [outputBytes, outputBytes, output, output, hfeed]
  rw [and_iff_right hcuts]
  obtain ⟨lineBuf, hout⟩ := output_eq fromStr pieces finishes
  rw [hout]
  by_cases hdone : .done ∈ upstream fromStr pieces.flatten
  · obtain ⟨front, rest, hlines, hfront⟩ := List.eq_append_cons_of_mem hdone
    obtain ⟨hwell, hclosed⟩ := (before_done hfront).closing
    obtain ⟨hfinished, hstop⟩ := run_finished hclosed.finished rest
    have hnothing : (run (fun _ => emitClosing) (List.replicate finishes ())
        { (run process (upstream fromStr pieces.flatten) {}).1 with lineBuf }).2 = [] := by
      apply run_finish_closed
      rw [hlines, run_append, run_cons]
      exact hfinished
    have hrun : (run process (upstream fromStr pieces.flatten) {}).2 =
        ((run process front {}).2 ++ (emitClosing (run process front {}).1).2) ++
          (run process rest (emitClosing (run process front {}).1).1).2 := by
      rw [hlines, run_append, run_cons, andThen_output, andThen_output, ← List.append_assoc]
      rfl
    have hlate : late (upstream fromStr pieces.flatten) = rest := by
      rw [hlines, late_of_done hfront]
    rw [and_iff_right (Or.inr hdone), hlate, hnothing, List.append_nil, hrun, ← run_closed hclosed]
    constructor
    · intro h
      by_contra hne
      exact not_wellFormed_append hne hstop h
    · intro hempty
      rwa [hempty, List.append_nil]
  · have hdraft := before_done hdone
    rw [late_eq_nil hdone, and_iff_left (by simp)]
    cases finishes with
    | zero => simpa [hdone] using hdraft.not_wellFormed
    | succ n =>
      obtain ⟨hwell, hclosed⟩ := (hdraft.lineBuf lineBuf).closing
      rw [List.replicate_succ, run_cons, andThen_output, run_finish_closed hclosed.finished,
        List.append_nil]
      exact iff_of_true hwell (Or.inl (Nat.succ_ne_zero n))

end Stream

/-- A chunk with some text. -/
def textChunk (text : String) : Json :=
  .object [("choices", .array [.object [("delta", .object [("content", .string text)])]])]

/-- A text delta after `[DONE]` is written after `message_stop`, and its block is never stopped. -/
theorem not_wellFormed_after_done :
    ¬ WellFormed (output (fun text => if text = (textChunk "late").text then some (textChunk "late")
      else none) [utf8 "data: [DONE]\n", utf8 ("data: " ++ (textChunk "late").text ++ "\n")] 1) := by
  intro h
  have hlast := h.getLast?
  have hlate : (output (fun text => if text = (textChunk "late").text then some (textChunk "late")
      else none) [utf8 "data: [DONE]\n", utf8 ("data: " ++ (textChunk "late").text ++ "\n")]
      1).getLast? = some (.contentBlockDelta 0 (.text "late")) := by
    decide +kernel
  rw [hlate] at hlast
  cases hlast

end LeanCtx.ShapeXlat
