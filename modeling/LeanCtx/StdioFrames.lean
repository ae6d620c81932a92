import LeanCtx.StdioLines

/-!
# A stream of frames

A frame is a header that declares the length of the payload behind it. A stream
that begins as a frame gives what its payloads give, in order, whatever the
chunks are; a payload that is not a message is skipped alone. What the server
writes in either form is read back by a peer.
-/

namespace LeanCtx.Stdio

open ByteText (Bytes newline utf8 joinLines)
open TextSearch (firstSplit eq_of_firstSplit)
open TextMarks (firstSplit_le firstSplit_eq_none_iff)

variable {T : Type} (serde : Serde T)

structure Frame where
  header : Bytes
  payload : Bytes

def Frame.bytes (f : Frame) : Bytes := f.header ++ headerEnd ++ f.payload

/-- The header ends where it says and declares the length of the payload. -/
structure Frame.Sound (limit : ℕ) (f : Frame) : Prop where
  ends : ¬ headerEnd <:+: f.header ++ headerEnd.dropLast
  noBlank : ¬ blankLine <:+: f.header ++ headerEnd.dropLast
  declares : ∃ header, ByteText.fromUtf8 f.header = some header ∧
    parseContentLength header = .ok f.payload.length
  fits : f.payload.length ≤ limit
  addressable : f.bytes.length < 2 ^ 64

theorem Frame.length_bytes (f : Frame) :
    f.bytes.length = f.header.length + 4 + f.payload.length := by
  rw [Frame.bytes, List.length_append, List.length_append]
  rfl

/-! ## The end of a header -/

section Terminator

variable {limit : ℕ} {f : Frame} {buf : Bytes}

theorem findHeaderTerminator_cut (h : f.Sound limit) (hbuf : buf <+: f.header ++ headerEnd)
    (hlen : buf.length < f.header.length + 4) : findHeaderTerminator buf = none := by
  have hsplit : f.header ++ headerEnd = f.header ++ headerEnd.dropLast ++ [10] := by
    rw [List.append_assoc]
    rfl
  have hwithin : buf <:+: f.header ++ headerEnd.dropLast := by
    have hle : buf.length ≤ (f.header ++ headerEnd.dropLast).length := by
      rw [List.length_append]
      change buf.length ≤ f.header.length + 3
      omega
    rw [hsplit] at hbuf
    exact (List.prefix_of_prefix_length_le hbuf (List.prefix_append _ _) hle).isInfix
  have hend : firstSplit headerEnd buf = none :=
    firstSplit_eq_none_iff.mpr fun hin => h.ends (hin.trans hwithin)
  have hblank : firstSplit blankLine buf = none :=
    firstSplit_eq_none_iff.mpr fun hin => h.noBlank (hin.trans hwithin)
  rw [findHeaderTerminator, hend, hblank]
  rfl

theorem findHeaderTerminator_whole (h : f.Sound limit) (more : Bytes) :
    findHeaderTerminator (f.header ++ headerEnd ++ more) = some (f.header.length, 4) := by
  obtain ⟨p, q, hsplit, hle⟩ := firstSplit_le headerEnd f.header more
  have htext := eq_of_firstSplit hsplit
  have hlen : ¬ p.length < f.header.length := by
    intro hlt
    have hpre : p ++ headerEnd <+: f.header ++ headerEnd.dropLast := by
      have hwhole : p ++ headerEnd <+: f.header ++ headerEnd.dropLast ++ (10 :: more) := by
        refine ⟨q, htext.symm.trans ?_⟩
        simp only [List.append_assoc]
        rfl
      refine List.prefix_of_prefix_length_le hwhole (List.prefix_append _ _) ?_
      rw [List.length_append, List.length_append]
      change p.length + 4 ≤ f.header.length + 3
      omega
    exact h.ends ((List.suffix_append p headerEnd).isInfix.trans hpre.isInfix)
  rw [findHeaderTerminator, hsplit]
  dsimp only
  rw [Nat.le_antisymm hle (not_lt.mp hlen)]

end Terminator

/-! ## One call -/

/-- What the payloads of frames give. -/
def frameEvents (protocol : WireProtocol) (frames : List Frame) : List (Event T) :=
  frames.flatMap fun f => events serde (some protocol) f.payload

theorem frameEvents_append (protocol : WireProtocol) (a b : List Frame) :
    frameEvents serde protocol (a ++ b) =
      frameEvents serde protocol a ++ frameEvents serde protocol b :=
  List.flatMap_append

def framesAfter (protocol : Option WireProtocol) (frames : List Frame) : Option WireProtocol :=
  if frames = [] then protocol else some (protocol.getD .contentLength)

theorem framesAfter_append (protocol : Option WireProtocol) (a b : List Frame) :
    framesAfter (framesAfter protocol a) b = framesAfter protocol (a ++ b) := by
  by_cases ha : a = []
  · subst ha
    rfl
  · rw [framesAfter, framesAfter, framesAfter, if_neg ha,
      if_neg (List.append_ne_nil_of_left_ne_nil ha b)]
    exact ite_self _

/-- Less than the next frame has arrived. -/
def Unfinished (frames : List Frame) (buf : Bytes) : Prop :=
  buf <+: frames.flatMap Frame.bytes ∧ ∀ f ∈ frames.head?, buf.length < f.bytes.length

/-- The frames that a call has read, and what it leaves of the others. -/
inductive FrameStep (limit : ℕ) (protocol : Option WireProtocol) (done rest : List Frame) :
    Decoded T → Prop
  | item {message : T} {i : ℕ} {buf : Bytes} {replies : List (Event T)} (hne : done ≠ [])
      (hbuf : buf <+: rest.flatMap Frame.bytes)
      (hevents : frameEvents serde (protocol.getD .contentLength) done =
        replies ++ [.message message]) :
      FrameStep limit protocol done rest
        ⟨.item message, ⟨i, limit, false, some (protocol.getD .contentLength)⟩, buf, replies⟩
  | pending {i : ℕ} {buf : Bytes} {replies : List (Event T)} (hbuf : Unfinished rest buf)
      (hi : framesAfter protocol done = none → i ≤ buf.length)
      (hevents : frameEvents serde (protocol.getD .contentLength) done = replies) :
      FrameStep limit protocol done rest
        ⟨.pending, ⟨i, limit, false, framesAfter protocol done⟩, buf, replies⟩

theorem FrameStep.cons {limit : ℕ} {protocol : Option WireProtocol} {f : Frame}
    {done rest : List Frame} {d : Decoded T}
    (h : FrameStep serde limit (some (protocol.getD .contentLength)) done rest d) :
    FrameStep serde limit protocol (f :: done) rest
      (d.after (events serde (some (protocol.getD .contentLength)) f.payload)) := by
  have hsame : framesAfter (some (protocol.getD .contentLength)) done =
      framesAfter protocol (f :: done) := by
    rw [framesAfter, framesAfter, if_neg (List.cons_ne_nil _ _)]
    exact ite_self _
  cases h with
  | item hne hbuf hevents =>
    refine .item (List.cons_ne_nil _ _) hbuf ?_
    rw [frameEvents, List.flatMap_cons, List.append_assoc]
    exact congrArg _ hevents
  | pending hbuf hi hevents =>
    rw [hsame] at hi ⊢
    exact .pending hbuf hi (congrArg _ hevents)

/-- The turn of the loop that has a whole frame. -/
theorem decodeContentLength_frame {limit i : ℕ} {protocol : Option WireProtocol} {f : Frame}
    (h : f.Sound limit) (fuel : ℕ) (more : Bytes) :
    decodeContentLength serde (fuel + 1) ⟨i, limit, false, protocol⟩ (f.bytes ++ more) =
      match tryParseWithCompatibility serde f.payload with
      | .item message =>
        { answer := .item message, buffer := more,
          codec := ⟨i, limit, false, some (protocol.getD .contentLength)⟩ }
      | parsed => (decodeContentLength serde fuel
          ⟨i, limit, false, some (protocol.getD .contentLength)⟩ more).after
            (parsed.events (some (protocol.getD .contentLength))) := by
  obtain ⟨header, hutf8, hparse⟩ := h.declares
  have hbytes : f.bytes ++ more = f.header ++ headerEnd ++ (f.payload ++ more) := by
    rw [Frame.bytes, List.append_assoc]
  have hlen := f.length_bytes
  have hstart : (f.header ++ headerEnd).length = f.header.length + 4 := by
    rw [List.length_append]
    rfl
  have hheader : (f.bytes ++ more).take f.header.length = f.header := by
    rw [hbytes, List.append_assoc, List.take_left]
  have hpayload : ((f.bytes ++ more).take (f.header.length + 4 + f.payload.length)).drop
      (f.header.length + 4) = f.payload := by
    rw [← hlen, List.take_left, Frame.bytes, ← hstart, List.drop_left]
  have hrest : (f.bytes ++ more).drop (f.header.length + 4 + f.payload.length) = more := by
    rw [← hlen, List.drop_left]
  have hroom : ¬(limit < f.payload.length ∨ 2 ^ 64 ≤ f.header.length + 4 + f.payload.length) := by
    have haddressable := h.addressable
    rw [hlen] at haddressable
    exact not_or.mpr ⟨not_lt.mpr h.fits, not_le.mpr haddressable⟩
  have hwhole : ¬((f.bytes ++ more).length < f.header.length + 4 + f.payload.length) := by
    rw [← hlen, List.length_append]
    omega
  have hterminator : findHeaderTerminator (f.bytes ++ more) = some (f.header.length, 4) := by
    rw [hbytes]
    exact findHeaderTerminator_whole h _
  rw [decodeContentLength, hterminator]
  dsimp only
  rw [hheader, hutf8]
  dsimp only
  rw [hparse]
  dsimp only
  rw [if_neg hroom, if_neg hwhole, hpayload, hrest]
  rfl

theorem decodeContentLength_unfinished {limit i : ℕ} {protocol : Option WireProtocol}
    {frames : List Frame} {buf : Bytes} (hframes : ∀ f ∈ frames, f.Sound limit)
    (h : Unfinished frames buf) (fuel : ℕ) :
    decodeContentLength serde (fuel + 1) ⟨i, limit, false, protocol⟩ buf =
      ⟨.pending, ⟨i, limit, false, protocol⟩, buf, []⟩ := by
  obtain ⟨hbuf, hshort⟩ := h
  cases frames with
  | nil =>
    rw [List.prefix_nil.mp hbuf]
    rfl
  | cons f frames =>
    have hsound := hframes f List.mem_cons_self
    have hshort := hshort f rfl
    rw [List.flatMap_cons, Frame.bytes, List.append_assoc] at hbuf
    rw [f.length_bytes] at hshort
    by_cases hlen : buf.length < f.header.length + 4
    · have hcut : buf <+: f.header ++ headerEnd := by
        refine List.prefix_of_prefix_length_le hbuf (List.prefix_append _ _) ?_
        rw [List.length_append]
        exact hlen.le
      rw [decodeContentLength, findHeaderTerminator_cut hsound hcut hlen]
    · have hstart : f.header ++ headerEnd <+: buf := by
        refine List.prefix_of_prefix_length_le (List.prefix_append _ _) hbuf ?_
        rw [List.length_append]
        exact not_lt.mp hlen
      obtain ⟨more, rfl⟩ := hstart
      obtain ⟨header, hutf8, hparse⟩ := hsound.declares
      have hroom : ¬(limit < f.payload.length ∨
          2 ^ 64 ≤ f.header.length + 4 + f.payload.length) := by
        have haddressable := hsound.addressable
        rw [f.length_bytes] at haddressable
        exact not_or.mpr ⟨not_lt.mpr hsound.fits, not_le.mpr haddressable⟩
      have hheader : (f.header ++ headerEnd ++ more).take f.header.length = f.header := by
        rw [List.append_assoc, List.take_left]
      rw [decodeContentLength, findHeaderTerminator_whole hsound]
      dsimp only
      rw [hheader, hutf8]
      dsimp only
      rw [hparse]
      dsimp only
      rw [if_neg hroom, if_pos hshort]

theorem decodeContentLength_cases {limit i : ℕ} {protocol : Option WireProtocol} {fuel : ℕ}
    {frames : List Frame} {buf : Bytes} (hfuel : buf.length < fuel)
    (hframes : ∀ f ∈ frames, f.Sound limit) (hbuf : buf <+: frames.flatMap Frame.bytes)
    (hi : protocol = none → i ≤ buf.length) :
    ∃ done rest, frames = done ++ rest ∧
      buf = done.flatMap Frame.bytes ++
        (decodeContentLength serde fuel ⟨i, limit, false, protocol⟩ buf).buffer ∧
      FrameStep serde limit protocol done rest
        (decodeContentLength serde fuel ⟨i, limit, false, protocol⟩ buf) := by
  induction fuel generalizing protocol frames buf with
  | zero => exact absurd hfuel (Nat.not_lt_zero _)
  | succ fuel ih =>
    by_cases hshort : ∀ f ∈ frames.head?, buf.length < f.bytes.length
    · rw [decodeContentLength_unfinished serde hframes ⟨hbuf, hshort⟩]
      exact ⟨[], frames, rfl, rfl, .pending ⟨hbuf, hshort⟩ hi rfl⟩
    · cases frames with
      | nil => exact absurd (fun f hf => absurd hf (Option.not_mem_none f)) hshort
      | cons f frames =>
        have hle : f.bytes.length ≤ buf.length := by
          by_contra hlt
          refine hshort fun g hg => ?_
          obtain rfl := Option.some.inj hg
          exact not_le.mp hlt
        rw [List.flatMap_cons] at hbuf
        obtain ⟨more, rfl⟩ := List.prefix_of_prefix_length_le (List.prefix_append _ _) hbuf hle
        have hmore : more <+: frames.flatMap Frame.bytes :=
          (List.prefix_append_right_inj f.bytes).mp hbuf
        have hpos := f.length_bytes
        rw [List.length_append] at hfuel
        obtain ⟨done, rest, hsplit, hrest, hstep⟩ :=
          @ih (some (protocol.getD .contentLength)) frames more (by omega)
            (fun g hg => hframes g (List.mem_cons_of_mem f hg)) hmore
            (fun hsome => absurd hsome (Option.some_ne_none _))
        have hcons := FrameStep.cons serde (f := f) hstep
        have hparse : events serde (some (protocol.getD .contentLength)) f.payload =
            (tryParseWithCompatibility serde f.payload).events
              (some (protocol.getD .contentLength)) := rfl
        have hjoin : f.bytes ++ more = (f :: done).flatMap Frame.bytes ++
            (decodeContentLength serde fuel
              ⟨i, limit, false, some (protocol.getD .contentLength)⟩ more).buffer := by
          rw [List.flatMap_cons, List.append_assoc]
          exact congrArg (f.bytes ++ ·) hrest
        have hall : f :: frames = f :: done ++ rest := congrArg (f :: ·) hsplit
        rw [decodeContentLength_frame serde (hframes f List.mem_cons_self)]
        rw [hparse] at hcons
        cases htry : tryParseWithCompatibility serde f.payload with
        | item message =>
          refine ⟨[f], frames, rfl, ?_, .item (List.cons_ne_nil _ _) hmore ?_⟩
          · rw [List.flatMap_singleton]
          · rw [frameEvents, List.flatMap_singleton, hparse, htry]
            rfl
        | ignored =>
          rw [htry] at hcons
          exact ⟨f :: done, rest, hall, hjoin, hcons⟩
        | notFound id method =>
          rw [htry] at hcons
          exact ⟨f :: done, rest, hall, hjoin, hcons⟩
        | malformed =>
          rw [htry] at hcons
          exact ⟨f :: done, rest, hall, hjoin, hcons⟩

/-! ## The first call -/

/-- The stream began as frames, or it begins as one. -/
def IsFrames (protocol : Option WireProtocol) (frames : List Frame) : Prop :=
  protocol = some .contentLength ∨
    protocol = none ∧ ∀ f ∈ frames.head?, looksLikeContentLengthFrame f.header = true

theorem IsFrames.after {protocol : Option WireProtocol} {frames : List Frame}
    (h : IsFrames protocol frames) (rest : List Frame) :
    IsFrames (some (protocol.getD .contentLength)) rest := by
  rcases h with rfl | ⟨rfl, -⟩
  · exact Or.inl rfl
  · exact Or.inl rfl

theorem IsFrames.rest {protocol : Option WireProtocol} {done rest : List Frame}
    (h : IsFrames protocol (done ++ rest)) : IsFrames (framesAfter protocol done) rest := by
  rw [framesAfter]
  split_ifs with hnil
  · subst hnil
    exact h
  · exact h.after rest

theorem looksLike_iff {buf : Bytes} : looksLikeContentLengthFrame buf = true ↔
    (buf.take contentLengthName.length).map toAsciiLowercase = contentLengthName :=
  decide_eq_true_iff

theorem length_of_looksLike {buf : Bytes} (h : looksLikeContentLengthFrame buf = true) :
    contentLengthName.length ≤ buf.length := by
  have hlen := congrArg List.length (looksLike_iff.mp h)
  rw [List.length_map, List.length_take] at hlen
  omega

/-- Too little has arrived to see that the stream begins as a frame. -/
theorem beginning_of_frame {f : Frame} {buf rest : Bytes} (hbuf : buf <+: f.bytes ++ rest)
    (h : looksLikeContentLengthFrame f.header = true)
    (hlook : ¬ looksLikeContentLengthFrame buf = true) :
    buf.length < contentLengthName.length ∧ newline ∉ buf := by
  have hlen := length_of_looksLike h
  rw [Frame.bytes, List.append_assoc, List.append_assoc] at hbuf
  have hshort : buf.length < contentLengthName.length := by
    by_contra hlong
    refine hlook (looksLike_iff.mpr ?_)
    obtain ⟨more, hmore⟩ := hbuf
    have htake : buf.take contentLengthName.length =
        f.header.take contentLengthName.length := by
      have hwhole := congrArg (List.take contentLengthName.length) hmore
      rw [List.take_append_of_le_length (not_lt.mp hlong),
        List.take_append_of_le_length hlen] at hwhole
      exact hwhole
    rw [htake]
    exact looksLike_iff.mp h
  refine ⟨hshort, fun hmem => ?_⟩
  have hheader : buf <+: f.header :=
    List.prefix_of_prefix_length_le hbuf (List.prefix_append _ _) (by omega)
  have htake : newline ∈ f.header.take contentLengthName.length := by
    rw [List.prefix_iff_eq_take.mp hheader] at hmem
    exact List.take_subset_take_left _ hshort.le hmem
  have hname : toAsciiLowercase newline ∈ contentLengthName := by
    rw [← looksLike_iff.mp h]
    exact List.mem_map_of_mem htake
  exact absurd hname (by decide)

theorem decode_frames_cases {limit i : ℕ} {protocol : Option WireProtocol} {frames : List Frame}
    {buf : Bytes} (hlimit : contentLengthName.length ≤ limit)
    (hframes : ∀ f ∈ frames, f.Sound limit) (hbuf : buf <+: frames.flatMap Frame.bytes)
    (hi : protocol = none → i ≤ buf.length) (h : IsFrames protocol frames) :
    ∃ done rest, frames = done ++ rest ∧
      buf = done.flatMap Frame.bytes ++ (decode serde ⟨i, limit, false, protocol⟩ buf).buffer ∧
      FrameStep serde limit protocol done rest (decode serde ⟨i, limit, false, protocol⟩ buf) := by
  rcases h with rfl | ⟨rfl, hlooks⟩
  · exact decodeContentLength_cases serde (Nat.lt_succ_self _) hframes hbuf hi
  · cases hlook : looksLikeContentLengthFrame buf with
    | true =>
      have hdecode : decode serde ⟨i, limit, false, none⟩ buf =
          decodeContentLength serde (buf.length + 1) ⟨i, limit, false, none⟩ buf := by
        rw [decode]
        dsimp only
        rw [hlook, if_pos rfl]
      rw [hdecode]
      exact decodeContentLength_cases serde (Nat.lt_succ_self _) hframes hbuf hi
    | false =>
      have hbeginning : buf.length < contentLengthName.length ∧ newline ∉ buf ∧
          ∀ f ∈ frames.head?, buf.length < f.bytes.length := by
        cases frames with
        | nil =>
          rw [List.prefix_nil.mp hbuf]
          exact ⟨by decide, List.not_mem_nil, fun f hf => absurd hf (Option.not_mem_none f)⟩
        | cons f frames =>
          have hf := hlooks f rfl
          rw [List.flatMap_cons] at hbuf
          obtain ⟨hshort, hline⟩ := beginning_of_frame hbuf hf (by rw [hlook]; decide)
          refine ⟨hshort, hline, fun g hg => ?_⟩
          obtain rfl := Option.some.inj hg
          have hlen := length_of_looksLike hf
          rw [f.length_bytes]
          omega
      obtain ⟨hshort, hline, hunfinished⟩ := hbeginning
      rw [decode_rest serde (hi rfl) ⟨hline, hshort.le.trans hlimit⟩ (Or.inr ⟨rfl, hlook⟩)]
      exact ⟨[], frames, rfl, rfl, .pending ⟨hbuf, hunfinished⟩ (fun _ => Nat.le_refl _) rfl⟩

/-! ## A run -/

/-- The session has less than the next frame. -/
inductive FrameEnd (limit : ℕ) (protocol : Option WireProtocol) (rest : List Frame) :
    Session → Prop
  | within {i : ℕ} {buf : Bytes} (hbuf : Unfinished rest buf)
      (hi : protocol = none → i ≤ buf.length) :
      FrameEnd limit protocol rest ⟨⟨i, limit, false, protocol⟩, buf, false⟩

section Run

variable {limit : ℕ} (hlimit : contentLengthName.length ≤ limit)

include hlimit in
theorem drain_frames {i : ℕ} {protocol : Option WireProtocol} {fuel : ℕ} {frames : List Frame}
    {buf : Bytes} (hfuel : buf.length < fuel) (hframes : ∀ f ∈ frames, f.Sound limit)
    (hbuf : buf <+: frames.flatMap Frame.bytes) (hi : protocol = none → i ≤ buf.length)
    (h : IsFrames protocol frames) :
    ∃ done rest, frames = done ++ rest ∧
      buf = done.flatMap Frame.bytes ++
        (drain serde fuel ⟨⟨i, limit, false, protocol⟩, buf, false⟩).1.buffer ∧
      (drain serde fuel ⟨⟨i, limit, false, protocol⟩, buf, false⟩).2 =
        frameEvents serde (protocol.getD .contentLength) done ∧
      FrameEnd limit (framesAfter protocol done) rest
        (drain serde fuel ⟨⟨i, limit, false, protocol⟩, buf, false⟩).1 := by
  induction fuel generalizing i protocol frames buf with
  | zero => exact absurd hfuel (Nat.not_lt_zero _)
  | succ fuel ih =>
    rw [drain]
    dsimp only
    obtain ⟨done, rest, rfl, hsplit, hstep⟩ :=
      decode_frames_cases serde hlimit hframes hbuf hi h
    generalize decode serde ⟨i, limit, false, protocol⟩ buf = d at hsplit hstep ⊢
    cases hstep with
    | @item message j more replies hne hmore hevents =>
      dsimp only at hsplit ⊢
      have hshorter : more.length < buf.length := by
        obtain ⟨f, done, rfl⟩ := List.exists_cons_of_ne_nil hne
        have hlen := f.length_bytes
        rw [hsplit, List.flatMap_cons, List.length_append, List.length_append]
        omega
      obtain ⟨done', rest', rfl, hmore', hout, hend⟩ :=
        @ih j (some (protocol.getD .contentLength)) rest more (by omega)
          (fun f hf => hframes f (List.mem_append_right _ hf)) hmore
          (fun hsome => absurd hsome (Option.some_ne_none _)) (h.after rest)
      refine ⟨done ++ done', rest', (List.append_assoc _ _ _).symm, ?_, ?_, ?_⟩
      · rw [List.flatMap_append, List.append_assoc, ← hmore']
        exact hsplit
      · rw [frameEvents_append, hevents, hout, List.append_assoc]
        rfl
      · rw [← framesAfter_append, framesAfter, framesAfter, if_neg hne]
        exact hend
    | @pending j more replies hmore hj hevents =>
      exact ⟨done, rest, rfl, hsplit, hevents.symm, .within hmore hj⟩

include hlimit in
/-- However frames arrive, those that have arrived whole are read. -/
theorem run_frames {protocol : Option WireProtocol} {frames : List Frame} (chunks : List Bytes)
    {s : Session} (hframes : ∀ f ∈ frames, f.Sound limit) (hs : FrameEnd limit protocol frames s)
    (hbuf : s.buffer ++ chunks.flatten <+: frames.flatMap Frame.bytes)
    (h : IsFrames protocol frames) :
    ∃ done rest, frames = done ++ rest ∧
      s.buffer ++ chunks.flatten = done.flatMap Frame.bytes ++
        (Transducer.run (feed serde) chunks s).1.buffer ∧
      (Transducer.run (feed serde) chunks s).2 =
        frameEvents serde (protocol.getD .contentLength) done ∧
      FrameEnd limit (framesAfter protocol done) rest
        (Transducer.run (feed serde) chunks s).1 := by
  induction chunks generalizing protocol frames s with
  | nil => exact ⟨[], frames, rfl, List.append_nil _, rfl, hs⟩
  | cons chunk chunks ih =>
    obtain @⟨i, buf, -, hi⟩ := hs
    dsimp only at hbuf ⊢
    rw [List.flatten_cons, ← List.append_assoc] at hbuf ⊢
    have hfirst : buf ++ chunk <+: frames.flatMap Frame.bytes :=
      (List.prefix_append _ _).trans hbuf
    have hle : protocol = none → i ≤ (buf ++ chunk).length := by
      intro hnone
      rw [List.length_append]
      exact Nat.le_add_right_of_le (hi hnone)
    obtain ⟨done, rest, rfl, hsplit, hout, hend⟩ := drain_frames serde hlimit
      (Nat.lt_succ_self (buf ++ chunk).length) hframes hfirst hle h
    have hfeed : feed serde chunk ⟨⟨i, limit, false, protocol⟩, buf, false⟩ =
        drain serde ((buf ++ chunk).length + 1)
          ⟨⟨i, limit, false, protocol⟩, buf ++ chunk, false⟩ := rfl
    rw [Transducer.run_cons, Transducer.andThen, hfeed]
    generalize drain serde ((buf ++ chunk).length + 1)
      ⟨⟨i, limit, false, protocol⟩, buf ++ chunk, false⟩ = fed at hsplit hout hend ⊢
    obtain ⟨s, out⟩ := fed
    dsimp only at hsplit hout hend ⊢
    have hrest : s.buffer ++ chunks.flatten <+: rest.flatMap Frame.bytes := by
      rw [hsplit, List.flatMap_append, List.append_assoc] at hbuf
      exact (List.prefix_append_right_inj _).mp hbuf
    obtain ⟨done', rest', rfl, hsplit', hout', hend'⟩ :=
      ih (fun f hf => hframes f (List.mem_append_right _ hf)) hend hrest h.rest
    have hsame : (framesAfter protocol done).getD .contentLength =
        protocol.getD .contentLength := by
      rw [framesAfter]
      split_ifs <;> rfl
    refine ⟨done ++ done', rest', (List.append_assoc _ _ _).symm, ?_, ?_, ?_⟩
    · rw [hsplit, List.append_assoc, hsplit', List.flatMap_append, List.append_assoc]
    · rw [hout, hout', hsame, frameEvents_append]
    · rw [← framesAfter_append]
      exact hend'

end Run

/-! ## The whole stream -/

theorem drainEof_frames {limit i : ℕ} {protocol : Option WireProtocol}
    (hi : protocol = none → i ≤ 0) (h : IsFrames protocol []) (fuel : ℕ) :
    drainEof serde (fuel + 1) ⟨⟨i, limit, false, protocol⟩, [], false⟩ = [] := by
  rcases h with rfl | ⟨rfl, -⟩
  · rfl
  · obtain rfl : i = 0 := Nat.le_zero.mp (hi rfl)
    exact drainEof_nil serde (Or.inr ⟨rfl, rfl⟩) fuel

theorem received_of_frames {limit : ℕ} {frames : List Frame} {chunks : List Bytes}
    (hlimit : contentLengthName.length ≤ limit) (hframes : ∀ f ∈ frames, f.Sound limit)
    (hfirst : ∀ f ∈ frames.head?, looksLikeContentLengthFrame f.header = true)
    (hchunks : chunks.flatten = frames.flatMap Frame.bytes) :
    received serde { maxLength := limit } chunks = frameEvents serde .contentLength frames := by
  have hstart : FrameEnd limit none frames { codec := { maxLength := limit } } := by
    refine .within ⟨List.nil_prefix, fun f _ => ?_⟩ fun _ => Nat.le_refl 0
    have hlen := f.length_bytes
    change 0 < _
    omega
  have hbuf : ({ codec := { maxLength := limit } } : Session).buffer ++ chunks.flatten <+:
      frames.flatMap Frame.bytes := by
    rw [hchunks]
    exact List.prefix_refl _
  have h : IsFrames none frames := Or.inr ⟨rfl, hfirst⟩
  obtain ⟨done, rest, rfl, hsplit, hrun, hend⟩ :=
    run_frames serde hlimit chunks hframes hstart hbuf h
  rw [received]
  generalize Transducer.run (feed serde) chunks { codec := { maxLength := limit } } = r
    at hsplit hrun hend ⊢
  obtain ⟨s, out⟩ := r
  dsimp only at hsplit hrun hend ⊢
  obtain @⟨i, buf, ⟨-, hshort⟩, hi⟩ := hend
  change chunks.flatten = _ at hsplit
  rw [hchunks, List.flatMap_append] at hsplit
  have hbuffer : rest.flatMap Frame.bytes = buf := List.append_cancel_left hsplit
  -- the frame that would come next has arrived whole
  have hnil : rest = [] := by
    cases rest with
    | nil => rfl
    | cons f rest =>
      have hlt := hshort f rfl
      rw [← hbuffer, List.flatMap_cons, List.length_append] at hlt
      omega
  subst hnil
  obtain rfl : [] = buf := hbuffer
  rw [if_neg Bool.false_ne_true, drainEof_frames serde hi h.rest, List.append_nil, List.append_nil]
  exact hrun

/-- Whatever the chunks are, a stream of frames gives what their payloads give. -/
theorem received_frames {frames : List Frame} {chunks : List Bytes}
    (hframes : ∀ f ∈ frames, f.Sound (32 * 1024 * 1024))
    (hfirst : ∀ f ∈ frames.head?, looksLikeContentLengthFrame f.header = true)
    (hchunks : chunks.flatten = frames.flatMap Frame.bytes) :
    received serde {} chunks = frameEvents serde .contentLength frames :=
  received_of_frames serde (by decide) hframes hfirst hchunks

/-- A header may say more than the length, and say it in capitals. -/
def typedFrame : Frame where
  header := utf8 "CONTENT-LENGTH: 2\r\nContent-Type: json"
  payload := [123, 125]

/-- A frame that is cut in its header and behind its payload, and one whose payload is none. -/
theorem received_frames_cut : received plainSerde {}
      [utf8 "CONTENT-LENGTH: 2\r\nConte", utf8 "nt-Type: json\r\n\r\n\x7b\x7dCONTENT-LENGTH",
        utf8 ": 0\r\n\r\n"] = [.message [123, 125]] := by
  have hframes : ∀ f ∈ [typedFrame, ⟨utf8 "CONTENT-LENGTH: 0", []⟩],
      f.Sound (32 * 1024 * 1024) := by
    intro f hf
    rcases List.mem_pair.mp hf with rfl | rfl
    · exact ⟨by decide, by decide, ⟨_, ByteText.fromUtf8_utf8 _, rfl⟩, by decide, by decide⟩
    · exact ⟨by decide, by decide, ⟨_, ByteText.fromUtf8_utf8 _, rfl⟩, by decide, by decide⟩
  have hfirst : ∀ f ∈ [typedFrame, ⟨utf8 "CONTENT-LENGTH: 0", []⟩].head?,
      looksLikeContentLengthFrame f.header = true := by
    intro f hf
    obtain rfl := Option.some.inj hf
    decide
  exact (received_frames plainSerde hframes hfirst (by decide)).trans rfl

/-! ## What the server writes -/

/-- A message is written as one line of JSON, an object, that reads as the message. -/
structure Serde.Lawful : Prop where
  reads : ∀ message, serde.fromSlice (serde.toVec message) = some message
  object : ∀ message, ∃ fields, serde.toVec message = 123 :: fields ++ [125]
  oneLine : ∀ message, newline ∉ serde.toVec message

def lengthHeader (length : ℕ) : String := "Content-Length: " ++ length.repr

theorem lengthHeader_eq (length : ℕ) :
    lengthHeader length = "Content-Length: " ++ length.repr := rfl

def writtenFrame (message : T) : Frame where
  header := utf8 (lengthHeader (serde.toVec message).length)
  payload := serde.toVec message

theorem digit_of_mem_repr {n : ℕ} {c : Char} (h : c ∈ n.repr.toList) : c.isDigit = true := by
  rw [Nat.toList_repr] at h
  exact Nat.isDigit_of_mem_toDigits (by decide) (by decide) h

theorem not_mem_lengthHeader {c : Char} (hletters : c ∉ "Content-Length: ".toList)
    (hdigit : c.isDigit = false) (n : ℕ) : c ∉ (lengthHeader n).toList := by
  rw [lengthHeader_eq, String.toList_append]
  intro hmem
  rcases List.mem_append.mp hmem with hmem | hmem
  · exact hletters hmem
  · exact absurd (digit_of_mem_repr hmem) (Bool.eq_false_iff.mp hdigit)

theorem headerTrim_repr (n : ℕ) : headerTrim (' ' :: n.repr.toList) = n.repr.toList := by
  have hblank : ∀ c ∈ n.repr.toList, ByteText.isWhitespace c = false := by
    intro c hc
    have hdigit := digit_of_mem_repr hc
    simp only [Char.isDigit, Bool.and_eq_true, decide_eq_true_eq] at hdigit
    have hlow : 48 ≤ c.toNat := hdigit.1
    have hhigh : c.toNat ≤ 57 := hdigit.2
    rw [ByteText.isWhitespace]
    have hspace : ([0x20, 0x85, 0xa0, 0x1680, 0x2028, 0x2029, 0x202f, 0x205f, 0x3000] :
        List ℕ).contains c.toNat = false := by
      refine Bool.eq_false_iff.mpr fun hmem => ?_
      simp only [List.contains_eq_mem, decide_eq_true_eq, List.mem_cons, List.not_mem_nil,
        or_false] at hmem
      omega
    rw [hspace, Bool.or_false, Bool.or_eq_false_iff, Bool.and_eq_false_iff, Bool.and_eq_false_iff]
    refine ⟨Or.inr (decide_eq_false (by omega)), Or.inl (decide_eq_false (by omega))⟩
  have hkeep : ∀ l : List Char, (∀ c ∈ l, ByteText.isWhitespace c = false) →
      l.dropWhile ByteText.isWhitespace = l := by
    intro l hl
    cases l with
    | nil => rfl
    | cons c l => exact List.dropWhile_cons_of_neg (by rw [hl c List.mem_cons_self]; decide)
  rw [headerTrim, TextMarks.trim, List.dropWhile_cons_of_pos (by decide), hkeep _ hblank,
    List.rdropWhile, hkeep _ fun c hc => hblank c (List.mem_reverse.mp hc), List.reverse_reverse]

theorem parseContentLength_lengthHeader {n : ℕ} (h : n < 2 ^ 64) :
    parseContentLength (lengthHeader n) = .ok n := by
  have hline : (lengthHeader n).toList =
      "Content-Length".toList ++ [':'] ++ (' ' :: n.repr.toList) := by
    rw [lengthHeader_eq, String.toList_append]
    rfl
  have hlines : TextFile.lineChars (lengthHeader n).toList = [(lengthHeader n).toList] := by
    have hone := not_mem_lengthHeader (c := '\n') (by decide) (by decide) n
    have hne : (lengthHeader n).toList ≠ [] := by
      rw [hline]
      exact List.append_ne_nil_of_left_ne_nil (by decide) _
    rw [TextFile.lineChars, List.splitOn_eq_singleton hone]
    refine List.filter_eq_self.mpr fun line hmem => decide_eq_true ?_
    rw [List.mem_singleton.mp hmem]
    exact hne
  have hkeep : (lengthHeader n).toList.rdropWhile (· = '\r') = (lengthHeader n).toList := by
    refine List.rdropWhile_eq_self_iff.mpr fun hne hlast => ?_
    have hmem := List.getLast_mem hne
    rw [of_decide_eq_true hlast] at hmem
    exact not_mem_lengthHeader (by decide) (by decide) n hmem
  have hsplit : firstSplit [':'] (lengthHeader n).toList =
      some ("Content-Length".toList, ' ' :: n.repr.toList) := by
    rw [hline]
    exact TextMarks.firstSplit_of_absent List.not_mem_nil (by decide) _
  have hname : (headerTrim "Content-Length".toList).map Char.toLower =
      "content-length".toList := by decide
  rw [parseContentLength, hlines, contentLengthLine, hkeep, hsplit]
  dsimp only
  rw [if_pos hname, headerTrim_repr, LosslessCollapse.parseU64_repr h]

theorem length_utf8_le (s : String) : (utf8 s).length ≤ 4 * s.toList.length := by
  rw [utf8]
  induction s.toList with
  | nil => exact Nat.le_refl 0
  | cons c cs ih =>
    rw [List.flatMap_cons, List.length_append, String.length_utf8EncodeChar, List.length_cons]
    have hc := c.utf8Size_le_four
    omega

theorem length_lengthHeader_le {n : ℕ} (h : n ≤ 32 * 1024 * 1024) :
    (utf8 (lengthHeader n)).length ≤ 96 := by
  have hdigits : n.repr.length ≤ 8 := (Nat.length_repr_le_iff (by decide)).mpr (by omega)
  have hletters : "Content-Length: ".toList.length = 16 := rfl
  have hle := length_utf8_le (lengthHeader n)
  rw [lengthHeader_eq, String.toList_append, List.length_append, hletters,
    String.length_toList] at hle
  rw [lengthHeader_eq]
  omega

theorem writtenFrame_sound {message : T}
    (hfits : (serde.toVec message).length ≤ 32 * 1024 * 1024) :
    (writtenFrame serde message).Sound (32 * 1024 * 1024) := by
  have hnewline : newline ∉ utf8 (lengthHeader (serde.toVec message).length) := by
    rw [ByteText.newline_mem_utf8]
    exact not_mem_lengthHeader (by decide) (by decide) _
  -- both ends hold two newlines, a header in front of its last newline at most one
  have hfew : ∀ mark : Bytes, 2 ≤ mark.count newline →
      ¬ mark <:+: utf8 (lengthHeader (serde.toVec message).length) ++ headerEnd.dropLast := by
    intro mark hmark hin
    have hle := hin.sublist.count_le newline
    rw [List.count_append, List.count_eq_zero_of_not_mem hnewline] at hle
    exact absurd (hmark.trans hle) (by decide)
  refine ⟨hfew headerEnd (by decide), hfew blankLine (by decide), ?_, hfits, ?_⟩
  · exact ⟨_, ByteText.fromUtf8_utf8 _, parseContentLength_lengthHeader (by omega)⟩
  · rw [Frame.length_bytes]
    have hheader := length_lengthHeader_le hfits
    change (utf8 (lengthHeader (serde.toVec message).length)).length + 4 +
      (serde.toVec message).length < 2 ^ 64
    omega

theorem withoutCarriageReturn_toVec (hserde : serde.Lawful) (message : T) :
    withoutCarriageReturn (serde.toVec message) = serde.toVec message := by
  obtain ⟨fields, hfields⟩ := hserde.object message
  rw [withoutCarriageReturn, if_neg]
  rw [hfields, List.getLast?_concat]
  decide

theorem not_looksLike_written (hserde : serde.Lawful) (messages : List T) :
    looksLikeContentLengthFrame (joinLines (messages.map serde.toVec)) = false := by
  cases messages with
  | nil => rfl
  | cons m messages =>
    obtain ⟨fields, hfields⟩ := hserde.object m
    refine Bool.eq_false_iff.mpr fun hlook => ?_
    have hname := looksLike_iff.mp hlook
    rw [List.map_cons, joinLines, List.flatMap_cons, hfields] at hname
    have hhead := congrArg List.head? hname
    change some (toAsciiLowercase 123) = some 99 at hhead
    exact absurd hhead (by decide)

/-- What is written in either form is read back, message by message, whatever the chunks are. -/
theorem received_encode (hserde : serde.Lawful) (protocol : WireProtocol) {messages : List T}
    {chunks : List Bytes} (hfits : ∀ m ∈ messages, (serde.toVec m).length ≤ 32 * 1024 * 1024)
    (hchunks : chunks.flatten = messages.flatMap (encode serde (some protocol))) :
    received serde {} chunks = messages.map .message := by
  have hread : ∀ p, messages.flatMap (fun m => events serde p (serde.toVec m)) =
      messages.map .message := by
    intro p
    rw [List.map_eq_flatMap]
    refine List.flatMap_congr fun m _ => ?_
    rw [events, tryParseWithCompatibility, hserde.reads m]
    rfl
  cases protocol with
  | contentLength =>
    have hbytes : chunks.flatten = (messages.map (writtenFrame serde)).flatMap Frame.bytes := by
      rw [hchunks, List.flatMap_map]
      rfl
    have hsound : ∀ f ∈ messages.map (writtenFrame serde), f.Sound (32 * 1024 * 1024) := by
      intro f hf
      obtain ⟨m, hm, rfl⟩ := List.mem_map.mp hf
      exact writtenFrame_sound serde (hfits m hm)
    have hfirst : ∀ f ∈ (messages.map (writtenFrame serde)).head?,
        looksLikeContentLengthFrame f.header = true := by
      intro f hf
      obtain ⟨m, -, rfl⟩ := List.mem_map.mp (List.mem_of_mem_head? hf)
      change looksLikeContentLengthFrame (utf8 (lengthHeader _)) = true
      rw [lengthHeader_eq, ByteText.utf8_append]
      exact looksLike_append (by decide)
    refine (received_of_frames serde (by decide) hsound hfirst hbytes).trans ?_
    rw [frameEvents, List.flatMap_map]
    exact hread _
  | jsonLine =>
    have hlines : chunks.flatten = joinLines (messages.map serde.toVec) := by
      rw [hchunks, joinLines, List.flatMap_map]
      rfl
    have hlook : looksLikeContentLengthFrame chunks.flatten = false := by
      rw [hlines]
      exact not_looksLike_written serde hserde messages
    have hsplit : ByteText.splitLines (joinLines (messages.map serde.toVec)) =
        (messages.map serde.toVec, []) := by
      refine ByteText.splitLines_joinLines fun line hline => ?_
      obtain ⟨m, -, rfl⟩ := List.mem_map.mp hline
      exact hserde.oneLine m
    have hall : ((messages.map serde.toVec).takeWhile fun line =>
        line.length ≤ 32 * 1024 * 1024) = messages.map serde.toVec := by
      refine List.takeWhile_eq_self_iff.mpr fun line hline => decide_eq_true ?_
      obtain ⟨m, hm, rfl⟩ := List.mem_map.mp hline
      exact hfits m hm
    refine (received_of_lines serde (32 * 1024 * 1024) chunks hlook).trans ?_
    rw [hlines, streamEvents, hsplit]
    dsimp only
    rw [hall, lastEvents, if_pos (Or.inl rfl), ite_self, List.append_nil, lineEvents,
      List.flatMap_map, ← hread (some .jsonLine)]
    refine List.flatMap_congr fun m _ => ?_
    rw [withoutCarriageReturn_toVec serde hserde]

/-- Two messages: one that has a field, and one that has none. -/
def flagSerde : Serde Bool where
  fromSlice payload :=
    if payload = [123, 49, 125] then some true
    else if payload = [123, 125] then some false
    else none
  fromStr _ := none
  toVec flag := if flag then [123, 49, 125] else [123, 125]

/-- Two messages that arrive in one chunk as frames, and byte by byte as lines. -/
theorem received_encode_flags :
    received flagSerde {} [[true, false].flatMap (encode flagSerde (some .contentLength))] =
      [.message true, .message false] ∧
    received flagSerde {} [[123], [49], [125], [10], [123], [125], [10]] =
      [.message true, .message false] := by
  have hlawful : flagSerde.Lawful := by
    refine ⟨by decide, fun flag => ?_, by decide⟩
    cases flag with
    | true => exact ⟨[49], rfl⟩
    | false => exact ⟨[], rfl⟩
  have hfits : ∀ flag ∈ [true, false], (flagSerde.toVec flag).length ≤ 32 * 1024 * 1024 := by
    decide
  exact ⟨received_encode flagSerde hlawful .contentLength hfits (List.append_nil _),
    received_encode flagSerde hlawful .jsonLine hfits rfl⟩

end LeanCtx.Stdio
