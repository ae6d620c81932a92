import LeanCtx.StdioCodec

/-!
# A stream of lines

A stream that does not begin as a frame is read line by line: each line gives
what its payload gives, in order, whatever the chunks are in which the stream
arrives. A line that is not a message is skipped alone; one that is too long ends
the stream.
-/

namespace LeanCtx.Stdio

open ByteText (Bytes newline splitLines joinLines splitLines_joinLines_append splitLines_tail
  splitLines_cons_line)

variable {T : Type} (serde : Serde T)

/-! ## Looking for a newline -/

theorem split_of_findIdx? {α : Type} {p : α → Bool} {l : List α} {k : ℕ}
    (h : l.findIdx? p = some k) :
    ∃ a x b, l = a ++ x :: b ∧ a.length = k ∧ p x = true ∧ ∀ y ∈ a, p y = false := by
  induction l generalizing k with
  | nil => cases h
  | cons y l ih =>
    rw [List.findIdx?_cons] at h
    cases hy : p y with
    | true =>
      rw [hy, if_pos rfl] at h
      cases h
      exact ⟨[], y, l, rfl, rfl, hy, List.forall_mem_nil _⟩
    | false =>
      rw [hy, if_neg Bool.false_ne_true] at h
      obtain ⟨k, hk, rfl⟩ := Option.map_eq_some_iff.mp h
      obtain ⟨a, x, b, rfl, rfl, hx, ha⟩ := ih hk
      refine ⟨y :: a, x, b, rfl, rfl, hx, ?_⟩
      intro z hz
      rcases List.mem_cons.mp hz with rfl | hz
      · exact hy
      · exact ha z hz

section Scan

variable {limit i : ℕ} {buf : Bytes}

theorem scan_some {offset : ℕ} (hi : i ≤ buf.length) (hread : newline ∉ buf.take i)
    (h : ((buf.take (min (limit + 1) buf.length)).drop i).findIdx? (· = newline) = some offset) :
    ∃ line rest, buf = line ++ newline :: rest ∧ line.length = offset + i ∧ newline ∉ line ∧
      line.length ≤ limit := by
  obtain ⟨a, x, b, hsplit, hlen, hx, ha⟩ := split_of_findIdx? h
  obtain rfl : x = newline := of_decide_eq_true hx
  have hroom := congrArg List.length hsplit
  rw [List.length_drop, List.length_take, List.length_append, List.length_cons] at hroom
  rw [List.drop_take] at hsplit
  obtain ⟨rest, hrest⟩ : ∃ rest, buf.drop i = a ++ newline :: rest := by
    refine ⟨b ++ (buf.drop i).drop (min (limit + 1) buf.length - i), ?_⟩
    conv_lhs => rw [← List.take_append_drop (min (limit + 1) buf.length - i) (buf.drop i), hsplit]
    rw [List.append_assoc, List.cons_append]
  have hline : (buf.take i ++ a).length = offset + i := by
    rw [List.length_append, List.length_take, min_eq_left hi, hlen, Nat.add_comm]
  refine ⟨buf.take i ++ a, rest, ?_, hline, ?_, ?_⟩
  · rw [List.append_assoc, ← hrest, List.take_append_drop]
  · intro hmem
    rcases List.mem_append.mp hmem with hmem | hmem
    · exact hread hmem
    · exact absurd (ha newline hmem) (by decide)
  · rw [hline]
    omega

theorem scan_none (hread : newline ∉ buf.take i)
    (h : ((buf.take (min (limit + 1) buf.length)).drop i).findIdx? (· = newline) = none) :
    newline ∉ buf.take (limit + 1) := by
  rw [List.take_eq_take_min]
  intro hmem
  rw [← List.take_append_drop i (buf.take _), List.take_take] at hmem
  rcases List.mem_append.mp hmem with hmem | hmem
  · exact hread (List.take_subset_take_left _ (min_le_left _ _) hmem)
  · exact absurd (List.findIdx?_eq_none_iff.mp h newline hmem) (by decide)

end Scan

/-! ## One call -/

/-- What the payloads of lines give. -/
def lineEvents (protocol : WireProtocol) (lines : List Bytes) : List (Event T) :=
  lines.flatMap fun line => events serde (some protocol) (withoutCarriageReturn line)

/-- A line is known after one was read. -/
def protocolAfter (protocol : Option WireProtocol) (lines : List Bytes) : Option WireProtocol :=
  if lines = [] then protocol else some (protocol.getD .jsonLine)

/-- A line that a newline ends, within the limit. -/
def IsLine (limit : ℕ) (line : Bytes) : Prop := newline ∉ line ∧ line.length ≤ limit

/-- More than the limit without a newline. -/
def Oversized (limit : ℕ) (rest : Bytes) : Prop :=
  limit < rest.length ∧ newline ∉ rest.take (limit + 1)

/-- A codec that has looked at the whole of an unfinished line. -/
def waiting (limit : ℕ) (protocol : Option WireProtocol) (rest : Bytes) : Codec :=
  { nextIndex := rest.length, maxLength := limit, protocol }

/-- The lines that a call has read, and what it leaves. -/
inductive LineStep (limit : ℕ) (protocol : Option WireProtocol) (lines : List Bytes) :
    Decoded T → Prop
  | item {message : T} {rest : Bytes} {replies : List (Event T)} (hne : lines ≠ [])
      (hevents : lineEvents serde (protocol.getD .jsonLine) lines = replies ++ [.message message]) :
      LineStep limit protocol lines
        ⟨.item message, ⟨0, limit, false, some (protocol.getD .jsonLine)⟩, rest, replies⟩
  | pending {rest : Bytes} {replies : List (Event T)} (hrest : IsLine limit rest)
      (hevents : lineEvents serde (protocol.getD .jsonLine) lines = replies) :
      LineStep limit protocol lines
        ⟨.pending, waiting limit (protocolAfter protocol lines) rest, rest, replies⟩
  | failed {error : CodecError} {c : Codec} {rest : Bytes} {replies : List (Event T)}
      (hrest : Oversized limit rest)
      (hevents : lineEvents serde (protocol.getD .jsonLine) lines = replies) :
      LineStep limit protocol lines ⟨.failed error, c, rest, replies⟩

theorem LineStep.cons {limit : ℕ} {protocol : Option WireProtocol} {line : Bytes}
    {lines : List Bytes} {d : Decoded T}
    (h : LineStep serde limit (some (protocol.getD .jsonLine)) lines d) :
    LineStep serde limit protocol (line :: lines)
      (d.after (events serde (some (protocol.getD .jsonLine)) (withoutCarriageReturn line))) := by
  have hsame : protocolAfter (some (protocol.getD .jsonLine)) lines =
      protocolAfter protocol (line :: lines) := by
    rw [protocolAfter, protocolAfter, if_neg (List.cons_ne_nil _ _)]
    exact ite_self _
  cases h with
  | item hne hevents =>
    refine .item (List.cons_ne_nil _ _) ?_
    rw [lineEvents, List.flatMap_cons, List.append_assoc]
    exact congrArg _ hevents
  | pending hrest hevents =>
    rw [hsame]
    exact .pending hrest (congrArg _ hevents)
  | failed hrest hevents => exact .failed hrest (congrArg _ hevents)

theorem decodeJsonLine_cases (limit : ℕ) (protocol : Option WireProtocol) {i fuel : ℕ}
    {buf : Bytes} (hfuel : buf.length < fuel) (hi : i ≤ buf.length)
    (hread : newline ∉ buf.take i) :
    ∃ lines, (∀ line ∈ lines, IsLine limit line) ∧
      buf = joinLines lines ++ (decodeJsonLine serde fuel ⟨i, limit, false, protocol⟩ buf).buffer ∧
      LineStep serde limit protocol lines
        (decodeJsonLine serde fuel ⟨i, limit, false, protocol⟩ buf) := by
  induction fuel generalizing i protocol buf with
  | zero => exact absurd hfuel (Nat.not_lt_zero _)
  | succ fuel ih =>
    rw [decodeJsonLine]
    dsimp only
    cases hscan : ((buf.take (min (limit + 1) buf.length)).drop i).findIdx? (· = newline) with
    | some offset =>
      obtain ⟨line, rest, rfl, hlen, hline, hfits⟩ := scan_some hi hread hscan
      have htake : (line ++ newline :: rest).take (offset + i) = line := by
        rw [← hlen, List.take_left]
      have hdrop : (line ++ newline :: rest).drop (offset + i + 1) = rest := by
        rw [← hlen, ← List.drop_drop, List.drop_left]
        rfl
      rw [List.length_append, List.length_cons] at hfuel
      dsimp only
      rw [htake, hdrop]
      have hparse : events serde (some (protocol.getD .jsonLine)) (withoutCarriageReturn line) =
          (tryParseWithCompatibility serde (withoutCarriageReturn line)).events
            (some (protocol.getD .jsonLine)) := rfl
      obtain ⟨lines, hlines, hrest, hstep⟩ :=
        ih (some (protocol.getD .jsonLine)) (by omega) (Nat.zero_le rest.length) List.not_mem_nil
      have hcons := @LineStep.cons _ serde _ _ line _ _ hstep
      have hall : ∀ l ∈ line :: lines, IsLine limit l := by
        intro l hl
        rcases List.mem_cons.mp hl with rfl | hl
        · exact ⟨hline, hfits⟩
        · exact hlines l hl
      have hjoin : line ++ newline :: rest = joinLines (line :: lines) ++
          (decodeJsonLine serde fuel ⟨0, limit, false, some (protocol.getD .jsonLine)⟩
            rest).buffer := by
        rw [joinLines, List.flatMap_cons, List.append_assoc, List.append_assoc,
          List.singleton_append]
        exact congrArg (line ++ newline :: ·) hrest
      rw [hparse] at hcons
      cases htry : tryParseWithCompatibility serde (withoutCarriageReturn line) with
      | item message =>
        refine ⟨[line], ?_, ?_, .item (List.cons_ne_nil _ _) ?_⟩
        · exact fun l hl => hall l (List.mem_cons.mpr (Or.inl (List.mem_singleton.mp hl)))
        · rw [joinLines, List.flatMap_singleton, List.append_assoc]
          rfl
        · rw [lineEvents, List.flatMap_singleton, hparse, htry]
          rfl
      | ignored =>
        rw [htry] at hcons
        exact ⟨line :: lines, hall, hjoin, hcons⟩
      | notFound id method =>
        rw [htry] at hcons
        exact ⟨line :: lines, hall, hjoin, hcons⟩
      | malformed =>
        rw [htry] at hcons
        exact ⟨line :: lines, hall, hjoin, hcons⟩
    | none =>
      have hnone := scan_none hread hscan
      dsimp only
      split_ifs with hlong
      · exact ⟨[], List.forall_mem_nil _, rfl, .failed ⟨hlong, hnone⟩ rfl⟩
      · have hall : buf.take (limit + 1) = buf := List.take_of_length_le (by omega)
        have hto : min (limit + 1) buf.length = buf.length := by omega
        rw [hall] at hnone
        rw [hto]
        exact ⟨[], List.forall_mem_nil _, rfl, .pending ⟨hnone, not_lt.mp hlong⟩ rfl⟩

/-! ## A chunk -/

theorem joinLines_append (a b : List Bytes) : joinLines (a ++ b) = joinLines a ++ joinLines b :=
  List.flatMap_append

theorem length_le_joinLines (lines : List Bytes) : lines.length ≤ (joinLines lines).length := by
  induction lines with
  | nil => exact Nat.le_refl 0
  | cons line lines ih =>
    rw [joinLines, List.flatMap_cons, List.length_append, List.length_append, List.length_cons,
      List.length_singleton]
    change _ ≤ _ + (joinLines lines).length
    omega

theorem lineEvents_append (protocol : WireProtocol) (a b : List Bytes) :
    lineEvents serde protocol (a ++ b) =
      lineEvents serde protocol a ++ lineEvents serde protocol b :=
  List.flatMap_append

theorem protocolAfter_append (protocol : Option WireProtocol) (a b : List Bytes) :
    protocolAfter (protocolAfter protocol a) b = protocolAfter protocol (a ++ b) := by
  by_cases ha : a = []
  · subst ha
    rfl
  · rw [protocolAfter, protocolAfter, protocolAfter, if_neg ha,
      if_neg (List.append_ne_nil_of_left_ne_nil ha b)]
    exact ite_self _

/-- The session is behind an unfinished line, or a line that was too long has ended it. -/
inductive LineEnd (limit : ℕ) (protocol : Option WireProtocol) (rest : Bytes) : Session → Prop
  | behind (h : IsLine limit rest) :
      LineEnd limit protocol rest ⟨waiting limit protocol rest, rest, false⟩
  | ended {c : Codec} {buffer : Bytes} (h : Oversized limit rest) :
      LineEnd limit protocol rest ⟨c, buffer, true⟩

/-- The stream is not, or no longer, one that may begin as a frame. -/
def IsLines (protocol : Option WireProtocol) (buf : Bytes) : Prop :=
  protocol = some .jsonLine ∨ protocol = none ∧ looksLikeContentLengthFrame buf = false

theorem IsLines.after {protocol : Option WireProtocol} {buf : Bytes} (h : IsLines protocol buf)
    (rest : Bytes) : IsLines (some (protocol.getD .jsonLine)) rest := by
  rcases h with rfl | ⟨rfl, -⟩
  · exact Or.inl rfl
  · exact Or.inl rfl

theorem IsLines.rest {protocol : Option WireProtocol} {lines : List Bytes} {last : Bytes}
    (h : IsLines protocol (joinLines lines ++ last)) :
    IsLines (protocolAfter protocol lines) last := by
  rw [protocolAfter]
  split_ifs with hnil
  · subst hnil
    exact h
  · exact h.after last

theorem decode_lines {limit i : ℕ} {protocol : Option WireProtocol} {buf : Bytes}
    (h : IsLines protocol buf) : decode serde ⟨i, limit, false, protocol⟩ buf =
      decodeJsonLine serde (buf.length + 1) ⟨i, limit, false, protocol⟩ buf := by
  rcases h with rfl | ⟨rfl, hlook⟩
  · rfl
  · rw [decode]
    dsimp only
    rw [hlook, if_neg Bool.false_ne_true]

theorem drain_lines (limit : ℕ) {protocol : Option WireProtocol} {i fuel : ℕ} {buf : Bytes}
    (hfuel : buf.length < fuel) (hi : i ≤ buf.length) (hread : newline ∉ buf.take i)
    (h : IsLines protocol buf) :
    ∃ lines rest, (∀ line ∈ lines, IsLine limit line) ∧ buf = joinLines lines ++ rest ∧
      (drain serde fuel ⟨⟨i, limit, false, protocol⟩, buf, false⟩).2 =
        lineEvents serde (protocol.getD .jsonLine) lines ∧
      LineEnd limit (protocolAfter protocol lines) rest
        (drain serde fuel ⟨⟨i, limit, false, protocol⟩, buf, false⟩).1 := by
  induction fuel generalizing i protocol buf with
  | zero => exact absurd hfuel (Nat.not_lt_zero _)
  | succ fuel ih =>
    rw [drain]
    dsimp only
    rw [decode_lines serde h]
    obtain ⟨lines, hlines, hbuf, hstep⟩ := decodeJsonLine_cases serde limit protocol
      (Nat.lt_succ_self buf.length) hi hread
    generalize decodeJsonLine serde (buf.length + 1) ⟨i, limit, false, protocol⟩ buf = d
      at hbuf hstep ⊢
    cases hstep with
    | @item message rest replies hne hevents =>
      dsimp only at hbuf ⊢
      have hshorter : rest.length < buf.length := by
        have hpos := List.length_pos_of_ne_nil hne
        have hle := length_le_joinLines lines
        rw [hbuf, List.length_append]
        omega
      obtain ⟨more, last, hmore, hrest, hout, hend⟩ := ih (by omega)
        (Nat.zero_le rest.length) List.not_mem_nil (h.after rest)
      refine ⟨lines ++ more, last, ?_, ?_, ?_, ?_⟩
      · intro line hline
        rcases List.mem_append.mp hline with hline | hline
        · exact hlines line hline
        · exact hmore line hline
      · rw [hbuf, joinLines_append, List.append_assoc, ← hrest]
      · rw [lineEvents_append, hevents, hout, List.append_assoc]
        rfl
      · rw [← protocolAfter_append, protocolAfter, protocolAfter, if_neg hne]
        exact hend
    | @pending rest replies hrest hevents =>
      exact ⟨lines, rest, hlines, hbuf, hevents.symm, .behind hrest⟩
    | @failed error c rest replies hrest hevents =>
      exact ⟨lines, rest, hlines, hbuf, hevents.symm, .ended hrest⟩

/-! ## A run -/

theorem looksLike_append {a b : Bytes} (h : looksLikeContentLengthFrame a = true) :
    looksLikeContentLengthFrame (a ++ b) = true := by
  have hname := of_decide_eq_true h
  have hlen := congrArg List.length hname
  rw [List.length_map, List.length_take] at hlen
  have htake : (a ++ b).take contentLengthName.length = a.take contentLengthName.length :=
    List.take_append_of_le_length (by omega)
  rw [looksLikeContentLengthFrame, htake]
  exact h

theorem IsLines.take {protocol : Option WireProtocol} {a b : Bytes}
    (h : IsLines protocol (a ++ b)) : IsLines protocol a := by
  rcases h with rfl | ⟨rfl, hlook⟩
  · exact Or.inl rfl
  · refine Or.inr ⟨rfl, Bool.eq_false_iff.mpr fun ha => ?_⟩
    rw [looksLike_append ha] at hlook
    cases hlook

theorem Oversized.append {limit : ℕ} {rest : Bytes} (h : Oversized limit rest) (more : Bytes) :
    Oversized limit (rest ++ more) := by
  refine ⟨?_, ?_⟩
  · rw [List.length_append]
    exact Nat.lt_add_right _ h.1
  · rw [List.take_append_of_le_length h.1]
    exact h.2

theorem run_closed (chunks : List Bytes) {s : Session} (h : s.closed = true) :
    Transducer.run (feed serde) chunks s = (s, []) := by
  induction chunks with
  | nil => rfl
  | cons chunk chunks ih =>
    have hfeed : feed serde chunk s = (s, []) := if_pos h
    rw [Transducer.run_cons, Transducer.andThen, hfeed, ih]
    rfl

/-- However the rest of a stream arrives, its lines are read. -/
theorem run_lines {limit : ℕ} {protocol : Option WireProtocol} (chunks : List Bytes)
    {rest : Bytes} (hrest : IsLine limit rest) (h : IsLines protocol (rest ++ chunks.flatten)) :
    ∃ lines last, (∀ line ∈ lines, IsLine limit line) ∧
      rest ++ chunks.flatten = joinLines lines ++ last ∧
      (Transducer.run (feed serde) chunks ⟨waiting limit protocol rest, rest, false⟩).2 =
        lineEvents serde (protocol.getD .jsonLine) lines ∧
      LineEnd limit (protocolAfter protocol lines) last
        (Transducer.run (feed serde) chunks ⟨waiting limit protocol rest, rest, false⟩).1 := by
  induction chunks generalizing protocol rest with
  | nil => exact ⟨[], rest, List.forall_mem_nil _, List.append_nil rest, rfl, .behind hrest⟩
  | cons chunk chunks ih =>
    rw [List.flatten_cons, ← List.append_assoc] at h ⊢
    have hread : newline ∉ (rest ++ chunk).take rest.length := by
      rw [List.take_left]
      exact hrest.1
    have hi : rest.length ≤ (rest ++ chunk).length := by
      rw [List.length_append]
      exact Nat.le_add_right _ _
    obtain ⟨lines, last, hlines, hbuf, hout, hend⟩ := drain_lines serde limit
      (Nat.lt_succ_self (rest ++ chunk).length) hi hread h.take
    have hfeed : feed serde chunk ⟨waiting limit protocol rest, rest, false⟩ =
        drain serde ((rest ++ chunk).length + 1)
          ⟨⟨rest.length, limit, false, protocol⟩, rest ++ chunk, false⟩ := rfl
    rw [Transducer.run_cons, Transducer.andThen, hfeed]
    generalize drain serde ((rest ++ chunk).length + 1)
      ⟨⟨rest.length, limit, false, protocol⟩, rest ++ chunk, false⟩ = fed at hout hend ⊢
    obtain ⟨s, out⟩ := fed
    dsimp only at hout hend ⊢
    cases hend with
    | behind hlast =>
      have hgoes : IsLines (protocolAfter protocol lines) (last ++ chunks.flatten) := by
        rw [hbuf, List.append_assoc] at h
        exact h.rest
      obtain ⟨more, final, hmore, hflat, hrun, hfinal⟩ := ih hlast hgoes
      have hsame : (protocolAfter protocol lines).getD .jsonLine = protocol.getD .jsonLine := by
        rw [protocolAfter]
        split_ifs <;> rfl
      refine ⟨lines ++ more, final, ?_, ?_, ?_, ?_⟩
      · intro line hline
        rcases List.mem_append.mp hline with hline | hline
        · exact hlines line hline
        · exact hmore line hline
      · rw [hbuf, List.append_assoc, hflat, joinLines_append, List.append_assoc]
      · rw [hout, hrun, hsame, lineEvents_append]
      · rw [← protocolAfter_append]
        exact hfinal
    | ended hlong =>
      rw [run_closed serde chunks rfl]
      refine ⟨lines, last ++ chunks.flatten, hlines, ?_, ?_, .ended (hlong.append _)⟩
      · rw [hbuf, List.append_assoc]
      · rw [List.append_nil, hout]

/-! ## The end of the stream -/

theorem decode_rest {limit i : ℕ} {protocol : Option WireProtocol} {rest : Bytes}
    (hi : i ≤ rest.length) (hrest : IsLine limit rest) (h : IsLines protocol rest) :
    decode serde ⟨i, limit, false, protocol⟩ rest =
      ⟨.pending, waiting limit protocol rest, rest, []⟩ := by
  have hread : newline ∉ rest.take i := fun hmem => hrest.1 (List.mem_of_mem_take hmem)
  obtain ⟨lines, -, hbuf, hstep⟩ := decodeJsonLine_cases serde limit protocol
    (Nat.lt_succ_self rest.length) hi hread
  rw [decode_lines serde h]
  generalize decodeJsonLine serde (rest.length + 1) ⟨i, limit, false, protocol⟩ rest = d
    at hbuf hstep ⊢
  have hnil : lines = [] := by
    cases lines with
    | nil => rfl
    | cons line lines =>
      refine absurd ?_ hrest.1
      rw [hbuf, joinLines, List.flatMap_cons, List.append_assoc, List.append_assoc]
      exact List.mem_append_right _ List.mem_cons_self
  subst hnil
  cases hstep with
  | item hne hevents => exact absurd rfl hne
  | @pending last replies hlast hevents =>
    obtain rfl : rest = last := hbuf
    obtain rfl : [] = replies := hevents
    rfl
  | @failed error c last replies hlong hevents =>
    obtain rfl : rest = last := hbuf
    exact absurd hlong.1 (not_lt.mpr hrest.2)

/-- What stands behind the last newline; a lone carriage return is nothing. -/
def lastEvents (protocol : Option WireProtocol) (last : Bytes) : List (Event T) :=
  if last = [] ∨ last = [13] then [] else events serde protocol (withoutCarriageReturn last)

theorem drainEof_nil {limit : ℕ} {protocol : Option WireProtocol} (h : IsLines protocol [])
    (fuel : ℕ) : drainEof serde (fuel + 1) ⟨⟨0, limit, false, protocol⟩, [], false⟩ = [] := by
  have hline : IsLine limit [] := ⟨List.not_mem_nil, Nat.zero_le _⟩
  have hdecode := decode_rest serde (Nat.zero_le 0) hline h
  rw [drainEof, decodeEof, if_neg (fun hand => hand.2 rfl), hdecode]
  rfl

theorem drainEof_rest {limit : ℕ} {protocol : Option WireProtocol} {last : Bytes}
    (hlast : IsLine limit last) (h : IsLines protocol last) (fuel : ℕ) :
    drainEof serde (fuel + 2) ⟨waiting limit protocol last, last, false⟩ =
      lastEvents serde protocol last := by
  have hdecode : decode serde (waiting limit protocol last) last =
      ⟨.pending, waiting limit protocol last, last, []⟩ :=
    decode_rest serde (Nat.le_refl last.length) hlast h
  have hproto : ¬((waiting limit protocol last).protocol = some .contentLength ∧ last ≠ []) := by
    rintro ⟨hp, -⟩
    rcases h with rfl | ⟨rfl, -⟩ <;> cases hp
  have hnil : IsLines protocol [] := by
    rcases h with rfl | ⟨rfl, -⟩
    · exact Or.inl rfl
    · exact Or.inr ⟨rfl, rfl⟩
  rw [drainEof]
  dsimp only
  rw [decodeEof, if_neg hproto, hdecode]
  dsimp only
  rw [lastEvents]
  split_ifs with hblank
  · rfl
  · rw [events]
    cases htry : tryParseWithCompatibility serde (withoutCarriageReturn last) with
    | item message =>
      dsimp only
      exact congrArg ([] ++ Event.message message :: ·) (drainEof_nil serde hnil fuel)
    | ignored => rfl
    | notFound id method => rfl
    | malformed => rfl

/-! ## The whole stream -/

/-- The lines of a stream up to one that is too long, and what stands behind the last newline if
none is. -/
def streamEvents (limit : ℕ) (stream : Bytes) : List (Event T) :=
  let lines := (splitLines stream).1
  let last := (splitLines stream).2
  lineEvents serde .jsonLine (lines.takeWhile fun line => line.length ≤ limit) ++
    if (lines ++ [last]).all fun line => line.length ≤ limit then
      lastEvents serde (protocolAfter none lines) last
    else []

theorem takeWhile_lines {limit : ℕ} {lines : List Bytes}
    (h : ∀ line ∈ lines, IsLine limit line) (more : List Bytes) :
    (lines ++ more).takeWhile (fun line => line.length ≤ limit) =
      lines ++ more.takeWhile fun line => line.length ≤ limit :=
  List.takeWhile_append_of_pos fun line hline => decide_eq_true (h line hline).2

theorem Oversized.first {limit : ℕ} {rest line : Bytes} {lines : List Bytes}
    (h : Oversized limit rest) (hlines : (splitLines rest).1 = line :: lines) :
    limit < line.length := by
  have hjoin := ByteText.joinLines_splitLines rest
  rw [hlines, joinLines, List.flatMap_cons, List.append_assoc, List.append_assoc] at hjoin
  by_contra hshort
  refine h.2 ?_
  rw [← hjoin, List.take_append]
  refine List.mem_append_right _ ?_
  obtain ⟨k, hk⟩ : ∃ k, limit + 1 - line.length = k + 1 := ⟨limit - line.length, by omega⟩
  rw [hk]
  exact List.mem_cons_self

theorem Oversized.last {limit : ℕ} {rest : Bytes} (h : Oversized limit rest)
    (hlines : (splitLines rest).1 = []) : limit < (splitLines rest).2.length := by
  have hjoin := ByteText.joinLines_splitLines rest
  rw [hlines] at hjoin
  change (splitLines rest).2 = rest at hjoin
  rw [hjoin]
  exact h.1

theorem received_of_lines (limit : ℕ) (chunks : List Bytes)
    (h : looksLikeContentLengthFrame chunks.flatten = false) :
    received serde { maxLength := limit } chunks = streamEvents serde limit chunks.flatten := by
  have hnil : IsLine limit [] := ⟨List.not_mem_nil, Nat.zero_le _⟩
  have hlines : IsLines none ([] ++ chunks.flatten) := Or.inr ⟨rfl, h⟩
  obtain ⟨lines, last, hall, hflat, hrun, hend⟩ := run_lines serde chunks hnil hlines
  rw [List.nil_append] at hlines hflat
  have hstart : ({ codec := { maxLength := limit } } : Session) =
      ⟨waiting limit none [], [], false⟩ := rfl
  have hsplit := splitLines_joinLines_append (fun line hline => (hall line hline).1) last
  rw [hflat] at hlines
  rw [received, streamEvents, hflat, hsplit, hstart]
  generalize Transducer.run (feed serde) chunks ⟨waiting limit none [], [], false⟩ =
    r at hrun hend ⊢
  obtain ⟨s, out⟩ := r
  dsimp only at hrun hend ⊢
  rw [takeWhile_lines hall, hrun]
  cases hend with
  | behind hlast =>
    have hfits : (lines ++ [last]).all (fun line => line.length ≤ limit) = true := by
      refine List.all_eq_true.mpr fun line hline => decide_eq_true ?_
      rcases List.mem_append.mp hline with hline | hline
      · exact (hall line hline).2
      · rw [List.mem_singleton.mp hline]
        exact hlast.2
    rw [splitLines_tail hlast.1, List.append_nil, if_pos hfits, if_neg Bool.false_ne_true,
      drainEof_rest serde hlast hlines.rest]
    rw [List.takeWhile_nil, List.append_nil]
    rfl
  | ended hlong =>
    have hlongest :
        ∃ line ∈ lines ++ (splitLines last).1 ++ [(splitLines last).2], limit < line.length := by
      cases hmore : (splitLines last).1 with
      | nil =>
        exact ⟨(splitLines last).2, List.mem_append_right _ List.mem_cons_self, hlong.last hmore⟩
      | cons line more =>
        refine ⟨line, ?_, hlong.first hmore⟩
        exact List.mem_append_left _ (List.mem_append_right _ List.mem_cons_self)
    have hstops : ((splitLines last).1.takeWhile fun line => line.length ≤ limit) =
        [] := by
      cases hmore : (splitLines last).1 with
      | nil => rfl
      | cons line more =>
        refine List.takeWhile_cons_of_neg ?_
        rw [decide_eq_true_eq]
        exact not_le.mpr (hlong.first hmore)
    have hnot : (lines ++ (splitLines last).1 ++ [(splitLines last).2]).all
        (fun line => line.length ≤ limit) = false := by
      obtain ⟨line, hline, hlen⟩ := hlongest
      refine List.all_eq_false.mpr ⟨line, hline, ?_⟩
      rw [decide_eq_true_eq]
      exact not_le.mpr hlen
    rw [hstops, hnot, if_pos rfl, if_neg Bool.false_ne_true, List.append_nil, List.append_nil,
      List.append_nil]
    rfl

/-- Whatever the chunks are, a stream of lines gives what its lines give. -/
theorem received_lines (chunks : List Bytes)
    (h : looksLikeContentLengthFrame chunks.flatten = false) :
    received serde {} chunks = streamEvents serde (32 * 1024 * 1024) chunks.flatten :=
  received_of_lines serde (32 * 1024 * 1024) chunks h

/-- What begins as an object is a message. -/
def plainSerde : Serde Bytes where
  fromSlice payload := if payload.head? = some 123 then some payload else none
  fromStr _ := none
  toVec payload := payload

/-- A message cut in two, a line that is none, and a message that the end of the stream ends. -/
theorem received_lines_cut : looksLikeContentLengthFrame
      [[123], [125, 13, 10, 120, 10, 123]].flatten = false ∧
    received plainSerde {} [[123], [125, 13, 10, 120, 10, 123]] =
      [.message [123, 125], .message [123]] :=
  ⟨by decide,
    (received_lines plainSerde [[123], [125, 13, 10, 120, 10, 123]] (by decide)).trans rfl⟩

end LeanCtx.Stdio
