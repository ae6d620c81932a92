import LeanCtx.ByteText
import Mathlib.Data.List.Basic

/-!
# Files of text lines, and their ends

A file of text is read as its lines. To find its newest line without reading it
whole, a program looks at its last bytes only. Where these start inside a
character they are no text; a lossy reader replaces what it cannot decode. In
both cases the last line of the window is the last line of the file as long as
that line and its newline fit into the window.
-/

namespace LeanCtx.TextFile

open ByteText

/-! ## Lines -/

/-- The carriage return of a line end belongs to the line end. -/
def stripReturn (line : List Char) : List Char :=
  if line.getLast? = some '\r' then line.dropLast else line

/-- `str::lines`. -/
def lineChars (text : List Char) : List (List Char) :=
  (text.splitOn '\n').dropLast.map stripReturn ++
    (text.splitOn '\n').getLast?.toList.filter (· ≠ [])

def lines (text : String) : List String := (lineChars text.toList).map String.ofList

/-- The text of the given lines, each ended by a newline. -/
def joinLines (ls : List String) : String := String.join (ls.map (· ++ "\n"))

/-- A text that is written as one line and read back as it is. -/
def OneLine (s : String) : Prop := '\n' ∉ s.toList ∧ s.toList.getLast? ≠ some '\r'

@[simp] theorem lines_empty : lines "" = [] := by
  simp [lines, lineChars]

@[simp] theorem joinLines_nil : joinLines [] = "" := rfl

@[simp] theorem joinLines_append (ls ls' : List String) :
    joinLines (ls ++ ls') = joinLines ls ++ joinLines ls' := by
  simp [joinLines, String.join_append]

theorem joinLines_singleton (l : String) : joinLines [l] = l ++ "\n" := by
  simp [joinLines]

theorem joinLines_cons (l : String) (ls : List String) :
    joinLines (l :: ls) = l ++ "\n" ++ joinLines ls := by
  rw [← List.singleton_append, joinLines_append, joinLines_singleton]

/-- The lines of a text up to a newline and after it. -/
theorem lineChars_append (a b : List Char) :
    lineChars (a ++ '\n' :: b) = (a.splitOn '\n').map stripReturn ++ lineChars b := by
  have hb : b.splitOn '\n' ≠ [] := List.splitOn_ne_nil _ _
  unfold lineChars
  rw [List.splitOn_append_cons_self, List.dropLast_append_of_ne_nil hb,
    List.getLast?_append_of_ne_nil _ hb, List.map_append, List.append_assoc]

theorem lines_append_newline {a : String} (ha : '\n' ∉ a.toList) (b : String) :
    lines (a ++ "\n" ++ b) = String.ofList (stripReturn a.toList) :: lines b := by
  have hchars : (a ++ "\n" ++ b).toList = a.toList ++ '\n' :: b.toList := by simp
  rw [lines, hchars, lineChars_append, List.splitOn_eq_singleton ha]
  rfl

theorem lines_joinLines_append {ls : List String} (h : ∀ l ∈ ls, OneLine l) (b : String) :
    lines (joinLines ls ++ b) = ls ++ lines b := by
  induction ls with
  | nil => simp
  | cons l ls ih =>
    obtain ⟨hnewline, hreturn⟩ := h l List.mem_cons_self
    have hsplit : joinLines (l :: ls) ++ b = l ++ "\n" ++ (joinLines ls ++ b) := by
      simp [joinLines, String.append_assoc]
    rw [hsplit, lines_append_newline hnewline, ih fun l' hl' => h l' (List.mem_cons_of_mem _ hl'),
      stripReturn, if_neg hreturn, String.ofList_toList, List.cons_append]

theorem lines_joinLines {ls : List String} (h : ∀ l ∈ ls, OneLine l) :
    lines (joinLines ls) = ls := by
  have happend := lines_joinLines_append h ""
  rwa [String.append_empty, lines_empty, List.append_nil] at happend

theorem lines_oneLine {l : String} (h : OneLine l) : lines (l ++ "\n") = [l] := by
  have hjoin : lines (joinLines [l]) = [l] := by
    apply lines_joinLines
    intro l' hl'
    rwa [List.mem_singleton.mp hl']
  rwa [joinLines_singleton] at hjoin

/-- Whatever stands before a newline, the lines after it are the last ones. -/
theorem lines_after_newline (a b : String) : ∃ front, lines (a ++ "\n" ++ b) = front ++ lines b := by
  have hchars : (a ++ "\n" ++ b).toList = a.toList ++ '\n' :: b.toList := by simp
  rw [lines, hchars, lineChars_append, List.map_append]
  exact ⟨_, rfl⟩

/-- A piece between separators holds no separator. -/
theorem not_mem_of_mem_splitOn {sep : Char} {text piece : List Char}
    (h : piece ∈ text.splitOn sep) : sep ∉ piece := by
  induction text generalizing piece with
  | nil =>
    rw [List.splitOn_nil, List.mem_singleton] at h
    simp [h]
  | cons c text ih =>
    rw [List.splitOn_cons_eq_if_modifyHead] at h
    split at h
    · rcases List.mem_cons.mp h with rfl | h
      · simp
      · exact ih h
    · rename_i hc
      cases hpieces : text.splitOn sep with
      | nil => exact absurd hpieces (List.splitOn_ne_nil _ _)
      | cons first rest =>
        rw [hpieces, List.modifyHead_cons] at h
        rcases List.mem_cons.mp h with rfl | h
        · have hfirst := ih (hpieces ▸ List.mem_cons_self)
          simp only [beq_iff_eq] at hc
          simp [hfirst, Ne.symm hc]
        · exact ih (hpieces ▸ List.mem_cons_of_mem _ h)

theorem mem_stripReturn {c : Char} {line : List Char} (h : c ∈ stripReturn line) : c ∈ line := by
  unfold stripReturn at h
  split at h
  · exact (List.dropLast_sublist _).mem h
  · exact h

/-- A line holds no newline. -/
theorem newline_not_mem_of_mem_lines {text l : String} (h : l ∈ lines text) :
    '\n' ∉ l.toList := by
  obtain ⟨cs, hcs, rfl⟩ := List.mem_map.mp h
  rw [String.toList_ofList]
  rcases List.mem_append.mp hcs with hcs | hcs
  · obtain ⟨p, hp, rfl⟩ := List.mem_map.mp hcs
    exact fun hc => not_mem_of_mem_splitOn ((List.dropLast_sublist _).mem hp) (mem_stripReturn hc)
  · have hlast := List.mem_of_mem_filter hcs
    exact not_mem_of_mem_splitOn (List.mem_of_getLast? (Option.mem_toList.mp hlast))

/-- Lines put together with newlines between them give no more lines. -/
theorem length_lines_intercalate_le {ls : List String} (h : ∀ l ∈ ls, '\n' ∉ l.toList) :
    (lines ("\n".intercalate ls)).length ≤ ls.length := by
  induction ls with
  | nil => simp
  | cons l ls ih =>
    have hl := h l List.mem_cons_self
    have htail := ih fun l' hl' => h l' (List.mem_cons_of_mem _ hl')
    cases ls with
    | nil =>
      rw [String.intercalate_singleton, lines, List.length_map, lineChars,
        List.splitOn_eq_singleton hl]
      by_cases hempty : l.toList = []
      · simp [hempty]
      · simp [hempty]
    | cons l' ls =>
      rw [String.intercalate_cons_cons, lines_append_newline hl, List.length_cons,
        List.length_cons]
      exact Nat.succ_le_succ htail

/-! ## Lossy decoding -/

/-- The character that the bytes start with, and the bytes after it. -/
def frontChar (bytes : Bytes) : Option (Char × Bytes) :=
  (bytes.toByteArray.utf8DecodeChar? 0).map fun c => (c, bytes.drop c.utf8Size)

theorem frontChar_append (c : Char) (rest : Bytes) :
    frontChar (String.utf8EncodeChar c ++ rest) = some (c, rest) := by
  rw [frontChar, List.toByteArray_append, ByteArray.utf8DecodeChar?_utf8EncodeChar_append,
    Option.map_some, ← String.length_utf8EncodeChar, List.drop_left]

theorem eq_of_frontChar {bytes rest : Bytes} {c : Char} (h : frontChar bytes = some (c, rest)) :
    bytes = String.utf8EncodeChar c ++ rest := by
  obtain ⟨c', hdecode, hpair⟩ := Option.map_eq_some_iff.mp h
  obtain ⟨rfl, rfl⟩ := Prod.mk.inj hpair
  obtain ⟨l, hl⟩ := ByteArray.exists_of_utf8DecodeChar?_eq_some hdecode
  have hbytes : bytes = String.utf8EncodeChar c' ++ l.data.toList := by
    simpa using congrArg (fun a => a.data.toList) hl
  rw [hbytes, ← String.length_utf8EncodeChar, List.drop_left]

/-- A byte that may continue a sequence. -/
def isContinuation (b : UInt8) : Bool := 0x80 ≤ b && b ≤ 0xBF

/-- Whether the second byte of a sequence of three or four bytes may follow its first. -/
def allowsSecond (first second : UInt8) : Bool :=
  if first = 0xE0 then 0xA0 ≤ second && second ≤ 0xBF
  else if first = 0xED then 0x80 ≤ second && second ≤ 0x9F
  else if first = 0xF0 then 0x90 ≤ second && second ≤ 0xBF
  else if first = 0xF4 then 0x80 ≤ second && second ≤ 0x8F
  else isContinuation second

/-- The bytes of a sequence that is broken off, at least one: what `from_utf8_lossy` replaces by
one replacement character. -/
def brokenLength (first : UInt8) (rest : Bytes) : ℕ :=
  if 0xE0 ≤ first && first ≤ 0xF4 && allowsSecond first (rest.headD 0) then
    if 0xF0 ≤ first && isContinuation (rest.tail.headD 0) then 3 else 2
  else 1

theorem brokenLength_bounds (first : UInt8) (rest : Bytes) :
    1 ≤ brokenLength first rest ∧ brokenLength first rest ≤ 3 := by
  unfold brokenLength
  split_ifs <;> omega

/-- `String::from_utf8_lossy`. -/
def fromUtf8Lossy : Bytes → List Char
  | [] => []
  | b :: rest =>
    match _h : frontChar (b :: rest) with
    | some (c, after) => c :: fromUtf8Lossy after
    | none => '\uFFFD' :: fromUtf8Lossy ((b :: rest).drop (brokenLength b rest))
termination_by bytes => bytes.length
decreasing_by
  · have hlen := congrArg List.length (eq_of_frontChar _h)
    rw [List.length_append, String.length_utf8EncodeChar] at hlen
    have hpos := c.utf8Size_pos
    omega
  · have hpos := (brokenLength_bounds b rest).1
    rw [List.length_drop, List.length_cons]
    omega

theorem fromUtf8Lossy_char (c : Char) (rest : Bytes) :
    fromUtf8Lossy (String.utf8EncodeChar c ++ rest) = c :: fromUtf8Lossy rest := by
  have hfront := frontChar_append c rest
  cases hbytes : String.utf8EncodeChar c ++ rest with
  | nil =>
    have hlen := congrArg List.length hbytes
    rw [List.length_append, String.length_utf8EncodeChar, List.length_nil] at hlen
    have hpos := c.utf8Size_pos
    omega
  | cons b tail =>
    rw [hbytes] at hfront
    rw [fromUtf8Lossy]
    split
    · next c' after hfront' =>
      obtain ⟨rfl, rfl⟩ := Prod.mk.inj (Option.some.inj (hfront'.symm.trans hfront))
      rfl
    · next hnone =>
      rw [hfront] at hnone
      cases hnone

theorem fromUtf8Lossy_utf8 (s : String) : fromUtf8Lossy (utf8 s) = s.toList := by
  rw [utf8]
  induction s.toList with
  | nil => rw [List.flatMap_nil, fromUtf8Lossy]
  | cons c cs ih => rw [List.flatMap_cons, fromUtf8Lossy_char, ih]

theorem utf8EncodeChar_newline : String.utf8EncodeChar '\n' = [newline] := by decide

/-- A newline is a character of its own wherever it stands. -/
theorem frontChar_newline {a b after : Bytes} {c : Char} (ha : a ≠ [])
    (h : frontChar (a ++ newline :: b) = some (c, after)) :
    ∃ after', a = String.utf8EncodeChar c ++ after' ∧ after = after' ++ newline :: b := by
  have hbytes := eq_of_frontChar h
  rcases List.append_eq_append_iff.mp hbytes with ⟨mid, hchar, hafter⟩ | ⟨mid, ha', hafter⟩
  · -- the character would reach over the newline
    cases mid with
    | nil => exact ⟨[], by simpa using hchar.symm, by simpa using hafter.symm⟩
    | cons m mid =>
      have hm : m = newline := (List.cons.inj hafter).1.symm
      have hmem : newline ∈ utf8 (String.ofList [c]) := by
        simp only [utf8, String.toList_ofList, List.flatMap_cons, List.flatMap_nil,
          List.append_nil, hchar, hm, List.mem_append, List.mem_cons, true_or, or_true]
      rw [newline_mem_utf8, String.toList_ofList, List.mem_singleton] at hmem
      rw [← hmem, utf8EncodeChar_newline] at hchar
      have hlen := congrArg List.length hchar
      rw [List.length_singleton, List.length_append, List.length_cons] at hlen
      have hpos := List.length_pos_of_ne_nil ha
      omega
  · exact ⟨mid, ha', hafter⟩

theorem allowsSecond_newline (first : UInt8) : allowsSecond first newline = false := by
  unfold allowsSecond
  split_ifs <;> decide

/-- The newline after a broken sequence is not part of it, nor is the end of the bytes. -/
theorem brokenLength_newline (first : UInt8) (rest b : Bytes) :
    brokenLength first (rest ++ newline :: b) = brokenLength first rest ∧
      brokenLength first rest ≤ rest.length + 1 := by
  have hzero : allowsSecond first 0 = false := by
    unfold allowsSecond
    split_ifs <;> decide
  have hnot : isContinuation newline = false := by decide
  have hnot' : isContinuation 0 = false := by decide
  rcases rest with _ | ⟨second, _ | ⟨third, rest⟩⟩
  · simp [brokenLength, allowsSecond_newline, hzero]
  · simp only [brokenLength, List.cons_append, List.nil_append, List.headD_cons, List.tail_cons,
      List.headD_nil, hnot, hnot', Bool.and_false, Bool.false_eq_true, if_false, List.length_cons,
      List.length_nil, true_and]
    split <;> omega
  · have hbound := (brokenLength_bounds first (second :: third :: rest)).2
    refine ⟨rfl, ?_⟩
    rw [List.length_cons, List.length_cons]
    omega

theorem fromUtf8Lossy_newline (a b : Bytes) :
    fromUtf8Lossy (a ++ newline :: b) = fromUtf8Lossy a ++ '\n' :: fromUtf8Lossy b := by
  induction hn : a.length using Nat.strongRecOn generalizing a with
  | ind n ih =>
    cases a with
    | nil =>
      rw [List.nil_append, ← List.singleton_append, ← utf8EncodeChar_newline, fromUtf8Lossy_char,
        fromUtf8Lossy, List.nil_append]
    | cons first rest =>
      cases hfront : frontChar (first :: rest ++ newline :: b) with
      | some pair =>
        obtain ⟨c, after⟩ := pair
        obtain ⟨after', ha, rfl⟩ := frontChar_newline (List.cons_ne_nil _ _) hfront
        have hlen := congrArg List.length ha
        rw [List.length_append, String.length_utf8EncodeChar] at hlen
        have hpos := c.utf8Size_pos
        rw [eq_of_frontChar hfront, fromUtf8Lossy_char, ha, fromUtf8Lossy_char,
          ih after'.length (by omega) after' rfl, List.cons_append]
      | none =>
        have hnone : frontChar (first :: rest) = none := by
          cases hshort : frontChar (first :: rest) with
          | none => rfl
          | some pair =>
            rw [eq_of_frontChar hshort, List.append_assoc, frontChar_append] at hfront
            cases hfront
        obtain ⟨hsame, hle⟩ := brokenLength_newline first rest b
        have hbroken := (brokenLength_bounds first rest).1
        have hleft : fromUtf8Lossy (first :: rest ++ newline :: b) =
            '\uFFFD' :: fromUtf8Lossy ((first :: rest).drop (brokenLength first rest) ++
              newline :: b) := by
          rw [List.cons_append, fromUtf8Lossy]
          rw [List.cons_append] at hfront
          split
          · next hsome =>
            rw [hfront] at hsome
            cases hsome
          · rw [hsame, ← List.cons_append, List.drop_append_of_le_length (by simpa using hle)]
        have hright : fromUtf8Lossy (first :: rest) =
            '\uFFFD' :: fromUtf8Lossy ((first :: rest).drop (brokenLength first rest)) := by
          rw [fromUtf8Lossy]
          split
          · next hsome =>
            rw [hnone] at hsome
            cases hsome
          · rfl
        rw [hleft, hright, ih _ _ _ rfl, List.cons_append]
        rw [List.length_drop]
        rw [List.length_cons] at hn ⊢
        omega

/-! ## The end of a file -/

/-- The last `n` bytes. -/
def lastBytes (n : ℕ) (bytes : Bytes) : Bytes := bytes.drop (bytes.length - n)

theorem lastBytes_append {n : ℕ} {b : Bytes} (hb : b.length = n) (a : Bytes) :
    lastBytes n (a ++ b) = b := by
  rw [lastBytes, List.length_append, hb, Nat.add_sub_cancel, List.drop_left]

/-- A window that the last line fits into holds it after its start or after a newline. -/
theorem lastBytes_joinLines {n : ℕ} {l : String} (hfits : (utf8 l).length + 1 ≤ n)
    (ls : List String) :
    lastBytes n (utf8 (joinLines (ls ++ [l]))) = utf8 (l ++ "\n") ∨
      ∃ a, lastBytes n (utf8 (joinLines (ls ++ [l]))) = a ++ newline :: utf8 (l ++ "\n") := by
  have hone : utf8 "\n" = [newline] := by decide
  have hlast : (utf8 (l ++ "\n")).length = (utf8 l).length + 1 := by
    rw [utf8_append, hone, List.length_append, List.length_singleton]
  have hdrop : lastBytes n (utf8 (joinLines (ls ++ [l]))) =
      (utf8 (joinLines ls)).drop ((utf8 (joinLines ls)).length + (utf8 (l ++ "\n")).length - n) ++
        utf8 (l ++ "\n") := by
    rw [lastBytes, joinLines_append, joinLines_singleton, utf8_append _ (l ++ "\n"),
      List.length_append, List.drop_append_of_le_length (by omega)]
  rw [hdrop]
  rcases List.eq_nil_or_concat ls with rfl | ⟨ls', l', rfl⟩
  · left
    simp [utf8]
  · rw [List.concat_eq_append, joinLines_append, joinLines_singleton, utf8_append,
      utf8_append _ "\n", hone, ← List.append_assoc]
    generalize utf8 (joinLines ls') ++ utf8 l' = front
    by_cases hall : (front ++ [newline]).length + (utf8 (l ++ "\n")).length - n ≤ front.length
    · right
      rw [List.drop_append_of_le_length hall]
      exact ⟨_, by rw [List.append_assoc, List.singleton_append]⟩
    · left
      rw [List.drop_eq_nil_of_le (by rw [List.length_append, List.length_singleton] at hall ⊢; omega),
        List.nil_append]

theorem lines_lastBytes_lossy {n : ℕ} {l : String} (hl : OneLine l)
    (hfits : (utf8 l).length + 1 ≤ n) (ls : List String) :
    ∃ front, lines (String.ofList (fromUtf8Lossy (lastBytes n (utf8 (joinLines (ls ++ [l])))))) =
      front ++ [l] := by
  have hlast := lines_oneLine hl
  rcases lastBytes_joinLines hfits ls with h | ⟨a, h⟩
  · rw [h, fromUtf8Lossy_utf8, String.ofList_toList, hlast]
    exact ⟨[], rfl⟩
  · rw [h, fromUtf8Lossy_newline, fromUtf8Lossy_utf8]
    have htext : String.ofList (fromUtf8Lossy a ++ '\n' :: (l ++ "\n").toList) =
        String.ofList (fromUtf8Lossy a) ++ "\n" ++ (l ++ "\n") := by
      rw [← String.toList_inj]
      simp
    rw [htext, ← hlast]
    exact lines_after_newline _ _

theorem lines_lastBytes {n : ℕ} {l : String} (hl : OneLine l) (hfits : (utf8 l).length + 1 ≤ n)
    {ls : List String} {text : String}
    (htext : fromUtf8 (lastBytes n (utf8 (joinLines (ls ++ [l])))) = some text) :
    ∃ front, lines text = front ++ [l] := by
  obtain ⟨front, hfront⟩ := lines_lastBytes_lossy hl hfits ls
  rw [fromUtf8_eq_some.mp htext, fromUtf8Lossy_utf8, String.ofList_toList] at hfront
  exact ⟨front, hfront⟩

/-- A character takes at most four bytes. -/
theorem length_utf8_le (s : String) : (utf8 s).length ≤ 4 * s.toList.length := by
  rw [utf8]
  induction s.toList with
  | nil => exact Nat.le_refl _
  | cons c cs ih =>
    have hc := c.utf8Size_le_four
    rw [List.flatMap_cons, List.length_append, String.length_utf8EncodeChar, List.length_cons]
    omega

theorem length_utf8_replicate (n : ℕ) :
    (utf8 (String.ofList (List.replicate n 'a'))).length = n := by
  have hchar : (String.utf8EncodeChar 'a').length = 1 := by decide
  rw [utf8, String.toList_ofList]
  induction n with
  | zero => rfl
  | succ n ih =>
    rw [List.replicate_succ, List.flatMap_cons, List.length_append, ih, hchar, Nat.add_comm]

/-- A window that starts inside a long run of one character shows only the end of the line. -/
theorem lastBytes_long {n m : ℕ} {front rest : List Char}
    (hshort : 4 * rest.length + 2 ≤ n) (hlong : n ≤ m) :
    ∃ k, lastBytes n (utf8 (String.ofList (front ++ (List.replicate m 'a' ++ rest)) ++ "\n")) =
      utf8 (String.ofList ('a' :: (List.replicate k 'a' ++ rest)) ++ "\n") := by
  have hnewline : (utf8 "\n").length = 1 := by decide
  have hle := length_utf8_le (String.ofList rest)
  rw [String.toList_ofList] at hle
  obtain ⟨k, hk⟩ : ∃ k, k + 1 + (utf8 (String.ofList rest)).length + 1 = n :=
    ⟨n - 2 - (utf8 (String.ofList rest)).length, by omega⟩
  have hrun : List.replicate m 'a' =
      List.replicate (m - (k + 1)) 'a' ++ List.replicate (k + 1) 'a' := by
    rw [List.replicate_append_replicate, Nat.sub_add_cancel (by omega)]
  have hsplit : String.ofList (front ++ (List.replicate m 'a' ++ rest)) ++ "\n" =
      String.ofList (front ++ List.replicate (m - (k + 1)) 'a') ++
        (String.ofList ('a' :: (List.replicate k 'a' ++ rest)) ++ "\n") := by
    rw [hrun, ← String.toList_inj]
    simp [List.replicate_succ]
  refine ⟨k, ?_⟩
  rw [hsplit, utf8_append, lastBytes_append]
  rw [← List.cons_append, ← List.replicate_succ, String.ofList_append, utf8_append, utf8_append,
    List.length_append, List.length_append, length_utf8_replicate, hnewline]
  omega

end LeanCtx.TextFile
