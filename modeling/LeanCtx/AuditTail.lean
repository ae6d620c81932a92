import LeanCtx.AuditTrail
import Mathlib.Data.List.DropRight
import Mathlib.Data.List.TakeWhile
import Mathlib.Data.PNat.Basic

/-!
# The newest entries of an audit trail

The newest entries are read back from the end of the active file in blocks, until
they hold more newlines than entries are asked for. The line that the first block
may cut is dropped. A short file is topped up from the sealed segments before it.
-/

namespace LeanCtx.Audit

open ByteText ChainState

def tailBlock : ℕ+ := 256 * 1024

/-- The files of a trail in chain order; `none` for one that cannot be opened. -/
abbrev TrailFiles := List (Option Bytes)

section Read

variable (readEntries : String → List AuditEntry)

/-- The entries of the lines up to the first that is no text. -/
def parseEntries (bytes : Bytes) : List AuditEntry :=
  (((linesOf bytes).map fromUtf8).takeWhile Option.isSome).flatMap fun line =>
    line.elim [] readEntries

def loadAllAt (files : TrailFiles) : List AuditEntry :=
  files.flatMap fun file => file.elim [] (parseEntries readEntries)

/-- The bytes from `start` on are read; so many newlines are in them. A step reads up to `size`
bytes more. -/
def walkBack (size : ℕ+) (bytes : Bytes) (limit : ℕ) (start newlines : ℕ) (tail : Bytes) :
    ℕ × Bytes :=
  if _h : 0 < start ∧ newlines ≤ limit then
    let block := (bytes.drop (start - size)).take (start - (start - size))
    walkBack size bytes limit (start - size) (newlines + block.count newline) (block ++ tail)
  else (start, tail)
termination_by start
decreasing_by exact Nat.sub_lt _h.1 size.pos

/-- Nothing is cut when the walk reached the start. -/
def cutFirst (start : ℕ) (tail : Bytes) : Bytes :=
  if 0 < start then (tail.dropWhile (· ≠ newline)).drop 1 else tail

def loadRecentIn (file : Option Bytes) (limit : ℕ) : List AuditEntry :=
  if limit = 0 then []
  else
    match file with
    | none => []
    | some bytes =>
      let (start, tail) := walkBack tailBlock bytes limit bytes.length 0 []
      (parseEntries readEntries (cutFirst start tail)).rtake limit

/-- The files newest first, with the entries of the files after them. -/
def topUp (limit : ℕ) : TrailFiles → List AuditEntry → List AuditEntry
  | [], entries => entries
  | file :: older, entries =>
    if limit ≤ entries.length then entries
    else topUp limit older (loadRecentIn readEntries file (limit - entries.length) ++ entries)

def loadRecentAt (files : TrailFiles) (limit : ℕ) : List AuditEntry :=
  topUp readEntries limit files.reverse []

end Read

/-! ## Lines from a newline on -/

theorem linesOf_append {front : Bytes} (h : (splitLines front).2 = []) (rest : Bytes) :
    linesOf (front ++ rest) = linesOf front ++ linesOf rest := by
  rw [linesOf, linesOf, linesOf, splitLines_append h, h, if_pos rfl, List.append_nil,
    List.map_append, List.append_assoc]

theorem splitLines_newline (front : Bytes) : (splitLines (front ++ [newline])).2 = [] := by
  induction front with
  | nil => simp [splitLines]
  | cons b front ih =>
    rw [List.cons_append, splitLines]
    split_ifs
    · exact ih
    · have hlines : (splitLines (front ++ [newline])).1 ≠ [] := by
        intro hnil
        have hjoin := joinLines_splitLines (front ++ [newline])
        rw [hnil, ih] at hjoin
        exact absurd hjoin.symm (by simp [joinLines])
      obtain ⟨line, lines, hcons⟩ := List.exists_cons_of_ne_nil hlines
      rw [hcons]
      exact ih

theorem count_newline_le (bytes : Bytes) : bytes.count newline ≤ (linesOf bytes).length := by
  have hfull : bytes.count newline = (splitLines bytes).1.length := by
    induction bytes with
    | nil => rfl
    | cons b rest ih =>
      rw [List.count_cons, ih, splitLines]
      by_cases hb : b = newline
      · simp [hb]
      · rw [if_neg hb]
        cases hlines : (splitLines rest).1 <;> simp [hb]
  rw [hfull, linesOf, List.length_append, List.length_map]
  exact Nat.le_add_right _ _

/-! ## The walk -/

/-- The walk holds the end of the file from where it stopped: at the start, or with more newlines
than the limit. -/
theorem walkBack_spec {size : ℕ+} {bytes : Bytes} {limit start newlines : ℕ} {tail : Bytes}
    (htail : tail = bytes.drop start) (hcount : newlines = tail.count newline) :
    (walkBack size bytes limit start newlines tail).2 =
        bytes.drop (walkBack size bytes limit start newlines tail).1 ∧
      (0 < (walkBack size bytes limit start newlines tail).1 →
        limit < (walkBack size bytes limit start newlines tail).2.count newline) := by
  induction start using Nat.strong_induction_on generalizing newlines tail with
  | _ start ih =>
    rw [walkBack]
    split_ifs with h
    · refine ih (start - size) (Nat.sub_lt h.1 size.pos) ?_ ?_
      · rw [htail]
        conv_rhs => rw [← List.take_append_drop (start - (start - size))
          (bytes.drop (start - size)), List.drop_drop]
        rw [Nat.add_sub_cancel' (Nat.sub_le start size)]
      · rw [List.count_append, hcount, Nat.add_comm]
    · refine ⟨htail, fun hpos => ?_⟩
      simp only
      rw [← hcount]
      exact not_le.mp fun hle => h ⟨hpos, hle⟩

section Entries

variable (readEntries : String → List AuditEntry)

def lineEntries (line : Bytes) : List AuditEntry := (fromUtf8 line).elim [] readEntries

/-- Every line holds an entry. -/
def FullLines (bytes : Bytes) : Prop := ∀ line ∈ linesOf bytes, lineEntries readEntries line ≠ []

variable {readEntries}

theorem parseEntries_eq {bytes : Bytes} (h : FullLines readEntries bytes) :
    parseEntries readEntries bytes = (linesOf bytes).flatMap (lineEntries readEntries) := by
  have htext : ((linesOf bytes).map fromUtf8).takeWhile Option.isSome =
      (linesOf bytes).map fromUtf8 := by
    refine List.takeWhile_eq_self_iff.mpr fun text htext => ?_
    obtain ⟨line, hline, rfl⟩ := List.mem_map.mp htext
    by_contra hnone
    refine h line hline ?_
    rw [lineEntries, Option.not_isSome_iff_eq_none.mp hnone]
    rfl
  rw [parseEntries, htext, List.flatMap_map]
  rfl

theorem length_le_flatMap {α β : Type} {f : α → List β} {l : List α} (h : ∀ x ∈ l, f x ≠ []) :
    l.length ≤ (l.flatMap f).length := by
  induction l with
  | nil => exact Nat.zero_le _
  | cons x l ih =>
    have hx := List.length_pos_of_ne_nil (h x List.mem_cons_self)
    have hl := ih fun y hy => h y (List.mem_cons_of_mem x hy)
    rw [List.flatMap_cons, List.length_append, List.length_cons]
    omega

theorem rtake_append {α : Type} (l r : List α) (n : ℕ) :
    (l ++ r).rtake n = l.rtake (n - r.length) ++ r.rtake n := by
  rw [List.rtake, List.rtake, List.rtake, List.drop_append, List.length_append]
  congr 1
  · by_cases hn : n ≤ r.length
    · rw [Nat.sub_eq_zero_of_le hn, Nat.sub_zero, List.drop_length,
        List.drop_eq_nil_of_le (by omega)]
    · congr 1
      omega
  · congr 1
    omega

theorem rtake_of_length_le {α : Type} {l : List α} {n : ℕ} (h : l.length ≤ n) :
    l.rtake n = l := by
  rw [List.rtake, Nat.sub_eq_zero_of_le h, List.drop_zero]

theorem length_rtake {α : Type} (l : List α) (n : ℕ) : (l.rtake n).length = min n l.length := by
  rw [List.rtake, List.length_drop]
  omega

/-- What is left after the cut: the file itself, or the file after some newline with a line for
each entry asked for. -/
theorem cutFirst_walkBack (bytes : Bytes) (limit : ℕ) :
    ∃ front rest, bytes = front ++ rest ∧ (splitLines front).2 = [] ∧
      cutFirst (walkBack tailBlock bytes limit bytes.length 0 []).1
        (walkBack tailBlock bytes limit bytes.length 0 []).2 = rest ∧
      (front = [] ∨ limit ≤ rest.count newline) := by
  have hspec := @walkBack_spec tailBlock bytes limit bytes.length 0 [] (by simp) (by simp)
  generalize walkBack tailBlock bytes limit bytes.length 0 [] = stopped at hspec ⊢
  obtain ⟨start, tail⟩ := stopped
  obtain ⟨htail, hcount⟩ := hspec
  simp only at htail hcount ⊢
  rw [cutFirst]
  split_ifs with hstart
  · have hmem : newline ∈ tail := by
      by_contra hnot
      have := hcount hstart
      rw [List.count_eq_zero_of_not_mem hnot] at this
      omega
    obtain ⟨rest, hrest⟩ : ∃ rest, tail.dropWhile (· ≠ newline) = newline :: rest := by
      cases hdrop : tail.dropWhile (· ≠ newline) with
      | nil =>
        have hall := List.dropWhile_eq_nil_iff.mp hdrop newline hmem
        simp at hall
      | cons b rest =>
        have hhead := List.head?_dropWhile_not (fun b => decide (b ≠ newline)) tail
        rw [hdrop] at hhead
        simp only [List.head?_cons, decide_not, Bool.not_eq_false', decide_eq_true_eq] at hhead
        exact ⟨rest, by rw [hhead]⟩
    have hsplit : tail = tail.takeWhile (· ≠ newline) ++ newline :: rest := by
      rw [← hrest, List.takeWhile_append_dropWhile]
    refine ⟨bytes.take start ++ (tail.takeWhile (· ≠ newline) ++ [newline]), rest, ?_, ?_, ?_,
      .inr ?_⟩
    · rw [List.append_assoc, List.append_assoc, List.singleton_append, ← hsplit, htail,
        List.take_append_drop]
    · rw [← List.append_assoc]
      exact splitLines_newline _
    · rw [hrest]
      rfl
    · have hall := hcount hstart
      have hfirst : (tail.takeWhile (· ≠ newline)).count newline = 0 := by
        refine List.count_eq_zero_of_not_mem fun hmem => ?_
        have := List.mem_takeWhile_imp hmem
        simp at this
      rw [hsplit, List.count_append, hfirst, List.count_cons_self] at hall
      omega
  · obtain rfl : start = 0 := Nat.eq_zero_of_not_pos hstart
    exact ⟨[], bytes, rfl, rfl, by rw [htail, List.drop_zero], .inl rfl⟩

/-- Reading back from the end gives the last entries of the file. -/
theorem loadRecentIn_eq {file : Option Bytes} (h : ∀ bytes ∈ file, FullLines readEntries bytes)
    (limit : ℕ) :
    loadRecentIn readEntries file limit =
      (file.elim [] (parseEntries readEntries)).rtake limit := by
  unfold loadRecentIn
  split_ifs with hlimit
  · rw [hlimit, List.rtake_zero]
  · cases file with
    | none => simp
    | some bytes =>
      obtain ⟨front, rest, hbytes, hfront, hcut, henough⟩ := cutFirst_walkBack bytes limit
      have hfull := h bytes rfl
      simp only [hcut, Option.elim_some]
      rcases henough with rfl | henough
      · rw [hbytes, List.nil_append]
      · have hlines : linesOf bytes = linesOf front ++ linesOf rest := by
          rw [hbytes, linesOf_append hfront]
        have hrest : FullLines readEntries rest := by
          intro line hline
          exact hfull line (hlines ▸ List.mem_append_right _ hline)
        have hlength : limit ≤ (parseEntries readEntries rest).length := by
          rw [parseEntries_eq hrest]
          exact (henough.trans (count_newline_le rest)).trans (length_le_flatMap hrest)
        rw [parseEntries_eq hfull, hlines, List.flatMap_append, ← parseEntries_eq hrest,
          rtake_append, Nat.sub_eq_zero_of_le hlength, List.rtake_zero, List.nil_append]

/-! ## The chain of files -/

theorem topUp_eq {limit : ℕ} {files : TrailFiles} {entries : List AuditEntry}
    (h : ∀ file ∈ files, ∀ bytes ∈ file, FullLines readEntries bytes)
    (hentries : entries.length ≤ limit) :
    topUp readEntries limit files entries =
      (loadAllAt readEntries files.reverse ++ entries).rtake limit := by
  induction files generalizing entries with
  | nil => rw [topUp, List.reverse_nil, loadAllAt, List.flatMap_nil, List.nil_append,
      rtake_of_length_le hentries]
  | cons file older ih =>
    rw [topUp]
    split_ifs with hfull
    · rw [rtake_append, Nat.sub_eq_zero_of_le hfull, List.rtake_zero, List.nil_append,
        rtake_of_length_le hentries]
    · have hin := loadRecentIn_eq (h file List.mem_cons_self) (limit - entries.length)
      have hall : loadAllAt readEntries (file :: older).reverse =
          loadAllAt readEntries older.reverse ++ file.elim [] (parseEntries readEntries) := by
        rw [List.reverse_cons, loadAllAt, List.flatMap_append, List.flatMap_singleton]
        rfl
      generalize file.elim [] (parseEntries readEntries) = entriesOfFile at hin hall
      have hlength : (loadRecentIn readEntries file (limit - entries.length) ++ entries).length ≤
          limit := by
        rw [hin, List.length_append, length_rtake]
        omega
      rw [ih (fun f hf => h f (List.mem_cons_of_mem file hf)) hlength, hall, hin, List.append_assoc,
        rtake_append, rtake_append (loadAllAt readEntries older.reverse)]
      have hsame : (entriesOfFile.rtake (limit - entries.length) ++ entries).rtake limit =
          (entriesOfFile ++ entries).rtake limit := by
        rw [rtake_append, rtake_append entriesOfFile]
        congr 1
        exact rtake_of_length_le (by rw [length_rtake]; exact min_le_left _ _)
      rw [hsame]
      congr 1
      by_cases hmany : entriesOfFile.length ≤ limit - entries.length
      · rw [rtake_of_length_le hmany]
      · have hzero : limit - (entriesOfFile.rtake (limit - entries.length) ++ entries).length =
            0 := by
          rw [List.length_append, length_rtake]
          omega
        have hzero' : limit - (entriesOfFile ++ entries).length = 0 := by
          rw [List.length_append]
          omega
        rw [hzero, hzero', List.rtake_zero]

/-- Where every line holds an entry, the newest entries read back are the last of all entries. -/
theorem loadRecentAt_eq {files : TrailFiles}
    (h : ∀ file ∈ files, ∀ bytes ∈ file, FullLines readEntries bytes) (limit : ℕ) :
    loadRecentAt readEntries files limit = (loadAllAt readEntries files).rtake limit := by
  rw [loadRecentAt, topUp_eq (fun file hfile => h file (List.mem_reverse.mp hfile))
    (Nat.zero_le limit), List.reverse_reverse, List.append_nil]

end Entries

/-! A sealed segment and an active file without a final newline. -/

def toolEntry (agent : String) : AuditEntry :=
  ⟨"2026-08-09T12:00:00+00:00", agent, "ctx_read", none, "00", 1, "coder", .toolCall, "genesis",
    "00", none⟩

/-- A reader that knows the lines of two entries. -/
def readTwo (text : String) : List AuditEntry :=
  if text = (toolEntry "a").text then [toolEntry "a"]
  else if text = (toolEntry "b").text then [toolEntry "b"]
  else []

def twoFiles : TrailFiles :=
  [some (utf8 (toolEntry "a").text ++ [newline]), some (utf8 (toolEntry "b").text)]

theorem readTwo_text {agent : String} (h : agent = "a" ∨ agent = "b") :
    readTwo (toolEntry agent).text ≠ [] := by
  unfold readTwo
  rcases h with rfl | rfl
  · rw [if_pos rfl]
    exact List.cons_ne_nil _ _
  · split_ifs with ha hb
    · exact List.cons_ne_nil _ _
    · exact List.cons_ne_nil _ _
    · exact absurd rfl hb

theorem newline_not_mem_text (e : AuditEntry) : newline ∉ utf8 e.text := by
  rw [newline_mem_utf8, AuditEntry.text, JsonText.Doc.text, String.toList_ofList]
  exact JsonText.Doc.newline_not_mem _

theorem getLast?_obj_text {entries : List (String × JsonText.Doc)} (h : entries ≠ []) :
    (utf8 (JsonText.Doc.obj (JsonText.fields entries)).text).getLast? = some 125 := by
  have hends := JsonText.Doc.obj_chars_suffix entries [] h
  rw [List.append_nil] at hends
  obtain ⟨front, hfront⟩ := hends
  rw [JsonText.Doc.text, ← hfront, String.ofList_append, utf8_append]
  exact List.getLast?_append_of_ne_nil _ (List.cons_ne_nil _ _)

theorem getLast?_text (e : AuditEntry) : (utf8 e.text).getLast? = some 125 :=
  getLast?_obj_text (List.append_ne_nil_of_left_ne_nil (List.cons_ne_nil _ _) _)

theorem eq_of_mem_linesOf {text line : Bytes} (hnewline : newline ∉ text)
    (hlast : text.getLast? ≠ some 13)
    (h : line ∈ linesOf text ∨ line ∈ linesOf (text ++ [newline])) : line = text := by
  rcases h with h | h
  · rw [linesOf, splitLines_tail hnewline] at h
    split_ifs at h
    · exact absurd h List.not_mem_nil
    · exact List.mem_singleton.mp h
  · rw [linesOf, splitLines_cons_line hnewline] at h
    change line ∈ [stripReturn text] at h
    rw [List.mem_singleton.mp h, stripReturn, if_neg hlast]

/-- An entry's text is a full line, with its newline or without. -/
theorem fullLines_text {readEntries : String → List AuditEntry} {e : AuditEntry} {bytes : Bytes}
    (h : readEntries e.text ≠ [])
    (hbytes : bytes = utf8 e.text ∨ bytes = utf8 e.text ++ [newline]) :
    FullLines readEntries bytes := by
  intro line hline
  have hlast : (utf8 e.text).getLast? ≠ some 13 := by
    rw [getLast?_text]
    decide
  have hcases : line ∈ linesOf (utf8 e.text) ∨ line ∈ linesOf (utf8 e.text ++ [newline]) := by
    rcases hbytes with h | h
    · exact Or.inl (h ▸ hline)
    · exact Or.inr (h ▸ hline)
  rw [eq_of_mem_linesOf (newline_not_mem_text e) hlast hcases, lineEntries, fromUtf8_utf8]
  exact h

theorem loadRecentAt_two :
    loadRecentAt readTwo twoFiles 1 = (loadAllAt readTwo twoFiles).rtake 1 := by
  refine loadRecentAt_eq (fun file hfile bytes hbytes => ?_) 1
  obtain rfl := Option.mem_def.mp hbytes
  rcases List.mem_pair.mp hfile with h | h
  · exact fullLines_text (readTwo_text (Or.inl rfl)) (Or.inr (Option.some.inj h))
  · exact fullLines_text (readTwo_text (Or.inr rfl)) (Or.inl (Option.some.inj h))

end LeanCtx.Audit
