import LeanCtx.KnowledgeJournal
import LeanCtx.RecordFile

/-!
# Numbering and coverage of the knowledge journal

As long as the newest row can be read from the end of the file before every
save, rows are numbered on without a gap, a trim only removes the oldest ones,
and whatever changed since an earlier save is named by a row above the head of
that save.
-/

namespace LeanCtx.Journal

open ByteText TextFile KeyedList

variable (env : Env)

/-! ## What a journal is for -/

/-- The tracked fields of the fact with an identity. -/
def trackedAt (facts : List KnowledgeFact) (id : Identity) : Option (List Json) :=
  ((index facts).lookup id).map tracked

/-- A row names a fact by its category, its redacted key and its time of creation. -/
def Names (row : JournalRow) (id : Identity) : Prop :=
  row.category = id.category ∧ row.key = env.redact id.key ∧
    row.created = id.created

/-- What a run leaves behind: all rows ever written, and the head and the facts before each save. -/
structure History where
  written : List JournalRow
  past : List (ℕ × List KnowledgeFact)

def record (h : History) (s : Store) (call : Save) : History where
  written := h.written ++ newRows env s.journal (diff env s.facts call.facts) call.time
  past := h.past ++ [(headLsn env s.journal, s.facts)]

def history (calls : List Save) : History :=
  Trace.observe (save env) (record env) ⟨[], []⟩ .empty calls

/-- The rows in the file. -/
def rows (file : String) : List JournalRow := (lines file).filterMap env.read

structure Counts (h : History) (s : Store) : Prop where
  increasing : h.written.Pairwise fun a b => a.lsn < b.lsn
  newest : rows env s.journal <:+ h.written
  head : headLsn env s.journal = ((h.written.map JournalRow.lsn).max?).getD 0
  complete : ∀ n facts, (n, facts) ∈ h.past →
    (∀ row ∈ h.written, n < row.lsn → row ∈ rows env s.journal) →
    ∀ id, trackedAt facts id ≠ trackedAt s.facts id →
      ∃ row ∈ rowsSince env s.journal n (rows env s.journal).length, Names env row id

/-! ## Condition -/

/-- The window at the end of the journal starts between two characters and holds its last row. -/
def Readable (file : String) : Prop :=
  (fromUtf8 (lastBytes tailBytes (utf8 file))).isSome = true ∧
    ∀ l ∈ (lines file).getLast?, (utf8 l).length + 1 ≤ tailBytes

/-! ## Changes name what differs -/

theorem mem_putAll {κ ν : Type} [LinearOrder κ] {old new : List (κ × ν)} {e : κ × ν}
    (h : e ∈ putAll old new) : e ∈ old ∨ e ∈ new := by
  induction new generalizing old with
  | nil => exact .inl h
  | cons x rest ih =>
    rcases ih h with h | h
    · rcases mem_put h with rfl | h
      · exact .inr List.mem_cons_self
      · exact .inl h
    · exact .inr (List.mem_cons_of_mem _ h)

theorem lookup_putAll_of_not_mem {κ ν : Type} [LinearOrder κ] {old new : List (κ × ν)} {k : κ}
    {v : ν} (hnew : ∀ e ∈ new, e.1 ≠ k) (hold : old.lookup k = some v) :
    (putAll old new).lookup k = some v := by
  induction new generalizing old with
  | nil => exact hold
  | cons e rest ih =>
    apply ih fun e' he' => hnew e' (List.mem_cons_of_mem _ he')
    rw [lookup_put, if_neg (Ne.symm (hnew e List.mem_cons_self)), hold]

theorem identity_of_mem_index {facts : List KnowledgeFact} {id : Identity} {fact : KnowledgeFact}
    (h : (id, fact) ∈ index facts) : identity fact = id := by
  rcases mem_putAll h with h | h
  · cases h
  · obtain ⟨f, -, hf⟩ := List.mem_map.mp h
    obtain ⟨rfl, rfl⟩ := Prod.mk.inj hf
    rfl

/-- With one fact for each identity, an identity has the tracked fields of its fact. -/
theorem trackedAt_of_mem {facts : List KnowledgeFact}
    (h : facts.Pairwise fun a b => identity a ≠ identity b) {fact : KnowledgeFact}
    (hmem : fact ∈ facts) : trackedAt facts (identity fact) = some (tracked fact) := by
  have hgen : ∀ (l : List KnowledgeFact) (old : List (Identity × KnowledgeFact)),
      l.Pairwise (fun a b => identity a ≠ identity b) → fact ∈ l →
      (putAll old (l.map fun f => (identity f, f))).lookup (identity fact) = some fact := by
    intro l
    induction l with
    | nil => exact fun _ _ hnil => absurd hnil List.not_mem_nil
    | cons f rest ih =>
      intro old hdistinct hf
      obtain ⟨hhead, hrest⟩ := List.pairwise_cons.mp hdistinct
      by_cases hin : fact ∈ rest
      · exact ih _ hrest hin
      · obtain rfl := (List.mem_cons.mp hf).resolve_right hin
        rw [List.map_cons, putAll, List.foldl_cons]
        apply lookup_putAll_of_not_mem
        · intro e he
          obtain ⟨x, hx, rfl⟩ := List.mem_map.mp he
          exact (hhead x hx).symm
        · rw [lookup_put, if_pos rfl]
  rw [trackedAt, index, hgen facts [] h hmem, Option.map_some]

theorem changedFields_eq_nil {was now : KnowledgeFact} (h : changedFields was now = []) :
    tracked was = tracked now := by
  unfold changedFields at h
  rw [List.filterMap_eq_nil_iff] at h
  unfold tracked at h ⊢
  rw [List.map_inj_left]
  intro field hfield
  have hzip : ∀ names : List String,
      ((names.map fun name => (was.json.get name).getD .null).zip
        (names.map fun name => (now.json.get name).getD .null)).zip names =
      names.map fun name =>
        (((was.json.get name).getD .null, (now.json.get name).getD .null), name) := by
    intro names
    induction names with
    | nil => rfl
    | cons name rest ih => simp only [List.map_cons, List.zip_cons_cons, ih]
  rw [hzip] at h
  have hsame := h _ (List.mem_map.mpr ⟨field, hfield, rfl⟩)
  dsimp only at hsame
  by_contra hne
  rw [if_pos hne] at hsame
  cases hsame

theorem exists_change {before after : List KnowledgeFact} {id : Identity}
    (h : trackedAt before id ≠ trackedAt after id) :
    ∃ c ∈ diff env before after, c.category = id.category ∧
      c.key = env.redact id.key ∧ c.created = id.created := by
  have hnames : ∀ (facts : List KnowledgeFact) (fact : KnowledgeFact) (op : Op)
      (fields : List String), (index facts).lookup id = some fact →
      (change env op fact fields).category = id.category ∧
        (change env op fact fields).key = env.redact id.key ∧
        (change env op fact fields).created = id.created := by
    intro facts fact op fields hlookup
    rw [← identity_of_mem_index (mem_of_lookup hlookup)]
    exact ⟨rfl, rfl, rfl⟩
  unfold diff
  dsimp only
  simp only [List.mem_mergeSort, List.mem_append, List.mem_filterMap]
  unfold trackedAt at h
  cases hnew : (index after).lookup id with
  | some fact =>
    cases hold : (index before).lookup id with
    | none =>
      refine ⟨_, .inl ⟨(id, fact), mem_of_lookup hnew, ?_⟩, hnames after fact .added [] hnew⟩
      dsimp only
      rw [hold]
    | some was =>
      have hfields : changedFields was fact ≠ [] := by
        intro hnil
        rw [hnew, hold, Option.map_some, Option.map_some, changedFields_eq_nil hnil] at h
        exact h rfl
      refine ⟨_, .inl ⟨(id, fact), mem_of_lookup hnew, ?_⟩,
        hnames after fact .changed (changedFields was fact) hnew⟩
      dsimp only
      rw [hold]
      dsimp only
      rw [if_neg hfields]
  | none =>
    cases hold : (index before).lookup id with
    | none =>
      rw [hnew, hold] at h
      exact absurd rfl h
    | some was =>
      refine ⟨_, .inr ⟨(id, was), mem_of_lookup hold, ?_⟩, hnames before was .removed [] hold⟩
      dsimp only
      rw [hnew, if_neg (by decide)]

/-! ## Rows in the file -/

/-- The file that holds the given rows. -/
def write (kept : List JournalRow) : String := joinLines (kept.map env.print)

theorem lines_write (kept : List JournalRow) : lines (write env kept) = kept.map env.print := by
  apply lines_joinLines
  intro l hl
  obtain ⟨row, -, rfl⟩ := List.mem_map.mp hl
  exact env.print_oneLine row

theorem rows_write (kept : List JournalRow) : rows env (write env kept) = kept := by
  have hread : env.read ∘ env.print = some := funext env.read_print
  rw [rows, lines_write, List.filterMap_map, hread, List.filterMap_some]

theorem intercalate_newline {ls : List String} (h : ls ≠ []) :
    "\n".intercalate ls ++ "\n" = joinLines ls := by
  induction ls with
  | nil => exact absurd rfl h
  | cons l rest ih =>
    cases rest with
    | nil => rw [joinLines_singleton, String.intercalate_singleton]
    | cons l' rest =>
      have hrest := ih (List.cons_ne_nil _ _)
      rw [String.intercalate_cons_cons, String.append_assoc, hrest, joinLines_cons l]

/-- A trim leaves the newest rows, at least one. -/
theorem trim_write {kept : List JournalRow} (h : kept ≠ []) :
    ∃ left, trim (write env kept) = write env left ∧ left <:+ kept ∧ left ≠ [] := by
  unfold trim
  dsimp only
  split_ifs
  · exact ⟨kept, rfl, List.suffix_refl _, h⟩
  · have hlen := List.length_pos_of_ne_nil h
    have hleft : kept.drop (kept.length / 2) ≠ [] := by
      rw [ne_eq, List.drop_eq_nil_iff]
      omega
    refine ⟨kept.drop (kept.length / 2), ?_, List.drop_suffix _ _, hleft⟩
    rw [lines_write, List.length_map, ← List.map_drop, intercalate_newline]
    · rfl
    · rwa [ne_eq, List.map_eq_nil_iff]

theorem headLsn_empty : headLsn env "" = 0 := by
  have hwindow : lastBytes tailBytes (utf8 "") = utf8 "" := by simp [lastBytes, utf8]
  rw [headLsn, hwindow, fromUtf8_utf8]
  simp [newestRow]

/-- In a readable journal the head is the last row. -/
theorem headLsn_write {kept : List JournalRow} {row : JournalRow}
    (h : Readable (write env (kept ++ [row]))) :
    headLsn env (write env (kept ++ [row])) = row.lsn := by
  obtain ⟨hwindow, hfits⟩ := h
  obtain ⟨text, htext⟩ := Option.isSome_iff_exists.mp hwindow
  have hlast : (utf8 (env.print row)).length + 1 ≤ tailBytes := by
    apply hfits
    rw [lines_write, List.map_append, List.map_singleton, List.getLast?_concat]
    exact Option.mem_some_self _
  have hfile : write env (kept ++ [row]) = joinLines (kept.map env.print ++ [env.print row]) := by
    rw [write, List.map_append, List.map_singleton]
  rw [hfile] at htext ⊢
  obtain ⟨front, hfront⟩ := lines_lastBytes (env.print_oneLine row) hlast htext
  have hnewest : newestRow env text = some row := by
    rw [newestRow, hfront, List.reverse_append, List.reverse_singleton, List.singleton_append,
      List.findSome?_cons, env.read_print]
  rw [headLsn, htext, Option.bind_some, hnewest, Option.elim_some]

theorem numbered_lsn (first : ℕ) (changes : List Change) (time : String) :
    (numbered first changes time).map JournalRow.lsn = List.range' first changes.length := by
  rw [numbered, List.map_map]
  have hlsn : (JournalRow.lsn ∘ fun x : Change × ℕ =>
      ({ lsn := x.2, time := time, op := x.1.op.str, category := x.1.category, key := x.1.key,
         created := x.1.created, fields := x.1.fields, session := x.1.session } : JournalRow)) =
      Prod.snd := rfl
  rw [hlsn, List.zipIdx_map_snd]

theorem length_newRows (file : String) (changes : List Change) (time : String) :
    (newRows env file changes time).length = changes.length := by
  rw [newRows, numbered, List.length_map, List.length_zipIdx]

theorem mem_numbered {first : ℕ} {changes : List Change} {time : String} {c : Change}
    (h : c ∈ changes) : ∃ row ∈ numbered first changes time, first ≤ row.lsn ∧
      row.category = c.category ∧ row.key = c.key ∧ row.created = c.created := by
  obtain ⟨i, hi, rfl⟩ := List.getElem_of_mem h
  refine ⟨_, List.mem_map.mpr ⟨(changes[i], first + i), ?_, rfl⟩, Nat.le_add_right _ _, rfl, rfl,
    rfl⟩
  rw [List.mem_zipIdx_iff_le_and_getElem?_sub]
  refine ⟨Nat.le_add_right _ _, ?_⟩
  dsimp only
  rw [Nat.add_sub_cancel_left, List.getElem?_eq_getElem hi]

/-! ## The invariant -/

structure Held (h : History) (s : Store) : Prop where
  file : ∃ kept, s.journal = write env kept ∧ kept <:+ h.written ∧ (h.written ≠ [] → kept ≠ [])
  numbers : h.written.map JournalRow.lsn = List.range' 1 h.written.length
  past : ∀ n facts, (n, facts) ∈ h.past → n ≤ h.written.length ∧
    ∀ id, trackedAt facts id ≠ trackedAt s.facts id →
      ∃ row ∈ h.written, n < row.lsn ∧ Names env row id

theorem Held.head_eq {h : History} {s : Store} (hheld : Held env h s)
    (hread : Readable s.journal) : headLsn env s.journal = h.written.length := by
  obtain ⟨kept, hfile, ⟨dropped, hwritten⟩, hne⟩ := hheld.file
  have hnumbers := hheld.numbers
  rw [hfile] at hread ⊢
  rcases List.eq_nil_or_concat kept with rfl | ⟨front, row, rfl⟩
  · have hnil : h.written = [] := by
      by_contra hwritten
      exact hne hwritten rfl
    rw [hnil]
    exact headLsn_empty env
  · rw [List.concat_eq_append] at hread hwritten ⊢
    rw [headLsn_write env hread]
    rw [← hwritten, ← List.append_assoc, List.map_append, List.length_append, List.map_singleton,
      List.length_singleton, List.range'_concat] at hnumbers
    have hlsn := (List.append_inj' hnumbers rfl).2
    rw [List.singleton_inj] at hlsn
    rw [← hwritten, ← List.append_assoc, List.length_append, List.length_singleton, hlsn]
    omega

/-- An append leaves the newest of the old and the new rows. -/
theorem append_write {kept : List JournalRow} {changes : List Change} {time : String} :
    ∃ left, append env (write env kept) changes time = write env left ∧
      left <:+ kept ++ newRows env (write env kept) changes time ∧
      (kept ++ newRows env (write env kept) changes time ≠ [] → left ≠ []) := by
  unfold append
  by_cases hnone : changes = []
  · subst hnone
    have hrows : newRows env (write env kept) [] time = [] := rfl
    rw [hrows, List.append_nil]
    exact ⟨kept, rfl, List.suffix_refl _, id⟩
  · have hempty : ¬ changes.isEmpty = true := by rwa [List.isEmpty_iff]
    have hne : kept ++ newRows env (write env kept) changes time ≠ [] := by
      intro hnil
      have hlen := length_newRows env (write env kept) changes time
      rw [(List.append_eq_nil_iff.mp hnil).2] at hlen
      exact hnone (List.length_eq_zero_iff.mp hlen.symm)
    have hfile : write env kept ++
        joinLines ((newRows env (write env kept) changes time).map env.print) =
        write env (kept ++ newRows env (write env kept) changes time) := by
      rw [write, write, List.map_append, joinLines_append]
    rw [if_neg hempty, hfile]
    obtain ⟨left, hleft, hsuffix, hleftne⟩ := trim_write env hne
    exact ⟨left, hleft, hsuffix, fun _ => hleftne⟩

theorem Held.step {h : History} {s : Store} {call : Save} (hheld : Held env h s)
    (hread : Readable s.journal) : Held env (record env h s call) (save env s call).2 := by
  have hhead := hheld.head_eq env hread
  obtain ⟨facts, journal⟩ := s
  obtain ⟨kept, rfl, hsuffix, hne⟩ := hheld.file
  constructor
  · obtain ⟨left, hleft, hleftsuffix, hleftne⟩ := @append_write env kept
      (diff env facts call.facts) call.time
    obtain ⟨dropped, hdropped⟩ := hsuffix
    refine ⟨left, hleft, ?_, ?_⟩
    · obtain ⟨front, hfront⟩ := hleftsuffix
      refine ⟨dropped ++ front, ?_⟩
      change dropped ++ front ++ left = h.written ++ newRows env _ _ _
      rw [List.append_assoc, hfront, ← List.append_assoc, hdropped]
    · intro hwritten
      apply hleftne
      intro hnil
      obtain ⟨rfl, hrows⟩ := List.append_eq_nil_iff.mp hnil
      have hold : h.written = [] := by
        by_contra hold
        exact hne hold rfl
      apply hwritten
      change h.written ++ newRows env _ _ _ = []
      rw [hold, hrows, List.append_nil]
  · change (h.written ++ newRows env _ _ _).map JournalRow.lsn =
      List.range' 1 (h.written ++ newRows env _ _ _).length
    rw [List.map_append, hheld.numbers, List.length_append, length_newRows, newRows, numbered_lsn,
      hhead, ← List.range'_append_1, Nat.add_comm 1]
  · intro n past hpast
    have hrows : ∀ id, trackedAt facts id ≠ trackedAt call.facts id →
        ∃ row ∈ h.written ++ newRows env (write env kept) (diff env facts call.facts) call.time,
          h.written.length < row.lsn ∧ Names env row id := by
      intro id hid
      obtain ⟨c, hc, hcategory, hkey, hcreated⟩ := exists_change env hid
      obtain ⟨row, hrow, hlsn, hcategory', hkey', hcreated'⟩ := @mem_numbered
        (headLsn env (write env kept) + 1) _ call.time _ hc
      refine ⟨row, List.mem_append_right _ hrow, ?_, hcategory'.trans hcategory,
        hkey'.trans hkey, hcreated'.trans hcreated⟩
      rw [hhead] at hlsn
      exact hlsn
    change (n, past) ∈ h.past ++ [(headLsn env (write env kept), facts)] at hpast
    change n ≤ (h.written ++ newRows env _ _ _).length ∧ _
    rw [List.length_append]
    rcases List.mem_append.mp hpast with hold | hnew
    · obtain ⟨hle, hcover⟩ := hheld.past n past hold
      refine ⟨by omega, ?_⟩
      intro id hid
      by_cases hsame : trackedAt past id = trackedAt facts id
      · rw [hsame] at hid
        obtain ⟨row, hrow, hlsn, hnames⟩ := hrows id hid
        exact ⟨row, hrow, by omega, hnames⟩
      · obtain ⟨row, hrow, hlsn, hnames⟩ := hcover id hsame
        exact ⟨row, List.mem_append_left _ hrow, hlsn, hnames⟩
    · obtain ⟨hn, hfacts⟩ := Prod.mk.inj (List.mem_singleton.mp hnew)
      rw [hhead] at hn
      rw [hn, hfacts]
      exact ⟨by omega, hrows⟩

/-! ## Whole runs -/

theorem max?_range' (n : ℕ) : ((List.range' 1 n).max?).getD 0 = n := by
  cases n with
  | zero => rfl
  | succ n =>
    have hmax : (List.range' 1 (n + 1)).max? = some (n + 1) := by
      rw [List.max?_eq_some_iff]
      constructor
      · rw [List.mem_range'_1]
        omega
      · intro b hb
        rw [List.mem_range'_1] at hb
        omega
    rw [hmax, Option.getD_some]

theorem Held.counts {h : History} {s : Store} (hheld : Held env h s)
    (hread : Readable s.journal) : Counts env h s := by
  have hhead := hheld.head_eq env hread
  obtain ⟨kept, hfile, hsuffix, -⟩ := hheld.file
  have hrows : rows env s.journal = kept := by
    rw [hfile, rows_write]
  constructor
  · rw [← List.pairwise_map (f := JournalRow.lsn) (R := (· < ·)), hheld.numbers]
    exact List.pairwise_lt_range' ..
  · rwa [hrows]
  · rw [hhead, hheld.numbers, max?_range']
  · intro n facts hpast hkept id hid
    obtain ⟨-, hcover⟩ := hheld.past n facts hpast
    obtain ⟨row, hrow, hlsn, hnames⟩ := hcover id hid
    refine ⟨row, ?_, hnames⟩
    have hmem : row ∈ (rows env s.journal).filter fun row => n < row.lsn :=
      List.mem_filter.mpr ⟨hkept row hrow hlsn, decide_eq_true hlsn⟩
    change row ∈ ((rows env s.journal).filter fun row => n < row.lsn).take _
    rwa [List.take_of_length_le (List.length_filter_le _ _)]

/-- In a run in which the journal is readable before every save and at its end, rows are numbered
upwards without reuse, the head is the newest of them, and nothing that changed is missed. -/
theorem journal_counts (calls : List Save)
    (h : Trace.Along (save env) (fun s _ => Readable s.journal) .empty calls)
    (hend : Readable (Trace.final (save env) .empty calls).journal) :
    Counts env (history env calls) (Trace.final (save env) .empty calls) := by
  have hempty : Held env ⟨[], []⟩ .empty :=
    ⟨⟨[], rfl, List.suffix_refl _, id⟩, rfl, fun n facts hnil => absurd hnil List.not_mem_nil⟩
  have hstep : ∀ (kept : History) (s : Store) (call : Save), Readable s.journal →
      Held env kept s → Held env (record env kept s call) (save env s call).2 :=
    fun _ _ _ hread hheld => hheld.step env hread
  have hheld := Trace.observe_invariant hstep h hempty
  exact hheld.counts env hend

/-! ## Journals without secrets -/

open JsonText RecordFile

def leadingFields (row : JournalRow) : List (String × Doc) :=
  [("lsn", .num row.lsn), ("at", .str row.time), ("op", .str row.op)]

/-- The fields after the category; a row without changed fields has none of them. -/
def trailingFields (row : JournalRow) : List (String × Doc) :=
  ("key", .str row.key) :: ("created", .str row.created) ::
    (row.fields.map (fun field => ("fields", .str field)) ++ [("session", .str row.session)])

def rowLine (row : JournalRow) : String :=
  (Doc.obj (fields (leadingFields row ++ ("category", .str row.category) ::
    trailingFields row))).text

theorem rowLine_inj {a b : JournalRow} (h : rowLine a = rowLine b) : a = b := by
  have hfields := fields_inj (Doc.obj.inj (Doc.text_inj h))
  simp only [leadingFields, trailingFields, List.cons_append, List.nil_append, List.cons.injEq,
    Prod.mk.injEq, true_and, Doc.str.injEq, Doc.num.injEq] at hfields
  obtain ⟨hlsn, htime, hop, hcategory, hkey, hcreated, hrest⟩ := hfields
  obtain ⟨hnames, hsession⟩ := List.append_inj' hrest rfl
  have hchanged : a.fields = b.fields := by
    apply List.map_injective_iff.mpr _ hnames
    intro x y hxy
    exact Doc.str.inj (Prod.mk.inj hxy).2
  have hwho : a.session = b.session := by simpa using hsession
  obtain ⟨_, _, _, _, _, _, _, _⟩ := a
  obtain ⟨_, _, _, _, _, _, _, _⟩ := b
  simp_all only

open Classical in
/-- A reader that knows the lines of rows only. -/
noncomputable def readRowLine (line : String) : Option JournalRow :=
  if h : ∃ row, rowLine row = line then some h.choose else none

theorem readRowLine_rowLine (row : JournalRow) : readRowLine (rowLine row) = some row := by
  have h : ∃ row', rowLine row' = rowLine row := ⟨row, rfl⟩
  rw [readRowLine, dif_pos h, rowLine_inj h.choose_spec]

noncomputable def plainEnv : Env where
  redact key := key
  print := rowLine
  read := readRowLine
  read_print := readRowLine_rowLine
  print_oneLine _ := oneLine_obj (List.cons_ne_nil _ _)

theorem diff_added (fact : KnowledgeFact) : diff env [] [fact] = [change env .added fact []] := by
  simp [diff, index, putAll, put]

theorem diff_removed (fact : KnowledgeFact) :
    diff env [fact] [] = [change env .removed fact []] := by
  simp [diff, index, putAll, put]

/-- The row of one change. -/
def rowOf (lsn : ℕ) (time : String) (c : Change) : JournalRow where
  lsn := lsn
  time := time
  op := c.op.str
  category := c.category
  key := c.key
  created := c.created
  fields := c.fields
  session := c.session

def addThenRemove (fact : KnowledgeFact) : List Save :=
  [⟨[fact], "2026-10-31T10:00:00+00:00"⟩, ⟨[], "2026-10-31T11:00:00+00:00"⟩]

noncomputable def firstRow (fact : KnowledgeFact) : JournalRow :=
  rowOf 1 "2026-10-31T10:00:00+00:00" (change plainEnv .added fact [])

noncomputable def secondRow (lsn : ℕ) (fact : KnowledgeFact) : JournalRow :=
  rowOf lsn "2026-10-31T11:00:00+00:00" (change plainEnv .removed fact [])

theorem newRows_first (fact : KnowledgeFact) :
    newRows plainEnv "" (diff plainEnv [] [fact]) "2026-10-31T10:00:00+00:00" =
      [firstRow fact] := by
  rw [diff_added, newRows, headLsn_empty]
  rfl

theorem newRows_second (fact : KnowledgeFact) (file : String) :
    newRows plainEnv file (diff plainEnv [fact] []) "2026-10-31T11:00:00+00:00" =
      [secondRow (headLsn plainEnv file + 1) fact] := by
  rw [diff_removed]
  rfl

/-- The first row is never trimmed away by its own save. -/
theorem save_first (fact : KnowledgeFact) :
    (save plainEnv .empty ⟨[fact], "2026-10-31T10:00:00+00:00"⟩).2 =
      ⟨[fact], write plainEnv [firstRow fact]⟩ := by
  obtain ⟨left, hleft, ⟨front, hfront⟩, hne⟩ := @append_write plainEnv []
    (diff plainEnv [] [fact]) "2026-10-31T10:00:00+00:00"
  have hempty : write plainEnv [] = "" := rfl
  rw [hempty, newRows_first, List.nil_append] at hfront hne
  rw [hempty] at hleft
  have hall : left = [firstRow fact] := by
    have hlen := congrArg List.length hfront
    have hpos := List.length_pos_of_ne_nil (hne (List.cons_ne_nil _ _))
    rw [List.length_append, List.length_singleton] at hlen
    have hnil : front = [] := List.length_eq_zero_iff.mp (by omega)
    rwa [hnil, List.nil_append] at hfront
  rw [hall] at hleft
  change (⟨[fact], append plainEnv "" (diff plainEnv [] [fact]) "2026-10-31T10:00:00+00:00"⟩ :
    Store) = _
  rw [hleft]

theorem written_addThenRemove (fact : KnowledgeFact) :
    (history plainEnv (addThenRemove fact)).written =
      [firstRow fact, secondRow (headLsn plainEnv (write plainEnv [firstRow fact]) + 1) fact] := by
  have hhistory : (history plainEnv (addThenRemove fact)).written =
      [] ++ newRows plainEnv "" (diff plainEnv [] [fact]) "2026-10-31T10:00:00+00:00" ++
        newRows plainEnv
          (save plainEnv .empty ⟨[fact], "2026-10-31T10:00:00+00:00"⟩).2.journal
          (diff plainEnv [fact] []) "2026-10-31T11:00:00+00:00" := rfl
  rw [hhistory, newRows_first, save_first, newRows_second]
  rfl

/-! ## A short journal -/

theorem readable_write {kept : List JournalRow} (hcount : kept.length ≤ 5)
    (hshort : ∀ row ∈ kept, (env.print row).toList.length ≤ 200) : Readable (write env kept) := by
  have hone : (utf8 "\n").length = 1 := by decide
  have hsize : ∀ rows : List JournalRow, (∀ row ∈ rows, (env.print row).toList.length ≤ 200) →
      (utf8 (write env rows)).length ≤ rows.length * 801 := by
    intro rows hrows
    induction rows with
    | nil => exact Nat.zero_le _
    | cons row rest ih =>
      have hrow := hrows row List.mem_cons_self
      have hrest := ih fun r hr => hrows r (List.mem_cons_of_mem _ hr)
      have hbytes := length_utf8_le (env.print row)
      have hwrite : write env (row :: rest) = env.print row ++ "\n" ++ write env rest := by
        rw [write, write, List.map_cons, joinLines_cons]
      rw [hwrite, utf8_append, utf8_append, List.length_append, List.length_append, hone,
        List.length_cons]
      omega
  have hall := hsize kept hshort
  have hwindow : lastBytes tailBytes (utf8 (write env kept)) = utf8 (write env kept) := by
    rw [lastBytes, Nat.sub_eq_zero_of_le (by unfold tailBytes; omega), List.drop_zero]
  constructor
  · rw [hwindow, fromUtf8_utf8, Option.isSome_some]
  · intro l hl
    rw [lines_write] at hl
    obtain ⟨row, hrow, rfl⟩ := List.mem_map.mp (List.mem_of_getLast? hl)
    have hbytes := length_utf8_le (env.print row)
    have hrow := hshort row hrow
    unfold tailBytes
    omega

def sampleFact (category : String) : KnowledgeFact where
  category := category
  key := "db"
  createdAt := "2026-10-31T10:00:00+00:00"
  sourceSession := "s1"
  json := .null

theorem length_sampleRows : ∀ row ∈ [firstRow (sampleFact "decision"),
    secondRow 2 (sampleFact "decision")], (plainEnv.print row).toList.length ≤ 200 := by
  have hprint : plainEnv.print = rowLine := rfl
  intro row hrow
  rw [hprint, rowLine, Doc.text, String.toList_ofList]
  rcases List.mem_cons.mp hrow with rfl | hrow
  · decide +kernel
  · obtain rfl := List.mem_singleton.mp hrow
    decide +kernel

theorem addThenRemove_counts :
    Trace.Along (save plainEnv) (fun s _ => Readable s.journal) .empty
        (addThenRemove (sampleFact "decision")) ∧
      Readable (Trace.final (save plainEnv) .empty
        (addThenRemove (sampleFact "decision"))).journal ∧
      Counts plainEnv (history plainEnv (addThenRemove (sampleFact "decision")))
        (Trace.final (save plainEnv) .empty (addThenRemove (sampleFact "decision"))) := by
  have hfirst : Readable (write plainEnv [firstRow (sampleFact "decision")]) := by
    apply readable_write
    · decide
    · intro row hrow
      rw [List.mem_singleton.mp hrow]
      exact length_sampleRows _ List.mem_cons_self
  have hhead : headLsn plainEnv (write plainEnv [firstRow (sampleFact "decision")]) = 1 :=
    @headLsn_write plainEnv [] _ hfirst
  have hrun : Trace.Along (save plainEnv) (fun s _ => Readable s.journal) .empty
      (addThenRemove (sampleFact "decision")) := by
    refine ⟨@readable_write plainEnv [] (Nat.zero_le _) nofun, ?_, trivial⟩
    rw [save_first]
    exact hfirst
  have hend : Readable (Trace.final (save plainEnv) .empty
      (addThenRemove (sampleFact "decision"))).journal := by
    have hfinal : (Trace.final (save plainEnv) .empty
        (addThenRemove (sampleFact "decision"))).journal =
        append plainEnv (write plainEnv [firstRow (sampleFact "decision")])
          (diff plainEnv [sampleFact "decision"] []) "2026-10-31T11:00:00+00:00" := by
      rw [addThenRemove, Trace.final, Trace.final, Trace.final, save_first]
      rfl
    obtain ⟨left, hleft, hsuffix, -⟩ := @append_write plainEnv
      [firstRow (sampleFact "decision")] (diff plainEnv [sampleFact "decision"] [])
      "2026-10-31T11:00:00+00:00"
    rw [newRows_second, hhead] at hsuffix
    rw [hfinal, hleft]
    apply readable_write
    · exact hsuffix.length_le.trans (by decide)
    · exact fun row hrow => length_sampleRows row (hsuffix.subset hrow)
  exact ⟨hrun, hend, journal_counts plainEnv _ hrun hend⟩

/-! ## A row longer than the window -/

def longCategory : String := String.ofList (List.replicate 5000 'a')

theorem headLsn_longCategory :
    headLsn plainEnv (write plainEnv [firstRow (sampleFact longCategory)]) = 0 := by
  have htrailing : trailingFields (firstRow (sampleFact longCategory)) =
      trailingFields (firstRow (sampleFact "decision")) := by
    simp only [trailingFields, firstRow, rowOf, change, sampleFact]
  have hshort : (fields (trailingFields (firstRow (sampleFact "decision")))).chars.length ≤
      200 := by
    decide +kernel
  obtain ⟨shown, hhead, hlines, hwindow⟩ := @window_inside_string tailBytes 5000 "category"
    (leadingFields (firstRow (sampleFact longCategory)))
    (trailingFields (firstRow (sampleFact longCategory))) (List.cons_ne_nil _ _)
    (by rw [htrailing]; unfold tailBytes; omega) (by decide)
  have hfile : write plainEnv [firstRow (sampleFact longCategory)] =
      rowLine (firstRow (sampleFact longCategory)) ++ "\n" := by
    rw [write, List.map_singleton, joinLines_singleton]
    rfl
  have hline : rowLine (firstRow (sampleFact longCategory)) = (Doc.obj (fields
      (leadingFields (firstRow (sampleFact longCategory)) ++
        ("category", .str (String.ofList (List.replicate 5000 'a'))) ::
          trailingFields (firstRow (sampleFact longCategory))))).text := by
    have hcategory : (firstRow (sampleFact longCategory)).category =
        String.ofList (List.replicate 5000 'a') := rfl
    rw [rowLine, hcategory]
  have hnone : readRowLine shown = none := by
    rw [readRowLine, dif_neg]
    rintro ⟨row, rfl⟩
    have hbrace : (rowLine row).toList.head? = some '{' := head?_obj (List.cons_ne_nil _ _)
    rw [hhead] at hbrace
    cases hbrace
  have hnewest : newestRow plainEnv (shown ++ "\n") = none := by
    have hread : plainEnv.read = readRowLine := rfl
    rw [newestRow, hlines, List.reverse_singleton, List.findSome?_cons, List.findSome?_nil, hread,
      hnone]
  rw [headLsn, hfile, hline, hwindow, fromUtf8_utf8, Option.bind_some, hnewest, Option.elim_none]

/-- The row after a long one gets its number again. -/
theorem longCategory_reuses_lsn :
    ¬ Counts plainEnv (history plainEnv (addThenRemove (sampleFact longCategory)))
      (Trace.final (save plainEnv) .empty (addThenRemove (sampleFact longCategory))) := by
  intro hcounts
  have hincreasing := hcounts.increasing
  rw [written_addThenRemove, headLsn_longCategory] at hincreasing
  have hlt := (List.pairwise_cons.mp hincreasing).1 _ (List.mem_singleton_self _)
  exact absurd hlt (lt_irrefl 1)

end LeanCtx.Journal
