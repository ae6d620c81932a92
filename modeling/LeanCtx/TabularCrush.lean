import LeanCtx.Csv
import LeanCtx.JsonPrint

/-!
# The tabular crusher

A table is written by columns: a column of one value is hoisted into a map, a
column of too many values may be dropped, and each row keeps only its cells of
the other columns, in the order of the header. Reading goes by the names of the
columns, so it finds each cell again because the names are distinct.
-/

namespace LeanCtx

namespace Json

mutual

/-- No floats inside, and nested at most so deep. -/
def plain : ℕ → Json → Bool
  | _, number (.float _) => false
  | 0, array _ | 0, object _ => false
  | depth + 1, array items => plainItems depth items
  | depth + 1, object entries => plainEntries depth entries
  | _, _ => true

def plainItems : ℕ → List Json → Bool
  | _, [] => true
  | depth, v :: rest => plain depth v && plainItems depth rest

def plainEntries : ℕ → List (String × Json) → Bool
  | _, [] => true
  | depth, (_, v) :: rest => plain depth v && plainEntries depth rest

end

theorem plainItems_iff {depth : ℕ} {items : List Json} :
    plainItems depth items = true ↔ ∀ v ∈ items, v.plain depth = true := by
  induction items with
  | nil => simp [plainItems]
  | cons v items ih => rw [plainItems, Bool.and_eq_true, ih, List.forall_mem_cons]

theorem plainEntries_iff {depth : ℕ} {entries : List (String × Json)} :
    plainEntries depth entries = true ↔ ∀ e ∈ entries, e.2.plain depth = true := by
  induction entries with
  | nil => simp [plainEntries]
  | cons e entries ih => rw [plainEntries, Bool.and_eq_true, ih, List.forall_mem_cons]

theorem orderedItems_iff {items : List Json} :
    orderedItems items = true ↔ ∀ v ∈ items, v.ordered = true := by
  induction items with
  | nil => simp [orderedItems]
  | cons v items ih => rw [orderedItems, Bool.and_eq_true, ih, List.forall_mem_cons]

theorem orderedEntries_iff {entries : List (String × Json)} :
    orderedEntries entries = true ↔ ∀ e ∈ entries, e.2.ordered = true := by
  induction entries with
  | nil => simp [orderedEntries]
  | cons e entries ih => rw [orderedEntries, Bool.and_eq_true, ih, List.forall_mem_cons]

end Json

namespace TabularCrush

open KeyedList

def marker : String := "_lc_tbl"
def orderKey : String := "_order"
def constKey : String := "_const"
def droppedKey : String := "_dropped"
def rowsKey : String := "_rows"

def minRows : ℕ := 3

structure CrushResult where
  text : String
  lossless : Bool

abbrev Row := List String

/-- The rows of a delimited text. -/
def table (text : String) (delimiter : Char) : List Row :=
  (Csv.parse text.toList delimiter).map fun row => row.map String.ofList

/-! ## Crushing -/

/-- A column: its name and its position. -/
abbrev Column := String × ℕ

def cell (row : Row) (c : ℕ) : String := row.getD c ""

/-- The number of distinct values of a column. -/
def distinct (data : List Row) (c : ℕ) : ℕ := (data.map fun row => cell row c).dedup.length

/-- A drop threshold below `1.0` is the test whether so many distinct values among so many rows
reach it; a threshold of `1.0` or more, or none, drops nothing. -/
abbrev DropEntropy := Option (ℕ → ℕ → Bool)

def drops (dropEntropy : DropEntropy) (data : List Row) (c : ℕ) : Bool :=
  match dropEntropy with
  | none => false
  | some reaches => reaches (distinct data c) data.length

def hoists (dropEntropy : DropEntropy) (data : List Row) (c : ℕ) : Bool :=
  !drops dropEntropy data c && distinct data c == 1

def keeps (dropEntropy : DropEntropy) (data : List Row) (c : ℕ) : Bool :=
  !drops dropEntropy data c && distinct data c != 1

def constMap (dropEntropy : DropEntropy) (header : Row) (data : List Row) :
    List (String × Json) :=
  putAll [] ((header.zipIdx.filter fun col => hoists dropEntropy data col.2).map fun col =>
    (col.1, .string (cell (data.headD []) col.2)))

def droppedOf (dropEntropy : DropEntropy) (header : Row) (data : List Row) : List String :=
  (header.zipIdx.filter fun col => drops dropEntropy data col.2).map Prod.fst

def kept (dropEntropy : DropEntropy) (header : Row) (data : List Row) : List ℕ :=
  (header.zipIdx.filter fun col => keeps dropEntropy data col.2).map Prod.snd

/-- What is written for a table whose columns were sorted into hoisted, dropped and kept ones. -/
def document (header : Row) (data : List Row) (constMap : List (String × Json))
    (dropped : List String) (kept : List ℕ) : Json :=
  let out := put marker (.number (.posInt 1)) []
  let out := put orderKey (.array (header.map .string)) out
  let out := if constMap.isEmpty then out else put constKey (.object constMap) out
  let out := if dropped.isEmpty then out else put droppedKey (.array (dropped.map .string)) out
  .object (put rowsKey (.array (data.map fun row =>
    .array (kept.map fun c => .string (cell row c)))) out)

def looksLikeJson (text : String) : Bool :=
  let head := (text.toList.dropWhile ByteText.isWhitespace).head?
  head == some '{' || head == some '['

/-- Only a table in which every row has a cell in each of the columns, which are told apart by
their names. -/
def crush (text : String) (delimiter : Char) (dropEntropy : DropEntropy) : Option CrushResult :=
  if looksLikeJson text then none
  else
    match table text delimiter with
    | [] => none
    | header :: data =>
      let constMap := constMap dropEntropy header data
      let dropped := droppedOf dropEntropy header data
      if data.length < minRows then none
      else if header.length < 2 then none
      else if data.any fun row => row.length != header.length then none
      else if ¬header.Nodup then none
      else if constMap.isEmpty && dropped.isEmpty then none
      else some {
        text := (document header data constMap dropped (kept dropEntropy header data)).text
        lossless := dropped.isEmpty }

def minSaveRatioNum : ℕ := 3
def minSaveRatioDen : ℕ := 4

def saturatingMul (a b : ℕ) : ℕ := min (a * b) (2 ^ 64 - 1)

def beneficial (compact raw : String) : Bool :=
  saturatingMul compact.utf8ByteSize minSaveRatioDen ≤
    saturatingMul raw.utf8ByteSize minSaveRatioNum

def crushTextIfBeneficial (text : String) (delimiter : Char) : Option String := do
  let res ← crush text delimiter none
  if res.lossless && beneficial res.text text then some res.text else none

def crushTextLossyIfBeneficial (text : String) (delimiter : Char) (dropEntropy : DropEntropy) :
    Option CrushResult := do
  let res ← crush text delimiter dropEntropy
  if !res.lossless && beneficial res.text text then some res else none

/-! ## Reconstruction -/

/-- `serde_json` reads back what it wrote, up to its recursion limit. -/
structure Serde where
  fromStr : String → Option Json
  fromStr_text : ∀ v : Json, v.ordered = true → v.plain 127 = true → fromStr v.text = some v

def stringOf (v : Json) : String := v.asStr.getD ""

def constsIn (obj : Json) : List (String × Json) :=
  match obj.get constKey with
  | some (.object map) => map
  | _ => []

def droppedIn (obj : Json) : List String :=
  match obj.get droppedKey with
  | some (.array a) => a.filterMap Json.asStr
  | _ => []

def reconstructRow (consts : List (String × Json)) (outCols varying : List String) (row : Json) :
    Option Row := do
  let arr ← row.asArray
  if arr.length ≠ varying.length then none
  else
    let varyVals := putAll [] (varying.zip (arr.map stringOf))
    some (outCols.map fun col =>
      (((consts.lookup col).bind Json.asStr).or (varyVals.lookup col)).getD "")

def rebuild (obj : Json) : Option (List Row) := do
  let _ ← obj.get marker
  let order ← (obj.get orderKey).bind Json.asArray
  let rows ← (obj.get rowsKey).bind Json.asArray
  let consts := constsIn obj
  let outCols := (order.map stringOf).filter fun c => !(droppedIn obj).contains c
  let varying := outCols.filter fun c => (consts.lookup c).isNone
  let full ← rows.mapM (reconstructRow consts outCols varying)
  some (outCols :: full)

def Serde.reconstruct (serde : Serde) (text : String) : Option (List Row) :=
  (serde.fromStr text).bind rebuild

/-- The columns a crushed text lists as dropped. -/
def Serde.listed (serde : Serde) (text : String) : List String :=
  ((serde.fromStr text).map droppedIn).getD []

/-- A table without the columns of these names: the first row has the names. -/
def removeColumns (names : List String) : List Row → List Row
  | [] => []
  | header :: data => (header :: data).map fun row =>
    ((header.zip row).filter fun e => !names.contains e.1).map Prod.snd

/-! ## The written document -/

theorem forall_put {P : Json → Prop} {k : String} {v : Json} {l : List (String × Json)} (hv : P v)
    (hl : ∀ e ∈ l, P e.2) : ∀ e ∈ put k v l, P e.2 := by
  intro e he
  rcases mem_put he with rfl | he
  · exact hv
  · exact hl e he

section Document

variable (header : Row) (data : List Row) {consts : List (String × Json)} (dropped : List String)
  (kept : List ℕ)

/-- What holds of the parts of a document holds of each of its values. -/
theorem forall_document {P : Json → Prop} (hone : P (.number (.posInt 1)))
    (hstrings : ∀ names : List String, P (.array (names.map .string)))
    (hconsts : P (.object consts)) (hrows : ∀ rows : List Row,
      P (.array (rows.map fun row => .array (row.map .string)))) :
    ∃ entries, document header data consts dropped kept = .object entries ∧ Ascending entries ∧
      ∀ e ∈ entries, P e.2 := by
  have hbase := forall_put (k := orderKey) (hstrings header)
    (forall_put (k := marker) (l := []) hone nofun)
  have hsorted : Ascending (put orderKey (Json.array (header.map .string))
      (put marker (.number (.posInt 1)) [])) := .put (.put List.Pairwise.nil)
  have hrows' : P (.array (data.map fun row => .array (kept.map fun c => .string (cell row c)))) := by
    have h := hrows (data.map fun row => kept.map fun c => cell row c)
    simpa [List.map_map, Function.comp_def] using h
  refine ⟨_, rfl, ?_, ?_⟩
  · split_ifs
    · exact hsorted.put
    · exact hsorted.put.put
    · exact hsorted.put.put
    · exact hsorted.put.put.put
  · refine forall_put hrows' ?_
    split_ifs
    · exact hbase
    · exact forall_put hconsts hbase
    · exact forall_put (hstrings _) hbase
    · exact forall_put (hstrings _) (forall_put hconsts hbase)

theorem ordered_document (hconsts : (Json.object consts).ordered = true) :
    (document header data consts dropped kept).ordered = true := by
  have hstrings : ∀ names : List String, (Json.array (names.map .string)).ordered = true := by
    intro names
    rw [Json.ordered, Json.orderedItems_iff, List.forall_mem_map]
    exact fun _ _ => rfl
  obtain ⟨entries, hentries, hsorted, hall⟩ := forall_document header data dropped kept
    (P := fun v => v.ordered = true) rfl hstrings hconsts (by
      intro rows
      rw [Json.ordered, Json.orderedItems_iff, List.forall_mem_map]
      exact fun row _ => hstrings row)
  rw [hentries, Json.ordered, Bool.and_eq_true, decide_eq_true_eq, Json.orderedEntries_iff]
  exact ⟨hsorted, hall⟩

theorem plain_document (hconsts : (Json.object consts).plain 126 = true) :
    (document header data consts dropped kept).plain 127 = true := by
  have hstrings : ∀ (depth : ℕ) (names : List String),
      (Json.array (names.map .string)).plain (depth + 1) = true := by
    intro depth names
    rw [Json.plain, Json.plainItems_iff, List.forall_mem_map]
    exact fun name _ => by cases depth <;> rfl
  obtain ⟨entries, hentries, hsorted, hall⟩ := forall_document header data dropped kept
    (P := fun v => v.plain 126 = true) rfl (hstrings 125) hconsts (by
      intro rows
      rw [Json.plain, Json.plainItems_iff, List.forall_mem_map]
      exact fun row _ => hstrings 124 row)
  rw [hentries, Json.plain, Json.plainEntries_iff]
  exact hall

variable (consts)

theorem get_marker_document :
    ((document header data consts dropped kept).get marker).isSome = true := by
  unfold document Json.get
  split_ifs <;> simp [lookup_put, marker, orderKey, constKey, droppedKey, rowsKey]

theorem get_order_document : (document header data consts dropped kept).get orderKey =
    some (.array (header.map .string)) := by
  unfold document Json.get
  split_ifs <;> simp [lookup_put, marker, orderKey, constKey, droppedKey, rowsKey]

theorem get_rows_document : (document header data consts dropped kept).get rowsKey =
    some (.array (data.map fun row => .array (kept.map fun c => .string (cell row c)))) := by
  exact (lookup_put _ _ _ _).trans (if_pos rfl)

theorem constsIn_document : constsIn (document header data consts dropped kept) = consts := by
  have hget : (document header data consts dropped kept).get constKey =
      if consts.isEmpty then none else some (.object consts) := by
    unfold document Json.get
    split_ifs <;> simp [lookup_put, marker, orderKey, constKey, droppedKey, rowsKey]
  rw [constsIn, hget]
  cases consts <;> rfl

theorem droppedIn_document : droppedIn (document header data consts dropped kept) = dropped := by
  have hget : (document header data consts dropped kept).get droppedKey =
      if dropped.isEmpty then none else some (.array (dropped.map .string)) := by
    unfold document Json.get
    split_ifs <;> simp [lookup_put, marker, orderKey, constKey, droppedKey, rowsKey]
  rw [droppedIn, hget]
  cases dropped with
  | nil => rfl
  | cons name dropped =>
    rw [List.isEmpty_cons, if_neg (by decide)]
    simp [List.filterMap_map, Function.comp_def, Json.asStr]

end Document

/-! ## The columns -/

section Columns

variable {dropEntropy : DropEntropy} {header : Row} {data : List Row}

theorem names_zipIdx (header : Row) : header.zipIdx.map Prod.fst = header :=
  List.zipIdx_map_fst 0 header

/-- Where names are distinct, a column has a name in a selection exactly when it is selected. -/
theorem name_mem_iff (hnodup : header.Nodup) (p : Column → Bool) {col : Column}
    (hcol : col ∈ header.zipIdx) :
    col.1 ∈ (header.zipIdx.filter p).map Prod.fst ↔ p col = true := by
  constructor
  · intro h
    obtain ⟨col', hcol', heq⟩ := List.mem_map.mp h
    obtain ⟨hmem, hp⟩ := List.mem_filter.mp hcol'
    have hinj := List.inj_on_of_nodup_map (by rwa [names_zipIdx]) hmem hcol heq
    exact hinj ▸ hp
  · intro hp
    exact List.mem_map_of_mem (List.mem_filter.mpr ⟨hcol, hp⟩)

theorem names_filter (p : String → Bool) :
    header.filter p = (header.zipIdx.filter fun col => p col.1).map Prod.fst := by
  conv_lhs => rw [← names_zipIdx header]
  rw [List.filter_map]
  rfl

/-- The cells of a row beside the names of their columns. -/
theorem zip_eq_map {row : Row} (hrow : row.length = header.length) :
    header.zip row = header.zipIdx.map fun col => (col.1, cell row col.2) := by
  apply List.ext_getElem
  · simp [hrow]
  · intro i hi _
    have hlt : i < row.length := by simp at hi; omega
    simp [cell, List.getD_eq_getElem?_getD, List.getElem?_eq_getElem hlt]

theorem nodup_names (hnodup : header.Nodup) (p : Column → Bool) :
    ((header.zipIdx.filter p).map Prod.fst).Nodup := by
  have hall : (header.zipIdx.map Prod.fst).Nodup := by rwa [names_zipIdx]
  exact hall.sublist (List.filter_sublist.map _)

/-- A hoisted column has the cell of the first row in every row. -/
theorem cell_of_distinct_one {c : ℕ} (h : distinct data c = 1) {row : Row} (hrow : row ∈ data) :
    cell (data.headD []) c = cell row c := by
  obtain ⟨a, ha⟩ := List.length_eq_one_iff.mp h
  have hmem : ∀ row ∈ data, cell row c = a := by
    intro row hrow
    have hcell : cell row c ∈ (data.map fun row => cell row c).dedup :=
      List.mem_dedup.mpr (List.mem_map_of_mem hrow)
    rw [ha] at hcell
    exact List.mem_singleton.mp hcell
  cases data with
  | nil => cases hrow
  | cons first data => rw [List.headD_cons, hmem _ hrow, hmem _ List.mem_cons_self]

theorem lookup_constMap (hnodup : header.Nodup) {col : Column} (hcol : col ∈ header.zipIdx) :
    (constMap dropEntropy header data).lookup col.1 =
      if hoists dropEntropy data col.2 then some (.string (cell (data.headD []) col.2))
      else none := by
  unfold constMap
  by_cases h : hoists dropEntropy data col.2 = true
  · rw [if_pos h]
    apply lookup_putAll_of_mem
    · rw [List.map_map]
      exact nodup_names hnodup _
    · exact List.mem_map.mpr ⟨col, List.mem_filter.mpr ⟨hcol, h⟩, rfl⟩
  · rw [if_neg h, lookup_putAll_of_forall_ne]
    · rfl
    · intro e he heq
      obtain ⟨col', hcol', rfl⟩ := List.mem_map.mp he
      have hmem := (name_mem_iff hnodup (fun col => hoists dropEntropy data col.2) hcol).mp
        (List.mem_map.mpr ⟨col', hcol', heq⟩)
      exact h hmem

theorem outCols_eq (hnodup : header.Nodup) :
    (header.filter fun c => !(droppedOf dropEntropy header data).contains c) =
      (header.zipIdx.filter fun col => !drops dropEntropy data col.2).map Prod.fst := by
  rw [names_filter]
  congr 1
  apply List.filter_congr
  intro col hcol
  have hiff := name_mem_iff hnodup (fun col => drops dropEntropy data col.2) hcol
  rw [← List.contains_iff_mem, ← Bool.eq_iff_iff] at hiff
  rw [droppedOf, hiff]

theorem varying_eq (hnodup : header.Nodup) :
    (((header.zipIdx.filter fun col => !drops dropEntropy data col.2).map Prod.fst).filter fun c =>
      ((constMap dropEntropy header data).lookup c).isNone) =
      (header.zipIdx.filter fun col => keeps dropEntropy data col.2).map Prod.fst := by
  rw [List.filter_map, List.filter_filter]
  congr 1
  apply List.filter_congr
  intro col hcol
  rw [Function.comp_apply, lookup_constMap hnodup hcol]
  unfold hoists keeps
  cases drops dropEntropy data col.2 with
  | true => simp
  | false => by_cases h : distinct data col.2 = 1 <;> simp [h]

theorem removeColumns_row {row : Row} (hnodup : header.Nodup) (hrow : row.length = header.length) :
    ((header.zip row).filter fun e =>
        !(droppedOf dropEntropy header data).contains e.1).map Prod.snd =
      (header.zipIdx.filter fun col => !drops dropEntropy data col.2).map
        fun col => cell row col.2 := by
  rw [zip_eq_map hrow, List.filter_map, List.map_map]
  congr 1
  apply List.filter_congr
  intro col hcol
  have hiff := name_mem_iff hnodup (fun col => drops dropEntropy data col.2) hcol
  rw [← List.contains_iff_mem, ← Bool.eq_iff_iff] at hiff
  rw [Function.comp_apply, droppedOf, hiff]

/-- The cells of a row are found again by name. -/
theorem reconstructRow_eq (hnodup : header.Nodup) {row : Row} (hmem : row ∈ data)
    (hrow : row.length = header.length) :
    reconstructRow (constMap dropEntropy header data)
      ((header.zipIdx.filter fun col => !drops dropEntropy data col.2).map Prod.fst)
      ((header.zipIdx.filter fun col => keeps dropEntropy data col.2).map Prod.fst)
      (.array ((kept dropEntropy header data).map fun c => .string (cell row c))) =
    some (((header.zip row).filter fun e =>
      !(droppedOf dropEntropy header data).contains e.1).map Prod.snd) := by
  have hcells : ((kept dropEntropy header data).map fun c => Json.string (cell row c)).map stringOf =
      (header.zipIdx.filter fun col => keeps dropEntropy data col.2).map
        fun col => cell row col.2 := by
    rw [kept, List.map_map, List.map_map]
    rfl
  rw [reconstructRow, Json.asArray, Option.bind_eq_bind, Option.bind_some, if_neg, hcells,
    removeColumns_row hnodup hrow]
  · apply congrArg some
    rw [List.map_map]
    apply List.map_congr_left
    intro col hcol
    obtain ⟨hcol, hdrops⟩ := List.mem_filter.mp hcol
    rw [Function.comp_apply, lookup_constMap hnodup hcol]
    by_cases hhoists : hoists dropEntropy data col.2 = true
    · have hone : distinct data col.2 = 1 := by
        unfold hoists at hhoists
        exact beq_iff_eq.mp (Bool.and_eq_true_iff.mp hhoists).2
      rw [if_pos hhoists]
      exact cell_of_distinct_one hone hmem
    · have hkeeps : keeps dropEntropy data col.2 = true := by
        unfold hoists at hhoists
        unfold keeps
        simp_all
      rw [if_neg hhoists, List.zip_map', lookup_putAll_of_mem]
      · rfl
      · rw [List.map_map]
        exact nodup_names hnodup _
      · exact List.mem_map.mpr ⟨col, List.mem_filter.mpr ⟨hcol, hkeeps⟩, rfl⟩
  · simp [kept]

end Columns

/-! ## Reading what was crushed -/

theorem mapM_eq_some {α β γ : Type} {f : β → Option γ} {g : α → β} {h : α → γ} {l : List α}
    (hall : ∀ a ∈ l, f (g a) = some (h a)) : (l.map g).mapM f = some (l.map h) := by
  induction l with
  | nil => rfl
  | cons a l ih =>
    obtain ⟨ha, hl⟩ := List.forall_mem_cons.mp hall
    rw [List.map_cons, List.mapM_cons, ha, ih hl]
    rfl

/-- What is written when the crusher succeeds, and for which tables. -/
theorem crush_eq_some {text : String} {delimiter : Char} {dropEntropy : DropEntropy}
    {res : CrushResult} (h : crush text delimiter dropEntropy = some res) :
    ∃ header data, table text delimiter = header :: data ∧ header.Nodup ∧
      (∀ row ∈ data, row.length = header.length) ∧
      res.text = (document header data (constMap dropEntropy header data)
        (droppedOf dropEntropy header data) (kept dropEntropy header data)).text ∧
      res.lossless = (droppedOf dropEntropy header data).isEmpty := by
  unfold crush at h
  split_ifs at h with hjson
  cases htable : table text delimiter with
  | nil => rw [htable] at h; cases h
  | cons header data =>
    rw [htable] at h
    simp only at h
    split_ifs at h with hrows hcolumns hrect hnodup hnothing
    refine ⟨header, data, rfl, hnodup, ?_, ?_, ?_⟩
    · intro row hrow
      by_contra hne
      exact hrect (List.any_eq_true.mpr ⟨row, hrow, bne_iff_ne.mpr hne⟩)
    · rw [← Option.some.inj h]
    · rw [← Option.some.inj h]

theorem removeColumns_header (header : Row) (p : String → Bool) :
    ((header.zip header).filter fun e => p e.1).map Prod.snd = header.filter p := by
  have hzip : header.zip header = header.map fun name => (name, name) := by
    simpa using List.zip_map' (f := id) (g := id) (l := header)
  rw [hzip, List.filter_map, List.map_map]
  exact List.map_id _

theorem rebuild_document {dropEntropy : DropEntropy} {header : Row} {data : List Row}
    (hnodup : header.Nodup) (hrect : ∀ row ∈ data, row.length = header.length) :
    rebuild (document header data (constMap dropEntropy header data)
        (droppedOf dropEntropy header data) (kept dropEntropy header data)) =
      some (removeColumns (droppedOf dropEntropy header data) (header :: data)) := by
  have horder : (header.map Json.string).map stringOf = header := by
    rw [List.map_map]
    exact List.map_id _
  unfold rebuild
  rw [get_order_document, get_rows_document, constsIn_document, droppedIn_document]
  obtain ⟨one, hone⟩ := Option.isSome_iff_exists.mp (get_marker_document header data
    (constMap dropEntropy header data) (droppedOf dropEntropy header data)
    (kept dropEntropy header data))
  rw [hone]
  simp only [Option.bind_eq_bind, Option.bind_some, Json.asArray, horder]
  rw [outCols_eq hnodup, varying_eq hnodup, mapM_eq_some fun row hrow =>
    reconstructRow_eq hnodup hrow (hrect row hrow), Option.bind_some, removeColumns, List.map_cons,
    removeColumns_header header fun name => !(droppedOf dropEntropy header data).contains name,
    outCols_eq hnodup]

theorem removeColumns_nil (header : Row) {data : List Row}
    (hrect : ∀ row ∈ data, row.length = header.length) :
    removeColumns [] (header :: data) = header :: data := by
  have hrow : ∀ row : Row, row.length = header.length →
      ((header.zip row).filter fun e => !([] : List String).contains e.1).map Prod.snd = row := by
    intro row h
    simp [List.map_snd_zip, h]
  rw [removeColumns, List.map_cons, hrow header rfl]
  congr 1
  rw [List.map_congr_left fun row hmem => hrow row (hrect row hmem)]
  exact List.map_id _

theorem readable_document (dropEntropy : DropEntropy) (header : Row) (data : List Row) :
    (document header data (constMap dropEntropy header data) (droppedOf dropEntropy header data)
      (kept dropEntropy header data)).ordered = true ∧
    (document header data (constMap dropEntropy header data) (droppedOf dropEntropy header data)
      (kept dropEntropy header data)).plain 127 = true := by
  have hstring : ∀ e ∈ constMap dropEntropy header data, ∃ s, e.2 = .string s := by
    intro e he
    rcases mem_putAll he with he | he
    · cases he
    · obtain ⟨col, -, rfl⟩ := List.mem_map.mp he
      exact ⟨_, rfl⟩
  constructor
  · apply ordered_document
    rw [Json.ordered, Bool.and_eq_true, decide_eq_true_eq, Json.orderedEntries_iff]
    refine ⟨Ascending.putAll List.Pairwise.nil, ?_⟩
    intro e he
    obtain ⟨s, hs⟩ := hstring e he
    rw [hs]
    rfl
  · apply plain_document
    rw [Json.plain, Json.plainEntries_iff]
    intro e he
    obtain ⟨s, hs⟩ := hstring e he
    rw [hs]
    rfl

/-- What a reader finds in a crushed text. -/
theorem reads_crushed (serde : Serde) {text : String} {delimiter : Char}
    {dropEntropy : DropEntropy} {res : CrushResult}
    (h : crush text delimiter dropEntropy = some res) :
    ∃ dropped, serde.listed res.text = dropped ∧ res.lossless = dropped.isEmpty ∧
      serde.reconstruct res.text = some (removeColumns dropped (table text delimiter)) ∧
      (dropped = [] → serde.reconstruct res.text = some (table text delimiter)) := by
  obtain ⟨header, data, htable, hnodup, hrect, htext, hlossless⟩ := crush_eq_some h
  obtain ⟨hordered, hplain⟩ := readable_document dropEntropy header data
  have hread := serde.fromStr_text _ hordered hplain
  have hreconstruct : serde.reconstruct res.text =
      some (removeColumns (droppedOf dropEntropy header data) (table text delimiter)) := by
    rw [Serde.reconstruct, htext, hread, Option.bind_some, rebuild_document hnodup hrect, htable]
  refine ⟨droppedOf dropEntropy header data, ?_, hlossless, hreconstruct, ?_⟩
  · rw [Serde.listed, htext, hread, Option.map_some, Option.getD_some, droppedIn_document]
  · intro hnone
    rw [hreconstruct, hnone, htable, removeColumns_nil header hrect]

/-- The printer has an inverse. -/
noncomputable def textSerde : Serde where
  fromStr := Json.ofText
  fromStr_text v _ _ := Json.ofText_text v

/-- A text that is replaced by its crushed form is never lost. -/
theorem reconstruct_crushTextIfBeneficial (serde : Serde) {text compact : String}
    {delimiter : Char} (h : crushTextIfBeneficial text delimiter = some compact) :
    serde.reconstruct compact = some (table text delimiter) := by
  obtain ⟨res, hres, hcompact⟩ := Option.bind_eq_some_iff.mp h
  split_ifs at hcompact with hgate
  obtain rfl := Option.some.inj hcompact
  obtain ⟨dropped, -, hlossless, -, hwhole⟩ := reads_crushed serde hres
  exact hwhole (List.isEmpty_iff.mp (hlossless.symm.trans (Bool.and_eq_true_iff.mp hgate).1))

end TabularCrush

end LeanCtx
