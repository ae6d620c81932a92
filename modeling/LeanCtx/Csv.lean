import LeanCtx.ByteText

/-!
# Delimited tables

A table is read character by character, with one character of lookahead: a
quote inside quotes is doubled, and a carriage return takes the newline after
it along. Whatever way a table is written down, reading the text gives the
table back (`parse_encoded`).
-/

namespace LeanCtx.Csv

abbrev Text := List Char

abbrev Row := List Text

/-! ## Reading -/

def trim (s : Text) : Text :=
  ((s.dropWhile ByteText.isWhitespace).reverse.dropWhile ByteText.isWhitespace).reverse

/-- A record without a visible character is skipped. -/
def pushRecord (rows : List Row) (record : Row) : List Row :=
  if record.any fun f => !(trim f).isEmpty then rows ++ [record] else rows

/-- What is read: the rows so far, the open record and its open field. -/
structure Reading where
  rows : List Row
  record : Row
  field : Text

namespace Reading

def push (r : Reading) (c : Char) : Reading := { r with field := r.field ++ [c] }

def endField (r : Reading) : Reading := { r with record := r.record ++ [r.field], field := [] }

def endRecord (r : Reading) : Reading where
  rows := pushRecord r.rows (r.record ++ [r.field])
  record := []
  field := []

/-- The last record may have no terminator. -/
def finish (r : Reading) : List Row :=
  if r.field ≠ [] ∨ r.record ≠ [] then pushRecord r.rows (r.record ++ [r.field]) else r.rows

end Reading

/-- The loop, outside of quotes and inside. -/
@[simp]
def readFrom (delimiter : Char) : (inQuotes : Bool) → Reading → Text → List Row
  | _, r, [] => r.finish
  | true, r, '"' :: '"' :: rest => readFrom delimiter true (r.push '"') rest
  | true, r, '"' :: rest => readFrom delimiter false r rest
  | true, r, c :: rest => readFrom delimiter true (r.push c) rest
  | false, r, c :: rest =>
    if c = '"' then readFrom delimiter true r rest
    else if c = delimiter then readFrom delimiter false r.endField rest
    else if c = '\n' then readFrom delimiter false r.endRecord rest
    else if c = '\r' then
      match rest with
      | '\n' :: rest => readFrom delimiter false r.endRecord rest
      | rest => readFrom delimiter false r.endRecord rest
    else readFrom delimiter false (r.push c) rest

def parse (input : Text) (delimiter : Char) : List Row := readFrom delimiter false ⟨[], [], []⟩ input

/-! ## Writing -/

/-- A field as it may be written: quoted, or plain if no character in it needs quotes. -/
inductive FieldText (delimiter : Char) : Text → Text → Prop
  | plain {f : Text} (h : ∀ c ∈ f, c ≠ delimiter ∧ c ≠ '"' ∧ c ≠ '\n' ∧ c ≠ '\r') :
    FieldText delimiter f f
  | quoted (f : Text) :
    FieldText delimiter f ('"' :: (f.flatMap fun c => if c = '"' then ['"', '"'] else [c]) ++ ['"'])

inductive RowText (delimiter : Char) : Row → Text → Prop
  | last {f s : Text} (h : FieldText delimiter f s) : RowText delimiter [f] s
  | cons {f s t : Text} {row : Row} (h : FieldText delimiter f s) (hrow : RowText delimiter row t) :
    RowText delimiter (f :: row) (s ++ delimiter :: t)

inductive Terminator : Text → Prop
  | lf : Terminator ['\n']
  | crlf : Terminator ['\r', '\n']
  | cr : Terminator ['\r']

/-- A table, each row with any terminator; the last may have none. -/
inductive TableText (delimiter : Char) : List Row → Text → Prop
  | nil : TableText delimiter [] []
  | unterminated {row : Row} {s : Text} (h : RowText delimiter row s) :
    TableText delimiter [row] s
  | row {row : Row} {rows : List Row} {s e t : Text} (h : RowText delimiter row s)
    (he : Terminator e) (hrows : TableText delimiter rows t) :
    TableText delimiter (row :: rows) (s ++ (e ++ t))

/-- A row of fields that show nothing. -/
def Blank (row : Row) : Prop := ∀ f ∈ row, trim f = []

instance (row : Row) : Decidable (Blank row) := List.decidableBAll _ row

/-! ## Reading what was written -/

variable {d : Char}

/-- Outside of quotes, where no newline is taken along. -/
theorem readFrom_cons (r : Reading) {c : Char} {rest : Text}
    (h : c = '\r' → rest.head? ≠ some '\n') :
    readFrom d false r (c :: rest) =
      if c = '"' then readFrom d true r rest
      else if c = d then readFrom d false r.endField rest
      else if c = '\n' ∨ c = '\r' then readFrom d false r.endRecord rest
      else readFrom d false (r.push c) rest := by
  cases rest with
  | nil => simp only [readFrom, ← ite_or]
  | cons c' rest =>
    by_cases hcr : c = '\r'
    · have hc' : c' ≠ '\n' := fun heq => h hcr (by rw [heq]; rfl)
      conv_lhs => unfold readFrom
      split_ifs <;> simp_all
    · conv_lhs => unfold readFrom
      split_ifs <;> simp_all

theorem readFrom_plain {s : Text} (h : ∀ c ∈ s, c ≠ d ∧ c ≠ '"' ∧ c ≠ '\n' ∧ c ≠ '\r')
    (r : Reading) (rest : Text) :
    readFrom d false r (s ++ rest) = readFrom d false { r with field := r.field ++ s } rest := by
  induction s generalizing r with
  | nil => rw [List.append_nil, List.nil_append]
  | cons c s ih =>
    obtain ⟨hd, hquote, hlf, hcr⟩ := h c List.mem_cons_self
    rw [List.cons_append, readFrom_cons r fun h => absurd h hcr, if_neg hquote, if_neg hd,
      if_neg (not_or.mpr ⟨hlf, hcr⟩), ih fun c' hc' => h c' (List.mem_cons_of_mem _ hc')]
    simp [Reading.push]

/-- Doubled quotes are read as one, up to the quote that ends the field. -/
theorem readFrom_quoted (f : Text) (r : Reading) {rest : Text} (hrest : rest.head? ≠ some '"') :
    readFrom d true r ((f.flatMap fun c => if c = '"' then ['"', '"'] else [c]) ++ '"' :: rest) =
      readFrom d false { r with field := r.field ++ f } rest := by
  induction f generalizing r with
  | nil =>
    rw [List.flatMap_nil, List.nil_append, List.append_nil]
    cases rest with
    | nil => rfl
    | cons c rest =>
      have hc : c ≠ '"' := fun h => hrest (by rw [h]; rfl)
      rw [readFrom]
      rintro rest' h
      exact hc (List.cons.inj h).1
  | cons c f ih =>
    rw [List.flatMap_cons, List.append_assoc]
    by_cases hc : c = '"'
    · rw [if_pos hc, List.cons_append, List.cons_append, List.nil_append, readFrom, ih, hc]
      simp [Reading.push]
    · rw [if_neg hc, List.singleton_append, readFrom, ih]
      · simp [Reading.push]
      · exact fun _ h _ => hc h
      · exact hc

theorem readFrom_field {f s : Text} (h : FieldText d f s) (rows : List Row) (record : Row)
    {rest : Text} (hrest : rest.head? ≠ some '"') :
    readFrom d false ⟨rows, record, []⟩ (s ++ rest) = readFrom d false ⟨rows, record, f⟩ rest := by
  cases h with
  | plain h => exact readFrom_plain h _ _
  | quoted =>
    rw [List.cons_append, List.cons_append, readFrom_cons _ fun h => absurd h (by decide),
      if_pos rfl, List.append_assoc, List.singleton_append]
    exact readFrom_quoted f _ hrest

theorem readFrom_delimiter (hd : d ≠ '"' ∧ d ≠ '\r') (r : Reading) (rest : Text) :
    readFrom d false r (d :: rest) = readFrom d false r.endField rest := by
  rw [readFrom_cons r fun h => absurd h hd.2, if_neg hd.1, if_pos rfl]

/-- A row leaves its last field open. -/
theorem readFrom_row {row : Row} {s : Text} (h : RowText d row s) (hd : d ≠ '"' ∧ d ≠ '\r') :
    ∃ front last, row = front ++ [last] ∧ ∀ (rows : List Row) (record : Row) (rest : Text),
      rest.head? ≠ some '"' → readFrom d false ⟨rows, record, []⟩ (s ++ rest) =
        readFrom d false ⟨rows, record ++ front, last⟩ rest := by
  induction h with
  | @last f s hfield =>
    refine ⟨[], f, rfl, ?_⟩
    intro rows record rest hrest
    rw [List.append_nil]
    exact readFrom_field hfield rows record hrest
  | @cons f s t row hfield _ ih =>
    obtain ⟨front, last, rfl, hread⟩ := ih
    refine ⟨f :: front, last, rfl, ?_⟩
    intro rows record rest hrest
    have hdelimiter : (d :: (t ++ rest)).head? ≠ some '"' := fun h => hd.1 (Option.some.inj h)
    rw [List.append_assoc, List.cons_append, readFrom_field hfield rows record hdelimiter,
      readFrom_delimiter hd, Reading.endField, hread _ _ rest hrest, List.append_assoc]
    rfl

theorem readFrom_terminator {e : Text} (h : Terminator e) (hd : d ≠ '\n' ∧ d ≠ '\r') (r : Reading)
    {rest : Text} (hrest : rest.head? ≠ some '\n') :
    readFrom d false r (e ++ rest) = readFrom d false r.endRecord rest := by
  have hquote : ('\n' : Char) ≠ '"' ∧ ('\r' : Char) ≠ '"' ∧ ('\r' : Char) ≠ '\n' := by decide
  cases h with
  | lf =>
    rw [List.singleton_append, readFrom_cons r fun h => absurd h (by decide), if_neg hquote.1,
      if_neg hd.1.symm, if_pos (.inl rfl)]
  | crlf =>
    rw [List.cons_append, List.cons_append, List.nil_append]
    simp [readFrom, hd.2.symm]
  | cr =>
    rw [List.singleton_append, readFrom_cons r fun _ => hrest, if_neg hquote.2.1, if_neg hd.2.symm,
      if_pos (.inr rfl)]

/-- Only a row of one empty field is written as nothing or begins with a newline. -/
theorem RowText.head_ne {row : Row} {s : Text} (h : RowText d row s) (hd : d ≠ '\n')
    (hrow : ¬ Blank row) : ∃ c t, s = c :: t ∧ c ≠ '\n' := by
  have hfield : ∀ {f s : Text}, FieldText d f s → f ≠ [] → ∃ c t, s = c :: t ∧ c ≠ '\n' := by
    intro f s hf hne
    cases hf with
    | quoted => exact ⟨'"', _, rfl, by decide⟩
    | plain hplain =>
      obtain ⟨c, t, rfl⟩ := List.exists_cons_of_ne_nil hne
      exact ⟨c, t, rfl, (hplain c List.mem_cons_self).2.2.1⟩
  cases h with
  | @last f s hf =>
    refine hfield hf ?_
    rintro rfl
    refine hrow fun f hf => ?_
    rw [List.mem_singleton.mp hf]
    rfl
  | @cons f s t row hf _ =>
    cases s with
    | nil => exact ⟨d, t, rfl, hd⟩
    | cons c s =>
      refine ⟨c, s ++ d :: t, rfl, ?_⟩
      cases hf with
      | quoted => decide
      | plain hplain => exact (hplain c List.mem_cons_self).2.2.1

theorem TableText.head_ne {rows : List Row} {t : Text} (h : TableText d rows t) (hd : d ≠ '\n')
    (hrows : ∀ row ∈ rows, ¬ Blank row) : t.head? ≠ some '\n' := by
  cases h with
  | nil => nofun
  | @unterminated row s hrow =>
    obtain ⟨c, t, rfl, hc⟩ := hrow.head_ne hd (hrows row List.mem_cons_self)
    exact fun h => hc (Option.some.inj h)
  | @row row rows s e t hrow _ _ =>
    obtain ⟨c, t, rfl, hc⟩ := hrow.head_ne hd (hrows row List.mem_cons_self)
    exact fun h => hc (Option.some.inj h)

theorem pushRecord_of_not_blank {record : Row} (h : ¬ Blank record) (rows : List Row) :
    pushRecord rows record = rows ++ [record] := by
  refine if_pos ?_
  by_contra hnone
  refine h fun f hf => ?_
  simp only [List.any_eq_true, not_exists, not_and, Bool.not_eq_true'] at hnone
  simpa using hnone f hf

theorem finish_of_not_blank {front : Row} {last : Text} (h : ¬ Blank (front ++ [last]))
    (rows : List Row) :
    Reading.finish ⟨rows, front, last⟩ = rows ++ [front ++ [last]] := by
  unfold Reading.finish
  rw [if_pos, pushRecord_of_not_blank h]
  by_contra hnone
  obtain ⟨hlast, hfront⟩ := not_or.mp hnone
  obtain rfl := not_not.mp hlast
  obtain rfl := not_not.mp hfront
  exact h (by decide)

theorem readFrom_table {rows : List Row} {text : Text} (h : TableText d rows text)
    (hd : d ≠ '"' ∧ d ≠ '\n' ∧ d ≠ '\r') (hrows : ∀ row ∈ rows, ¬ Blank row)
    (before : List Row) : readFrom d false ⟨before, [], []⟩ text = before ++ rows := by
  induction h generalizing before with
  | nil => simp [readFrom, Reading.finish]
  | @unterminated row s hrow =>
    obtain ⟨front, last, rfl, hread⟩ := readFrom_row hrow ⟨hd.1, hd.2.2⟩
    have hend := hread before [] [] nofun
    rw [List.append_nil] at hend
    rw [hend, readFrom, List.nil_append, finish_of_not_blank (hrows _ List.mem_cons_self)]
  | @row row rows s e t hrow he htable ih =>
    have hnext := htable.head_ne hd.2.1 fun row' hrow' => hrows row' (List.mem_cons_of_mem _ hrow')
    obtain ⟨front, last, rfl, hread⟩ := readFrom_row hrow ⟨hd.1, hd.2.2⟩
    have hquote : (e ++ t).head? ≠ some '"' := by
      cases he <;> exact fun h => absurd (Option.some.inj h) (by decide)
    rw [hread before [] _ hquote, readFrom_terminator he hd.2 _ hnext, Reading.endRecord,
      List.nil_append, pushRecord_of_not_blank (hrows _ List.mem_cons_self),
      ih fun row' hrow' => hrows row' (List.mem_cons_of_mem _ hrow')]
    simp

/-- Reading a written table gives the table. -/
theorem parse_encoded {rows : List Row} {text : Text} (h : TableText d rows text)
    (hd : d ≠ '"' ∧ d ≠ '\n' ∧ d ≠ '\r') (hrows : ∀ row ∈ rows, ¬ Blank row) :
    parse text d = rows :=
  readFrom_table h hd hrows []

/-- A quoted field with a quote in it, an empty field at the end, and a bare carriage return. -/
theorem parse_encoded_two_rows :
    parse "\"a\"\"b\",\r,\"\"\"\"".toList ',' =
      [["a\"b".toList, []], [[], "\"".toList]] := by
  refine parse_encoded ?_ (by decide) (by decide)
  have hfirst : RowText ',' ["a\"b".toList, []] ("\"a\"\"b\"".toList ++ ',' :: []) :=
    .cons (.quoted _) (.last (.plain nofun))
  have hsecond : RowText ',' [[], "\"".toList] ([] ++ ',' :: "\"\"\"\"".toList) :=
    .cons (.plain nofun) (.last (.quoted _))
  exact .row hfirst .cr (.unterminated hsecond)

end LeanCtx.Csv
