import LeanCtx.Substitution
import LeanCtx.SymbolMap

/-!
# Texts with marked identifiers

Between the replacements of a symbol map a text consists of characters and of
short ids. Keeping the two apart, every replacement is one of a part by a mark:
it follows the replacement in the flat text as long as no identifier holds the
mark of an id or begins with a digit, and expanding the marks gives back the
text it started from.
-/

namespace LeanCtx.Symbols

open TextSearch

inductive Sym
  | char (c : Char)
  | id (e : Text × Text)
deriving DecidableEq

def Sym.shown : Sym → Text
  | .char c => [c]
  | .id e => e.2

def Sym.meant : Sym → Text
  | .char c => [c]
  | .id e => e.1

/-- The text as it is written. -/
def flat (syms : List Sym) : Text := syms.flatMap Sym.shown

/-- The text that is meant. -/
def expand (syms : List Sym) : Text := syms.flatMap Sym.meant

def chars (s : Text) : List Sym := s.map .char

/-- The identifier of the entry replaced by its mark. -/
def mark (syms : List Sym) (e : Text × Text) : List Sym := replaceAll (chars e.1) [.id e] syms

def markAll (entries : List (Text × Text)) (syms : List Sym) : List Sym := entries.foldl mark syms

/-- A plain identifier and its short id. -/
structure Entry (e : Text × Text) : Prop where
  plain : Plain e.1
  ne_nil : e.1 ≠ []
  short : ∃ d, e.2 = shortIdPrefix :: d ∧ ∀ c ∈ d, c.isDigit = true

@[simp] theorem flat_nil : flat [] = [] := rfl

@[simp] theorem flat_cons (sym : Sym) (syms : List Sym) :
    flat (sym :: syms) = sym.shown ++ flat syms := rfl

@[simp] theorem flat_append (s t : List Sym) : flat (s ++ t) = flat s ++ flat t :=
  List.flatMap_append

@[simp] theorem expand_nil : expand [] = [] := rfl

@[simp] theorem expand_cons (sym : Sym) (syms : List Sym) :
    expand (sym :: syms) = sym.meant ++ expand syms := rfl

@[simp] theorem expand_append (s t : List Sym) : expand (s ++ t) = expand s ++ expand t :=
  List.flatMap_append

theorem flat_chars (s : Text) : flat (chars s) = s := by
  induction s with
  | nil => rfl
  | cons c s ih => exact congrArg (c :: ·) ih

theorem expand_chars (s : Text) : expand (chars s) = s := by
  induction s with
  | nil => rfl
  | cons c s ih => exact congrArg (c :: ·) ih

theorem chars_ne_nil {s : Text} (h : s ≠ []) : chars s ≠ [] := by
  rwa [chars, ne_eq, List.map_eq_nil_iff]

theorem id_not_mem_chars (e : Text × Text) (s : Text) : .id e ∉ chars s := by
  simp [chars]

theorem chars_append (s t : Text) : chars (s ++ t) = chars s ++ chars t := List.map_append

theorem chars_isInfix {s t : Text} : chars s <:+: chars t ↔ s <:+: t := by
  constructor
  · rintro ⟨u, v, h⟩
    refine ⟨expand u, expand v, ?_⟩
    have hexpand := congrArg expand h
    rwa [expand_append, expand_append, expand_chars, expand_chars] at hexpand
  · rintro ⟨u, v, rfl⟩
    exact ⟨chars u, chars v, by rw [chars_append, chars_append]⟩

/-- Characters and ids of a text after a replacement. -/
theorem mem_mark {e : Text × Text} (he : e.1 ≠ []) {syms : List Sym} {sym : Sym}
    (h : sym ∈ mark syms e) : sym = .id e ∨ sym ∈ syms :=
  mem_of_mem_replaceAll (chars_ne_nil he) h

theorem expand_mark {e : Text × Text} (he : e.1 ≠ []) (syms : List Sym) :
    expand (mark syms e) = expand syms := by
  unfold mark
  induction syms using replace_induction (chars_ne_nil he) with
  | hnil => rw [replaceAll_nil (chars_ne_nil he)]
  | hpart rest ih =>
    rw [replaceAll_append (chars_ne_nil he), expand_append, expand_append, ih, expand_chars]
    simp [Sym.meant]
  | hkept c rest hc ih => rw [replaceAll_kept hc, expand_cons, ih, expand_cons]

/-! ## Flat texts -/

/-- Ids that are written as short ids. -/
def Marks (syms : List Sym) : Prop := ∀ e, .id e ∈ syms → Entry e

theorem Marks.tail {sym : Sym} {syms : List Sym} (h : Marks (sym :: syms)) : Marks syms :=
  fun e he => h e (List.mem_cons_of_mem _ he)

theorem prefix_flat {t : Text} {syms : List Sym} (ht : shortIdPrefix ∉ t) (hsyms : Marks syms)
    (h : t <+: flat syms) : chars t <+: syms := by
  induction syms generalizing t with
  | nil =>
    rw [List.prefix_nil.mp h]
    exact List.nil_prefix
  | cons sym syms ih =>
    cases t with
    | nil => exact List.nil_prefix
    | cons c t =>
      cases sym with
      | char d =>
        obtain ⟨rfl, htail⟩ := List.cons_prefix_cons.mp h
        exact List.cons_prefix_cons.mpr
          ⟨rfl, ih (fun hmem => ht (List.mem_cons_of_mem _ hmem)) hsyms.tail htail⟩
      | id e =>
        obtain ⟨d, hd, -⟩ := (hsyms e List.mem_cons_self).short
        rw [flat_cons, Sym.shown, hd] at h
        obtain ⟨rfl, -⟩ := List.cons_prefix_cons.mp h
        exact absurd List.mem_cons_self ht

/-- A plain identifier begins nowhere in a short id. -/
theorem Entry.not_prefix {e e' : Text × Text} (he : Entry e) (he' : Entry e') {v : Text}
    (hv : v ≠ []) (hsuffix : v <:+ e'.2) (rest : Text) : ¬ e.1 <+: v ++ rest := by
  obtain ⟨d, hd, hdigits⟩ := he'.short
  cases v with
  | nil => exact absurd rfl hv
  | cons c v =>
    cases hname : e.1 with
    | nil => exact absurd hname he.ne_nil
    | cons x name =>
      rw [List.cons_append, List.cons_prefix_cons]
      rintro ⟨rfl, -⟩
      have hmem : x ∈ shortIdPrefix :: d := hd ▸ hsuffix.mem List.mem_cons_self
      rcases List.mem_cons.mp hmem with rfl | hmem
      · exact he.plain.unmarked (by rw [hname]; exact List.mem_cons_self)
      · have hstart := he.plain.starts x (by rw [hname]; rfl)
        exact Bool.false_ne_true (hstart.symm.trans (hdigits x hmem))

theorem flat_mark {e : Text × Text} (he : Entry e) {syms : List Sym} (hsyms : Marks syms) :
    flat (mark syms e) = replaceAll e.1 e.2 (flat syms) := by
  unfold mark
  induction syms using replace_induction (chars_ne_nil he.ne_nil) with
  | hnil => rw [replaceAll_nil (chars_ne_nil he.ne_nil), flat_nil, replaceAll_nil he.ne_nil]
  | hpart rest ih =>
    have hrest : Marks rest := fun e' he' => hsyms e' (List.mem_append_right _ he')
    rw [replaceAll_append (chars_ne_nil he.ne_nil), flat_append, flat_append, flat_chars,
      replaceAll_append he.ne_nil, ih hrest]
    simp [Sym.shown]
  | hkept sym rest hc ih =>
    rw [replaceAll_kept hc, flat_cons, ih hsyms.tail, flat_cons]
    cases sym with
    | char c =>
      have hnot : ¬ e.1 <+: c :: flat rest :=
        fun h => hc (prefix_flat he.plain.unmarked hsyms h)
      exact (replaceAll_kept hnot _).symm
    | id e' =>
      have he' := hsyms e' List.mem_cons_self
      exact (replaceAll_pass (fun v hv hsuffix => he.not_prefix he' hv hsuffix _) _).symm

theorem Marks.mark {e : Text × Text} (he : Entry e) {syms : List Sym} (h : Marks syms) :
    Marks (mark syms e) := by
  intro e' he'
  rcases mem_mark he.ne_nil he' with heq | hmem
  · rw [Sym.id.inj heq]
    exact he
  · exact h e' hmem

theorem flat_markAll {entries : List (Text × Text)} (hentries : ∀ e ∈ entries, Entry e)
    {syms : List Sym} (hsyms : Marks syms) :
    flat (markAll entries syms) =
      entries.foldl (fun result e => replaceAll e.1 e.2 result) (flat syms) := by
  induction entries generalizing syms with
  | nil => rfl
  | cons e entries ih =>
    have he := hentries e List.mem_cons_self
    have hstep : markAll (e :: entries) syms = markAll entries (mark syms e) := rfl
    rw [hstep, ih (fun e' he' => hentries e' (List.mem_cons_of_mem _ he')) (hsyms.mark he),
      List.foldl_cons, flat_mark he hsyms]

theorem expand_markAll {entries : List (Text × Text)} (hentries : ∀ e ∈ entries, Entry e)
    (syms : List Sym) : expand (markAll entries syms) = expand syms := by
  induction entries generalizing syms with
  | nil => rfl
  | cons e entries ih =>
    have hstep : markAll (e :: entries) syms = markAll entries (mark syms e) := rfl
    rw [hstep, ih fun e' he' => hentries e' (List.mem_cons_of_mem _ he'),
      expand_mark (hentries e List.mem_cons_self).ne_nil]

end LeanCtx.Symbols
