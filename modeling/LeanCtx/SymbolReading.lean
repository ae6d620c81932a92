import LeanCtx.SymbolMarks
import Mathlib.Data.List.Perm.Basic

/-!
# Reading marked texts back

Where no id is followed by characters that would make it the id of another
entry, a flat text can be read in one way only, and the table gives back the
text that is meant.
-/

namespace LeanCtx.Symbols

open TextSearch SymbolMap

/-- No id is followed by characters that turn it into the id of another entry. -/
def Unambiguous (table : List (Text × Text)) (syms : List Sym) : Prop :=
  ∀ e s e', .id e :: chars s <:+: syms → s ≠ [] → e' ∈ table → e'.2 ≠ e.2 ++ s

/-- Marks of a table between characters that begin no id. -/
structure Readable (table : List (Text × Text)) (syms : List Sym) : Prop where
  known : ∀ e, .id e ∈ syms → e ∈ table
  bare : ∀ c, .char c ∈ syms → c ≠ shortIdPrefix
  unambiguous : Unambiguous table syms

variable {table : List (Text × Text)}

theorem Readable.tail {sym : Sym} {syms : List Sym} (h : Readable table (sym :: syms)) :
    Readable table syms where
  known e he := h.known e (List.mem_cons_of_mem _ he)
  bare c hc := h.bare c (List.mem_cons_of_mem _ hc)
  unambiguous e s e' hinside := h.unambiguous e s e' (hinside.trans (List.suffix_cons _ _).isInfix)

theorem Readable.marks {syms : List Sym} (h : Readable table syms)
    (htable : ∀ e ∈ table, Entry e) : Marks syms := fun e he => htable e (h.known e he)

theorem Entry.not_mem_digits {s : Text} (hs : ∀ c ∈ s, c.isDigit = true) : shortIdPrefix ∉ s := by
  intro hmem
  exact absurd (hs _ hmem) (by decide)

theorem Entry.digits_of_append {e e' : Text × Text} (he : Entry e) (he' : Entry e') {s : Text}
    (h : e'.2 = e.2 ++ s) : ∀ c ∈ s, c.isDigit = true := by
  obtain ⟨d, hd, -⟩ := he.short
  obtain ⟨d', hd', hdigits'⟩ := he'.short
  rw [hd, hd', List.cons_append, List.cons.injEq] at h
  intro c hc
  exact hdigits' c (h.2 ▸ List.mem_append_right _ hc)

/-- An id whose digits go on into another id of the table. -/
theorem Readable.short_eq {e e' : Text × Text} {syms : List Sym} {s : Text}
    (h : Readable table (.id e :: syms)) (htable : ∀ e ∈ table, Entry e) (he' : e' ∈ table)
    (hshort : e'.2 = e.2 ++ s) (hs : s <+: flat syms) : s = [] := by
  by_contra hne
  have he : Entry e := htable e (h.known e List.mem_cons_self)
  have hdigits := he.digits_of_append (htable e' he') hshort
  have hprefix : chars s <+: syms :=
    prefix_flat (Entry.not_mem_digits hdigits) (h.tail.marks htable) hs
  have hinside : .id e :: chars s <:+: .id e :: syms :=
    (List.cons_prefix_cons.mpr ⟨rfl, hprefix⟩).isInfix
  exact h.unambiguous e s e' hinside hne he' hshort

/-! ## The table -/

theorem le_ofDigitChars (s : Text) (n : ℕ) : n ≤ Nat.ofDigitChars 10 s n := by
  induction s generalizing n with
  | nil => exact le_rfl
  | cons c s ih =>
    rw [Nat.ofDigitChars_cons]
    exact le_trans (by omega) (ih _)

theorem idNumber_short {d : Text} (hd : ∀ c ∈ d, c.isDigit = true) :
    idNumber (shortIdPrefix :: d) = Nat.ofDigitChars 10 d 0 := by
  have hdrop : (shortIdPrefix :: d).dropWhile (· == shortIdPrefix) = d := by
    rw [List.dropWhile_cons_of_pos (by simp)]
    cases d with
    | nil => rfl
    | cons c d =>
      rw [List.dropWhile_cons_of_neg]
      have hc := hd c List.mem_cons_self
      simp only [beq_iff_eq]
      rintro rfl
      exact absurd hc (by decide)
  rw [idNumber, hdrop, parseNumber]
  split_ifs with h
  · rfl
  · have hall : d.all Char.isDigit = true := List.all_eq_true.mpr hd
    have hnil : d = [] := by
      by_contra hne
      exact h ⟨hne, hall⟩
    rw [hnil]
    rfl

/-- The beginning of an id has no larger number. -/
theorem Entry.idNumber_le {e e' : Text × Text} (he : Entry e) (he' : Entry e')
    (h : e.2 <+: e'.2) : idNumber e.2 ≤ idNumber e'.2 := by
  obtain ⟨d, hd, hdigits⟩ := he.short
  obtain ⟨d', hd', hdigits'⟩ := he'.short
  rw [hd, hd', List.cons_prefix_cons] at h
  obtain ⟨rest, hrest⟩ := h.2
  rw [hd, hd', idNumber_short hdigits, idNumber_short hdigits', ← hrest, Nat.ofDigitChars_append]
  exact le_ofDigitChars _ _

/-- A table with growing numbers. -/
structure Table (table : List (Text × Text)) : Prop where
  entries : ∀ e ∈ table, Entry e
  grows : table.Pairwise fun a b => idNumber a.2 < idNumber b.2

theorem Table.inj (h : Table table) {e e' : Text × Text} (he : e ∈ table) (he' : e' ∈ table)
    (hnumber : idNumber e.2 = idNumber e'.2) : e = e' := by
  obtain ⟨before, after, rfl⟩ := List.append_of_mem he
  have hgrows := h.grows
  rw [List.pairwise_append, List.pairwise_cons] at hgrows
  rcases List.mem_append.mp he' with hbefore | hafter
  · exact absurd hnumber (hgrows.2.2 e' hbefore e List.mem_cons_self).ne'
  · rcases List.mem_cons.mp hafter with heq | hafter
    · exact heq.symm
    · exact absurd hnumber (hgrows.2.1.1 e' hafter).ne

/-- A flat text is read in one way. -/
theorem Table.flat_inj (hentries : Table table) {s t : List Sym} (hs : Readable table s)
    (ht : Readable table t) (h : flat s = flat t) : s = t := by
  have htable := hentries.entries
  have hinj : ∀ e ∈ table, ∀ e' ∈ table, e.2 = e'.2 → e = e' := fun e he e' he' heq =>
    hentries.inj he he' (congrArg idNumber heq)
  have hshort : ∀ e ∈ table, ∃ d, e.2 = shortIdPrefix :: d := fun e he =>
    (htable e he).short.imp fun _ hd => hd.1
  induction s generalizing t with
  | nil =>
    cases t with
    | nil => rfl
    | cons sym t =>
      cases sym with
      | char c => cases h
      | id e =>
        obtain ⟨d, hd⟩ := hshort e (ht.known e List.mem_cons_self)
        rw [flat_nil, flat_cons, Sym.shown, hd] at h
        cases h
  | cons sym s ih =>
    cases t with
    | nil =>
      cases sym with
      | char c => cases h
      | id e =>
        obtain ⟨d, hd⟩ := hshort e (hs.known e List.mem_cons_self)
        rw [flat_nil, flat_cons, Sym.shown, hd] at h
        cases h
    | cons sym' t =>
      rw [flat_cons, flat_cons] at h
      cases sym with
      | char c =>
        cases sym' with
        | char c' =>
          obtain ⟨rfl, htail⟩ := List.cons.inj h
          rw [ih hs.tail ht.tail htail]
        | id e' =>
          obtain ⟨d, hd⟩ := hshort e' (ht.known e' List.mem_cons_self)
          rw [Sym.shown, Sym.shown, hd] at h
          exact absurd (List.cons.inj h).1 (hs.bare c List.mem_cons_self)
      | id e =>
        have he := hs.known e List.mem_cons_self
        cases sym' with
        | char c' =>
          obtain ⟨d, hd⟩ := hshort e he
          rw [Sym.shown, Sym.shown, hd] at h
          exact absurd (List.cons.inj h).1.symm (ht.bare c' List.mem_cons_self)
        | id e' =>
          have he' := ht.known e' List.mem_cons_self
          rw [Sym.shown, Sym.shown] at h
          have hsame : e = e' := by
            rcases List.prefix_or_prefix_of_prefix ⟨flat s, rfl⟩ (⟨flat t, h.symm⟩ : e'.2 <+: _)
              with ⟨rest, hrest⟩ | ⟨rest, hrest⟩
            · rw [← hrest, List.append_assoc, List.append_cancel_left_eq] at h
              have hnil := hs.short_eq htable he' hrest.symm ⟨flat t, h.symm⟩
              exact hinj e he e' he' (by rw [← hrest, hnil, List.append_nil])
            · rw [← hrest, List.append_assoc, List.append_cancel_left_eq] at h
              have hnil := ht.short_eq htable he hrest.symm ⟨flat s, h⟩
              exact hinj e he e' he' (by rw [← hrest, hnil, List.append_nil])
          subst hsame
          rw [List.append_cancel_left_eq] at h
          rw [ih hs.tail ht.tail h]

theorem recoverFrom_skip (p rest : Text) :
    recoverFrom table p.length (p ++ rest) = recoverFrom table 0 rest := by
  induction p with
  | nil => rfl
  | cons c p ih => exact ih

/-- The last entry that fits is the one whose mark stands there. -/
theorem find_mark (h : Table table) {e : Text × Text} {syms : List Sym}
    (hs : Readable table (.id e :: syms)) :
    table.reverse.find? (fun e' => e'.2.isPrefixOf (e.2 ++ flat syms)) = some e := by
  have he := hs.known e List.mem_cons_self
  obtain ⟨before, after, htable⟩ := List.append_of_mem he
  rw [List.find?_eq_some_iff_append]
  refine ⟨List.isPrefixOf_iff_prefix.mpr (List.prefix_append _ _), after.reverse, before.reverse,
    by rw [htable]; simp, ?_⟩
  intro a ha
  rw [List.mem_reverse] at ha
  have hmem : a ∈ table := by
    rw [htable]
    exact List.mem_append_right _ (List.mem_cons_of_mem _ ha)
  have hlt : idNumber e.2 < idNumber a.2 := by
    have hgrows := h.grows
    rw [htable, List.pairwise_append] at hgrows
    exact (List.pairwise_cons.mp hgrows.2.1).1 a ha
  rw [Bool.not_eq_true', ← Bool.not_eq_true, List.isPrefixOf_iff_prefix]
  intro hprefix
  rcases List.prefix_or_prefix_of_prefix hprefix (List.prefix_append e.2 (flat syms))
    with hle | ⟨s, hrest⟩
  · exact absurd ((h.entries a hmem).idNumber_le (h.entries e he) hle) (by omega)
  · rw [← hrest, List.prefix_append_right_inj] at hprefix
    have hnil := hs.short_eq h.entries hmem hrest.symm hprefix
    rw [hnil, List.append_nil] at hrest
    rw [hrest] at hlt
    exact absurd hlt (lt_irrefl _)

/-- The table gives back what is meant. -/
theorem recover_flat (h : Table table) {syms : List Sym} (hs : Readable table syms) :
    recover table (flat syms) = expand syms := by
  unfold recover
  induction syms with
  | nil => rfl
  | cons sym syms ih =>
    cases sym with
    | char c =>
      have hnone : table.reverse.find? (fun e => e.2.isPrefixOf (c :: flat syms)) = none := by
        rw [List.find?_eq_none]
        intro e he hprefix
        obtain ⟨d, hd, -⟩ := (h.entries e (List.mem_reverse.mp he)).short
        rw [hd, List.isPrefixOf_iff_prefix, List.cons_prefix_cons] at hprefix
        exact hs.bare c List.mem_cons_self hprefix.1.symm
      have hstep : recoverFrom table 0 (c :: flat syms) = c :: recoverFrom table 0 (flat syms) := by
        rw [recoverFrom, hnone]
      rw [flat_cons, expand_cons, Sym.shown, Sym.meant, List.singleton_append, hstep,
        ih hs.tail, List.singleton_append]
    | id e =>
      have hfind := find_mark h hs
      obtain ⟨d, hd, -⟩ := (h.entries e (hs.known e List.mem_cons_self)).short
      have hlen : e.2.length - 1 = d.length := by
        rw [hd]
        rfl
      rw [flat_cons, expand_cons, Sym.shown, Sym.meant, ← ih hs.tail]
      rw [hd] at hfind ⊢
      rw [List.cons_append, recoverFrom]
      rw [List.cons_append] at hfind
      rw [hfind]
      dsimp only
      rw [hlen, recoverFrom_skip]

end LeanCtx.Symbols
