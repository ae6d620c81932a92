import LeanCtx.SymbolReversible

/-!
# Symbol maps that cannot be undone

If digits behind an identifier continue its short id to that of another entry,
that text and the other identifier are compressed to one text. If two
identifiers of one length overlap, the order of the entries decides which of
them becomes an id. In both cases a longer identifier in between would have been
replaced before.
-/

namespace LeanCtx.Symbols

open TextSearch SymbolMap

variable {m : SymbolMap}

/-- Identifiers that do not occur leave a text as it is. -/
theorem markAll_of_gone {entries : List (Text × Text)} {syms : List Sym}
    (h : ∀ e ∈ entries, ¬ chars e.1 <:+: syms) : markAll entries syms = syms := by
  induction entries with
  | nil => rfl
  | cons e entries ih =>
    have hstep : markAll (e :: entries) syms = markAll entries (mark syms e) := rfl
    have hsame : mark syms e = syms := replaceAll_of_not_infix (h e List.mem_cons_self) _
    rw [hstep, hsame, ih fun a ha => h a (List.mem_cons_of_mem _ ha)]

theorem markAll_append (p q : List (Text × Text)) (syms : List Sym) :
    markAll (p ++ q) syms = markAll q (markAll p syms) := List.foldl_append

/-- An order in which an entry comes before all others of its length. -/
theorem exists_first {e : Text × Text} (he : e ∈ m.forward) :
    ∃ (order : IterationOrder m) (before after : List (Text × Text)),
      sortedByLength order.entries = before ++ e :: after ∧
        ∀ b ∈ before, b ∈ m.forward ∧ len e.1 < len b.1 := by
  refine ⟨⟨e :: m.forward.erase e, (List.perm_cons_erase he).symm⟩, ?_⟩
  obtain ⟨before, after, hsorted, -, hbefore⟩ := @List.mergeSort_cons _
    (fun a b : Text × Text => decide (len b.1 ≤ len a.1))
    (fun a b c hab hbc => by simp only [decide_eq_true_eq] at *; omega)
    (fun a b => by simp only [Bool.or_eq_true, decide_eq_true_eq]; omega) e (m.forward.erase e)
  refine ⟨before, after, hsorted, ?_⟩
  intro b hb
  constructor
  · have hmem : b ∈ (e :: m.forward.erase e).mergeSort
        fun a b : Text × Text => decide (len b.1 ≤ len a.1) := by
      rw [hsorted]
      exact List.mem_append_left _ hb
    exact (List.perm_cons_erase he).mem_iff.mpr ((List.mergeSort_perm _ _).mem_iff.mp hmem)
  · have hlt := hbefore b hb
    simpa using hlt

/-- With no longer identifier in the text, the first entry of its length is replaced in it. -/
theorem symbols_first {e : Text × Text} (he : e ∈ m.forward) {text : Text}
    (hno : ¬ LongerIn m (len e.1) text) :
    ∃ (order : IterationOrder m) (after : List (Text × Text)),
      (∀ a ∈ after, a ∈ m.forward) ∧ symbols order text = markAll after (mark (chars text) e) := by
  obtain ⟨order, before, after, hsorted, hbefore⟩ := exists_first he
  refine ⟨order, after, ?_, ?_⟩
  · intro a ha
    refine (sorted_perm order).mem_iff.mp ?_
    rw [hsorted]
    exact List.mem_append_right _ (List.mem_cons_of_mem _ ha)
  · have hgone : markAll before (chars text) = chars text := by
      apply markAll_of_gone
      intro b hb hinside
      obtain ⟨hmem, hlen⟩ := hbefore b hb
      exact hno ⟨b.1, List.mem_map_of_mem hmem, hlen, chars_isInfix.mp hinside⟩
    rw [symbols, hsorted, markAll_append, hgone]
    rfl

/-! ## Digits behind an identifier -/

/-- A plain identifier does not occur among digits. -/
theorem Entry.not_infix_digits {e : Text × Text} (he : Entry e) {s : Text}
    (hs : ∀ c ∈ s, c.isDigit = true) : ¬ e.1 <:+: s := by
  intro hinside
  cases hname : e.1 with
  | nil => exact he.ne_nil hname
  | cons c name =>
    have hmem : c ∈ s := hinside.mem (by rw [hname]; exact List.mem_cons_self)
    have hstart := he.plain.starts c (by rw [hname]; rfl)
    exact Bool.false_ne_true (hstart.symm.trans (hs c hmem))

theorem infix_of_id_cons {e : Text × Text} {x : Text} {syms : List Sym} (hx : x ≠ [])
    (h : chars x <:+: .id e :: syms) : chars x <:+: syms := by
  refine (List.infix_cons_iff.mp h).resolve_left ?_
  cases x with
  | nil => exact absurd rfl hx
  | cons c x =>
    intro hprefix
    cases (List.cons_prefix_cons.mp hprefix).1

/-- The identifier followed by digits is compressed to its id and the digits. -/
theorem apply_name_digits (hm : Numbered m) {e : Text × Text} (he : e ∈ m.forward) {s : Text}
    (hs : ∀ c ∈ s, c.isDigit = true) (hno : ¬ LongerIn m (len e.1) (e.1 ++ s)) :
    ∃ order : IterationOrder m, m.apply order (e.1 ++ s) = e.2 ++ s := by
  obtain ⟨order, after, hafter, hsymbols⟩ := symbols_first he hno
  have hentry := hm.entry he
  have hmark : mark (chars (e.1 ++ s)) e = .id e :: chars s := by
    have hgone : ¬ chars e.1 <:+: chars s := fun h => hentry.not_infix_digits hs (chars_isInfix.mp h)
    rw [mark, chars_append, replaceAll_append (chars_ne_nil hentry.ne_nil),
      replaceAll_of_not_infix hgone, List.singleton_append]
  refine ⟨order, ?_⟩
  rw [apply_eq_flat hm, hsymbols, hmark, markAll_of_gone, flat_cons, flat_chars]
  · rfl
  · intro a ha hinside
    have haentry := hm.entry (hafter a ha)
    have hinner := infix_of_id_cons haentry.ne_nil hinside
    exact haentry.not_infix_digits hs (chars_isInfix.mp hinner)

/-- An identifier is compressed to its id in every order. -/
theorem apply_name (hm : Numbered m) {e : Text × Text} (he : e ∈ m.forward)
    (order : IterationOrder m) : m.apply order e.1 = e.2 := by
  have hentry := hm.entry he
  have hperm := sorted_perm order
  obtain ⟨before, after, hsorted⟩ := List.append_of_mem (hperm.mem_iff.mpr he)
  have hmem : ∀ a ∈ before ++ e :: after, a ∈ m.forward := by
    intro a ha
    rw [← hsorted] at ha
    exact hperm.mem_iff.mp ha
  have hdesc := descending_sorted order.entries
  have hnodup : (before ++ e :: after).Nodup := by
    rw [← hsorted]
    exact hperm.nodup_iff.mpr hm.nodup
  rw [hsorted] at hdesc
  have hbefore : markAll before (chars e.1) = chars e.1 := by
    apply markAll_of_gone
    intro b hb hinside
    have hlen := (List.pairwise_append.mp hdesc).2.2 b hb e List.mem_cons_self
    have hname := eq_of_isInfix (chars_isInfix.mp hinside) hlen
    have heq := hm.eq_of_name (hmem b (List.mem_append_left _ hb)) he hname
    exact (List.nodup_append.mp hnodup).2.2 b hb e List.mem_cons_self heq
  have hmark : mark (chars e.1) e = [.id e] := by
    have happend := @replaceAll_append _ _ (chars e.1) (chars_ne_nil hentry.ne_nil) [.id e] []
    rw [List.append_nil, replaceAll_nil (chars_ne_nil hentry.ne_nil), List.append_nil] at happend
    exact happend
  have hafter : markAll after [.id e] = [.id e] := by
    apply markAll_of_gone
    intro a ha hinside
    have hne := (hm.entry (hmem a (List.mem_append_right _ (List.mem_cons_of_mem _ ha)))).ne_nil
    exact chars_ne_nil hne (List.infix_nil.mp (infix_of_id_cons hne hinside))
  rw [apply_eq_flat hm, symbols, hsorted, markAll_append, hbefore]
  have hstep : markAll (e :: after) (chars e.1) = markAll after (mark (chars e.1) e) := rfl
  rw [hstep, hmark, hafter, flat_cons, flat_nil, List.append_nil]
  rfl

theorem Reversible.digits (hm : Numbered m) (h : Reversible m) : DigitsApart m := by
  intro e he e' he' s hs hshort
  by_contra hno
  have hentry := hm.entry he
  have hentry' := hm.entry he'
  have hdigits := hentry.digits_of_append hentry' hshort
  obtain ⟨order, happly⟩ := apply_name_digits hm he hdigits hno
  have hsame : e.1 ++ s = e'.1 := by
    apply h.injective order
    · rw [List.mem_append, not_or]
      exact ⟨hentry.plain.unmarked, Entry.not_mem_digits hdigits⟩
    · exact hentry'.plain.unmarked
    · rw [happly, apply_name hm he', hshort]
  refine hno ⟨e'.1, List.mem_map_of_mem he', ?_, ?_⟩
  · have hpos := len_pos hs
    rw [← hsame, len_append]
    omega
  · rw [hsame]

/-! ## Overlapping identifiers -/

theorem id_mem_markAll {entries : List (Text × Text)} (hentries : ∀ a ∈ entries, Entry a)
    {e : Text × Text} {syms : List Sym} (h : .id e ∈ syms) : .id e ∈ markAll entries syms := by
  induction entries generalizing syms with
  | nil => exact h
  | cons a entries ih =>
    have hne := chars_ne_nil (hentries a List.mem_cons_self).ne_nil
    exact ih (fun b hb => hentries b (List.mem_cons_of_mem _ hb))
      (mem_replaceAll_of_not_mem hne (id_not_mem_chars e a.1) h)

/-- The id of an identifier that comes first and occurs in the text. -/
theorem id_mem_symbols (hm : Numbered m) {e : Text × Text} (he : e ∈ m.forward) {text : Text}
    (hoccurs : e.1 <:+: text) (hno : ¬ LongerIn m (len e.1) text) :
    ∃ order : IterationOrder m, .id e ∈ symbols order text := by
  obtain ⟨order, after, hafter, hsymbols⟩ := symbols_first he hno
  refine ⟨order, ?_⟩
  rw [hsymbols]
  exact id_mem_markAll (fun a ha => hm.entry (hafter a ha))
    (mark_mem_replaceAll (chars_ne_nil (hm.entry he).ne_nil) (chars_isInfix.mpr hoccurs))

/-- A text with two different ids is as long as both identifiers. -/
theorem len_expand_ge {e e' : Text × Text} {syms : List Sym} (h : .id e ∈ syms)
    (h' : .id e' ∈ syms) (hne : e ≠ e') : len e.1 + len e'.1 ≤ len (expand syms) := by
  have hone : ∀ {a : Text × Text} {part : List Sym}, .id a ∈ part → len a.1 ≤ len (expand part) := by
    intro a part ha
    obtain ⟨p, q, rfl⟩ := List.append_of_mem ha
    rw [expand_append, expand_cons, Sym.meant, len_append, len_append]
    omega
  obtain ⟨p, q, rfl⟩ := List.append_of_mem h
  rw [expand_append, expand_cons, Sym.meant, len_append, len_append]
  rcases List.mem_append.mp h' with hp | hq
  · have := hone hp
    omega
  · rcases List.mem_cons.mp hq with heq | hq
    · exact absurd (Sym.id.inj heq).symm hne
    · have := hone hq
      omega

theorem Reversible.overlaps (hm : Numbered m) (h : Reversible m) : OverlapsApart m := by
  intro u v w hx hy hv hne hlen
  by_contra hno
  obtain ⟨ex, hex, hexname⟩ := List.mem_map.mp hx
  obtain ⟨ey, hey, heyname⟩ := List.mem_map.mp hy
  have hdigits := h.digits hm
  have htext : shortIdPrefix ∉ u ++ v ++ w := by
    have hxplain := (hm.entry hex).plain.unmarked
    have hyplain := (hm.entry hey).plain.unmarked
    rw [hexname] at hxplain
    rw [heyname, List.mem_append, not_or] at hyplain
    rw [List.mem_append, not_or]
    exact ⟨hxplain, hyplain.2⟩
  obtain ⟨order, hxmem⟩ := @id_mem_symbols m hm ex hex (u ++ v ++ w)
    (by rw [hexname]; exact (List.prefix_append _ _).isInfix) (by rwa [hexname])
  obtain ⟨order', hymem⟩ := @id_mem_symbols m hm ey hey (u ++ v ++ w)
    (by rw [heyname]; exact ⟨u, [], by simp⟩) (by rwa [heyname, ← hlen])
  have hsame : symbols order (u ++ v ++ w) = symbols order' (u ++ v ++ w) := by
    apply hm.table.flat_inj (readable_symbols hm hdigits order htext)
      (readable_symbols hm hdigits order' htext)
    rw [← apply_eq_flat hm, ← apply_eq_flat hm]
    exact h.deterministic order order' _ htext
  rw [← hsame] at hymem
  have hexy : ex ≠ ey := by
    rintro rfl
    exact hne (hexname.symm.trans heyname)
  have hge := len_expand_ge hxmem hymem hexy
  rw [expand_symbols hm, hexname, heyname] at hge
  have hpos := len_pos hv
  simp only [len_append] at hge
  omega

/-- Entries that are in order already are replaced in that order. -/
theorem sortedByLength_of_pairwise {entries : List (Text × Text)}
    (h : entries.Pairwise fun a b => len b.1 ≤ len a.1) : sortedByLength entries = entries :=
  List.mergeSort_of_pairwise (h.imp fun hlen => by simpa using hlen)

end LeanCtx.Symbols
