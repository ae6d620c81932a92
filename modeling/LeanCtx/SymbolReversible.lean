import LeanCtx.SymbolReading
import Mathlib.Data.List.Nodup

/-!
# When a symbol map can be undone

The map of a sequence of registered identifiers gives every text one compressed
form, from which the table recovers the text, exactly when two things never
happen without a longer identifier in between: that two identifiers of one
length overlap, and that the digits behind an identifier turn its short id into
that of another entry (`reversible_iff`).
-/

namespace LeanCtx.Symbols

open TextSearch SymbolMap

namespace SymbolMap

def names (m : SymbolMap) : List Text := m.forward.map Prod.fst

end SymbolMap

/-- One result for every order, from which the table gives back the text; no two texts share it. -/
structure Reversible (m : SymbolMap) : Prop where
  deterministic : ∀ (order order' : IterationOrder m) (text : Text), shortIdPrefix ∉ text →
    m.apply order text = m.apply order' text
  recovered : ∀ (order printed : IterationOrder m) (text : Text), shortIdPrefix ∉ text →
    recover (m.tableEntries printed) (m.apply order text) = text
  injective : ∀ (order : IterationOrder m) (text text' : Text), shortIdPrefix ∉ text →
    shortIdPrefix ∉ text' → m.apply order text = m.apply order text' → text = text'

/-- A registered identifier that is longer than `n` bytes occurs in the text. -/
def LongerIn (m : SymbolMap) (n : ℕ) (text : Text) : Prop :=
  ∃ z ∈ m.names, n < len z ∧ z <:+: text

/-- Wherever two identifiers of one length overlap, or digits behind an identifier make its short
id that of another entry, a longer identifier occurs. -/
structure Separable (m : SymbolMap) : Prop where
  overlaps : ∀ u v w, u ++ v ∈ m.names → v ++ w ∈ m.names → v ≠ [] → u ++ v ≠ v ++ w →
    len (u ++ v) = len (v ++ w) → LongerIn m (len (u ++ v)) (u ++ v ++ w)
  digits : ∀ e ∈ m.forward, ∀ e' ∈ m.forward, ∀ s, s ≠ [] → e'.2 = e.2 ++ s →
    LongerIn m (len e.1) (e.1 ++ s)

/-! ## Lengths -/

@[simp] theorem len_append (s t : Text) : len (s ++ t) = len s + len t := by
  simp [len]

theorem len_pos {s : Text} (h : s ≠ []) : 0 < len s := by
  cases s with
  | nil => exact absurd rfl h
  | cons c s =>
    have hpos := Char.utf8Size_pos c
    simp only [len, List.map_cons, List.sum_cons]
    omega

theorem len_le_of_isInfix {s t : Text} (h : s <:+: t) : len s ≤ len t := by
  obtain ⟨u, v, rfl⟩ := h
  rw [len_append, len_append]
  omega

theorem eq_of_isInfix {s t : Text} (h : s <:+: t) (hlen : len t ≤ len s) : s = t := by
  obtain ⟨u, v, rfl⟩ := h
  rw [len_append, len_append] at hlen
  have hu : u = [] := by
    by_contra hne
    have := len_pos hne
    omega
  have hv : v = [] := by
    by_contra hne
    have := len_pos hne
    omega
  rw [hu, hv, List.nil_append, List.append_nil]

/-! ## Registered maps -/

/-- A map whose entries carry the ids from one on, for plain names that differ. -/
structure Numbered (m : SymbolMap) : Prop where
  next : m.nextId = m.forward.length + 1
  shorts : m.forward.map Prod.snd = (List.range' 1 m.forward.length).map shortId
  distinct : m.names.Nodup
  plain : ∀ x ∈ m.names, Plain x ∧ x ≠ []

theorem numbered_register {m : SymbolMap} (h : Numbered m) {identifier : Text}
    (hplain : Plain identifier) : Numbered (m.register identifier).2 := by
  unfold register
  split_ifs with hlong
  · exact h
  · split
    · exact h
    · rename_i hnone
      have hnew : identifier ∉ m.names := by
        intro hmem
        obtain ⟨e, he, rfl⟩ := List.mem_map.mp hmem
        exact absurd (List.find?_eq_none.mp hnone e he) (by simp)
      have hne : identifier ≠ [] := by
        rintro rfl
        exact hlong (by decide)
      constructor
      · simp [h.next]
      · simp [h.shorts, h.next, List.range'_concat, Nat.add_comm]
      · simp only [names, List.map_append, List.map_singleton]
        exact List.nodup_append.mpr ⟨h.distinct, List.nodup_singleton _, by
          rintro x hx y hy rfl
          exact hnew (List.mem_singleton.mp hy ▸ hx)⟩
      · intro x hx
        simp only [names, List.map_append, List.map_singleton] at hx
        rcases List.mem_append.mp hx with hx | hx
        · exact h.plain x hx
        · rw [List.mem_singleton.mp hx]
          exact ⟨hplain, hne⟩

theorem numbered_registerAll {identifiers : List Text} (h : ∀ x ∈ identifiers, Plain x) :
    Numbered (registerAll identifiers) := by
  have hfold : ∀ (l : List Text) (m : SymbolMap), Numbered m → (∀ x ∈ l, Plain x) →
      Numbered (l.foldl (fun m identifier => (m.register identifier).2) m) := by
    intro l
    induction l with
    | nil => exact fun m hm _ => hm
    | cons x l ih =>
      intro m hm hl
      exact ih _ (numbered_register hm (hl x List.mem_cons_self))
        fun y hy => hl y (List.mem_cons_of_mem _ hy)
  refine hfold identifiers new ⟨rfl, rfl, List.nodup_nil, ?_⟩ h
  intro x hx
  cases hx

variable {m : SymbolMap}

theorem Numbered.entry (h : Numbered m) {e : Text × Text} (he : e ∈ m.forward) : Entry e := by
  obtain ⟨hplain, hne⟩ := h.plain e.1 (List.mem_map_of_mem he)
  refine ⟨hplain, hne, ?_⟩
  have hmem : e.2 ∈ m.forward.map Prod.snd := List.mem_map_of_mem he
  rw [h.shorts] at hmem
  obtain ⟨n, -, hn⟩ := List.mem_map.mp hmem
  exact ⟨Nat.toDigits 10 n, hn.symm, fun c hc => Nat.isDigit_of_mem_toDigits (by decide)
    (by decide) hc⟩

theorem idNumber_shortId (n : ℕ) : idNumber (shortId n) = n := by
  rw [shortId, idNumber_short fun c hc => Nat.isDigit_of_mem_toDigits (by decide) (by decide) hc,
    Nat.ofDigitChars_ten_toDigits]

theorem Numbered.table (h : Numbered m) : Table m.forward where
  entries _ he := h.entry he
  grows := by
    have hshorts : (m.forward.map Prod.snd).Pairwise fun a b => idNumber a < idNumber b := by
      rw [h.shorts, List.pairwise_map]
      refine (List.pairwise_lt_range' 1 Nat.one_pos).imp ?_
      intro a b hab
      rwa [idNumber_shortId, idNumber_shortId]
    rwa [List.pairwise_map] at hshorts

theorem Numbered.eq_of_name (h : Numbered m) {e e' : Text × Text} (he : e ∈ m.forward)
    (he' : e' ∈ m.forward) (hname : e.1 = e'.1) : e = e' :=
  List.inj_on_of_nodup_map h.distinct he he' hname

/-- The table is printed in the order of registration. -/
theorem Numbered.tableEntries (h : Numbered m) (order : IterationOrder m) :
    m.tableEntries order = m.forward := by
  have hperm : (m.tableEntries order).Perm m.forward :=
    (List.mergeSort_perm _ _).trans order.perm
  have hsorted : (m.tableEntries order).Pairwise fun a b => idNumber a.2 ≤ idNumber b.2 := by
    have hpairs := @List.pairwise_mergeSort _
      (fun a b : Text × Text => decide (idNumber a.2 ≤ idNumber b.2))
      (fun a b c hab hbc => by simp only [decide_eq_true_eq] at *; omega)
      (fun a b => by simp only [Bool.or_eq_true, decide_eq_true_eq]; omega) order.entries
    exact hpairs.imp fun hab => of_decide_eq_true hab
  refine hperm.eq_of_pairwise ?_ hsorted (h.table.grows.imp le_of_lt)
  intro a b ha hb hab hba
  exact h.table.inj (hperm.mem_iff.mp ha) hb (le_antisymm hab hba)

/-! ## What a replacement settles -/

/-- The entries that are done: their identifiers are gone, and only their ids are there. -/
structure Settled (m : SymbolMap) (done : List (Text × Text)) (syms : List Sym) : Prop where
  gone : ∀ e ∈ done, ¬ chars e.1 <:+: syms
  known : ∀ e, .id e ∈ syms → e ∈ done
  unambiguous : Unambiguous m.forward syms

theorem Settled.start (m : SymbolMap) (text : Text) : Settled m [] (chars text) where
  gone e he := by cases he
  known e he := absurd he (id_not_mem_chars e text)
  unambiguous e s e' hinside := by
    have hmem : .id e ∈ chars text := hinside.mem List.mem_cons_self
    exact absurd hmem (id_not_mem_chars e text)

/-- The digits behind an identifier do not continue its id unless a longer one occurs. -/
def DigitsApart (m : SymbolMap) : Prop :=
  ∀ e ∈ m.forward, ∀ e' ∈ m.forward, ∀ s, s ≠ [] → e'.2 = e.2 ++ s →
    LongerIn m (len e.1) (e.1 ++ s)

theorem not_infix_mark {e : Text × Text} (he : e.1 ≠ []) {syms : List Sym} {x : Text}
    (h : ¬ chars x <:+: syms) : ¬ chars x <:+: mark syms e :=
  fun hinside => h (infix_of_replaceAll (chars_ne_nil he) (id_not_mem_chars e x) hinside)

theorem Settled.step (hm : Numbered m) (hdigits : DigitsApart m) {done : List (Text × Text)}
    {syms : List Sym} (h : Settled m done syms) {e : Text × Text} (he : e ∈ m.forward)
    (hfresh : e ∉ done) (hlonger : ∀ z ∈ m.forward, len e.1 < len z.1 → z ∈ done) :
    Settled m (e :: done) (mark syms e) := by
  have hne := (hm.entry he).ne_nil
  constructor
  · intro e' he'
    rcases List.mem_cons.mp he' with rfl | he'
    · exact not_infix_replaceAll (chars_ne_nil hne) (id_not_mem_chars _ _)
    · exact not_infix_mark hne (h.gone e' he')
  · intro e' he'
    rcases mem_mark hne he' with heq | hmem
    · rw [Sym.id.inj heq]
      exact List.mem_cons_self
    · exact List.mem_cons_of_mem _ (h.known e' hmem)
  · intro e₁ s e' hinside hs he' hshort
    by_cases heq : e₁ = e
    · subst heq
      have hfreshId : .id e₁ ∉ syms := fun hmem => hfresh (h.known e₁ hmem)
      have hbefore := infix_of_mark_infix (chars_ne_nil hne) hfreshId (id_not_mem_chars e₁ s) hinside
      obtain ⟨z, hz, hlen, hzs⟩ := hdigits e₁ he e' he' s hs hshort
      obtain ⟨ez, hez, rfl⟩ := List.mem_map.mp hz
      rw [← chars_append] at hbefore
      exact h.gone ez (hlonger ez hez hlen) ((chars_isInfix.mpr hzs).trans hbefore)
    · have hnot : Sym.id e ∉ Sym.id e₁ :: chars s := by
        rw [List.mem_cons, not_or]
        exact ⟨fun h => heq (Sym.id.inj h).symm, id_not_mem_chars e s⟩
      exact h.unambiguous e₁ s e' (infix_of_replaceAll (chars_ne_nil hne) hnot hinside) hs he' hshort

/-- The longer of the two goes first. -/
def Descending (entries : List (Text × Text)) : Prop :=
  entries.Pairwise fun a b => len b.1 ≤ len a.1

theorem Settled.run (hm : Numbered m) (hdigits : DigitsApart m)
    {done todo : List (Text × Text)} {syms : List Sym} (h : Settled m done syms)
    (hsorted : Descending todo) (hnodup : todo.Nodup) (hapart : ∀ e ∈ todo, e ∉ done)
    (hsub : ∀ e ∈ todo, e ∈ m.forward) (hall : ∀ z ∈ m.forward, z ∈ done ∨ z ∈ todo) :
    Settled m (todo.reverse ++ done) (markAll todo syms) := by
  induction todo generalizing done syms with
  | nil => exact h
  | cons e todo ih =>
    obtain ⟨hfirst, hrest⟩ := List.pairwise_cons.mp hsorted
    obtain ⟨hnot, hnodup⟩ := List.nodup_cons.mp hnodup
    have hlonger : ∀ z ∈ m.forward, len e.1 < len z.1 → z ∈ done := by
      intro z hz hlen
      rcases hall z hz with hdone | htodo
      · exact hdone
      · rcases List.mem_cons.mp htodo with rfl | htodo
        · exact absurd hlen (lt_irrefl _)
        · exact absurd (hfirst z htodo) (not_le.mpr hlen)
    have hstep := h.step hm hdigits (hsub e List.mem_cons_self) (hapart e List.mem_cons_self) hlonger
    have hdone := ih hstep hrest hnodup
      (by
        intro a ha hmem
        rcases List.mem_cons.mp hmem with rfl | hmem
        · exact hnot ha
        · exact hapart a (List.mem_cons_of_mem _ ha) hmem)
      (fun a ha => hsub a (List.mem_cons_of_mem _ ha))
      (by
        intro z hz
        rcases hall z hz with hz | hz
        · exact .inl (List.mem_cons_of_mem _ hz)
        · rcases List.mem_cons.mp hz with rfl | hz
          · exact .inl List.mem_cons_self
          · exact .inr hz)
    rw [List.reverse_cons, List.append_assoc, List.singleton_append]
    exact hdone

/-! ## Applying a map -/

theorem sorted_perm (order : IterationOrder m) :
    (sortedByLength order.entries).Perm m.forward := (List.mergeSort_perm _ _).trans order.perm

theorem descending_sorted (entries : List (Text × Text)) : Descending (sortedByLength entries) := by
  have hpairs := @List.pairwise_mergeSort _
    (fun a b : Text × Text => decide (len b.1 ≤ len a.1))
    (fun a b c hab hbc => by simp only [decide_eq_true_eq] at *; omega)
    (fun a b => by simp only [Bool.or_eq_true, decide_eq_true_eq]; omega) entries
  exact hpairs.imp fun hab => of_decide_eq_true hab

/-- The symbols that a text becomes. -/
def symbols (order : IterationOrder m) (text : Text) : List Sym :=
  markAll (sortedByLength order.entries) (chars text)

theorem apply_eq_flat (hm : Numbered m) (order : IterationOrder m) (text : Text) :
    m.apply order text = flat (symbols order text) := by
  have hmarks : Marks (chars text) := fun e he => absurd he (id_not_mem_chars e text)
  rw [symbols, flat_markAll (fun e he => hm.entry ((sorted_perm order).mem_iff.mp he)) hmarks,
    flat_chars, SymbolMap.apply]
  split_ifs with hempty
  · have hnil : sortedByLength order.entries = [] := by
      have hperm := sorted_perm order
      rw [hempty] at hperm
      exact hperm.eq_nil
    rw [hnil, List.foldl_nil]
  · rfl

theorem expand_symbols (hm : Numbered m) (order : IterationOrder m) (text : Text) :
    expand (symbols order text) = text := by
  rw [symbols, expand_markAll fun e he => hm.entry ((sorted_perm order).mem_iff.mp he),
    expand_chars]

theorem Numbered.nodup (hm : Numbered m) : m.forward.Nodup := List.Nodup.of_map _ hm.distinct

theorem settled_symbols (hm : Numbered m) (hdigits : DigitsApart m) (order : IterationOrder m)
    (text : Text) : Settled m (sortedByLength order.entries).reverse (symbols order text) := by
  have hperm := sorted_perm order
  have hsettled := (Settled.start m text).run hm hdigits (descending_sorted order.entries)
    (hperm.nodup_iff.mpr hm.nodup) (fun e _ he => by cases he)
    (fun e he => hperm.mem_iff.mp he) (fun z hz => .inr (hperm.mem_iff.mpr hz))
  rwa [List.append_nil] at hsettled

theorem char_mem_symbols {entries : List (Text × Text)} (hentries : ∀ e ∈ entries, Entry e)
    {syms : List Sym} {c : Char} (h : .char c ∈ markAll entries syms) : .char c ∈ syms := by
  induction entries generalizing syms with
  | nil => exact h
  | cons e entries ih =>
    have hmark := ih (fun e' he' => hentries e' (List.mem_cons_of_mem _ he')) h
    rcases mem_mark (hentries e List.mem_cons_self).ne_nil hmark with heq | hmem
    · cases heq
    · exact hmem

theorem readable_symbols (hm : Numbered m) (hdigits : DigitsApart m) (order : IterationOrder m)
    {text : Text} (htext : shortIdPrefix ∉ text) : Readable m.forward (symbols order text) where
  known e he := by
    have hmem := (settled_symbols hm hdigits order text).known e he
    exact (sorted_perm order).mem_iff.mp (List.mem_reverse.mp hmem)
  bare c hc := by
    rintro rfl
    have hmem := char_mem_symbols (fun e he => hm.entry ((sorted_perm order).mem_iff.mp he)) hc
    simp only [chars, List.mem_map, Sym.char.injEq, exists_eq_right] at hmem
    exact htext hmem
  unambiguous := (settled_symbols hm hdigits order text).unambiguous

theorem recover_apply (hm : Numbered m) (hdigits : DigitsApart m)
    (order printed : IterationOrder m) {text : Text} (htext : shortIdPrefix ∉ text) :
    recover (m.tableEntries printed) (m.apply order text) = text := by
  rw [hm.tableEntries, apply_eq_flat hm,
    recover_flat hm.table (readable_symbols hm hdigits order htext), expand_symbols hm]

/-! ## Orders of entries of one length -/

/-- Overlapping identifiers of one length lie around a longer one. -/
def OverlapsApart (m : SymbolMap) : Prop :=
  ∀ u v w, u ++ v ∈ m.names → v ++ w ∈ m.names → v ≠ [] → u ++ v ≠ v ++ w →
    len (u ++ v) = len (v ++ w) → LongerIn m (len (u ++ v)) (u ++ v ++ w)

/-- No identifier of more bytes is left in the text. -/
def NoLonger (m : SymbolMap) (n : ℕ) (syms : List Sym) : Prop :=
  ∀ z ∈ m.names, n < len z → ¬ chars z <:+: syms

theorem NoLonger.mark {n : ℕ} {syms : List Sym} (h : NoLonger m n syms) {e : Text × Text}
    (he : e.1 ≠ []) : NoLonger m n (mark syms e) :=
  fun z hz hlen => not_infix_mark he (h z hz hlen)

theorem chars_eq_append {s : Text} {u v : List Sym} (h : chars s = u ++ v) :
    ∃ s₁ s₂, s = s₁ ++ s₂ ∧ u = chars s₁ ∧ v = chars s₂ := by
  obtain ⟨s₁, s₂, hs, hu, hv⟩ := List.map_eq_append_iff.mp h
  exact ⟨s₁, s₂, hs, hu.symm, hv.symm⟩

theorem chars_inj {s t : Text} (h : chars s = chars t) : s = t := by
  rw [← expand_chars s, h, expand_chars]

theorem not_overlap (hoverlaps : OverlapsApart m) {x y : Text} (hx : x ∈ m.names)
    (hy : y ∈ m.names) (hxy : x ≠ y) (hlen : len x = len y) {syms : List Sym}
    (hno : NoLonger m (len x) syms) (u v w : List Sym) (hv : v ≠ []) (hxuv : chars x = u ++ v)
    (hyvw : chars y = v ++ w) : ¬ u ++ v ++ w <:+: syms := by
  obtain ⟨u', v', rfl, rfl, rfl⟩ := chars_eq_append hxuv
  obtain ⟨v'', w', rfl, hvv, rfl⟩ := chars_eq_append hyvw
  obtain rfl := chars_inj hvv
  have hne : v' ≠ [] := by
    rintro rfl
    exact hv rfl
  obtain ⟨z, hz, hlonger, hin⟩ := hoverlaps u' v' w' hx hy hne hxy hlen
  intro hinside
  rw [← chars_append, ← chars_append] at hinside
  exact hno z hz hlonger ((chars_isInfix.mpr hin).trans hinside)

theorem mark_comm (hm : Numbered m) (hoverlaps : OverlapsApart m) {e e' : Text × Text}
    (he : e ∈ m.forward) (he' : e' ∈ m.forward) (hne : e ≠ e') (hlen : len e.1 = len e'.1)
    {syms : List Sym} (hno : NoLonger m (len e.1) syms) :
    mark (mark syms e) e' = mark (mark syms e') e := by
  have hname : e.1 ≠ e'.1 := fun h => hne (hm.eq_of_name he he' h)
  have hmem := List.mem_map_of_mem (f := Prod.fst) he
  have hmem' := List.mem_map_of_mem (f := Prod.fst) he'
  have hapart : Apart (chars e.1) (chars e'.1) syms := by
    constructor
    · exact fun h => hname (eq_of_isInfix (chars_isInfix.mp h) hlen.ge)
    · exact fun h => hname (eq_of_isInfix (chars_isInfix.mp h) hlen.le).symm
    · exact not_overlap hoverlaps hmem hmem' hname hlen hno
    · exact not_overlap hoverlaps hmem' hmem hname.symm hlen.symm (hlen ▸ hno)
  exact hapart.replaceAll_comm (chars_ne_nil (hm.entry he).ne_nil)
    (chars_ne_nil (hm.entry he').ne_nil) (id_not_mem_chars _ _) (id_not_mem_chars _ _)

/-- An entry may go before others of its length. -/
theorem markAll_move (hm : Numbered m) (hoverlaps : OverlapsApart m) {e : Text × Text}
    (he : e ∈ m.forward) {p q : List (Text × Text)}
    (hp : ∀ a ∈ p, a ∈ m.forward ∧ a ≠ e ∧ len a.1 = len e.1) {syms : List Sym}
    (hno : NoLonger m (len e.1) syms) :
    markAll (p ++ e :: q) syms = markAll (e :: (p ++ q)) syms := by
  induction p generalizing syms with
  | nil => rfl
  | cons a p ih =>
    obtain ⟨ha, hae, hlen⟩ := hp a List.mem_cons_self
    have hstep : markAll (a :: p ++ e :: q) syms = markAll (p ++ e :: q) (mark syms a) := rfl
    have hcomm := mark_comm hm hoverlaps ha he hae hlen (hlen ▸ hno)
    rw [hstep, ih (fun b hb => hp b (List.mem_cons_of_mem _ hb)) (hno.mark (hm.entry ha).ne_nil)]
    exact congrArg (markAll (p ++ q)) hcomm

theorem markAll_perm (hm : Numbered m) (hoverlaps : OverlapsApart m)
    {todo todo' : List (Text × Text)} (hperm : todo.Perm todo') (hsorted : Descending todo)
    (hsorted' : Descending todo') (hnodup : todo.Nodup) (hsub : ∀ e ∈ todo, e ∈ m.forward)
    {syms : List Sym} (hgone : ∀ z ∈ m.forward, z ∉ todo → ¬ chars z.1 <:+: syms) :
    markAll todo syms = markAll todo' syms := by
  induction todo generalizing todo' syms with
  | nil => rw [hperm.nil_eq]
  | cons e todo ih =>
    obtain ⟨hfirst, hrest⟩ := List.pairwise_cons.mp hsorted
    obtain ⟨hnot, hnodup⟩ := List.nodup_cons.mp hnodup
    have he := hsub e List.mem_cons_self
    obtain ⟨p, q, rfl⟩ := List.append_of_mem (hperm.mem_iff.mp List.mem_cons_self)
    have hperm' : todo.Perm (p ++ q) := (List.perm_cons e).mp (hperm.trans List.perm_middle)
    have hnotpq : e ∉ p ++ q := fun h => hnot (hperm'.mem_iff.mpr h)
    have hp : ∀ a ∈ p, a ∈ m.forward ∧ a ≠ e ∧ len a.1 = len e.1 := by
      intro a ha
      have hmem : a ∈ todo := hperm'.mem_iff.mpr (List.mem_append_left _ ha)
      refine ⟨hsub a (List.mem_cons_of_mem _ hmem), ?_, le_antisymm (hfirst a hmem) ?_⟩
      · rintro rfl
        exact hnot hmem
      · exact (List.pairwise_append.mp hsorted').2.2 a ha e List.mem_cons_self
    have hno : NoLonger m (len e.1) syms := by
      intro z hz hlen
      obtain ⟨ez, hez, rfl⟩ := List.mem_map.mp hz
      apply hgone ez hez
      intro hmem
      rcases List.mem_cons.mp hmem with rfl | hmem
      · exact lt_irrefl _ hlen
      · exact absurd (hfirst ez hmem) (not_le.mpr hlen)
    rw [markAll_move hm hoverlaps he hp hno]
    refine ih hperm' hrest ?_ hnodup (fun a ha => hsub a (List.mem_cons_of_mem _ ha)) ?_
    · exact hsorted'.sublist (List.Sublist.append_left (List.sublist_cons_self e q) p)
    · intro z hz hztodo
      have hne := (hm.entry he).ne_nil
      by_cases hze : z = e
      · subst hze
        exact not_infix_replaceAll (chars_ne_nil hne) (id_not_mem_chars _ _)
      · refine not_infix_mark hne (hgone z hz ?_)
        rw [List.mem_cons, not_or]
        exact ⟨hze, hztodo⟩

theorem symbols_order (hm : Numbered m) (hoverlaps : OverlapsApart m)
    (order order' : IterationOrder m) (text : Text) : symbols order text = symbols order' text := by
  have hperm := sorted_perm order
  apply markAll_perm hm hoverlaps (hperm.trans (sorted_perm order').symm)
    (descending_sorted _) (descending_sorted _) (hperm.nodup_iff.mpr hm.nodup)
    (fun e he => hperm.mem_iff.mp he)
  intro z hz hnot
  exact absurd (hperm.mem_iff.mpr hz) hnot

theorem Separable.reversible (hm : Numbered m) (h : Separable m) : Reversible m where
  deterministic order order' text _ := by
    rw [apply_eq_flat hm, apply_eq_flat hm, symbols_order hm h.overlaps order order']
  recovered order printed text htext := recover_apply hm h.digits order printed htext
  injective order text text' htext htext' heq := by
    rw [← recover_apply hm h.digits order order htext, heq,
      recover_apply hm h.digits order order htext']

end LeanCtx.Symbols
