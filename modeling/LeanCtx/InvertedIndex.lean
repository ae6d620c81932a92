import LeanCtx.OrdMap

/-!
# Inverted indexes

Documents are added one after another, term by term. Under each term stand the
positions of the documents that hold it, once for each occurrence, and the
number of these documents. Two such indexes over equally many documents are the
same exactly when the documents hold the same terms equally often.
-/

set_option linter.unusedSectionVars false

namespace LeanCtx.InvertedIndex

open Std

variable {τ : Type} [DecidableEq τ]

/-! ## Entries over a list of documents -/

/-- The entry of a term over a list of documents. -/
def postingsOf (docs : List (List τ)) (term : τ) : List (ℕ × ℚ) :=
  docs.zipIdx.flatMap fun (doc, idx) => List.replicate (doc.count term) (idx, 1)

def freqOf (docs : List (List τ)) (term : τ) : ℕ := docs.countP fun doc => term ∈ doc

theorem postingsOf_concat (docs : List (List τ)) (doc : List τ) (term : τ) :
    postingsOf (docs ++ [doc]) term =
      postingsOf docs term ++ List.replicate (doc.count term) (docs.length, 1) := by
  simp [postingsOf, List.zipIdx_append]

theorem freqOf_concat (docs : List (List τ)) (doc : List τ) (term : τ) :
    freqOf (docs ++ [doc]) term = freqOf docs term + if term ∈ doc then 1 else 0 := by
  simp [freqOf]

/-- The positions under a term are those of the documents. -/
theorem fst_lt_of_mem_postingsOf {docs : List (List τ)} {term : τ} {e : ℕ × ℚ}
    (h : e ∈ postingsOf docs term) : e.1 < docs.length := by
  obtain ⟨⟨doc, idx⟩, hmem, hrep⟩ := List.mem_flatMap.mp h
  rw [(List.mem_replicate.mp hrep).2]
  have hidx := List.mem_zipIdx' hmem
  exact hidx.1

/-- The last entry tells whether the term is in the last document. -/
theorem getLast?_postingsOf_concat (docs : List (List τ)) (doc : List τ) (term : τ) :
    (postingsOf (docs ++ [doc]) term).getLast?.map Prod.fst = some docs.length ↔ term ∈ doc := by
  rw [postingsOf_concat]
  by_cases hmem : term ∈ doc
  · have hpos := List.count_pos_iff.mpr hmem
    obtain ⟨n, hn⟩ := Nat.exists_eq_succ_of_ne_zero (Nat.ne_of_gt hpos)
    rw [hn, List.replicate_succ', ← List.append_assoc, List.getLast?_concat]
    simp [hmem]
  · rw [List.count_eq_zero_of_not_mem hmem, List.replicate_zero, List.append_nil]
    constructor
    · intro hlast
      obtain ⟨e, he, hfst⟩ := Option.map_eq_some_iff.mp hlast
      have hlt := fst_lt_of_mem_postingsOf (List.mem_of_getLast? he)
      omega
    · exact fun h => absurd h hmem

/-- How often a document holds a term can be read off the entry. -/
theorem count_postingsOf (docs : List (List τ)) (term : τ) (i : ℕ) :
    (postingsOf docs term).count (i, 1) = (docs[i]?.getD []).count term := by
  induction docs using List.reverseRecOn with
  | nil => simp [postingsOf]
  | append_singleton docs doc ih =>
    rw [postingsOf_concat, List.count_append, ih, List.count_replicate]
    rcases Nat.lt_trichotomy i docs.length with hlt | rfl | hgt
    · rw [List.getElem?_append_left hlt, if_neg (by simp; omega), Nat.add_zero]
    · simp
    · rw [List.getElem?_eq_none (by omega), List.getElem?_eq_none (by simp; omega),
        if_neg (by simp; omega)]
      rfl

theorem postingsOf_congr {docs docs' : List (List τ)} (h : List.Forall₂ List.Perm docs docs')
    (term : τ) : postingsOf docs term = postingsOf docs' term := by
  unfold postingsOf
  generalize 0 = n
  induction h generalizing n with
  | nil => rfl
  | cons hperm _ ih =>
    rw [List.zipIdx_cons, List.zipIdx_cons, List.flatMap_cons, List.flatMap_cons, ih (n + 1)]
    dsimp only
    rw [hperm.count_eq]

theorem freqOf_congr {docs docs' : List (List τ)} (h : List.Forall₂ List.Perm docs docs')
    (term : τ) : freqOf docs term = freqOf docs' term := by
  unfold freqOf
  induction h with
  | nil => rfl
  | cons hperm _ ih =>
    rw [List.countP_cons, List.countP_cons, ih]
    simp only [hperm.mem_iff]

/-! ## The index -/

variable [Ord τ] [TransOrd τ] [LawfulEqOrd τ]

structure Postings (τ : Type) [Ord τ] where
  inverted : OrdMap τ (List (ℕ × ℚ))
  docFreqs : OrdMap τ ℕ

def Postings.empty : Postings τ := ⟨∅, ∅⟩

/-- One more occurrence of a term in the document at a position, which is the last one. -/
def addTerm (idx : ℕ) (p : Postings τ) (term : τ) : Postings τ :=
  let entry := p.inverted[term]?.getD []
  { inverted := p.inverted.insert term (entry ++ [(idx, 1)])
    docFreqs :=
      if entry.getLast?.map Prod.fst ≠ some idx then
        p.docFreqs.insert term (p.docFreqs[term]?.getD 0 + 1)
      else p.docFreqs }

def addDoc (idx : ℕ) (p : Postings τ) (terms : List τ) : Postings τ := terms.foldl (addTerm idx) p

/-- The index of a list of documents. -/
structure Represents (p : Postings τ) (docs : List (List τ)) : Prop where
  inverted : ∀ term, p.inverted[term]?.getD [] = postingsOf docs term ∧
    p.inverted[term]? ≠ some []
  docFreqs : ∀ term, p.docFreqs[term]?.getD 0 = freqOf docs term ∧ p.docFreqs[term]? ≠ some 0

theorem represents_addTerm {p : Postings τ} {docs : List (List τ)} {doc : List τ} {term : τ}
    (h : Represents p (docs ++ [doc])) :
    Represents (addTerm docs.length p term) (docs ++ [doc ++ [term]]) := by
  obtain ⟨hentry, -⟩ := h.inverted term
  obtain ⟨hfreq, -⟩ := h.docFreqs term
  constructor
  · intro t
    unfold addTerm
    dsimp only
    rw [OrdMap.get_insert]
    by_cases ht : term = t
    · subst ht
      rw [if_pos rfl, hentry, postingsOf_concat, postingsOf_concat, List.count_append,
        List.count_singleton_self, List.replicate_succ', List.append_assoc]
      simp
    · rw [if_neg ht]
      obtain ⟨hold, hne⟩ := h.inverted t
      refine ⟨?_, hne⟩
      rw [hold, postingsOf_concat, postingsOf_concat, List.count_append,
        List.count_singleton, if_neg (by simpa using ht), Nat.add_zero]
  · intro t
    unfold addTerm
    dsimp only
    obtain ⟨hold, hne⟩ := h.docFreqs t
    have hlast := getLast?_postingsOf_concat docs doc term
    rw [hentry]
    by_cases hin : term ∈ doc
    · rw [if_neg (not_not_intro (hlast.mpr hin))]
      refine ⟨?_, hne⟩
      rw [hold, freqOf_concat, freqOf_concat]
      by_cases ht : t = term
      · subst ht
        simp [hin]
      · simp [ht]
    · rw [if_pos (fun he => hin (hlast.mp he)), OrdMap.get_insert]
      by_cases ht : term = t
      · subst ht
        rw [if_pos rfl, hfreq, freqOf_concat, freqOf_concat]
        simp [hin]
      · rw [if_neg ht]
        refine ⟨?_, hne⟩
        rw [hold, freqOf_concat, freqOf_concat]
        simp [Ne.symm ht]

theorem represents_addDoc {p : Postings τ} {docs : List (List τ)} (h : Represents p docs)
    (terms : List τ) : Represents (addDoc docs.length p terms) (docs ++ [terms]) := by
  induction terms using List.reverseRecOn with
  | nil =>
    constructor
    · intro t
      rw [postingsOf_concat, List.count_nil, List.replicate_zero, List.append_nil]
      exact h.inverted t
    · intro t
      rw [freqOf_concat, if_neg List.not_mem_nil, Nat.add_zero]
      exact h.docFreqs t
  | append_singleton terms term ih =>
    rw [addDoc, List.foldl_append, List.foldl_cons, List.foldl_nil]
    exact represents_addTerm ih

theorem represents_empty : Represents (Postings.empty : Postings τ) [] := by
  constructor
  · intro t
    simp [Postings.empty, postingsOf]
  · intro t
    simp [Postings.empty, freqOf]

/-- An entry that is never kept empty is known from its value with the default. -/
theorem getElem?_eq_of_getD {ν : Type} {m m' : OrdMap τ ν} {d : ν} {term : τ}
    (h : m[term]?.getD d = m'[term]?.getD d) (hm : m[term]? ≠ some d) (hm' : m'[term]? ≠ some d) :
    m[term]? = m'[term]? := by
  cases hv : m[term]? with
  | none =>
    cases hv' : m'[term]? with
    | none => rfl
    | some v' =>
      rw [hv, hv', Option.getD_none, Option.getD_some] at h
      rw [hv', h] at hm'
      exact absurd rfl hm'
  | some v =>
    cases hv' : m'[term]? with
    | none =>
      rw [hv, hv', Option.getD_none, Option.getD_some] at h
      rw [hv, h] at hm
      exact absurd rfl hm
    | some v' =>
      rw [hv, hv', Option.getD_some, Option.getD_some] at h
      rw [h]

/-- Indexes over equally many documents are the same exactly when each document holds the same
terms equally often. -/
theorem eq_iff_forall₂_perm {p p' : Postings τ} {docs docs' : List (List τ)}
    (h : Represents p docs) (h' : Represents p' docs') (hlen : docs.length = docs'.length) :
    p = p' ↔ List.Forall₂ List.Perm docs docs' := by
  constructor
  · rintro rfl
    rw [List.forall₂_iff_get]
    refine ⟨hlen, ?_⟩
    intro i hi hi'
    rw [List.perm_iff_count]
    intro term
    have hcount := count_postingsOf docs term i
    have hcount' := count_postingsOf docs' term i
    rw [← (h.inverted term).1, (h'.inverted term).1, hcount'] at hcount
    rw [List.getElem?_eq_getElem hi, List.getElem?_eq_getElem hi'] at hcount
    exact hcount.symm
  · intro hperm
    obtain ⟨inverted, docFreqs⟩ := p
    obtain ⟨inverted', docFreqs'⟩ := p'
    have hinverted : inverted = inverted' := by
      apply ExtTreeMap.ext_getElem?
      intro term
      obtain ⟨hv, hne⟩ := h.inverted term
      obtain ⟨hv', hne'⟩ := h'.inverted term
      exact getElem?_eq_of_getD (hv.trans ((postingsOf_congr hperm term).trans hv'.symm)) hne hne'
    have hfreqs : docFreqs = docFreqs' := by
      apply ExtTreeMap.ext_getElem?
      intro term
      obtain ⟨hv, hne⟩ := h.docFreqs term
      obtain ⟨hv', hne'⟩ := h'.docFreqs term
      exact getElem?_eq_of_getD (hv.trans ((freqOf_congr hperm term).trans hv'.symm)) hne hne'
    rw [hinverted, hfreqs]

/-! ## Documents left out and appended -/

/-- The entry of a term over documents numbered from `start` on. -/
def postingsFrom (start : ℕ) (docs : List (List τ)) (term : τ) : List (ℕ × ℚ) :=
  (docs.zipIdx start).flatMap fun (doc, idx) => List.replicate (doc.count term) (idx, 1)

theorem postingsFrom_cons (start : ℕ) (doc : List τ) (docs : List (List τ)) (term : τ) :
    postingsFrom start (doc :: docs) term =
      List.replicate (doc.count term) (start, 1) ++ postingsFrom (start + 1) docs term := by
  simp [postingsFrom, List.zipIdx_cons]

theorem postingsOf_append (docs docs' : List (List τ)) (term : τ) :
    postingsOf (docs ++ docs') term =
      postingsOf docs term ++ postingsFrom docs.length docs' term := by
  simp [postingsOf, postingsFrom, List.zipIdx_append]

theorem freqOf_append (docs docs' : List (List τ)) (term : τ) :
    freqOf (docs ++ docs') term = freqOf docs term + freqOf docs' term := by
  simp [freqOf]

theorem start_le_of_mem_postingsFrom {start : ℕ} {docs : List (List τ)} {term : τ} {e : ℕ × ℚ}
    (h : e ∈ postingsFrom start docs term) : start ≤ e.1 := by
  obtain ⟨⟨doc, idx⟩, hmem, hrep⟩ := List.mem_flatMap.mp h
  rw [(List.mem_replicate.mp hrep).2]
  exact (List.mem_zipIdx hmem).1

theorem weight_of_mem_postingsOf {docs : List (List τ)} {term : τ} {e : ℕ × ℚ}
    (h : e ∈ postingsOf docs term) : e.2 = 1 := by
  obtain ⟨⟨doc, idx⟩, -, hrep⟩ := List.mem_flatMap.mp h
  rw [(List.mem_replicate.mp hrep).2]

/-- Positions stand in order. -/
theorem pairwise_postingsFrom (start : ℕ) (docs : List (List τ)) (term : τ) :
    ((postingsFrom start docs term).map Prod.fst).Pairwise (· ≤ ·) := by
  induction docs generalizing start with
  | nil => exact List.Pairwise.nil
  | cons doc docs ih =>
    rw [postingsFrom_cons, List.map_append, List.map_replicate, List.pairwise_append]
    refine ⟨List.pairwise_replicate_of_refl, ih (start + 1), ?_⟩
    intro i hi j hj
    obtain ⟨e, he, rfl⟩ := List.mem_map.mp hj
    have hle := start_le_of_mem_postingsFrom he
    rw [(List.mem_replicate.mp hi).2]
    dsimp only
    omega

/-- The distinct positions are the documents that hold the term. -/
theorem card_postingsFrom (start : ℕ) (docs : List (List τ)) (term : τ) :
    ((postingsFrom start docs term).map Prod.fst).toFinset.card = freqOf docs term := by
  induction docs generalizing start with
  | nil => rfl
  | cons doc docs ih =>
    have hnot : start ∉ ((postingsFrom (start + 1) docs term).map Prod.fst).toFinset := by
      rw [List.mem_toFinset, List.mem_map]
      rintro ⟨e, he, heq⟩
      have hle := start_le_of_mem_postingsFrom he
      omega
    rw [postingsFrom_cons, List.map_append, List.map_replicate, List.toFinset_append]
    by_cases hmem : term ∈ doc
    · have hpos : doc.count term ≠ 0 := Nat.ne_of_gt (List.count_pos_iff.mpr hmem)
      have hhead : (List.replicate (doc.count term) start).toFinset = {start} :=
        List.toFinset_replicate_of_ne_zero hpos
      rw [hhead, Finset.singleton_union, Finset.card_insert_of_notMem hnot, ih]
      simp [freqOf, hmem]
    · rw [List.count_eq_zero_of_not_mem hmem, List.replicate_zero, List.toFinset_nil,
        Finset.empty_union, ih]
      simp [freqOf, hmem]

/-- The new numbers of the documents that are kept, from `start` on. -/
def renumber (start : ℕ) : List Bool → List (Option ℕ)
  | [] => []
  | true :: keeps => some start :: renumber (start + 1) keeps
  | false :: keeps => none :: renumber start keeps

def kept {α : Type} : List Bool → List α → List α
  | keep :: keeps, a :: l => if keep then a :: kept keeps l else kept keeps l
  | _, _ => []

theorem kept_map {α β : Type} (p : α → Bool) (f : α → β) (l : List α) :
    kept (l.map p) (l.map f) = (l.filter p).map f := by
  induction l with
  | nil => rfl
  | cons a l ih =>
    rw [List.map_cons, List.map_cons, kept, ih, List.filter_cons]
    split <;> rfl

/-- A new number is that of a kept element, at its place among those kept. -/
theorem renumber_eq_some {α : Type} {start i j : ℕ} {keeps : List Bool} {l : List α}
    (hlen : keeps.length = l.length) (h : ((renumber start keeps)[i]?).join = some j) :
    start ≤ j ∧ keeps[i]? = some true ∧ (kept keeps l)[j - start]? = l[i]? := by
  induction keeps generalizing start i l with
  | nil => simp [renumber] at h
  | cons keep keeps ih =>
    cases l with
    | nil => simp at hlen
    | cons a l =>
      have hlen' : keeps.length = l.length := by simpa using hlen
      cases keep with
      | true =>
        rw [kept, if_pos rfl]
        cases i with
        | zero =>
          have hj : start = j := by simpa [renumber] using h
          subst hj
          simp
        | succ i =>
          rw [renumber, List.getElem?_cons_succ] at h
          obtain ⟨hle, hkeep, hplace⟩ := ih hlen' h
          obtain ⟨k, rfl⟩ := Nat.exists_eq_add_of_le hle
          have hk : start + 1 + k - start = k + 1 := by omega
          refine ⟨by omega, hkeep, ?_⟩
          rw [hk, List.getElem?_cons_succ, List.getElem?_cons_succ, ← hplace]
          congr 1
          omega
      | false =>
        rw [kept, if_neg Bool.false_ne_true]
        cases i with
        | zero => simp [renumber] at h
        | succ i =>
          rw [renumber, List.getElem?_cons_succ] at h
          obtain ⟨hle, hkeep, hplace⟩ := ih hlen' h
          exact ⟨hle, hkeep, by rw [hplace, List.getElem?_cons_succ]⟩

theorem renumber_isSome {start i : ℕ} {keeps : List Bool} (h : keeps[i]? = some true) :
    (((renumber start keeps)[i]?).join).isSome := by
  induction keeps generalizing start i with
  | nil => simp at h
  | cons keep keeps ih =>
    cases i with
    | zero =>
      rw [List.getElem?_cons_zero, Option.some.injEq] at h
      subst h
      simp [renumber]
    | succ i =>
      rw [List.getElem?_cons_succ] at h
      cases keep with
      | true => exact ih h
      | false => exact ih h

/-- Different elements have different new numbers. -/
theorem renumber_injective {start i i' j : ℕ} {keeps : List Bool}
    (h : ((renumber start keeps)[i]?).join = some j)
    (h' : ((renumber start keeps)[i']?).join = some j) : i = i' := by
  induction keeps generalizing start i i' with
  | nil => simp [renumber] at h
  | cons keep keeps ih =>
    have hlater {k b : ℕ} (hk : ((renumber b keeps)[k]?).join = some j) : b ≤ j :=
      (@renumber_eq_some _ b k j keeps keeps rfl hk).1
    cases keep with
    | true =>
      rw [renumber] at h h'
      cases i with
      | zero =>
        cases i' with
        | zero => rfl
        | succ i' =>
          have hj : start = j := by simpa using h
          have hle := hlater h'
          omega
      | succ i =>
        cases i' with
        | zero =>
          have hj : start = j := by simpa using h'
          have hle := hlater h
          omega
        | succ i' => rw [ih h h']
    | false =>
      rw [renumber] at h h'
      cases i with
      | zero => simp at h
      | succ i =>
        cases i' with
        | zero => simp at h'
        | succ i' => rw [ih h h']

/-- The entries with the documents' new numbers, those of the others left out. -/
def moveEntries (position : ℕ → Option ℕ) (entries : List (ℕ × ℚ)) : List (ℕ × ℚ) :=
  entries.filterMap fun e => (position e.1).map fun at' => (at', e.2)

theorem moveEntries_postingsFrom {position : ℕ → Option ℕ} {start base : ℕ} {keeps : List Bool}
    {docs : List (List τ)} (hlen : keeps.length = docs.length)
    (h : ∀ j, position (start + j) = ((renumber base keeps)[j]?).join) (term : τ) :
    moveEntries position (postingsFrom start docs term) =
      postingsFrom base (kept keeps docs) term := by
  induction docs generalizing start base keeps with
  | nil => simp [moveEntries, postingsFrom, kept]
  | cons doc docs ih =>
    cases keeps with
    | nil => simp at hlen
    | cons keep keeps =>
      have hfirst := h 0
      have hrest (b : ℕ) (hb : (renumber base (keep :: keeps)).tail = renumber b keeps) :
          ∀ j, position (start + 1 + j) = ((renumber b keeps)[j]?).join := by
        intro j
        have hj := h (j + 1)
        rw [← List.getElem?_tail, hb] at hj
        rw [← hj]
        congr 1
        omega
      have hlen' : keeps.length = docs.length := by simpa using hlen
      rw [postingsFrom_cons, moveEntries, List.filterMap_append, List.filterMap_replicate]
      cases keep with
      | true =>
        have htail := ih hlen' (hrest (base + 1) rfl)
        rw [moveEntries] at htail
        rw [Nat.add_zero] at hfirst
        rw [htail, kept, if_pos rfl, postingsFrom_cons, hfirst]
        rfl
      | false =>
        have htail := ih hlen' (hrest base rfl)
        rw [moveEntries] at htail
        rw [Nat.add_zero] at hfirst
        rw [htail, kept, if_neg Bool.false_ne_true, hfirst]
        rfl

/-- One step of counting the documents of an entry whose positions are adjacent. -/
def countDocument (state : ℕ × Option ℕ) (e : ℕ × ℚ) : ℕ × Option ℕ :=
  if state.2 ≠ some e.1 then (state.1 + 1, some e.1) else state

def documents (entries : List (ℕ × ℚ)) : ℕ := (entries.foldl countDocument (0, none)).1

theorem foldl_countDocument_replicate (k n : ℕ) (last : Option ℕ) (idx : ℕ) (h : last ≠ some idx) :
    (List.replicate k (idx, (1 : ℚ))).foldl countDocument (n, last) =
      if k = 0 then (n, last) else (n + 1, some idx) := by
  cases k with
  | zero => rfl
  | succ k =>
    rw [List.replicate_succ, List.foldl_cons, countDocument, if_pos h, if_neg (Nat.succ_ne_zero k)]
    induction k with
    | zero => rfl
    | succ k ih =>
      rw [List.replicate_succ, List.foldl_cons, countDocument, if_neg (not_not_intro rfl)]
      exact ih

theorem foldl_countDocument_postingsFrom (docs : List (List τ)) (term : τ) (start n : ℕ)
    (last : Option ℕ) (h : ∀ i, last = some i → i < start) :
    ((postingsFrom start docs term).foldl countDocument (n, last)).1 = n + freqOf docs term := by
  induction docs generalizing start n last with
  | nil => rfl
  | cons doc docs ih =>
    have hlast : last ≠ some start := fun he => Nat.lt_irrefl _ (h start he)
    rw [postingsFrom_cons, List.foldl_append, foldl_countDocument_replicate _ _ _ _ hlast]
    by_cases hmem : term ∈ doc
    · rw [if_neg (Nat.ne_of_gt (List.count_pos_iff.mpr hmem)), ih]
      · simp [freqOf, hmem]
        omega
      · intro i hi
        rw [← Option.some.inj hi]
        omega
    · rw [if_pos (List.count_eq_zero_of_not_mem hmem), ih]
      · simp [freqOf, hmem]
      · intro i hi
        have hlt := h i hi
        omega

/-- Counting adjacent positions counts the documents that hold the term. -/
theorem documents_postingsFrom (docs : List (List τ)) (term : τ) (start : ℕ) :
    documents (postingsFrom start docs term) = freqOf docs term := by
  have hcount := foldl_countDocument_postingsFrom docs term start 0 none (by simp)
  rwa [Nat.zero_add] at hcount

theorem postingsFrom_eq_nil_iff (start : ℕ) (docs : List (List τ)) (term : τ) :
    postingsFrom start docs term = [] ↔ freqOf docs term = 0 := by
  induction docs generalizing start with
  | nil => simp [postingsFrom, freqOf]
  | cons doc docs ih =>
    rw [postingsFrom_cons, List.append_eq_nil_iff, ih, List.replicate_eq_nil_iff,
      List.count_eq_zero]
    by_cases hmem : term ∈ doc
    · simp [freqOf, hmem]
    · simp [freqOf, hmem]

theorem postingsOf_eq_nil_iff (docs : List (List τ)) (term : τ) :
    postingsOf docs term = [] ↔ freqOf docs term = 0 := postingsFrom_eq_nil_iff 0 docs term

/-- Only the documents with a new number, the entries of the others gone. -/
def Postings.moved (position : ℕ → Option ℕ) (p : Postings τ) : Postings τ :=
  let inverted := p.inverted.filterMap fun _ entries =>
    if moveEntries position entries = [] then none else some (moveEntries position entries)
  ⟨inverted, inverted.map fun _ entries => documents entries⟩

theorem represents_moved {p : Postings τ} {docs : List (List τ)} (h : Represents p docs)
    {position : ℕ → Option ℕ} {keeps : List Bool} (hlen : keeps.length = docs.length)
    (hposition : ∀ j, position j = ((renumber 0 keeps)[j]?).join) :
    Represents (p.moved position) (kept keeps docs) := by
  have hmove (term : τ) : moveEntries position (postingsOf docs term) =
      postingsOf (kept keeps docs) term := by
    apply moveEntries_postingsFrom hlen
    intro j
    rw [Nat.zero_add]
    exact hposition j
  have hentry (term : τ) : (p.moved position).inverted[term]? =
      if postingsOf (kept keeps docs) term = [] then none
      else some (postingsOf (kept keeps docs) term) := by
    unfold Postings.moved
    dsimp only
    rw [ExtTreeMap.getElem?_filterMap', ← hmove, ← (h.inverted term).1]
    cases p.inverted[term]? with
    | none => simp [moveEntries]
    | some entries => rfl
  have hcount (term : τ) : (p.moved position).docFreqs[term]? =
      if postingsOf (kept keeps docs) term = [] then none
      else some (freqOf (kept keeps docs) term) := by
    have hfreqs : (p.moved position).docFreqs =
        (p.moved position).inverted.map fun _ entries => documents entries := rfl
    rw [hfreqs, ExtTreeMap.getElem?_map, hentry]
    split
    · rfl
    · rw [Option.map_some]
      congr 1
      exact documents_postingsFrom (kept keeps docs) term 0
  constructor
  · intro term
    rw [hentry]
    split
    · rename_i hnil
      simp [hnil]
    · rename_i hne
      simpa using hne
  · intro term
    rw [hcount]
    split
    · rename_i hnil
      simp [(postingsOf_eq_nil_iff _ _).mp hnil]
    · rename_i hne
      rw [postingsOf_eq_nil_iff] at hne
      simpa using hne

/-- The entry of one term of another index, put behind the own one. -/
def carryEntry (position : ℕ → Option ℕ) (p : Postings τ) (term : τ) (entries : List (ℕ × ℚ)) :
    Postings τ :=
  let carried := moveEntries position entries
  if carried = [] then p
  else
    { inverted := p.inverted.insert term (p.inverted[term]?.getD [] ++ carried)
      docFreqs := p.docFreqs.insert term (p.docFreqs[term]?.getD 0 + documents carried) }

def Postings.carrying (p : Postings τ) (position : ℕ → Option ℕ) (prev : Postings τ) :
    Postings τ :=
  prev.inverted.foldl (carryEntry position) p

theorem carryEntry_of_ne (position : ℕ → Option ℕ) (p : Postings τ) {term t : τ}
    (entries : List (ℕ × ℚ)) (h : term ≠ t) :
    (carryEntry position p term entries).inverted[t]? = p.inverted[t]? ∧
      (carryEntry position p term entries).docFreqs[t]? = p.docFreqs[t]? := by
  unfold carryEntry
  dsimp only
  split
  · exact ⟨rfl, rfl⟩
  · rw [OrdMap.get_insert, OrdMap.get_insert, if_neg h, if_neg h]
    exact ⟨rfl, rfl⟩

theorem carryEntry_congr (position : ℕ → Option ℕ) {p q : Postings τ} {t : τ}
    (entries : List (ℕ × ℚ)) (hinverted : p.inverted[t]? = q.inverted[t]?)
    (hfreqs : p.docFreqs[t]? = q.docFreqs[t]?) :
    (carryEntry position p t entries).inverted[t]? =
        (carryEntry position q t entries).inverted[t]? ∧
      (carryEntry position p t entries).docFreqs[t]? =
        (carryEntry position q t entries).docFreqs[t]? := by
  unfold carryEntry
  dsimp only
  split
  · exact ⟨hinverted, hfreqs⟩
  · rw [OrdMap.get_insert, OrdMap.get_insert, OrdMap.get_insert, OrdMap.get_insert, hinverted,
      hfreqs]
    exact ⟨rfl, rfl⟩

/-- Every term is carried once, whatever the order. -/
theorem foldl_carryEntry (position : ℕ → Option ℕ) (l : List (τ × List (ℕ × ℚ)))
    (hnodup : (l.map Prod.fst).Nodup) (p : Postings τ) (t : τ) :
    (t ∉ l.map Prod.fst →
      (l.foldl (fun p e => carryEntry position p e.1 e.2) p).inverted[t]? = p.inverted[t]? ∧
      (l.foldl (fun p e => carryEntry position p e.1 e.2) p).docFreqs[t]? = p.docFreqs[t]?) ∧
    ∀ entries, (t, entries) ∈ l →
      (l.foldl (fun p e => carryEntry position p e.1 e.2) p).inverted[t]? =
        (carryEntry position p t entries).inverted[t]? ∧
      (l.foldl (fun p e => carryEntry position p e.1 e.2) p).docFreqs[t]? =
        (carryEntry position p t entries).docFreqs[t]? := by
  induction l generalizing p with
  | nil => exact ⟨fun _ => ⟨rfl, rfl⟩, fun entries hmem => absurd hmem List.not_mem_nil⟩
  | cons e l ih =>
    obtain ⟨term, entries⟩ := e
    obtain ⟨hnot, hnodup'⟩ := List.nodup_cons.mp hnodup
    obtain ⟨hout, hin⟩ := ih hnodup' (carryEntry position p term entries)
    constructor
    · intro ht
      rw [List.map_cons, List.mem_cons, not_or] at ht
      obtain ⟨hinverted, hfreqs⟩ := carryEntry_of_ne position p entries (Ne.symm ht.1)
      exact ⟨(hout ht.2).1.trans hinverted, (hout ht.2).2.trans hfreqs⟩
    · intro entries' hmem
      rcases List.mem_cons.mp hmem with heq | hmem
      · obtain ⟨rfl, rfl⟩ := Prod.mk.inj heq
        exact hout hnot
      · have hne : term ≠ t := by
          rintro rfl
          exact hnot (List.mem_map.mpr ⟨_, hmem, rfl⟩)
        obtain ⟨hinverted, hfreqs⟩ := carryEntry_of_ne position p entries hne
        obtain ⟨hinverted', hfreqs'⟩ := carryEntry_congr position entries' hinverted hfreqs
        exact ⟨(hin entries' hmem).1.trans hinverted', (hin entries' hmem).2.trans hfreqs'⟩

theorem represents_carrying {p prev : Postings τ} {docs docs' : List (List τ)}
    (h : Represents p docs) (hprev : Represents prev docs') {position : ℕ → Option ℕ}
    {keeps : List Bool} (hlen : keeps.length = docs'.length)
    (hposition : ∀ j, position j = ((renumber docs.length keeps)[j]?).join) :
    Represents (p.carrying position prev) (docs ++ kept keeps docs') := by
  have hmove (term : τ) : moveEntries position (postingsOf docs' term) =
      postingsFrom docs.length (kept keeps docs') term := by
    apply moveEntries_postingsFrom hlen
    intro j
    rw [Nat.zero_add]
    exact hposition j
  have hnodup : (prev.inverted.toList.map Prod.fst).Nodup := by
    rw [ExtTreeMap.map_fst_toList_eq_keys]
    exact ExtTreeMap.nodup_keys
  -- at each term the result is that of carrying the other index's entry, empty or not
  have hterm (term : τ) : (p.carrying position prev).inverted[term]? =
        (carryEntry position p term (postingsOf docs' term)).inverted[term]? ∧
      (p.carrying position prev).docFreqs[term]? =
        (carryEntry position p term (postingsOf docs' term)).docFreqs[term]? := by
    obtain ⟨hout, hin⟩ := foldl_carryEntry position prev.inverted.toList hnodup p term
    have hvalue := (hprev.inverted term).1
    unfold Postings.carrying
    rw [ExtTreeMap.foldl_eq_foldl_toList]
    cases hentry : prev.inverted[term]? with
    | none =>
      rw [hentry, Option.getD_none] at hvalue
      have hnot : term ∉ prev.inverted.toList.map Prod.fst := by
        rw [ExtTreeMap.map_fst_toList_eq_keys, ExtTreeMap.mem_keys, OrdMap.not_mem_iff]
        exact hentry
      have hsame : carryEntry position p term (postingsOf docs' term) = p := by
        rw [← hvalue]
        rfl
      rw [hsame]
      exact hout hnot
    | some entries =>
      rw [hentry, Option.getD_some] at hvalue
      rw [← hvalue]
      exact hin entries (ExtTreeMap.mem_toList_iff_getElem?_eq_some.mpr hentry)
  constructor
  · intro term
    obtain ⟨hold, hne⟩ := h.inverted term
    rw [(hterm term).1, postingsOf_append, ← hmove]
    unfold carryEntry
    dsimp only
    split
    · rename_i hnil
      rw [hnil, List.append_nil]
      exact ⟨hold, hne⟩
    · rename_i hcarried
      rw [OrdMap.get_insert, if_pos rfl, Option.getD_some, hold]
      simp [hcarried]
  · intro term
    obtain ⟨hold, hne⟩ := h.docFreqs term
    have hdocs : documents (moveEntries position (postingsOf docs' term)) =
        freqOf (kept keeps docs') term := by
      rw [hmove, documents_postingsFrom]
    rw [(hterm term).2, freqOf_append, ← hdocs]
    unfold carryEntry
    dsimp only
    split
    · rename_i hnil
      rw [hnil]
      exact ⟨hold, hne⟩
    · rename_i hcarried
      have hpos : freqOf (kept keeps docs') term ≠ 0 := by
        intro hzero
        apply hcarried
        rw [hmove]
        exact (postingsFrom_eq_nil_iff _ _ _).mpr hzero
      rw [OrdMap.get_insert, if_pos rfl, Option.getD_some, hold]
      refine ⟨rfl, ?_⟩
      rw [hdocs]
      simp only [ne_eq, Option.some.injEq]
      omega

/-! ## What an index says about its documents -/

section Represents

variable {p : Postings τ} {docs : List (List τ)}

theorem Represents.entry_eq (h : Represents p docs) {term : τ} {entries : List (ℕ × ℚ)}
    (hentry : p.inverted[term]? = some entries) : entries = postingsOf docs term := by
  have hvalue := (h.inverted term).1
  rwa [hentry, Option.getD_some] at hvalue

theorem Represents.lookup (h : Represents p docs) {term : τ} (hne : postingsOf docs term ≠ []) :
    p.inverted[term]? = some (postingsOf docs term) := by
  have hvalue := (h.inverted term).1
  cases hentry : p.inverted[term]? with
  | none =>
    rw [hentry, Option.getD_none] at hvalue
    exact absurd hvalue.symm hne
  | some entries =>
    rw [hentry, Option.getD_some] at hvalue
    rw [hvalue]

/-- The frequencies are those of the terms with an entry, and count its positions. -/
theorem Represents.docFreqs_eq (h : Represents p docs) (term : τ) :
    p.docFreqs[term]? =
      (p.inverted[term]?).map fun entries => (entries.map Prod.fst).toFinset.card := by
  obtain ⟨hvalue, hne⟩ := h.inverted term
  obtain ⟨hfreq, hfreq'⟩ := h.docFreqs term
  cases hentry : p.inverted[term]? with
  | none =>
    rw [hentry, Option.getD_none] at hvalue
    have hzero := (postingsOf_eq_nil_iff docs term).mp hvalue.symm
    rw [hzero] at hfreq
    cases hcount : p.docFreqs[term]? with
    | none => rfl
    | some n =>
      rw [hcount, Option.getD_some] at hfreq
      rw [hcount, hfreq] at hfreq'
      exact absurd rfl hfreq'
  | some entries =>
    have hentries := h.entry_eq hentry
    have hcard := card_postingsFrom 0 docs term
    rw [Option.map_some, hentries]
    have hpos : freqOf docs term ≠ 0 := by
      rw [hentry, hentries] at hne
      intro hzero
      rw [(postingsOf_eq_nil_iff docs term).mpr hzero] at hne
      exact hne rfl
    cases hcount : p.docFreqs[term]? with
    | none =>
      rw [hcount, Option.getD_none] at hfreq
      exact absurd hfreq.symm hpos
    | some n =>
      rw [hcount, Option.getD_some] at hfreq
      rw [hfreq, ← hcard]
      rfl

/-- All postings of a document together are its terms. -/
theorem Represents.total_eq (h : Represents p docs) (i : ℕ) :
    OrdMap.mapSum (fun _ entries => entries.countP fun e => e.1 = i) p.inverted =
      (docs[i]?.getD []).length := by
  let doc := docs[i]?.getD []
  let S := p.inverted.keys.toFinset ∪ doc.toFinset
  have hS : ∀ t ∈ p.inverted, t ∈ S := fun t ht => Finset.mem_union_left _
    (List.mem_toFinset.mpr (ExtTreeMap.mem_keys.mpr ht))
  have hdoc : ∀ t ∈ (doc : Multiset τ), t ∈ S := fun t ht => Finset.mem_union_right _
    (List.mem_toFinset.mpr (Multiset.mem_coe.mp ht))
  have hterm (t : τ) : (p.inverted[t]?).elim 0 (fun entries => entries.countP fun e => e.1 = i) =
      (doc : Multiset τ).count t := by
    have hentry : (p.inverted[t]?).elim 0 (fun entries => entries.countP fun e => e.1 = i) =
        (p.inverted[t]?.getD []).countP fun e => e.1 = i := by
      cases p.inverted[t]? <;> rfl
    rw [hentry, (h.inverted t).1, Multiset.coe_count, ← count_postingsOf, List.count]
    apply List.countP_congr
    intro e he
    have hweight := weight_of_mem_postingsOf he
    obtain ⟨j, w⟩ := e
    simp only at hweight
    simp [hweight]
  rw [OrdMap.mapSum_eq_sum _ _ S hS, Finset.sum_congr rfl fun t _ => hterm t,
    Multiset.sum_count_eq_card hdoc, Multiset.coe_card]

end Represents

end LeanCtx.InvertedIndex
