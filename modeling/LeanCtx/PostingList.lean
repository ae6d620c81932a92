import LeanCtx.OrdMap
import Mathlib.Data.List.Destutter

/-!
# Posting lists

Under each term stand the positions of the documents that hold it, in ascending
order. The documents that hold several terms are the intersection of their
lists, computed by one merge after the other.
-/

set_option linter.unusedSectionVars false

namespace LeanCtx.PostingList

open Std (ExtTreeMap TransOrd LawfulEqOrd)

/-! ## Intersections -/

section Merge

variable {ι : Type} [LinearOrder ι]

abbrev Ascending (l : List ι) : Prop := l.Pairwise (· < ·)

/-- The common elements of two ascending lists. -/
def intersect : List ι → List ι → List ι
  | a :: as, b :: bs =>
    if a < b then intersect as (b :: bs)
    else if b < a then intersect (a :: as) bs
    else a :: intersect as bs
  | _, _ => []
termination_by as bs => as.length + bs.length

theorem not_mem_of_lt_head {a : ι} {l : List ι} (h : Ascending l) (hlt : ∀ b ∈ l.head?, a < b) :
    a ∉ l := by
  intro hmem
  cases l with
  | nil => cases hmem
  | cons b l =>
    have hab : a < b := hlt b rfl
    rcases List.mem_cons.mp hmem with rfl | hmem
    · exact lt_irrefl a hab
    · exact lt_asymm hab ((List.pairwise_cons.mp h).1 a hmem)

theorem mem_intersect {as bs : List ι} (ha : Ascending as) (hb : Ascending bs) (x : ι) :
    x ∈ intersect as bs ↔ x ∈ as ∧ x ∈ bs := by
  fun_induction intersect as bs with
  | case1 a as b bs hlt ih =>
    rw [ih (List.pairwise_cons.mp ha).2 hb]
    constructor
    · rintro ⟨hx, hx'⟩
      exact ⟨List.mem_cons_of_mem a hx, hx'⟩
    · rintro ⟨hx, hx'⟩
      rcases List.mem_cons.mp hx with rfl | hx
      · exact absurd hx' (not_mem_of_lt_head hb fun c hc => by cases hc; exact hlt)
      · exact ⟨hx, hx'⟩
  | case2 a as b bs _ hlt ih =>
    rw [ih ha (List.pairwise_cons.mp hb).2]
    constructor
    · rintro ⟨hx, hx'⟩
      exact ⟨hx, List.mem_cons_of_mem b hx'⟩
    · rintro ⟨hx, hx'⟩
      rcases List.mem_cons.mp hx' with rfl | hx'
      · exact absurd hx (not_mem_of_lt_head ha fun c hc => by cases hc; exact hlt)
      · exact ⟨hx, hx'⟩
  | case3 a as b bs hab hba ih =>
    obtain rfl := le_antisymm (not_lt.mp hba) (not_lt.mp hab)
    obtain ⟨hla, ha⟩ := List.pairwise_cons.mp ha
    obtain ⟨hlb, hb⟩ := List.pairwise_cons.mp hb
    simp only [List.mem_cons, ih ha hb]
    constructor
    · rintro (rfl | ⟨hx, hx'⟩)
      · exact ⟨.inl rfl, .inl rfl⟩
      · exact ⟨.inr hx, .inr hx'⟩
    · rintro ⟨rfl | hx, hx'⟩
      · exact .inl rfl
      · rcases hx' with rfl | hx'
        · exact .inl rfl
        · exact .inr ⟨hx, hx'⟩
  | case4 as bs hne =>
    rcases as with _ | ⟨a, as⟩
    · simp
    · rcases bs with _ | ⟨b, bs⟩
      · simp
      · exact (hne a as b bs rfl rfl).elim

theorem ascending_intersect {as bs : List ι} (ha : Ascending as) (hb : Ascending bs) :
    Ascending (intersect as bs) := by
  fun_induction intersect as bs with
  | case1 a as b bs _ ih => exact ih (List.pairwise_cons.mp ha).2 hb
  | case2 a as b bs _ _ ih => exact ih ha (List.pairwise_cons.mp hb).2
  | case3 a as b bs _ _ ih =>
    obtain ⟨hla, ha⟩ := List.pairwise_cons.mp ha
    obtain ⟨-, hb⟩ := List.pairwise_cons.mp hb
    refine List.pairwise_cons.mpr ⟨fun x hx => ?_, ih ha hb⟩
    exact hla x ((mem_intersect ha hb x).mp hx).1
  | case4 => exact List.Pairwise.nil

/-- A first list cut down by the others; an empty result ends the work. -/
def intersectRest (acc : List ι) : List (List ι) → List ι
  | [] => acc
  | l :: ls =>
    let acc := intersect acc l
    if acc.isEmpty then acc else intersectRest acc ls

theorem mem_intersectRest {ls : List (List ι)} (hls : ∀ l ∈ ls, Ascending l) {acc : List ι}
    (hacc : Ascending acc) (x : ι) : x ∈ intersectRest acc ls ↔ x ∈ acc ∧ ∀ l ∈ ls, x ∈ l := by
  induction ls generalizing acc with
  | nil => simp [intersectRest]
  | cons l ls ih =>
    have hl := hls l (by simp)
    have hmem := mem_intersect hacc hl x
    rw [intersectRest]
    by_cases hempty : (intersect acc l).isEmpty = true
    · rw [if_pos hempty, List.forall_mem_cons, ← and_assoc, ← hmem]
      rw [List.isEmpty_iff] at hempty
      simp [hempty]
    · rw [if_neg hempty, ih (fun l' hl' => hls l' (List.mem_cons_of_mem _ hl'))
        (ascending_intersect hacc hl), hmem, List.forall_mem_cons, and_assoc]

theorem ascending_intersectRest {ls : List (List ι)} (hls : ∀ l ∈ ls, Ascending l) {acc : List ι}
    (hacc : Ascending acc) : Ascending (intersectRest acc ls) := by
  induction ls generalizing acc with
  | nil => exact hacc
  | cons l ls ih =>
    have hl := hls l (by simp)
    rw [intersectRest]
    split_ifs
    · exact ascending_intersect hacc hl
    · exact ih (fun l' hl' => hls l' (List.mem_cons_of_mem _ hl')) (ascending_intersect hacc hl)

end Merge

/-- Dropping adjacent repetitions loses no element. -/
theorem mem_destutter_ne {α : Type} [DecidableEq α] {l : List α} {x : α} :
    x ∈ l.destutter (· ≠ ·) ↔ x ∈ l := by
  have hcons : ∀ (l : List α) (a : α), x ∈ l.destutter' (· ≠ ·) a ↔ x = a ∨ x ∈ l := by
    intro l
    induction l with
    | nil => simp
    | cons b l ih =>
      intro a
      by_cases hab : a ≠ b
      · rw [List.destutter'_cons_pos l hab, List.mem_cons, ih, List.mem_cons]
      · rw [List.destutter'_cons_neg l hab, ih, not_not.mp hab, List.mem_cons]
        simp
  cases l with
  | nil => simp
  | cons a l => rw [List.destutter_cons', hcons, List.mem_cons]

/-! ## Lists under terms -/

section Terms

variable {τ : Type} [DecidableEq τ] [Ord τ] [TransOrd τ] [LawfulEqOrd τ]

abbrev Lists (τ : Type) [Ord τ] := OrdMap τ (List ℕ)

/-- One more document: its position goes to the end of the list of each of its terms. -/
def addTerm (position : ℕ) (lists : Lists τ) (term : τ) : Lists τ :=
  lists.insert term ((lists[term]?).getD [] ++ [position])

def addDoc (position : ℕ) (lists : Lists τ) (terms : List τ) : Lists τ :=
  terms.foldl (addTerm position) lists

/-- The lists are those of the documents: an entry for each term that some document holds. -/
structure Represents (lists : Lists τ) (docs : List (List τ)) : Prop where
  mem : ∀ (term : τ) (positions : List ℕ), lists[term]? = some positions → ∀ i,
    i ∈ positions ↔ ∃ doc, docs[i]? = some doc ∧ term ∈ doc
  ascending : ∀ (term : τ) (positions : List ℕ), lists[term]? = some positions → Ascending positions
  entry : ∀ doc ∈ docs, ∀ term ∈ doc, term ∈ lists

theorem getElem?_addDoc {position : ℕ} {terms : List τ} (hnodup : terms.Nodup) (lists : Lists τ)
    (term : τ) : (addDoc position lists terms)[term]? =
      if term ∈ terms then some ((lists[term]?).getD [] ++ [position]) else lists[term]? := by
  induction terms generalizing lists with
  | nil => rfl
  | cons t terms ih =>
    obtain ⟨hfresh, hnodup⟩ := List.nodup_cons.mp hnodup
    rw [addDoc, List.foldl_cons, ← addDoc, ih hnodup, addTerm]
    by_cases hterm : t = term
    · subst hterm
      rw [if_neg hfresh, if_pos (List.mem_cons_self ..), OrdMap.get_insert, if_pos rfl]
    · simp only [OrdMap.get_insert, if_neg hterm, List.mem_cons, Ne.symm hterm, false_or]

theorem represents_empty : Represents (∅ : Lists τ) [] := by
  constructor <;> simp

theorem represents_addDoc {lists : Lists τ} {docs : List (List τ)} (h : Represents lists docs)
    {doc : List τ} (hnodup : doc.Nodup) :
    Represents (addDoc docs.length lists doc) (docs ++ [doc]) := by
  have hgrow : ∀ (term : τ) (i : ℕ), (∃ d, (docs ++ [doc])[i]? = some d ∧ term ∈ d) ↔
      (∃ d, docs[i]? = some d ∧ term ∈ d) ∨ i = docs.length ∧ term ∈ doc := by
    intro term i
    rcases Nat.lt_trichotomy i docs.length with hlt | rfl | hgt
    · rw [List.getElem?_append_left hlt]
      simp [hlt.ne]
    · simp
    · rw [List.getElem?_eq_none (by simp; omega), List.getElem?_eq_none (by omega)]
      simp [hgt.ne']
  have hbelow : ∀ (term : τ), ∀ i ∈ (lists[term]?).getD [], i < docs.length := by
    intro term i hi
    cases hget : lists[term]? with
    | none => simp [hget] at hi
    | some positions =>
      rw [hget, Option.getD_some] at hi
      obtain ⟨d, hd, -⟩ := (h.mem term positions hget i).mp hi
      exact (List.getElem?_eq_some_iff.mp hd).1
  -- A term without an entry is in no document.
  have hmem : ∀ (term : τ) (i : ℕ), i ∈ (lists[term]?).getD [] ↔
      ∃ d, docs[i]? = some d ∧ term ∈ d := by
    intro term i
    cases hget : lists[term]? with
    | some positions => exact h.mem term positions hget i
    | none =>
      simp only [Option.getD_none, List.not_mem_nil, false_iff]
      rintro ⟨d, hd, hterm⟩
      have := h.entry d (List.mem_of_getElem? hd) term hterm
      rw [OrdMap.mem_iff, hget] at this
      obtain ⟨positions, hpositions⟩ := this
      cases hpositions
  refine ⟨fun term positions hget i => ?_, fun term positions hget => ?_, fun d hd term hterm => ?_⟩
  · rw [getElem?_addDoc hnodup] at hget
    rw [hgrow]
    by_cases hterm : term ∈ doc
    · rw [if_pos hterm, Option.some.injEq] at hget
      subst hget
      rw [List.mem_append, hmem, List.mem_singleton]
      simp [hterm]
    · rw [if_neg hterm] at hget
      rw [h.mem term positions hget]
      simp [hterm]
  · rw [getElem?_addDoc hnodup] at hget
    by_cases hterm : term ∈ doc
    · rw [if_pos hterm, Option.some.injEq] at hget
      subst hget
      refine List.pairwise_append.mpr ⟨?_, List.pairwise_singleton .., fun i hi j hj => ?_⟩
      · cases hold : lists[term]? with
        | none => exact List.Pairwise.nil
        | some positions => exact h.ascending term positions hold
      · rw [List.mem_singleton.mp hj]
        exact hbelow term i hi
    · rw [if_neg hterm] at hget
      exact h.ascending term positions hget
  · rw [OrdMap.mem_iff, getElem?_addDoc hnodup]
    by_cases hnew : term ∈ doc
    · exact ⟨_, if_pos hnew⟩
    · rw [if_neg hnew, ← OrdMap.mem_iff]
      rcases List.mem_append.mp hd with hd | hd
      · exact h.entry d hd term hterm
      · rw [List.mem_singleton.mp hd] at hterm
        exact absurd hterm hnew

end Terms

end LeanCtx.PostingList
