import LeanCtx.TextSearch
import Mathlib.Data.List.DropRight
import Mathlib.Data.List.Infix
import Mathlib.Tactic.Common

/-!
# Marks in a text and trimming

A mark is a text whose first character does not occur again in it, so two marks
with the same first character never overlap. A trim removes the characters of a class
at both ends; a mark that neither begins nor ends with one of them survives it.
-/

namespace LeanCtx.TextMarks

open TextSearch (firstSplit eq_of_firstSplit countFrom countMatches countMatches_pos_iff)

variable {α : Type} [DecidableEq α]

/-! ## The first occurrence -/

theorem firstSplit_le (needle before after : List α) :
    ∃ p q, firstSplit needle (before ++ needle ++ after) = some (p, q) ∧
      p.length ≤ before.length := by
  induction before with
  | nil =>
    rw [List.nil_append]
    cases hneedle : needle ++ after with
    | nil =>
      refine ⟨[], [], ?_, Nat.le_refl 0⟩
      rw [firstSplit, if_pos (List.append_eq_nil_iff.mp hneedle).1]
    | cons c cs =>
      have hpre : needle.isPrefixOf (c :: cs) = true :=
        List.isPrefixOf_iff_prefix.mpr ⟨after, hneedle⟩
      refine ⟨[], (c :: cs).drop needle.length, ?_, Nat.le_refl 0⟩
      rw [firstSplit, if_pos hpre]
  | cons c before ih =>
    obtain ⟨p, q, hsplit, hle⟩ := ih
    rw [List.cons_append, List.cons_append, firstSplit]
    split_ifs
    · exact ⟨[], _, rfl, Nat.zero_le _⟩
    · refine ⟨c :: p, q, ?_, Nat.succ_le_succ hle⟩
      rw [hsplit, Option.map_some]

theorem firstSplit_eq_none_iff {needle text : List α} :
    firstSplit needle text = none ↔ ¬ needle <:+: text := by
  constructor
  · rintro h ⟨before, after, rfl⟩
    obtain ⟨p, q, hsplit, -⟩ := firstSplit_le needle before after
    rw [h] at hsplit
    cases hsplit
  · intro h
    cases hsplit : firstSplit needle text with
    | none => rfl
    | some split => exact absurd ⟨split.1, split.2, (eq_of_firstSplit hsplit).symm⟩ h

theorem exists_firstSplit {needle text : List α} (h : needle <:+: text) :
    ∃ p q, firstSplit needle text = some (p, q) := by
  obtain ⟨before, after, rfl⟩ := h
  obtain ⟨p, q, hsplit, -⟩ := firstSplit_le needle before after
  exact ⟨p, q, hsplit⟩

theorem not_infix_before {needle text p q : List α} (hneedle : needle ≠ [])
    (h : firstSplit needle text = some (p, q)) : ¬ needle <:+: p := by
  rintro ⟨u, v, huv⟩
  have htext : text = u ++ needle ++ (v ++ needle ++ q) := by
    rw [eq_of_firstSplit h, ← huv]
    simp only [List.append_assoc]
  obtain ⟨p', q', hsplit, hle⟩ :=
    firstSplit_le needle u (v ++ needle ++ q)
  rw [← htext, h] at hsplit
  cases hsplit
  have hpos := List.length_pos_of_ne_nil hneedle
  rw [← huv, List.length_append, List.length_append] at hle
  omega

/-! ## Marks -/

omit [DecidableEq α] in
/-- A mark that begins in a text ends in it, when what follows begins as the mark does. -/
theorem prefix_left {h : α} {mark w b : List α} (hfresh : h ∉ mark) (hw : w ≠ [])
    (hpre : (h :: mark) <+: w ++ h :: b) : (h :: mark) <+: w := by
  rcases List.prefix_or_prefix_of_prefix hpre (List.prefix_append w (h :: b)) with hin | ⟨x, hx⟩
  · exact hin
  · cases x with
    | nil => exact ⟨[], by rw [← hx, List.append_nil, List.append_nil]⟩
    | cons d x =>
      rw [← hx, List.prefix_append_right_inj, List.cons_prefix_cons] at hpre
      obtain ⟨c, w, rfl⟩ := List.exists_cons_of_ne_nil hw
      have hmark : w ++ d :: x = mark := (List.cons.inj hx).2
      refine absurd ?_ hfresh
      rw [← hmark, hpre.1]
      exact List.mem_append_right w List.mem_cons_self

omit [DecidableEq α] in
/-- A mark in two pieces of text of which the second begins as the mark does is in one of them. -/
theorem infix_append_iff {h : α} {mark a b : List α} (hfresh : h ∉ mark) :
    (h :: mark) <:+: a ++ h :: b ↔ (h :: mark) <:+: a ∨ (h :: mark) <:+: h :: b := by
  constructor
  · rintro ⟨u, v, huv⟩
    rw [List.append_assoc] at huv
    rcases List.append_eq_append_iff.mp huv with ⟨w, hw, hv⟩ | ⟨w, hw, hv⟩
    · by_cases hnil : w = []
      · right
        refine ⟨[], v, ?_⟩
        rw [hnil] at hv
        exact hv
      · left
        obtain ⟨x, hx⟩ := prefix_left hfresh hnil ⟨v, hv⟩
        exact ⟨u, x, by rw [hw, ← hx, List.append_assoc]⟩
    · right
      exact ⟨w, v, by rw [List.append_assoc]; exact hv.symm⟩
  · rintro (hin | hin)
    · exact hin.trans (List.prefix_append a (h :: b)).isInfix
    · exact hin.trans (List.suffix_append a (h :: b)).isInfix

omit [DecidableEq α] in
/-- A mark is not in a text without its first character, nor does it begin there. -/
theorem infix_of_infix_append {h : α} {mark t s : List α} (ht : h ∉ t)
    (hin : (h :: mark) <:+: t ++ s) : (h :: mark) <:+: s := by
  induction t with
  | nil => exact hin
  | cons c t ih =>
    rw [List.cons_append, List.infix_cons_iff] at hin
    rcases hin with hpre | hin
    · exact absurd ((List.cons_prefix_cons.mp hpre).1 ▸ List.mem_cons_self) ht
    · exact ih (fun hmem => ht (List.mem_cons_of_mem c hmem)) hin

theorem firstSplit_of_absent {h : α} {mark a : List α} (hfresh : h ∉ mark)
    (ha : ¬ (h :: mark) <:+: a) (b : List α) :
    firstSplit (h :: mark) (a ++ h :: mark ++ b) = some (a, b) := by
  obtain ⟨p, q, hsplit, hle⟩ := firstSplit_le (h :: mark) a b
  have htext := eq_of_firstSplit hsplit
  rw [List.append_assoc, List.append_assoc] at htext
  rcases List.append_eq_append_iff.mp htext with ⟨w, hw, hq⟩ | ⟨w, hw, hq⟩
  · have hnil : w = [] := by
      rw [hw, List.length_append] at hle
      exact List.length_eq_zero_iff.mp (by omega)
    subst hnil
    rw [List.append_nil] at hw
    rw [List.nil_append] at hq
    rw [hsplit, hw, List.append_cancel_left hq]
  · by_cases hnil : w = []
    · subst hnil
      rw [List.append_nil] at hw
      rw [List.nil_append] at hq
      rw [hsplit, hw, List.append_cancel_left hq]
    · obtain ⟨x, hx⟩ := prefix_left hfresh hnil ⟨q, hq⟩
      exact absurd ⟨p, x, by rw [hw, ← hx, List.append_assoc]⟩ ha

/-! ## Counting -/

theorem countMatches_eq_zero {needle text : List α} (h : ¬ needle <:+: text) :
    countMatches needle text = 0 := by
  refine Nat.eq_zero_of_not_pos fun hpos => ?_
  rw [countMatches_pos_iff, firstSplit_eq_none_iff.mpr h] at hpos
  cases hpos

theorem countFrom_append_left (needle a b : List α) :
    countFrom needle a.length (a ++ b) = countFrom needle 0 b := by
  induction a with
  | nil => rfl
  | cons c a ih => exact ih

theorem countMatches_self_append {needle : List α} (hneedle : needle ≠ []) (b : List α) :
    countMatches needle (needle ++ b) = countMatches needle b + 1 := by
  obtain ⟨h, t, rfl⟩ := List.exists_cons_of_ne_nil hneedle
  have hpre : (h :: t).isPrefixOf (h :: (t ++ b)) = true :=
    List.isPrefixOf_iff_prefix.mpr (List.prefix_append (h :: t) b)
  rw [countMatches, if_neg hneedle, countMatches, if_neg hneedle, List.cons_append, countFrom,
    if_pos hpre, List.length_cons, Nat.add_sub_cancel, countFrom_append_left]

omit [DecidableEq α] in
theorem prefix_append_cons_iff {needle a b : List α} {c : α} (hc : c ∉ needle) :
    needle <+: a ++ c :: b ↔ needle <+: a := by
  constructor
  · intro hpre
    rcases List.prefix_or_prefix_of_prefix hpre (List.prefix_append a (c :: b)) with h | ⟨x, rfl⟩
    · exact h
    · cases x with
      | nil => rw [List.append_nil]
      | cons d x =>
        rw [List.prefix_append_right_inj, List.cons_prefix_cons] at hpre
        exact absurd (List.mem_append_right a (hpre.1 ▸ List.mem_cons_self)) hc
  · exact fun h => h.trans (List.prefix_append a (c :: b))

theorem countFrom_append_cons {needle : List α} {c : α} (hneedle : needle ≠ []) (hc : c ∉ needle)
    (a b : List α) {skip : ℕ} (hskip : skip ≤ a.length) :
    countFrom needle skip (a ++ c :: b) = countFrom needle skip a + countFrom needle 0 b := by
  induction a generalizing skip with
  | nil =>
    obtain rfl := Nat.le_zero.mp hskip
    have hpre : ¬ needle.isPrefixOf (c :: b) = true := by
      intro h
      have hpre : needle <+: [] ++ c :: b := List.isPrefixOf_iff_prefix.mp h
      exact hneedle (List.prefix_nil.mp ((prefix_append_cons_iff hc).mp hpre))
    have hstep : countFrom needle 0 (c :: b) = countFrom needle 0 b := by
      rw [countFrom, if_neg hpre]
    have hnil : countFrom needle 0 [] = 0 := rfl
    rw [List.nil_append, hstep, hnil, Nat.zero_add]
  | cons x a ih =>
    cases skip with
    | succ skip =>
      rw [List.cons_append, countFrom, countFrom]
      exact ih (Nat.le_of_succ_le_succ hskip)
    | zero =>
      have hsame : needle.isPrefixOf (x :: (a ++ c :: b)) = needle.isPrefixOf (x :: a) := by
        rw [Bool.eq_iff_iff, List.isPrefixOf_iff_prefix, List.isPrefixOf_iff_prefix]
        exact prefix_append_cons_iff (a := x :: a) hc
      rw [List.cons_append, countFrom, countFrom, hsame]
      split_ifs with hpre
      · have hlen := (List.isPrefixOf_iff_prefix.mp hpre).length_le
        rw [List.length_cons] at hlen
        rw [ih (by omega), Nat.add_right_comm]
      · exact ih (Nat.zero_le _)

/-- Occurrences do not reach over an element that the needle does not hold. -/
theorem countMatches_append_cons {needle : List α} {c : α} (hneedle : needle ≠ [])
    (hc : c ∉ needle) (a b : List α) :
    countMatches needle (a ++ c :: b) = countMatches needle a + countMatches needle b := by
  rw [countMatches, if_neg hneedle, countMatches, if_neg hneedle, countMatches, if_neg hneedle]
  exact countFrom_append_cons hneedle hc a b (Nat.zero_le _)

/-! ## Trimming -/

omit [DecidableEq α]

variable (p : α → Bool)

def trim (s : List α) : List α := (s.dropWhile p).rdropWhile p

def trimEnd (s : List α) : List α := s.rdropWhile p

theorem dropWhile_append_of_mem {s t : List α} {c : α} (hc : c ∈ s) (hp : ¬ p c) :
    (s ++ t).dropWhile p = s.dropWhile p ++ t := by
  rw [List.dropWhile_append, if_neg]
  intro h
  exact hp (List.dropWhile_eq_nil_iff.mp (List.isEmpty_iff.mp h) c hc)

theorem rdropWhile_append_of_mem {s t : List α} {c : α} (hc : c ∈ t) (hp : ¬ p c) :
    (s ++ t).rdropWhile p = s ++ t.rdropWhile p := by
  rw [List.rdropWhile, List.reverse_append, dropWhile_append_of_mem p (List.mem_reverse.mpr hc) hp,
    List.reverse_append, List.reverse_reverse, List.rdropWhile]

/-- The characters a trim removes at the ends. -/
theorem eq_trim (s : List α) : ∃ l r, s = l ++ trim p s ++ r ∧ (∀ c ∈ l, p c) ∧ ∀ c ∈ r, p c := by
  refine ⟨s.takeWhile p, (s.dropWhile p).rtakeWhile p, ?_, ?_, ?_⟩
  · rw [trim, List.append_assoc, List.rdropWhile_append_rtakeWhile, List.takeWhile_append_dropWhile]
  · exact fun c hc => List.mem_takeWhile_imp hc
  · exact fun c hc => List.mem_rtakeWhile_imp hc

theorem trim_eq_nil_iff {s : List α} : trim p s = [] ↔ ∀ c ∈ s, p c := by
  constructor
  · intro h
    obtain ⟨l, r, hs, hl, hr⟩ := eq_trim p s
    intro c hc
    rw [hs, h, List.append_nil, List.mem_append] at hc
    exact hc.elim (hl c) (hr c)
  · intro h
    rw [trim, List.dropWhile_eq_nil_iff.mpr h]
    rfl

theorem trim_append_left {l s : List α} (hl : ∀ c ∈ l, p c) : trim p (l ++ s) = trim p s := by
  rw [trim, List.dropWhile_append, if_pos (List.isEmpty_iff.mpr (List.dropWhile_eq_nil_iff.mpr hl)),
    trim]

theorem rdropWhile_append_right {s r : List α} (hr : ∀ c ∈ r, p c) :
    (s ++ r).rdropWhile p = s.rdropWhile p := by
  have hnil : r.reverse.dropWhile p = [] :=
    List.dropWhile_eq_nil_iff.mpr fun c hc => hr c (List.mem_reverse.mp hc)
  rw [List.rdropWhile, List.reverse_append, List.dropWhile_append,
    if_pos (List.isEmpty_iff.mpr hnil), List.rdropWhile]

theorem trim_append_right {s r : List α} (hr : ∀ c ∈ r, p c) : trim p (s ++ r) = trim p s := by
  by_cases hs : ∀ c ∈ s, p c
  · rw [(trim_eq_nil_iff p).mpr hs, trim_eq_nil_iff]
    intro c hc
    exact (List.mem_append.mp hc).elim (hs c) (hr c)
  · obtain ⟨c, hc, hp⟩ := not_forall₂.mp hs
    rw [trim, dropWhile_append_of_mem p hc hp, rdropWhile_append_right p hr, trim]

theorem trim_trim (s : List α) : trim p (trim p s) = trim p s := by
  obtain ⟨l, r, hs, hl, hr⟩ := eq_trim p s
  conv_rhs => rw [hs, trim_append_right p hr, trim_append_left p hl]

theorem trim_within (s : List α) : trim p s <:+: s := by
  obtain ⟨l, r, hs, -, -⟩ := eq_trim p s
  exact ⟨l, r, hs.symm⟩

/-- A text that neither begins nor ends with a character of the class survives the trim. -/
theorem infix_trim {h : α} {mark s : List α} (hh : ¬ p h)
    (hend : (h :: mark).rdropWhile p = h :: mark) (hin : (h :: mark) <:+: s) :
    (h :: mark) <:+: trim p s := by
  obtain ⟨u, v, rfl⟩ := hin
  have hleft : ∃ u', (u ++ h :: mark ++ v).dropWhile p = u' ++ h :: mark ++ v := by
    by_cases hu : ∀ c ∈ u, p c
    · refine ⟨[], ?_⟩
      rw [List.append_assoc, List.dropWhile_append,
        if_pos (List.isEmpty_iff.mpr (List.dropWhile_eq_nil_iff.mpr hu)), List.cons_append,
        List.dropWhile_cons_of_neg hh]
      rfl
    · obtain ⟨c, hc, hp⟩ := not_forall₂.mp hu
      exact ⟨u.dropWhile p, by rw [List.append_assoc, dropWhile_append_of_mem p hc hp,
        List.append_assoc]⟩
  obtain ⟨u', hu'⟩ := hleft
  rw [trim, hu']
  by_cases hv : ∀ c ∈ v, p c
  · rw [rdropWhile_append_right p hv, rdropWhile_append_of_mem p List.mem_cons_self hh, hend]
    exact (List.suffix_append u' (h :: mark)).isInfix
  · obtain ⟨c, hc, hp⟩ := not_forall₂.mp hv
    rw [rdropWhile_append_of_mem p hc hp]
    exact List.infix_append u' (h :: mark) (v.rdropWhile p)

end LeanCtx.TextMarks
