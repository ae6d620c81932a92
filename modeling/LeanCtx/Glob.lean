import Mathlib.Data.List.TakeDrop
import Mathlib.Data.List.Range
import Mathlib.Tactic.Common

/-!
# Glob patterns and the row of their dynamic programme

A pattern matches the words that it becomes when every star is replaced by some
word. A row over a word holds, for each length, whether the pattern so far
matches the prefix of that length. The row can be kept in place: upwards for a
star, downwards for a letter.
-/

namespace LeanCtx.Glob

variable {α : Type} [DecidableEq α] {star : α}

/-- The word is the pattern with each star replaced by a word. -/
inductive Matches (star : α) : List α → List α → Prop
  | nil : Matches star [] []
  | letter {a : α} {p s : List α} (ha : a ≠ star) (h : Matches star p s) :
      Matches star (a :: p) (a :: s)
  | star (t : List α) {p s : List α} (h : Matches star p s) : Matches star (star :: p) (t ++ s)

omit [DecidableEq α] in
theorem Matches.append {p q s t : List α} (hp : Matches star p s) (hq : Matches star q t) :
    Matches star (p ++ q) (s ++ t) := by
  induction hp with
  | nil => exact hq
  | letter ha _ ih => exact .letter ha ih
  | star u _ ih =>
    rw [List.append_assoc]
    exact .star u ih

omit [DecidableEq α] in
/-- A word that matches a pattern is cut where the pattern is. -/
theorem Matches.split {p q s : List α} (h : Matches star (p ++ q) s) :
    ∃ t u, s = t ++ u ∧ Matches star p t ∧ Matches star q u := by
  induction p generalizing s with
  | nil => exact ⟨[], s, rfl, .nil, h⟩
  | cons a p ih =>
    rw [List.cons_append] at h
    cases h with
    | letter ha h =>
      obtain ⟨t, u, rfl, ht, hu⟩ := ih h
      exact ⟨a :: t, u, rfl, .letter ha ht, hu⟩
    | star v h =>
      obtain ⟨t, u, rfl, ht, hu⟩ := ih h
      exact ⟨v ++ t, u, (List.append_assoc v t u).symm, .star v ht, hu⟩

omit [DecidableEq α] in
theorem matches_nil {s : List α} : Matches star [] s ↔ s = [] := by
  constructor
  · intro h
    cases h
    rfl
  · rintro rfl
    exact .nil

omit [DecidableEq α] in
theorem matches_snoc_letter {a : α} (ha : a ≠ star) {p s : List α} :
    Matches star (p ++ [a]) s ↔ ∃ t, s = t ++ [a] ∧ Matches star p t := by
  constructor
  · intro h
    obtain ⟨t, u, rfl, ht, hu⟩ := h.split
    cases hu with
    | letter _ hu =>
      rw [matches_nil.mp hu]
      exact ⟨t, rfl, ht⟩
    | star => exact absurd rfl ha
  · rintro ⟨t, rfl, ht⟩
    exact ht.append (.letter ha .nil)

omit [DecidableEq α] in
theorem matches_snoc_star {p s : List α} :
    Matches star (p ++ [star]) s ↔ ∃ t, t <+: s ∧ Matches star p t := by
  constructor
  · intro h
    obtain ⟨t, u, rfl, ht, -⟩ := h.split
    exact ⟨t, List.prefix_append t u, ht⟩
  · rintro ⟨t, ⟨u, rfl⟩, ht⟩
    have hstar : Matches star [star] (u ++ []) := .star u .nil
    rw [List.append_nil] at hstar
    exact ht.append hstar

/-! ## The row in place -/

def starUp (size : ℕ) (row : List Bool) : List Bool :=
  (List.range' 1 size).foldl
    (fun row i => row.set i (row.getD i false || row.getD (i - 1) false)) row

def letterDown (s : List α) (a : α) (row : List Bool) : List Bool :=
  (((List.range' 1 s.length).reverse.foldl
    (fun row i => row.set i (row.getD (i - 1) false && s[i - 1]? == some a)) row)).set 0 false

def step (star : α) (s : List α) (row : List Bool) (a : α) : List Bool :=
  if a = star then starUp s.length row else letterDown s a row

def start (s : List α) : List Bool := (List.replicate (s.length + 1) false).set 0 true

/-- The dynamic programme over the letters of a pattern. -/
def matched (star : α) (p s : List α) : Bool :=
  (p.foldl (step star s) (start s)).getD s.length false

/-- The row says of each prefix of the word whether the pattern matches it. -/
structure Row (star : α) (p s : List α) (row : List Bool) : Prop where
  length : row.length = s.length + 1
  spec : ∀ i ≤ s.length, row.getD i false = true ↔ Matches star p (s.take i)

omit [DecidableEq α] in
theorem row_start (s : List α) : Row star [] s (start s) where
  length := by simp [start]
  spec i hi := by
    rw [matches_nil, start, List.getD_eq_getElem?_getD, List.getElem?_set]
    cases i with
    | zero => simp
    | succ i =>
      have hne : s.take (i + 1) ≠ [] := by
        rw [Ne, List.take_eq_nil_iff]
        rintro (h | rfl)
        · omega
        · simp at hi
      simp only [hne, iff_false, List.getElem?_replicate]
      rw [if_neg (by omega)]
      split_ifs <;> simp

theorem starUp_spec (row : List Bool) {size : ℕ} (hsize : size < row.length) :
    (starUp size row).length = row.length ∧
      ∀ i, (starUp size row).getD i false = true ↔
        if i ≤ size then ∃ j ≤ i, row.getD j false = true else row.getD i false = true := by
  unfold starUp
  induction size with
  | zero =>
    refine ⟨rfl, fun i => ?_⟩
    split_ifs with hi
    · obtain rfl : i = 0 := by omega
      simp
    · rfl
  | succ size ih =>
    obtain ⟨hlength, hspec⟩ := ih (by omega)
    rw [List.range'_concat, List.foldl_append, List.foldl_cons, List.foldl_nil, Nat.one_mul,
      Nat.add_comm 1 size]
    refine ⟨by rw [List.length_set, hlength], fun i => ?_⟩
    have hold := hspec (size + 1)
    have hprev := hspec size
    rw [if_neg (by omega)] at hold
    rw [if_pos (Nat.le_refl _)] at hprev
    rw [List.getD_eq_getElem?_getD, List.getElem?_set]
    by_cases hi : size + 1 = i
    · subst hi
      rw [if_pos rfl, if_pos (by omega), if_pos (Nat.le_refl _), Option.getD_some,
        Bool.or_eq_true, Nat.add_sub_cancel, hold, hprev]
      constructor
      · rintro (h | ⟨j, hj, h⟩)
        · exact ⟨size + 1, Nat.le_refl _, h⟩
        · exact ⟨j, Nat.le_succ_of_le hj, h⟩
      · rintro ⟨j, hj, h⟩
        rcases Nat.lt_or_eq_of_le hj with hj | rfl
        · exact .inr ⟨j, Nat.le_of_lt_succ hj, h⟩
        · exact .inl h
    · rw [if_neg hi, ← List.getD_eq_getElem?_getD, hspec i]
      by_cases hle : i ≤ size
      · rw [if_pos hle, if_pos (Nat.le_succ_of_le hle)]
      · rw [if_neg hle, if_neg (by omega)]

theorem letterDown_spec (s : List α) (a : α) (row : List Bool) (hlength : row.length = s.length + 1) :
    (letterDown s a row).length = row.length ∧
      ∀ i, (letterDown s a row).getD i false =
        if i = 0 then false
        else if i ≤ s.length then row.getD (i - 1) false && s[i - 1]? == some a
        else row.getD i false := by
  have hloop : ∀ (k : ℕ) (row : List Bool), k < row.length →
      ((List.range' 1 k).reverse.foldl
        (fun row i => row.set i (row.getD (i - 1) false && s[i - 1]? == some a)) row).length =
          row.length ∧
      ∀ i, ((List.range' 1 k).reverse.foldl
        (fun row i => row.set i (row.getD (i - 1) false && s[i - 1]? == some a)) row).getD i false =
        if 1 ≤ i ∧ i ≤ k then row.getD (i - 1) false && s[i - 1]? == some a
        else row.getD i false := by
    intro k
    induction k with
    | zero =>
      intro row _
      refine ⟨rfl, fun i => ?_⟩
      rw [if_neg (by omega)]
      rfl
    | succ k ih =>
      intro row hk
      rw [List.range'_concat, List.reverse_append, List.reverse_singleton, List.singleton_append,
        List.foldl_cons, Nat.one_mul, Nat.add_comm 1 k]
      obtain ⟨hlen, hspec⟩ := ih (row.set (k + 1) (row.getD (k + 1 - 1) false &&
        s[k + 1 - 1]? == some a)) (by rw [List.length_set]; omega)
      refine ⟨by rw [hlen, List.length_set], fun i => ?_⟩
      -- the entry below the one just written still has its old value
      have hget : ∀ j, (row.set (k + 1) (row.getD (k + 1 - 1) false &&
          s[k + 1 - 1]? == some a)).getD j false =
          if k + 1 = j then row.getD (k + 1 - 1) false && s[k + 1 - 1]? == some a
          else row.getD j false := by
        intro j
        rw [List.getD_eq_getElem?_getD, List.getElem?_set]
        split_ifs with hj
        · rfl
        · exact List.getD_eq_getElem?_getD.symm
      rw [hspec i, hget, hget]
      by_cases hi : k + 1 = i
      · subst hi
        rw [if_neg (by omega), if_pos rfl, if_pos (by omega)]
      · by_cases hle : 1 ≤ i ∧ i ≤ k
        · rw [if_pos hle, if_neg (by omega), if_pos (by omega)]
        · rw [if_neg hle, if_neg hi, if_neg (by omega)]
  obtain ⟨hlen, hspec⟩ := hloop s.length row (by omega)
  refine ⟨by rw [letterDown, List.length_set, hlen], fun i => ?_⟩
  rw [letterDown, List.getD_eq_getElem?_getD, List.getElem?_set]
  by_cases hi : i = 0
  · subst hi
    rw [if_pos rfl, if_pos rfl, if_pos (by omega)]
    rfl
  · rw [if_neg (Ne.symm hi), if_neg hi, ← List.getD_eq_getElem?_getD, hspec i]
    by_cases hle : i ≤ s.length
    · rw [if_pos ⟨by omega, hle⟩, if_pos hle]
    · rw [if_neg (by omega), if_neg hle]

/-! ## What the row says -/

theorem Row.step {p s : List α} {row : List Bool} (h : Row star p s row) (a : α) :
    Row star (p ++ [a]) s (step star s row a) := by
  unfold Glob.step
  have hlen := h.length
  split_ifs with ha
  · subst ha
    obtain ⟨hlength, hspec⟩ := starUp_spec row (by omega : s.length < row.length)
    refine ⟨hlength.trans hlen, fun i hi => ?_⟩
    rw [hspec i, if_pos hi, matches_snoc_star]
    constructor
    · rintro ⟨j, hj, hrow⟩
      exact ⟨s.take j, List.take_prefix_take_left hj, (h.spec j (by omega)).mp hrow⟩
    · rintro ⟨t, ht, hmatches⟩
      have htake := List.prefix_iff_eq_take.mp ht
      have hle : t.length ≤ i := by
        have := ht.length_le
        rw [List.length_take] at this
        omega
      rw [List.take_take, Nat.min_eq_left hle] at htake
      refine ⟨t.length, hle, (h.spec t.length (by omega)).mpr ?_⟩
      rw [← htake]
      exact hmatches
  · obtain ⟨hlength, hspec⟩ := letterDown_spec s a row hlen
    refine ⟨hlength.trans hlen, fun i hi => ?_⟩
    rw [hspec i, matches_snoc_letter ha]
    cases i with
    | zero =>
      rw [if_pos rfl, List.take_zero]
      constructor
      · intro hfalse
        cases hfalse
      · rintro ⟨t, ht, -⟩
        cases t <;> cases ht
    | succ i =>
      rw [if_neg (Nat.succ_ne_zero i), if_pos hi, Nat.add_sub_cancel, Bool.and_eq_true,
        h.spec i (by omega), beq_iff_eq]
      have hget : s[i]? = some s[i] := List.getElem?_eq_getElem hi
      have htake : s.take (i + 1) = s.take i ++ [s[i]] := List.take_succ_eq_append_getElem hi
      rw [hget, htake, Option.some.injEq]
      constructor
      · rintro ⟨hmatches, rfl⟩
        exact ⟨s.take i, rfl, hmatches⟩
      · rintro ⟨t, ht, hmatches⟩
        obtain ⟨rfl, hlast⟩ := List.append_inj' ht rfl
        exact ⟨hmatches, List.singleton_inj.mp hlast⟩

theorem row_foldl (p s : List α) : Row star p s (p.foldl (step star s) (start s)) := by
  induction p using List.reverseRecOn with
  | nil => exact row_start s
  | append_singleton p a ih =>
    rw [List.foldl_append, List.foldl_cons, List.foldl_nil]
    exact ih.step a

/-- The dynamic programme decides the matching. -/
theorem matched_iff (p s : List α) : matched star p s = true ↔ Matches star p s := by
  rw [matched, (row_foldl p s).spec s.length (Nat.le_refl _), List.take_length]

end LeanCtx.Glob
