import Mathlib.Data.List.Basic

/-!
# Searching and replacing parts of a list

The first occurrence of a part splits a list in two. Occurrences are counted and
replaced from left to right, each search starting behind the last occurrence.
-/

namespace LeanCtx.TextSearch

variable {α : Type} [DecidableEq α]

/-- What stands before and after the first occurrence. -/
def firstSplit (needle : List α) : List α → Option (List α × List α)
  | [] => if needle = [] then some ([], []) else none
  | c :: cs =>
    if needle.isPrefixOf (c :: cs) then some ([], (c :: cs).drop needle.length)
    else (firstSplit needle cs).map fun split => (c :: split.1, split.2)

def contains (needle text : List α) : Bool := (firstSplit needle text).isSome

/-- `str::replacen` with one replacement. -/
def replaceFirst (needle new text : List α) : List α :=
  match firstSplit needle text with
  | some (before, after) => before ++ new ++ after
  | none => text

def countFrom (needle : List α) : ℕ → List α → ℕ
  | _, [] => 0
  | skip + 1, _ :: cs => countFrom needle skip cs
  | 0, c :: cs =>
    if needle.isPrefixOf (c :: cs) then countFrom needle (needle.length - 1) cs + 1
    else countFrom needle 0 cs

/-- The number of `str::matches`; an empty part occurs at every boundary. -/
def countMatches (needle text : List α) : ℕ :=
  if needle = [] then text.length + 1 else countFrom needle 0 text

def replaceFrom (needle new : List α) : ℕ → List α → List α
  | _, [] => []
  | skip + 1, _ :: cs => replaceFrom needle new skip cs
  | 0, c :: cs =>
    if needle.isPrefixOf (c :: cs) then new ++ replaceFrom needle new (needle.length - 1) cs
    else c :: replaceFrom needle new 0 cs

/-- `str::replace`. -/
def replaceAll (needle new text : List α) : List α :=
  if needle = [] then new ++ text.flatMap (· :: new) else replaceFrom needle new 0 text

theorem eq_of_firstSplit {needle text before after : List α}
    (h : firstSplit needle text = some (before, after)) : text = before ++ needle ++ after := by
  induction text generalizing before with
  | nil =>
    rw [firstSplit] at h
    split_ifs at h with hnil
    cases h
    simp [hnil]
  | cons c cs ih =>
    rw [firstSplit] at h
    split_ifs at h with hprefix
    · cases h
      obtain ⟨rest, hrest⟩ := List.isPrefixOf_iff_prefix.mp hprefix
      rw [← hrest, List.drop_left, List.nil_append]
    · obtain ⟨split, hsplit, heq⟩ := Option.map_eq_some_iff.mp h
      cases heq
      rw [ih hsplit]
      rfl

/-- The first occurrence is where an occurrence can be. -/
theorem firstSplit_isSome {needle before after : List α} :
    (firstSplit needle (before ++ needle ++ after)).isSome = true := by
  induction before with
  | nil =>
    rw [List.nil_append]
    cases hneedle : needle ++ after with
    | nil =>
      rw [firstSplit, if_pos (List.append_eq_nil_iff.mp hneedle).1]
      rfl
    | cons c cs =>
      have hprefix : needle.isPrefixOf (c :: cs) = true :=
        List.isPrefixOf_iff_prefix.mpr ⟨after, hneedle⟩
      rw [firstSplit, if_pos hprefix]
      rfl
  | cons c before ih =>
    rw [List.cons_append, List.cons_append, firstSplit]
    split_ifs
    · rfl
    · rw [Option.isSome_map]
      exact ih

theorem countFrom_pos_iff {needle text : List α} :
    0 < countFrom needle 0 text ↔ needle ≠ [] ∧ (firstSplit needle text).isSome = true ∨
      needle = [] ∧ text ≠ [] := by
  induction text with
  | nil => simp [countFrom, firstSplit]
  | cons c cs ih =>
    rw [countFrom, firstSplit]
    split_ifs with hprefix
    · by_cases hneedle : needle = [] <;> simp [hneedle]
    · have hne : needle ≠ [] := by
        rintro rfl
        exact hprefix rfl
      rw [ih]
      simp [hne]

theorem countMatches_pos_iff {needle text : List α} :
    0 < countMatches needle text ↔ (firstSplit needle text).isSome = true := by
  rw [countMatches]
  split_ifs with h
  · subst h
    cases text <;> simp [firstSplit]
  · rw [countFrom_pos_iff]
    simp [h]

/-- Two occurrences never stand at different places. -/
def Isolated (needle text : List α) : Prop :=
  ∀ before after before' after', text = before ++ needle ++ after →
    text = before' ++ needle ++ after' → before' = before ∧ after' = after

theorem replaceAll_cons {m x : α} (h : m ≠ x) (needle new text : List α) :
    replaceAll (m :: needle) new (x :: text) = x :: replaceAll (m :: needle) new text := by
  have hprefix : ¬ (m :: needle).isPrefixOf (x :: text) = true := by
    simp [List.isPrefixOf, h]
  rw [replaceAll, if_neg (by simp), replaceFrom, if_neg hprefix, replaceAll, if_neg (by simp)]

omit [DecidableEq α] in
/-- Replacements that begin differently tell where they were put. -/
theorem split_unique {text span needle p q before after u v : List α} {x y : α} (hxy : x ≠ y)
    (hspan : text = before ++ span ++ after) (hneedle : text = p ++ needle ++ q)
    (hx : p ++ (x :: u) ++ q = before ++ (x :: u) ++ after)
    (hy : p ++ (y :: v) ++ q = before ++ (y :: v) ++ after) : p = before ∧ q = after := by
  have hprefix : before <+: p ∨ p <+: before := by
    have hb : before <+: text := ⟨span ++ after, by rw [hspan, List.append_assoc]⟩
    have hp : p <+: text := ⟨needle ++ q, by rw [hneedle, List.append_assoc]⟩
    exact List.prefix_or_prefix_of_prefix hb hp
  rcases hprefix with ⟨rest, rfl⟩ | ⟨rest, rfl⟩
  · cases rest with
    | nil =>
      rw [List.append_nil, List.append_cancel_left_eq] at hx
      simpa using hx
    | cons c rest =>
      simp only [List.append_assoc, List.append_cancel_left_eq, List.cons_append,
        List.cons.injEq] at hx hy
      exact absurd (hx.1.symm.trans hy.1) hxy
  · cases rest with
    | nil =>
      rw [List.append_nil, List.append_assoc, List.append_assoc, List.append_cancel_left_eq] at hx
      simpa using hx
    | cons c rest =>
      simp only [List.append_assoc, List.append_cancel_left_eq, List.cons_append,
        List.cons.injEq] at hx hy
      exact absurd (hx.1.trans hy.1.symm) hxy

/-- A place is where the first occurrence is replaced just when replacements that begin
differently come to stand there. -/
theorem firstSplit_eq_of_replaceFirst {text span needle before after u v : List α} {x y : α}
    (hxy : x ≠ y) (hspan : text = before ++ span ++ after)
    (hx : replaceFirst needle (x :: u) text = before ++ (x :: u) ++ after)
    (hy : replaceFirst needle (y :: v) text = before ++ (y :: v) ++ after) :
    firstSplit needle text = some (before, after) := by
  rw [replaceFirst] at hx hy
  cases hsplit : firstSplit needle text with
  | none =>
    simp only [hsplit] at hx hy
    rw [hx] at hy
    simp only [List.append_assoc, List.append_cancel_left_eq, List.cons_append,
      List.cons.injEq] at hy
    exact absurd hy.1 hxy
  | some split =>
    obtain ⟨p, q⟩ := split
    simp only [hsplit] at hx hy
    obtain ⟨rfl, rfl⟩ := split_unique hxy hspan (eq_of_firstSplit hsplit) hx hy
    rfl

end LeanCtx.TextSearch
