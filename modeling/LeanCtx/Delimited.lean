import Mathlib.Data.List.Basic
import Mathlib.Tactic

/-!
# Texts joined by a separator

Fields joined by a separator that is not escaped can be read back when the
separators stand in the same fields: if each field holds as many separators as
its counterpart, equal joined texts have equal fields. Decimal numbers hold no
separator and no placeholder.
-/

namespace LeanCtx

variable {α : Type} [DecidableEq α]

/-- Two heads with equally many separators end at the same separator. -/
theorem append_sep_inj {sep : α} {x y r r' : List α} (h : x ++ sep :: r = y ++ sep :: r')
    (hc : x.count sep = y.count sep) : x = y ∧ r = r' := by
  induction x generalizing y with
  | nil =>
    cases y with
    | nil => simpa using h
    | cons b y =>
      simp only [List.nil_append, List.cons_append, List.cons.injEq] at h
      rw [← h.1] at hc
      simp at hc
  | cons a x ih =>
    cases y with
    | nil =>
      simp only [List.nil_append, List.cons_append, List.cons.injEq] at h
      rw [h.1] at hc
      simp at hc
    | cons b y =>
      simp only [List.cons_append, List.cons.injEq] at h
      obtain ⟨rfl, h⟩ := h
      have hc' : x.count sep = y.count sep := by
        simp only [List.count_cons] at hc
        omega
      obtain ⟨rfl, rfl⟩ := ih h hc'
      exact ⟨rfl, rfl⟩

theorem intercalate_inj {sep : α} {xs ys : List (List α)}
    (h : [sep].intercalate xs = [sep].intercalate ys)
    (hc : xs.map (List.count sep) = ys.map (List.count sep)) : xs = ys := by
  induction xs generalizing ys with
  | nil =>
    rw [List.map_nil, eq_comm, List.map_eq_nil_iff] at hc
    exact hc.symm
  | cons x xs ih =>
    cases ys with
    | nil => simp at hc
    | cons y ys =>
      simp only [List.map_cons, List.cons.injEq] at hc
      obtain ⟨hxy, hc⟩ := hc
      cases xs with
      | nil =>
        cases ys with
        | nil => simpa using h
        | cons => simp at hc
      | cons x' xs =>
        cases ys with
        | nil => simp at hc
        | cons y' ys =>
          simp only [List.intercalate_cons_cons, List.append_assoc, List.singleton_append] at h
          obtain ⟨rfl, htail⟩ := append_sep_inj h hxy
          rw [ih htail hc]

/-- The joined text holds the separators of the fields and one between any two. -/
theorem count_intercalate {sep : α} (x : List α) (xs : List (List α)) :
    ([sep].intercalate (x :: xs)).count sep =
      ((x :: xs).map (List.count sep)).sum + xs.length := by
  induction xs generalizing x with
  | nil => simp
  | cons y xs ih =>
    rw [List.intercalate_cons_cons, List.count_append, List.count_append, ih]
    simp only [List.map_cons, List.sum_cons, List.length_cons, List.count_singleton_self]
    omega

theorem count_repr {c : Char} (hc : c.isDigit = false) (n : ℕ) : n.repr.toList.count c = 0 := by
  rw [Nat.toList_repr, List.count_eq_zero]
  intro hmem
  have := Nat.isDigit_of_mem_toDigits (by decide) (by decide) hmem
  rw [hc] at this
  cases this

theorem count_int_repr {c : Char} (hc : c.isDigit = false) (hm : c ≠ '-') (n : ℤ) :
    n.repr.toList.count c = 0 := by
  cases n with
  | ofNat n => exact count_repr hc n
  | negSucc n =>
    have : (Int.negSucc n).repr = "-" ++ (n + 1).repr := rfl
    rw [this, String.toList_append, List.count_append, count_repr hc]
    simp [Ne.symm hm]

theorem repr_ne_underscore (n : ℕ) : n.repr ≠ "_" := by
  intro h
  have := count_repr (by decide) n (c := '_')
  rw [h] at this
  revert this
  decide

theorem int_repr_ne_underscore (n : ℤ) : n.repr ≠ "_" := by
  intro h
  have := count_int_repr (by decide) (by decide) n (c := '_')
  rw [h] at this
  revert this
  decide

end LeanCtx
