import Mathlib.Algebra.Order.Ring.Nat
import Mathlib.Data.List.Basic
import Mathlib.Order.Basic
import Mathlib.Tactic.Common

/-!
# Sorted association lists

A map kept as the list of its entries in key order. Such a list is determined
by what it has under each key (`Ascending.ext`), so equalities between maps
come down to lookups.
-/

namespace LeanCtx.KeyedList

variable {κ ν μ : Type} [LinearOrder κ]

/-- Strictly ascending keys. -/
def Ascending (l : List (κ × ν)) : Prop := l.Pairwise fun a b => a.1 < b.1

instance (l : List (κ × ν)) : Decidable (Ascending l) :=
  inferInstanceAs (Decidable (l.Pairwise fun a b => a.1 < b.1))

/-- The entry set under a key, in place of the one that was there. -/
def put (k : κ) (v : ν) : List (κ × ν) → List (κ × ν)
  | [] => [(k, v)]
  | e :: rest =>
    if k < e.1 then (k, v) :: e :: rest
    else if k = e.1 then (k, v) :: rest
    else e :: put k v rest

/-- The entries of `new` set one after another. -/
def putAll (old new : List (κ × ν)) : List (κ × ν) :=
  new.foldl (fun l e => put e.1 e.2 l) old

theorem Ascending.of_cons {e : κ × ν} {l : List (κ × ν)} (h : Ascending (e :: l)) : Ascending l :=
  (List.pairwise_cons.mp h).2

theorem Ascending.lt_head {e : κ × ν} {l : List (κ × ν)} (h : Ascending (e :: l)) :
    ∀ e' ∈ l, e.1 < e'.1 := (List.pairwise_cons.mp h).1

theorem lookup_cons (k : κ) (e : κ × ν) (l : List (κ × ν)) :
    (e :: l).lookup k = if k = e.1 then some e.2 else l.lookup k := by
  rw [List.lookup_cons]
  by_cases h : k = e.1
  · rw [if_pos h, beq_iff_eq.mpr h]
  · rw [if_neg h, beq_eq_false_iff_ne.mpr h]

theorem lookup_eq_none {k : κ} {l : List (κ × ν)} :
    l.lookup k = none ↔ ∀ e ∈ l, e.1 ≠ k := by
  induction l with
  | nil => simp
  | cons e l ih =>
    rw [lookup_cons, List.forall_mem_cons, ← ih]
    by_cases h : k = e.1
    · simp [h]
    · simp [h, Ne.symm h]

theorem mem_of_lookup {k : κ} {v : ν} {l : List (κ × ν)} (h : l.lookup k = some v) :
    (k, v) ∈ l := by
  induction l with
  | nil => simp at h
  | cons e l ih =>
    rw [lookup_cons] at h
    by_cases hk : k = e.1
    · rw [if_pos hk] at h
      obtain rfl := Option.some.inj h
      rw [hk]
      exact List.mem_cons_self
    · rw [if_neg hk] at h
      exact List.mem_cons_of_mem _ (ih h)

theorem Ascending.lookup_of_mem {k : κ} {v : ν} {l : List (κ × ν)} (hl : Ascending l)
    (h : (k, v) ∈ l) : l.lookup k = some v := by
  induction l with
  | nil => cases h
  | cons e l ih =>
    rw [lookup_cons]
    rcases List.mem_cons.mp h with rfl | hmem
    · rw [if_pos rfl]
    · rw [if_neg (hl.lt_head _ hmem).ne', ih hl.of_cons hmem]

/-- Two sorted lists with the same lookups are equal. -/
theorem Ascending.ext {l m : List (κ × ν)} (hl : Ascending l) (hm : Ascending m)
    (h : ∀ k, l.lookup k = m.lookup k) : l = m := by
  have hmem : ∀ e : κ × ν, e ∈ l ↔ e ∈ m := by
    rintro ⟨k, v⟩
    constructor
    · intro he
      exact mem_of_lookup ((h k).symm.trans (hl.lookup_of_mem he))
    · intro he
      exact mem_of_lookup ((h k).trans (hm.lookup_of_mem he))
  have hlnodup : l.Nodup := hl.imp fun hlt heq => absurd (heq ▸ hlt) (lt_irrefl _)
  have hmnodup : m.Nodup := hm.imp fun hlt heq => absurd (heq ▸ hlt) (lt_irrefl _)
  have hperm : l.Perm m := (List.perm_ext_iff_of_nodup hlnodup hmnodup).mpr hmem
  unfold Ascending at hl hm
  exact hperm.eq_of_pairwise (fun a b _ _ hab hba => absurd (hab.trans hba) (lt_irrefl _)) hl hm

theorem lookup_put (k a : κ) (v : ν) (l : List (κ × ν)) :
    (put k v l).lookup a = if a = k then some v else l.lookup a := by
  induction l with
  | nil => simp [put, lookup_cons]
  | cons e l ih =>
    unfold put
    by_cases hlt : k < e.1
    · rw [if_pos hlt, lookup_cons]
    · rw [if_neg hlt]
      by_cases heq : k = e.1
      · rw [if_pos heq, lookup_cons, lookup_cons, ← heq]
        by_cases hak : a = k
        · rw [if_pos hak, if_pos hak]
        · rw [if_neg hak, if_neg hak, if_neg hak]
      · rw [if_neg heq, lookup_cons, lookup_cons, ih]
        by_cases hak : a = k
        · rw [if_pos hak, if_pos hak, if_neg (hak ▸ heq)]
        · rw [if_neg hak, if_neg hak]

theorem mem_put {k : κ} {v : ν} {l : List (κ × ν)} {e : κ × ν} (h : e ∈ put k v l) :
    e = (k, v) ∨ e ∈ l := by
  induction l with
  | nil => exact .inl (List.mem_singleton.mp h)
  | cons e' l ih =>
    unfold put at h
    split_ifs at h with hlt heq
    · exact List.mem_cons.mp h
    · rcases List.mem_cons.mp h with h | h
      · exact .inl h
      · exact .inr (List.mem_cons_of_mem _ h)
    · rcases List.mem_cons.mp h with h | h
      · exact .inr (h ▸ List.mem_cons_self)
      · exact (ih h).imp_right (List.mem_cons_of_mem _)

theorem Ascending.put {k : κ} {v : ν} {l : List (κ × ν)} (h : Ascending l) :
    Ascending (put k v l) := by
  induction l with
  | nil => exact List.pairwise_singleton _ _
  | cons e l ih =>
    unfold KeyedList.put
    split_ifs with hlt heq
    · refine List.pairwise_cons.mpr ⟨?_, h⟩
      intro e' he'
      rcases List.mem_cons.mp he' with rfl | he'
      · exact hlt
      · exact hlt.trans (h.lt_head e' he')
    · refine List.pairwise_cons.mpr ⟨?_, h.of_cons⟩
      intro e' he'
      exact heq ▸ h.lt_head e' he'
    · refine List.pairwise_cons.mpr ⟨?_, ih h.of_cons⟩
      intro e' he'
      rcases mem_put he' with rfl | he'
      · exact lt_of_le_of_ne (not_lt.mp hlt) (Ne.symm heq)
      · exact h.lt_head e' he'

theorem Ascending.putAll {old new : List (κ × ν)} (h : Ascending old) :
    Ascending (putAll old new) := by
  induction new generalizing old with
  | nil => exact h
  | cons e new ih => exact ih h.put

theorem mem_putAll {old new : List (κ × ν)} {e : κ × ν} (h : e ∈ putAll old new) :
    e ∈ old ∨ e ∈ new := by
  induction new generalizing old with
  | nil => exact .inl h
  | cons e' new ih =>
    rcases ih h with h | h
    · rcases mem_put h with rfl | h
      · exact .inr List.mem_cons_self
      · exact .inl h
    · exact .inr (List.mem_cons_of_mem _ h)

theorem lookup_putAll_of_forall_ne {old new : List (κ × ν)} {k : κ} (h : ∀ e ∈ new, e.1 ≠ k) :
    (putAll old new).lookup k = old.lookup k := by
  induction new generalizing old with
  | nil => rfl
  | cons e new ih =>
    obtain ⟨he, hnew⟩ := List.forall_mem_cons.mp h
    have hstep : putAll old (e :: new) = putAll (put e.1 e.2 old) new := rfl
    rw [hstep, ih hnew, lookup_put, if_neg (Ne.symm he)]

theorem lookup_putAll_of_mem {old new : List (κ × ν)} (hnodup : (new.map Prod.fst).Nodup)
    {k : κ} {v : ν} (h : (k, v) ∈ new) : (putAll old new).lookup k = some v := by
  induction new generalizing old with
  | nil => cases h
  | cons e new ih =>
    obtain ⟨he, hnew⟩ := List.nodup_cons.mp hnodup
    have hstep : putAll old (e :: new) = putAll (put e.1 e.2 old) new := rfl
    rw [hstep]
    rcases List.mem_cons.mp h with rfl | hmem
    · rw [lookup_putAll_of_forall_ne, lookup_put, if_pos rfl]
      intro e' he' heq
      exact he (List.mem_map.mpr ⟨e', he', heq⟩)
    · exact ih hnew hmem

theorem mem_putAll_nil {new : List (κ × ν)} (hnodup : (new.map Prod.fst).Nodup) {e : κ × ν} :
    e ∈ putAll [] new ↔ e ∈ new := by
  constructor
  · intro h
    rcases mem_putAll h with h | h
    · cases h
    · exact h
  · intro h
    exact mem_of_lookup (lookup_putAll_of_mem hnodup h)

/-- The entries set last win. -/
theorem lookup_putAll {old new : List (κ × ν)} (hnew : Ascending new) (k : κ) :
    (putAll old new).lookup k = (new.lookup k).or (old.lookup k) := by
  induction new generalizing old with
  | nil => rfl
  | cons e new ih =>
    have hstep : putAll old (e :: new) = putAll (put e.1 e.2 old) new := rfl
    rw [hstep, ih hnew.of_cons, lookup_put, lookup_cons]
    by_cases hk : k = e.1
    · have hnone : new.lookup k = none := by
        apply lookup_eq_none.mpr
        intro e' he'
        exact hk ▸ (hnew.lt_head e' he').ne'
      rw [hnone, if_pos hk, if_pos hk]
      rfl
    · rw [if_neg hk, if_neg hk]

theorem lookup_putAll_nil {new : List (κ × ν)} (hnodup : (new.map Prod.fst).Nodup) (k : κ) :
    (putAll [] new).lookup k = new.lookup k := by
  cases h : new.lookup k with
  | none => rw [lookup_putAll_of_forall_ne (lookup_eq_none.mp h)]; rfl
  | some v => exact lookup_putAll_of_mem hnodup (mem_of_lookup h)

theorem putAll_nil {new : List (κ × ν)} (hnew : Ascending new) : putAll [] new = new := by
  apply Ascending.ext (Ascending.putAll List.Pairwise.nil) hnew
  intro k
  rw [lookup_putAll hnew]
  cases new.lookup k <;> rfl

/-- A key beyond the others comes last. -/
theorem put_last {k : κ} {v : ν} {l : List (κ × ν)} (h : ∀ e ∈ l, e.1 < k) :
    put k v l = l ++ [(k, v)] := by
  induction l with
  | nil => rfl
  | cons e l ih =>
    obtain ⟨he, hl⟩ := List.forall_mem_cons.mp h
    rw [put, if_neg (not_lt.mpr he.le), if_neg he.ne', ih hl, List.cons_append]

/-- Every value replaced. -/
def mapValues (f : ν → μ) (l : List (κ × ν)) : List (κ × μ) := l.map fun e => (e.1, f e.2)

theorem lookup_mapValues (f : ν → μ) (l : List (κ × ν)) (k : κ) :
    (mapValues f l).lookup k = (l.lookup k).map f := by
  induction l with
  | nil => rfl
  | cons e l ih =>
    have hstep : mapValues f (e :: l) = (e.1, f e.2) :: mapValues f l := rfl
    rw [hstep, lookup_cons, lookup_cons, ih]
    by_cases hk : k = e.1
    · rw [if_pos hk, if_pos hk]
      rfl
    · rw [if_neg hk, if_neg hk]

theorem ascending_mapValues {f : ν → μ} {l : List (κ × ν)} :
    Ascending (mapValues f l) ↔ Ascending l := List.pairwise_map

theorem Ascending.filter {l : List (κ × ν)} (p : κ × ν → Bool) (h : Ascending l) :
    Ascending (l.filter p) := List.Pairwise.filter p h

theorem Ascending.lookup_filter {l : List (κ × ν)} (p : κ × ν → Bool) (h : Ascending l) (k : κ) :
    (l.filter p).lookup k = (l.lookup k).filter fun v => p (k, v) := by
  cases hl : l.lookup k with
  | none =>
    apply lookup_eq_none.mpr
    intro e he
    exact lookup_eq_none.mp hl e (List.mem_of_mem_filter he)
  | some v =>
    by_cases hp : p (k, v) = true
    · rw [Option.filter_some, if_pos hp]
      exact (h.filter p).lookup_of_mem (List.mem_filter.mpr ⟨mem_of_lookup hl, hp⟩)
    · rw [Option.filter_some, if_neg hp]
      apply lookup_eq_none.mpr
      rintro ⟨k', v'⟩ he rfl
      obtain ⟨hmem, hp'⟩ := List.mem_filter.mp he
      rw [h.lookup_of_mem hmem] at hl
      exact hp (Option.some.inj hl ▸ hp')

end LeanCtx.KeyedList
