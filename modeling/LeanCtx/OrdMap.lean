import Mathlib

/-!
# Ordered maps: pointwise updates and sums over the entries

`Std.ExtTreeMap` is the ordered map of the source: iteration is in key order
and two maps with the same entries are equal. The accounting of the program
sums a quantity over all entries; `mapSum` is that sum, and `mapSum_eq_sum`
turns it into a sum over any finite set that covers the keys, where an update
of one entry changes one summand.
-/

set_option linter.unusedSectionVars false

namespace LeanCtx

open Std

variable {κ ν : Type} [Ord κ] [TransOrd κ] [LawfulEqOrd κ] [DecidableEq κ]

abbrev OrdMap (κ ν : Type) [Ord κ] := ExtTreeMap κ ν compare

abbrev OrdSet (κ : Type) [Ord κ] := ExtTreeSet κ compare

namespace OrdMap

theorem get_insert (t : OrdMap κ ν) (k a : κ) (v : ν) :
    (t.insert k v)[a]? = if k = a then some v else t[a]? := by
  rw [ExtTreeMap.getElem?_insert]
  simp only [Std.compare_eq_iff_eq]

theorem get_erase (t : OrdMap κ ν) (k a : κ) :
    (t.erase k)[a]? = if k = a then none else t[a]? := by
  rw [ExtTreeMap.getElem?_erase]
  simp only [Std.compare_eq_iff_eq]

theorem mem_iff (t : OrdMap κ ν) (k : κ) : k ∈ t ↔ ∃ v, t[k]? = some v := by
  rw [ExtTreeMap.mem_iff_isSome_getElem?, Option.isSome_iff_exists]

theorem not_mem_iff (t : OrdMap κ ν) (k : κ) : k ∉ t ↔ t[k]? = none := by
  rw [ExtTreeMap.mem_iff_isSome_getElem?, Bool.not_eq_true, Option.isSome_eq_false_iff,
    Option.isNone_iff_eq_none]

theorem size_insert_of_mem {t : OrdMap κ ν} {k : κ} {v : ν} (h : k ∈ t) :
    (t.insert k v).size = t.size := by
  rw [ExtTreeMap.size_insert, if_pos (ExtTreeMap.mem_iff_contains.mp h)]

theorem size_insert_of_not_mem {t : OrdMap κ ν} {k : κ} {v : ν} (h : k ∉ t) :
    (t.insert k v).size = t.size + 1 := by
  rw [ExtTreeMap.size_insert, if_neg (fun hc => h (ExtTreeMap.mem_iff_contains.mpr hc))]

theorem toList_nodup (t : OrdMap κ ν) : t.toList.Nodup := by
  have hk : (t.toList.map Prod.fst).Nodup := by
    rw [ExtTreeMap.map_fst_toList_eq_keys]
    exact ExtTreeMap.nodup_keys
  exact hk.of_map _

theorem any_toList_iff {t : OrdMap κ ν} {p : κ × ν → Bool} :
    t.toList.any p = true ↔ ∃ k v, t[k]? = some v ∧ p (k, v) = true := by
  simp only [List.any_eq_true, Prod.exists, ExtTreeMap.mem_toList_iff_getElem?_eq_some]

/-- Sum of `f` over the entries, in iteration order. -/
def mapSum (f : κ → ν → ℕ) (t : OrdMap κ ν) : ℕ :=
  (t.toList.map fun p => f p.1 p.2).sum

theorem mapSum_eq_sum (f : κ → ν → ℕ) (t : OrdMap κ ν) (S : Finset κ) (hS : ∀ k ∈ t, k ∈ S) :
    mapSum f t = ∑ k ∈ S, (t[k]?).elim 0 (f k) := by
  have hlist : mapSum f t = ∑ k ∈ t.keys.toFinset, (t[k]?).elim 0 (f k) := by
    rw [List.sum_toFinset _ ExtTreeMap.nodup_keys, mapSum,
      ← ExtTreeMap.map_fst_toList_eq_keys, List.map_map]
    congr 1
    apply List.map_congr_left
    rintro ⟨k, v⟩ hkv
    rw [ExtTreeMap.mem_toList_iff_getElem?_eq_some] at hkv
    simp [hkv]
  rw [hlist]
  apply Finset.sum_subset
  · intro k hk
    exact hS k (ExtTreeMap.mem_keys.mp (List.mem_toFinset.mp hk))
  · intro k _ hk
    rw [List.mem_toFinset, ExtTreeMap.mem_keys, not_mem_iff] at hk
    simp [hk]

/-- Two maps, two quantities: the sums agree when every key contributes the same. -/
theorem mapSum_congr {ν' : Type} {f : κ → ν → ℕ} {g : κ → ν' → ℕ} {t : OrdMap κ ν}
    {t' : OrdMap κ ν'} (h : ∀ k, (t[k]?).elim 0 (f k) = (t'[k]?).elim 0 (g k)) :
    mapSum f t = mapSum g t' := by
  let S := t.keys.toFinset ∪ t'.keys.toFinset
  have hS : ∀ k ∈ t, k ∈ S := fun k hk => Finset.mem_union_left _
    (List.mem_toFinset.mpr (ExtTreeMap.mem_keys.mpr hk))
  have hS' : ∀ k ∈ t', k ∈ S := fun k hk => Finset.mem_union_right _
    (List.mem_toFinset.mpr (ExtTreeMap.mem_keys.mpr hk))
  rw [mapSum_eq_sum f t S hS, mapSum_eq_sum g t' S hS']
  exact Finset.sum_congr rfl fun k _ => h k

theorem mapSum_le {ν' : Type} {f : κ → ν → ℕ} {g : κ → ν' → ℕ} {t : OrdMap κ ν}
    {t' : OrdMap κ ν'} (h : ∀ k, (t[k]?).elim 0 (f k) ≤ (t'[k]?).elim 0 (g k)) :
    mapSum f t ≤ mapSum g t' := by
  let S := t.keys.toFinset ∪ t'.keys.toFinset
  have hS : ∀ k ∈ t, k ∈ S := fun k hk => Finset.mem_union_left _
    (List.mem_toFinset.mpr (ExtTreeMap.mem_keys.mpr hk))
  have hS' : ∀ k ∈ t', k ∈ S := fun k hk => Finset.mem_union_right _
    (List.mem_toFinset.mpr (ExtTreeMap.mem_keys.mpr hk))
  rw [mapSum_eq_sum f t S hS, mapSum_eq_sum g t' S hS']
  exact Finset.sum_le_sum fun k _ => h k

/-- Writing one entry exchanges the contribution of the old entry for the new one. -/
theorem mapSum_insert (f : κ → ν → ℕ) (t : OrdMap κ ν) (k : κ) (v : ν) :
    mapSum f (t.insert k v) + (t[k]?).elim 0 (f k) = mapSum f t + f k v := by
  let S := insert k t.keys.toFinset
  have hS : ∀ a ∈ t, a ∈ S := fun a ha => Finset.mem_insert_of_mem
    (List.mem_toFinset.mpr (ExtTreeMap.mem_keys.mpr ha))
  have hS' : ∀ a ∈ t.insert k v, a ∈ S := by
    intro a ha
    rw [ExtTreeMap.mem_insert, Std.compare_eq_iff_eq] at ha
    rcases ha with rfl | ha
    · exact Finset.mem_insert_self _ _
    · exact hS a ha
  have hk : k ∈ S := Finset.mem_insert_self _ _
  rw [mapSum_eq_sum f t S hS, mapSum_eq_sum f _ S hS', ← Finset.add_sum_erase S _ hk,
    ← Finset.add_sum_erase S (fun a => (t[a]?).elim 0 (f a)) hk]
  have hrest : ∑ a ∈ S.erase k, ((t.insert k v)[a]?).elim 0 (f a) =
      ∑ a ∈ S.erase k, (t[a]?).elim 0 (f a) := by
    apply Finset.sum_congr rfl
    intro a ha
    rw [get_insert, if_neg (Finset.ne_of_mem_erase ha).symm]
  rw [hrest, get_insert, if_pos rfl]
  simp only [Option.elim_some]
  omega

theorem mapSum_erase (f : κ → ν → ℕ) (t : OrdMap κ ν) (k : κ) :
    mapSum f (t.erase k) + (t[k]?).elim 0 (f k) = mapSum f t := by
  let S := insert k t.keys.toFinset
  have hS : ∀ a ∈ t, a ∈ S := fun a ha => Finset.mem_insert_of_mem
    (List.mem_toFinset.mpr (ExtTreeMap.mem_keys.mpr ha))
  have hS' : ∀ a ∈ t.erase k, a ∈ S := fun a ha => hS a (ExtTreeMap.mem_of_mem_erase ha)
  have hk : k ∈ S := Finset.mem_insert_self _ _
  rw [mapSum_eq_sum f t S hS, mapSum_eq_sum f _ S hS', ← Finset.add_sum_erase S _ hk,
    ← Finset.add_sum_erase S (fun a => (t[a]?).elim 0 (f a)) hk]
  have hrest : ∑ a ∈ S.erase k, ((t.erase k)[a]?).elim 0 (f a) =
      ∑ a ∈ S.erase k, (t[a]?).elim 0 (f a) := by
    apply Finset.sum_congr rfl
    intro a ha
    rw [get_erase, if_neg (Finset.ne_of_mem_erase ha).symm]
  rw [hrest, get_erase, if_pos rfl]
  simp only [Option.elim_none]
  omega

theorem le_mapSum {f : κ → ν → ℕ} {t : OrdMap κ ν} {k : κ} {v : ν} (h : t[k]? = some v) :
    f k v ≤ mapSum f t := by
  have := mapSum_erase f t k
  rw [h, Option.elim_some] at this
  omega

theorem mapSum_add (f g : κ → ν → ℕ) (t : OrdMap κ ν) :
    mapSum (fun k v => f k v + g k v) t = mapSum f t + mapSum g t := by
  simp only [mapSum, List.sum_map_add]

@[simp] theorem mapSum_empty (f : κ → ν → ℕ) : mapSum f (∅ : OrdMap κ ν) = 0 := by
  simp [mapSum, ExtTreeMap.toList_eq_nil_iff.mpr rfl]

end OrdMap

/-- A loop of checks succeeds when every check does. -/
theorem forM_except_eq_ok {ε α : Type} {f : α → Except ε Unit} {l : List α} :
    l.forM f = .ok () ↔ ∀ a ∈ l, f a = .ok () := by
  induction l with
  | nil => simp [pure, Except.pure]
  | cons a l ih =>
    cases ha : f a with
    | ok u => simpa [ha, bind, Except.bind] using ih
    | error e => simp [ha, bind, Except.bind]

end LeanCtx
