import Mathlib.Algebra.Order.Ring.Nat
import Mathlib.Data.Nat.Init
import Mathlib.Order.MinMax

/-!
# Checked and saturating 64-bit arithmetic

The counters of the program are `u64`. `checkedAdd` fails on overflow,
`saturatingAdd` and `saturatingSub` stop at the ends of the range. Every fact
is stated on `UInt64.toNat`, where the accounting proofs take place.
-/

namespace LeanCtx

/-- `u64::MAX` as a natural number. -/
def u64Max : ℕ := 2 ^ 64 - 1

/-- `u64::checked_add`. -/
def checkedAdd (a b : UInt64) : Option UInt64 :=
  if a.toNat + b.toNat ≤ u64Max then some (a + b) else none

/-- `u64::saturating_add`. -/
def saturatingAdd (a b : UInt64) : UInt64 :=
  if a.toNat + b.toNat ≤ u64Max then a + b else UInt64.ofNat u64Max

/-- `u64::saturating_sub`. -/
def saturatingSub (a b : UInt64) : UInt64 :=
  if b ≤ a then a - b else 0

theorem toNat_le_u64Max (a : UInt64) : a.toNat ≤ u64Max := by
  have := a.toNat_lt
  unfold u64Max
  omega

theorem toNat_add_of_le {a b : UInt64} (h : a.toNat + b.toNat ≤ u64Max) :
    (a + b).toNat = a.toNat + b.toNat := by
  rw [UInt64.toNat_add, Nat.mod_eq_of_lt]
  unfold u64Max at h
  omega

theorem toNat_ofNat_u64Max : (UInt64.ofNat u64Max).toNat = u64Max := by decide

theorem checkedAdd_eq_some {a b c : UInt64} :
    checkedAdd a b = some c ↔ c.toNat = a.toNat + b.toNat := by
  unfold checkedAdd
  split_ifs with h
  · rw [Option.some.injEq, ← UInt64.toNat_inj, toNat_add_of_le h]
    exact eq_comm
  · have := toNat_le_u64Max c
    simp only [false_iff]
    omega

theorem checkedAdd_eq_none {a b : UInt64} :
    checkedAdd a b = none ↔ u64Max < a.toNat + b.toNat := by
  unfold checkedAdd
  split_ifs with h
  · simpa using h
  · simpa using h

theorem checkedAdd_zero_right (a : UInt64) : checkedAdd a 0 = some a := by
  simp [checkedAdd_eq_some]

@[simp] theorem toNat_saturatingAdd (a b : UInt64) :
    (saturatingAdd a b).toNat = min (a.toNat + b.toNat) u64Max := by
  unfold saturatingAdd
  split_ifs with h
  · rw [toNat_add_of_le h, min_eq_left h]
  · rw [toNat_ofNat_u64Max, min_eq_right (by omega)]

@[simp] theorem toNat_saturatingSub (a b : UInt64) :
    (saturatingSub a b).toNat = a.toNat - b.toNat := by
  unfold saturatingSub
  split_ifs with h
  · exact UInt64.toNat_sub_of_le _ _ h
  · rw [UInt64.le_iff_toNat_le] at h
    rw [UInt64.toNat_zero]
    omega

theorem toNat_sub_of_not_lt {a b : UInt64} (h : ¬ a < b) : (a - b).toNat = a.toNat - b.toNat :=
  UInt64.toNat_sub_of_le _ _ (UInt64.not_lt.mp h)

theorem toNat_min_le_right (a b : UInt64) : (min a b).toNat ≤ b.toNat := by
  change (if a ≤ b then a else b).toNat ≤ b.toNat
  split_ifs with h
  · exact UInt64.le_iff_toNat_le.mp h
  · exact le_rfl

/-- Sum of a list of counters, as the loops with `checked_add` form it. -/
def checkedSum : List UInt64 → UInt64 → Option UInt64
  | [], acc => some acc
  | x :: xs, acc => (checkedAdd acc x).bind (checkedSum xs)

theorem checkedSum_eq_some {xs : List UInt64} {acc c : UInt64} :
    checkedSum xs acc = some c ↔ c.toNat = acc.toNat + (xs.map UInt64.toNat).sum := by
  induction xs generalizing acc with
  | nil =>
    simp only [checkedSum, Option.some.injEq, List.map_nil, List.sum_nil, Nat.add_zero,
      ← UInt64.toNat_inj]
    exact eq_comm
  | cons x xs ih =>
    simp only [checkedSum, Option.bind_eq_some_iff, checkedAdd_eq_some, ih, List.map_cons,
      List.sum_cons]
    constructor
    · rintro ⟨b, hb, hc⟩
      omega
    · intro hc
      have hle := toNat_le_u64Max c
      have hx : acc.toNat + x.toNat ≤ u64Max := by omega
      refine ⟨acc + x, toNat_add_of_le hx, ?_⟩
      rw [toNat_add_of_le hx]
      omega

end LeanCtx
