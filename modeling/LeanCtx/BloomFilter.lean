import Mathlib.Data.List.Basic
import Mathlib.Data.Nat.Basic

/-!
# Bloom filters

A filter is a list of 64-bit words. Adding a key sets the bits at its probe
positions; a key may be in the filter when all its probes are set. Bits are only
ever set, so every key that was added may be in the filter.
-/

namespace LeanCtx.BloomFilter

/-- `1 << (p % 64)`, the bit of a position in its word. -/
def mask (p : ℕ) : UInt64 := 1 <<< UInt64.ofNat (p % 64)

def setBit (bits : List UInt64) (p : ℕ) : List UInt64 := bits.modify (p / 64) (· ||| mask p)

def testBit (bits : List UInt64) (p : ℕ) : Bool := (bits[p / 64]?).any fun word => word &&& mask p != 0

theorem mask_ne_zero (p : ℕ) : mask p ≠ 0 := by
  intro h
  have hlt : p % 64 < 64 := Nat.mod_lt p (by omega)
  have hbit := congrArg UInt64.toNat h
  have hpow : 2 ^ (p % 64) < 2 ^ 64 := Nat.pow_lt_pow_right (by omega) hlt
  rw [mask, UInt64.toNat_shiftLeft, UInt64.toNat_ofNat', Nat.mod_eq_of_lt (by omega : p % 64 < 2 ^ 64),
    Nat.mod_mod, UInt64.toNat_one, Nat.one_shiftLeft, Nat.mod_eq_of_lt hpow, UInt64.toNat_zero] at hbit
  have := Nat.two_pow_pos (p % 64)
  omega

@[simp] theorem length_setBit (bits : List UInt64) (p : ℕ) :
    (setBit bits p).length = bits.length := List.length_modify _ _ _

theorem testBit_setBit_self {bits : List UInt64} {p : ℕ} (h : p < bits.length * 64) :
    testBit (setBit bits p) p = true := by
  have hlt : p / 64 < bits.length := (Nat.div_lt_iff_lt_mul (by omega)).mpr h
  have hself : (bits[p / 64] ||| mask p) &&& mask p = mask p := by
    apply UInt64.toBitVec_inj.mp
    ext i
    simp only [UInt64.toBitVec_and, UInt64.toBitVec_or, BitVec.getElem_and, BitVec.getElem_or,
      Bool.and_eq_right_iff_imp, Bool.or_eq_true]
    exact Or.inr
  simp [testBit, setBit, hlt, hself, mask_ne_zero]

theorem testBit_setBit_mono {bits : List UInt64} {p q : ℕ} (h : testBit bits q = true) :
    testBit (setBit bits p) q = true := by
  unfold testBit at h ⊢
  obtain ⟨word, hword, hset⟩ := (Option.any_eq_true _ _).mp h
  rw [setBit, List.getElem?_modify, hword]
  by_cases hp : p / 64 = q / 64
  · have hkeep : (word ||| mask p) &&& mask q ≠ 0 := by
      intro hzero
      rw [bne_iff_ne] at hset
      apply hset
      apply UInt64.toBitVec_inj.mp
      ext i hi
      have hbit := congrArg (fun w => w.toBitVec[i]) hzero
      simp at hbit ⊢
      tauto
    simpa [hp] using hkeep
  · simpa [hp] using hset

def setBits (bits : List UInt64) (ps : List ℕ) : List UInt64 := ps.foldl setBit bits

@[simp] theorem length_setBits (bits : List UInt64) (ps : List ℕ) :
    (setBits bits ps).length = bits.length := by
  induction ps generalizing bits with
  | nil => rfl
  | cons p ps ih => exact (ih _).trans (length_setBit bits p)

theorem testBit_setBits_mono {bits : List UInt64} {q : ℕ} (h : testBit bits q = true)
    (ps : List ℕ) : testBit (setBits bits ps) q = true := by
  induction ps generalizing bits with
  | nil => exact h
  | cons p ps ih => exact ih (testBit_setBit_mono h)

theorem testBit_setBits {bits : List UInt64} {ps : List ℕ} (hps : ∀ p ∈ ps, p < bits.length * 64)
    {p : ℕ} (hp : p ∈ ps) : testBit (setBits bits ps) p = true := by
  induction ps generalizing bits with
  | nil => cases hp
  | cons q ps ih =>
    rcases List.mem_cons.mp hp with rfl | hp
    · exact testBit_setBits_mono (testBit_setBit_self (hps p (by simp))) ps
    · refine ih (fun r hr => ?_) hp
      rw [length_setBit]
      exact hps r (List.mem_cons_of_mem _ hr)

section Keys

variable {κ : Type} (probes : ℕ → κ → List ℕ)

/-- The probes of a key depend on the width of the filter alone. -/
def insert (bits : List UInt64) (key : κ) : List UInt64 := setBits bits (probes bits.length key)

def maybeContains (bits : List UInt64) (key : κ) : Bool :=
  (probes bits.length key).all (testBit bits)

def insertAll (bits : List UInt64) (keys : List κ) : List UInt64 := keys.foldl (insert probes) bits

variable {probes}

@[simp] theorem length_insert (bits : List UInt64) (key : κ) :
    (insert probes bits key).length = bits.length := length_setBits _ _

theorem maybeContains_insert_mono {bits : List UInt64} {key : κ}
    (h : maybeContains probes bits key = true) (other : κ) :
    maybeContains probes (insert probes bits other) key = true := by
  rw [maybeContains, length_insert, List.all_eq_true]
  exact fun p hp => testBit_setBits_mono (List.all_eq_true.mp h p hp) _

/-- No key that was inserted is missed. -/
theorem maybeContains_insertAll {bits : List UInt64}
    (hprobes : ∀ key, ∀ p ∈ probes bits.length key, p < bits.length * 64) {keys : List κ} {key : κ}
    (hkey : key ∈ keys) : maybeContains probes (insertAll probes bits keys) key = true := by
  have hmono : ∀ (keys : List κ) (bits : List UInt64), maybeContains probes bits key = true →
      maybeContains probes (insertAll probes bits keys) key = true := by
    intro keys
    induction keys with
    | nil => exact fun _ h => h
    | cons k keys ih => exact fun bits h => ih _ (maybeContains_insert_mono h k)
  induction keys generalizing bits with
  | nil => cases hkey
  | cons k keys ih =>
    rcases List.mem_cons.mp hkey with rfl | hkey
    · refine hmono keys _ ?_
      rw [maybeContains, length_insert, List.all_eq_true]
      exact fun p hp => testBit_setBits (hprobes key) hp
    · refine ih (fun key p hp => ?_) hkey
      rw [length_insert] at hp ⊢
      exact hprobes key p hp

end Keys

end LeanCtx.BloomFilter
