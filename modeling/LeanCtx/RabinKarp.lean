import Mathlib.Data.ZMod.Basic
import Mathlib.Tactic.Ring
import Mathlib.Tactic.NormNum

/-!
# Chunks cut by a rolling hash

A text is cut where the rolling hash of its bytes has nine low bits of zero. The
hash takes in a byte and takes out an old one, but the power it takes the old
one out with is that of a window shorter by one, so it is the hash of the window
and a trace of everything before.
-/

namespace LeanCtx.RabinKarp

abbrev Bytes := List UInt8

def prime : ℕ := 1000000007

def base : ℕ := 256

def minChunk : ℕ := 64

def maxChunk : ℕ := 2048

def targetChunk : ℕ := 512

def mask : ℕ := targetChunk - 1

structure Chunk where
  offset : ℕ
  length : ℕ
  hash : ℕ
  deriving DecidableEq

def wrappingMul (a b : ℕ) : ℕ := a * b % 2 ^ 64

def wrappingAdd (a b : ℕ) : ℕ := (a + b) % 2 ^ 64

/-! ## The hash -/

def push (h : ℕ) (b : UInt8) : ℕ := wrappingAdd (wrappingMul h base) b.toNat % prime

def fullHash (data : Bytes) : ℕ := data.foldl push 0

/-- The loop over the window that computes the power. -/
def powUpTo : ℕ → ℕ
  | 0 => 1
  | n + 1 => wrappingMul (powUpTo n) base % prime

/-- The oldest byte is taken out. -/
def pop (rolling pow : ℕ) (old : UInt8) : ℕ :=
  (rolling + prime - wrappingMul old.toNat pow % prime) % prime

def roll (bytes : Bytes) (window pow i rolling : ℕ) (b : UInt8) : ℕ :=
  if window ≤ i then pop (push rolling b) pow (bytes.getD (i - window) 0) else push rolling b

/-! ## The chunks -/

/-- The bytes from one place up to another. -/
def slice (bytes : Bytes) (start stop : ℕ) : Bytes := (bytes.take stop).drop start

def chunkFrom (bytes : Bytes) (window pow : ℕ) (i chunkStart rolling : ℕ) : Bytes → List Chunk
  | [] => []
  | b :: rest =>
    let rolling := roll bytes window pow i rolling b
    let chunkLen := i + 1 - chunkStart
    -- the last byte ends a chunk as well
    if minChunk ≤ chunkLen ∧ rolling &&& mask = 0 ∨ maxChunk ≤ chunkLen ∨ rest = [] then
      { offset := chunkStart
        length := chunkLen
        hash := fullHash (slice bytes chunkStart (i + 1)) } ::
        chunkFrom bytes window pow (i + 1) (i + 1) rolling rest
    else chunkFrom bytes window pow (i + 1) chunkStart rolling rest

def chunk (content : Bytes) : List Chunk :=
  if content = [] then []
  else if content.length ≤ minChunk then
    [{ offset := 0, length := content.length, hash := fullHash content }]
  else
    let window := min 48 content.length
    chunkFrom content window (powUpTo (window - 1)) 0 0 0 content

/-! ## The hash as a polynomial -/

/-- The polynomial with the bytes as its coefficients. -/
def polynomial (data : Bytes) : ℕ := data.foldl (fun h b => h * base + b.toNat) 0

def polyHash (data : Bytes) : ℕ := polynomial data % prime

theorem polynomial_concat (data : Bytes) (b : UInt8) :
    polynomial (data ++ [b]) = polynomial data * base + b.toNat := by
  rw [polynomial, List.foldl_append]
  rfl

theorem polynomial_append (front back : Bytes) :
    polynomial (front ++ back) = polynomial front * base ^ back.length + polynomial back := by
  induction back using List.reverseRecOn with
  | nil => simp [polynomial]
  | append_singleton back b ih =>
    rw [← List.append_assoc, polynomial_concat, ih, polynomial_concat, List.length_append,
      List.length_singleton, pow_succ]
    ring

section Bounds

variable {h : ℕ} (hh : h < prime)
include hh

/-- A step of the hash stays within 64 bits. -/
theorem push_bound (b : UInt8) : h * base + b.toNat < 2 ^ 64 := by
  have hb := b.toNat_lt
  rw [prime] at hh
  rw [base]
  omega

theorem push_eq (b : UInt8) : push h b = (h * base + b.toNat) % prime := by
  have hbound := push_bound hh b
  have hmul : wrappingMul h base = h * base := Nat.mod_eq_of_lt (by omega)
  rw [push, hmul, wrappingAdd, Nat.mod_eq_of_lt hbound]

omit hh in
theorem push_lt (b : UInt8) : push h b < prime := Nat.mod_lt _ (by decide)

/-- Taking the oldest byte out stays within 64 bits and does not go below zero. -/
theorem pop_bound (rolling : ℕ) (hrolling : rolling < prime) (old : UInt8) :
    old.toNat * h < 2 ^ 64 ∧ rolling + prime < 2 ^ 64 ∧
      old.toNat * h % prime ≤ rolling + prime := by
  have hold := old.toNat_lt
  have hmul : old.toNat * h ≤ 255 * h := Nat.mul_le_mul_right h (by omega)
  have hmod : old.toNat * h % prime < prime := Nat.mod_lt _ (by decide)
  rw [prime] at hh hrolling ⊢
  refine ⟨by omega, by omega, ?_⟩
  rw [prime] at hmod
  omega

end Bounds

theorem fullHash_concat (data : Bytes) (b : UInt8) :
    fullHash (data ++ [b]) = push (fullHash data) b := by
  rw [fullHash, List.foldl_append]
  rfl

theorem fullHash_lt (data : Bytes) : fullHash data < prime := by
  induction data using List.reverseRecOn with
  | nil => decide
  | append_singleton data b ih =>
    rw [fullHash_concat]
    exact push_lt b

theorem fullHash_eq (data : Bytes) : fullHash data = polyHash data := by
  induction data using List.reverseRecOn with
  | nil => rfl
  | append_singleton data b ih =>
    rw [fullHash_concat, push_eq (fullHash_lt data), ih, polyHash, polyHash, polynomial_concat]
    simp [Nat.add_mod, Nat.mul_mod]

theorem powUpTo_lt (n : ℕ) : powUpTo n < prime := by
  cases n with
  | zero => decide
  | succ n => exact Nat.mod_lt _ (by decide)

theorem powUpTo_bound (n : ℕ) : powUpTo n * base < 2 ^ 64 := by
  have hlt := powUpTo_lt n
  rw [prime] at hlt
  rw [base]
  omega

theorem powUpTo_eq (n : ℕ) : powUpTo n = base ^ n % prime := by
  induction n with
  | zero => rfl
  | succ n ih =>
    have hmul : wrappingMul (powUpTo n) base = powUpTo n * base :=
      Nat.mod_eq_of_lt (powUpTo_bound n)
    rw [powUpTo, hmul, ih, pow_succ, Nat.mod_mul_mod]

/-! ## The value that is tested -/

section Rolling

variable (bytes : Bytes)

def pow : ℕ := powUpTo 47

/-- The rolling hash after the first bytes of a text longer than the window. -/
def rollingAt : ℕ → ℕ
  | 0 => 0
  | i + 1 => roll bytes 48 pow i (rollingAt i) (bytes.getD i 0)

/-- The hash of the 48 bytes before a place. -/
def windowHash (n : ℕ) : ℕ := polyHash (slice bytes (n - 48) n)

theorem pow_lt : pow < prime := powUpTo_lt 47

theorem rollingAt_lt (n : ℕ) : rollingAt bytes n < prime := by
  cases n with
  | zero =>
    change 0 < prime
    decide
  | succ i =>
    rw [rollingAt, roll]
    split_ifs with h
    · exact Nat.mod_lt _ (by decide)
    · exact push_lt _

/-- No step of the hashes leaves 64 bits. -/
structure NoOverflow : Prop where
  power : ∀ k, powUpTo k * base < 2 ^ 64
  full : ∀ (data : Bytes) (b : UInt8), fullHash data * base + b.toNat < 2 ^ 64
  added : ∀ i (b : UInt8), rollingAt bytes i * base + b.toNat < 2 ^ 64
  removed : ∀ i (b old : UInt8), old.toNat * pow < 2 ^ 64 ∧
    push (rollingAt bytes i) b + prime < 2 ^ 64 ∧
    old.toNat * pow % prime ≤ push (rollingAt bytes i) b + prime

theorem noOverflow : NoOverflow bytes where
  power := powUpTo_bound
  full data b := push_bound (fullHash_lt data) b
  added i b := push_bound (rollingAt_lt bytes i) b
  removed _ b old := pop_bound pow_lt _ (push_lt b) old

variable {bytes}

theorem polynomial_take_succ {i : ℕ} (hi : i < bytes.length) :
    polynomial (bytes.take (i + 1)) =
      polynomial (bytes.take i) * base + (bytes.getD i 0).toNat := by
  rw [List.take_succ_eq_append_getElem hi, polynomial_concat, List.getD_eq_getElem?_getD,
    List.getElem?_eq_getElem hi, Option.getD_some]

/-- Removing the old byte, in the ring of the hash. -/
theorem cast_pop {rolling : ℕ} (hrolling : rolling < prime) (old : UInt8) :
    (pop rolling pow old : ZMod prime) = rolling - base ^ 47 * old.toNat := by
  obtain ⟨hmul, -, hle⟩ := pop_bound pow_lt rolling hrolling old
  have hwrap : wrappingMul old.toNat pow = old.toNat * pow := Nat.mod_eq_of_lt hmul
  rw [pop, hwrap, ZMod.natCast_mod, Nat.cast_sub hle, Nat.cast_add, ZMod.natCast_mod,
    Nat.cast_mul, pow, powUpTo_eq, ZMod.natCast_mod, ZMod.natCast_self]
  push_cast
  ring

/-- The rolling hash is that of all bytes so far without those before the window, these with the
power of a window of 47 bytes. -/
theorem cast_rollingAt {n : ℕ} (hn : n ≤ bytes.length) : (rollingAt bytes n : ZMod prime) =
    polynomial (bytes.take n) - base ^ 47 * polynomial (bytes.take (n - 48)) := by
  induction n with
  | zero => simp [rollingAt, polynomial]
  | succ i ih =>
    have hpush : (push (rollingAt bytes i) (bytes.getD i 0) : ZMod prime) =
        rollingAt bytes i * base + (bytes.getD i 0).toNat := by
      rw [push_eq (rollingAt_lt bytes i), ZMod.natCast_mod]
      push_cast
      rfl
    rw [rollingAt, roll, polynomial_take_succ hn]
    split_ifs with h
    · have hfront : i + 1 - 48 = i - 48 + 1 := by omega
      rw [cast_pop (push_lt _), hpush, ih (by omega), hfront,
        polynomial_take_succ (by omega : i - 48 < bytes.length)]
      push_cast
      ring
    · have hfront : i + 1 - 48 = 0 := by omega
      have hfront' : i - 48 = 0 := by omega
      rw [hpush, ih (by omega), hfront, hfront']
      simp [polynomial]

theorem cast_windowHash {n : ℕ} (hn : n ≤ bytes.length) (hwindow : 48 ≤ n) :
    (windowHash bytes n : ZMod prime) =
      polynomial (bytes.take n) - base ^ 48 * polynomial (bytes.take (n - 48)) := by
  have hsplit : bytes.take n = bytes.take (n - 48) ++ slice bytes (n - 48) n := by
    have hfront : (bytes.take n).take (n - 48) = bytes.take (n - 48) := by
      rw [List.take_take, min_eq_left (Nat.sub_le n 48)]
    rw [slice, ← hfront, List.take_append_drop]
  have hlen : (slice bytes (n - 48) n).length = 48 := by
    rw [slice, List.length_drop, List.length_take]
    omega
  have hwhole := congrArg (Nat.cast (R := ZMod prime)) (congrArg polynomial hsplit)
  rw [polynomial_append, hlen] at hwhole
  rw [windowHash, polyHash, ZMod.natCast_mod, hwhole]
  push_cast
  ring

/-- Where the tested value is the hash of the window: where the bytes before it hash to zero. -/
theorem rollingAt_eq_iff {n : ℕ} (hn : n ≤ bytes.length) (hwindow : 48 ≤ n) :
    rollingAt bytes n = windowHash bytes n ↔ fullHash (bytes.take (n - 48)) = 0 := by
  have hcast : ∀ a b : ℕ, a < prime → b < prime → ((a : ZMod prime) = b ↔ a = b) := by
    intro a b ha hb
    rw [ZMod.natCast_eq_natCast_iff', Nat.mod_eq_of_lt ha, Nat.mod_eq_of_lt hb]
  have hunit : IsUnit ((255 * base ^ 47 : ℕ) : ZMod prime) := by
    rw [ZMod.isUnit_iff_coprime]
    exact Nat.Coprime.mul_left (by decide) (Nat.Coprime.pow_left 47 (by decide))
  have hwindowHash : windowHash bytes n < prime := Nat.mod_lt _ (by decide)
  have hfront := fullHash_lt (bytes.take (n - 48))
  have hzero : ((fullHash (bytes.take (n - 48)) : ℕ) : ZMod prime) =
      polynomial (bytes.take (n - 48)) := by
    rw [fullHash_eq, polyHash, ZMod.natCast_mod]
  have hdiff : (rollingAt bytes n : ZMod prime) - windowHash bytes n =
      ((255 * base ^ 47 : ℕ) : ZMod prime) * fullHash (bytes.take (n - 48)) := by
    rw [cast_rollingAt hn, cast_windowHash hn hwindow, hzero]
    push_cast
    have hbase : ((base : ℕ) : ZMod prime) = 256 := rfl
    rw [hbase]
    ring
  rw [← hcast _ _ (rollingAt_lt bytes n) hwindowHash, ← sub_eq_zero, hdiff,
    hunit.mul_right_eq_zero, ← Nat.cast_zero, hcast _ _ hfront (by decide)]

end Rolling

end LeanCtx.RabinKarp
