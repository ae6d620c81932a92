import Mathlib.Data.List.Basic
import Mathlib.Tactic.Common

/-!
# Bytes of a text

A character is written as one byte below 128, or as a first byte from 192 on
and further bytes between. A scanner that looks for bytes below 128 passes over
every other character, and a place where a further byte does not come next is
a place between characters.
-/

namespace LeanCtx.Utf8

abbrev Text := List Char

abbrev Bytes := List UInt8

def encode (s : Text) : Bytes := s.flatMap String.utf8EncodeChar

def isContinuation (b : UInt8) : Bool := 128 ≤ b.toNat && b.toNat < 192

/-- No character goes on with the bytes. -/
def startsChar : Bytes → Bool
  | [] => true
  | b :: _ => !isContinuation b

@[simp] theorem encode_nil : encode [] = [] := rfl

@[simp] theorem encode_cons (c : Char) (s : Text) :
    encode (c :: s) = String.utf8EncodeChar c ++ encode s :=
  List.flatMap_cons

@[simp] theorem encode_append (s t : Text) : encode (s ++ t) = encode s ++ encode t :=
  List.flatMap_append

theorem utf8EncodeChar_ascii {c : Char} (h : c.toNat < 128) :
    String.utf8EncodeChar c = [UInt8.ofNat c.toNat] := by
  have hval : c.val.toNat = c.toNat := rfl
  unfold String.utf8EncodeChar
  dsimp only
  rw [if_pos (by omega), hval]

/-- The bytes of a character that is not ASCII. -/
theorem utf8EncodeChar_wide {c : Char} (h : 128 ≤ c.toNat) : ∃ lead conts,
    String.utf8EncodeChar c = lead :: conts ∧ conts ≠ [] ∧ 192 ≤ lead.toNat ∧
      ∀ b ∈ conts, isContinuation b = true := by
  have hval : c.val.toNat = c.toNat := rfl
  have hmax : c.toNat < 1114112 := by
    rcases c.valid with hlow | hhigh
    · omega
    · omega
  have hcont : ∀ n : ℕ, isContinuation (UInt8.ofNat (n % 64 + 128)) = true := by
    intro n
    rw [isContinuation, UInt8.toNat_ofNat', Bool.and_eq_true, decide_eq_true_eq, decide_eq_true_eq]
    omega
  unfold String.utf8EncodeChar
  dsimp only
  rw [if_neg (by omega)]
  split
  · refine ⟨_, _, rfl, List.cons_ne_nil _ _, ?_, ?_⟩
    · rw [UInt8.toNat_ofNat']
      omega
    · simp only [List.mem_singleton, forall_eq]
      exact hcont _
  · split
    · refine ⟨_, _, rfl, List.cons_ne_nil _ _, ?_, ?_⟩
      · rw [UInt8.toNat_ofNat']
        omega
      · simp only [List.mem_cons, List.not_mem_nil, or_false, forall_eq_or_imp, forall_eq]
        exact ⟨hcont _, hcont _⟩
    · refine ⟨_, _, rfl, List.cons_ne_nil _ _, ?_, ?_⟩
      · rw [UInt8.toNat_ofNat']
        omega
      · simp only [List.mem_cons, List.not_mem_nil, or_false, forall_eq_or_imp, forall_eq]
        exact ⟨hcont _, hcont _, hcont _⟩

/-- A byte below 128 is the whole of a character. -/
theorem eq_of_mem_utf8EncodeChar {b : UInt8} {c : Char} (hb : b ∈ String.utf8EncodeChar c)
    (hlow : b.toNat < 128) : c.toNat = b.toNat := by
  rcases Nat.lt_or_ge c.toNat 128 with hascii | hwide
  · rw [utf8EncodeChar_ascii hascii, List.mem_singleton] at hb
    rw [hb, UInt8.toNat_ofNat']
    omega
  · obtain ⟨lead, conts, hbytes, -, hlead, hconts⟩ := utf8EncodeChar_wide hwide
    rw [hbytes, List.mem_cons] at hb
    rcases hb with rfl | hb
    · omega
    · have hrange := hconts b hb
      rw [isContinuation, Bool.and_eq_true, decide_eq_true_eq, decide_eq_true_eq] at hrange
      omega

/-- Only the first byte may be looked for. -/
theorem utf8EncodeChar_eq_cons (c : Char) : ∃ b conts, String.utf8EncodeChar c = b :: conts ∧
    isContinuation b = false ∧ ∀ b' ∈ conts, isContinuation b' = true := by
  rcases Nat.lt_or_ge c.toNat 128 with hascii | hwide
  · refine ⟨_, _, utf8EncodeChar_ascii hascii, ?_, nofun⟩
    rw [isContinuation, UInt8.toNat_ofNat', decide_eq_false (by omega), Bool.false_and]
  · obtain ⟨lead, conts, hbytes, -, hlead, hconts⟩ := utf8EncodeChar_wide hwide
    refine ⟨lead, conts, hbytes, ?_, hconts⟩
    rw [isContinuation, decide_eq_false (by omega : ¬ lead.toNat < 192), Bool.and_false]

theorem utf8EncodeChar_ne_nil (c : Char) : String.utf8EncodeChar c ≠ [] := by
  obtain ⟨b, conts, hbytes, -⟩ := utf8EncodeChar_eq_cons c
  rw [hbytes]
  exact List.cons_ne_nil _ _

theorem encode_eq_nil {s : Text} : encode s = [] ↔ s = [] := by
  cases s with
  | nil => exact ⟨fun _ => rfl, fun _ => rfl⟩
  | cons c s =>
    rw [encode_cons, List.append_eq_nil_iff]
    exact ⟨fun h => absurd h.1 (utf8EncodeChar_ne_nil c), fun h => absurd h (List.cons_ne_nil _ _)⟩

/-- A text starts with a character. -/
@[simp] theorem startsChar_encode (s : Text) : startsChar (encode s) = true := by
  cases s with
  | nil => rfl
  | cons c s =>
    obtain ⟨b, conts, hbytes, hb, -⟩ := utf8EncodeChar_eq_cons c
    rw [encode_cons, hbytes, List.cons_append, startsChar, hb]
    rfl

end LeanCtx.Utf8
