import Mathlib.Data.List.Basic
import Mathlib.Tactic.Common

/-!
# Remembered results

A cache keeps results of a function under keys that say less than its arguments
do. An entry also names the argument its result came from, so that a hit can be
judged: it answers as the function would exactly when the function does not
tell the two arguments apart.
-/

namespace LeanCtx.Memo

variable {κ σ ν ρ : Type}

structure Entry (κ σ ν : Type) where
  key : κ
  source : σ
  value : ν

/-- Every result is the one of the argument it is remembered for. -/
def Sound (f : σ → ν) (entries : List (Entry κ σ ν)) : Prop :=
  ∀ e ∈ entries, e.value = f e.source

theorem Sound.nil (f : σ → ν) : Sound f ([] : List (Entry κ σ ν)) := by
  intro e he
  cases he

theorem Sound.subset {f : σ → ν} {kept entries : List (Entry κ σ ν)} (h : Sound f entries)
    (hsub : kept ⊆ entries) : Sound f kept := fun e he => h e (hsub he)

theorem Sound.concat {f : σ → ν} {entries : List (Entry κ σ ν)} (h : Sound f entries) (k : κ)
    (x : σ) : Sound f (entries ++ [⟨k, x, f x⟩]) := by
  intro e he
  rcases List.mem_append.mp he with he | he
  · exact h e he
  · rw [List.mem_singleton.mp he]

/-- The remembered result, or a fresh one. -/
def answer (f : σ → ν) (x : σ) : Option (Entry κ σ ν) → ν
  | some e => e.value
  | none => f x

theorem answer_eq_iff {f : σ → ν} {x : σ} {hit : Option (Entry κ σ ν)}
    (h : ∀ e ∈ hit, e.value = f e.source) :
    answer f x hit = f x ↔ ∀ e ∈ hit, f e.source = f x := by
  cases hit with
  | none => simp [answer]
  | some e =>
    have he := h e rfl
    simp only [answer, Option.mem_some_iff, forall_eq', he]

/-- A hit is right if both arguments look the same to the function. -/
theorem answer_eq_of_reads {f : σ → ν} {reads : σ → ρ}
    (hreads : ∀ a b, reads a = reads b → f a = f b) {x : σ} {hit : Option (Entry κ σ ν)}
    (h : ∀ e ∈ hit, e.value = f e.source) (hsame : ∀ e ∈ hit, reads e.source = reads x) :
    answer f x hit = f x :=
  (answer_eq_iff h).mpr fun e he => hreads _ _ (hsame e he)

end LeanCtx.Memo
