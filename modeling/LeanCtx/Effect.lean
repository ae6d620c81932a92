import Mathlib.Tactic.Basic

/-!
# Fallible state computations that keep their writes

`EStateM ε σ` runs a computation that may fail after it has already written to
its state, as a Rust method on `&mut self` that returns `Result` does: the
error carries the state reached so far. `wp m Q s` says that `m`, started in
`s`, ends in a result and a state that satisfy `Q`. The rules below follow the
source line by line: one rule for each early return, each read and each write.
-/

namespace LeanCtx

variable {ε σ α β : Type}

/-- `m` started in `s` ends, with a value or an error, so that `Q` holds. -/
def wp (m : EStateM ε σ α) (Q : Except ε α → σ → Prop) (s : σ) : Prop :=
  match m s with
  | .ok a s' => Q (.ok a) s'
  | .error e s' => Q (.error e) s'

/-- `if c { return Err(e) }`. -/
def rejectIf (c : Prop) [Decidable c] (e : ε) : EStateM ε σ Unit :=
  if c then throw e else pure ()

/-- The `?` on a check that does not touch the state. -/
def ofExcept {δ : Type} (f : δ → ε) : Except δ α → EStateM ε σ α
  | .ok a => pure a
  | .error e => throw (f e)

/-- `ok_or(e)?` and `expect`. -/
def ofOption (e : ε) : Option α → EStateM ε σ α
  | some a => pure a
  | none => throw e

theorem except_bind_eq_ok {x : Except ε α} {f : α → Except ε β} {b : β} :
    (x >>= f) = .ok b ↔ ∃ a, x = .ok a ∧ f a = .ok b := by
  cases x with
  | error e => simp [bind, Except.bind]
  | ok a => simp [bind, Except.bind]

/-- The state a computation leaves behind, whatever it returned. -/
def finalState (m : EStateM ε σ α) (s : σ) : σ :=
  match m s with
  | .ok _ s' => s'
  | .error _ s' => s'

theorem wp_iff {m : EStateM ε σ α} {Q : Except ε α → σ → Prop} {s : σ} :
    wp m Q s ↔ (∀ a s', m s = .ok a s' → Q (.ok a) s') ∧
      (∀ e s', m s = .error e s' → Q (.error e) s') := by
  cases hm : m s with
  | ok a s' => simp [wp, hm]
  | error e s' => simp [wp, hm]

theorem wp.of_ok {m : EStateM ε σ α} {Q : Except ε α → σ → Prop} {s s' : σ} {a : α}
    (h : wp m Q s) (hm : m s = .ok a s') : Q (.ok a) s' := (wp_iff.mp h).1 a s' hm

theorem wp.of_error {m : EStateM ε σ α} {Q : Except ε α → σ → Prop} {s s' : σ} {e : ε}
    (h : wp m Q s) (hm : m s = .error e s') : Q (.error e) s' := (wp_iff.mp h).2 e s' hm

theorem wp.finalState {m : EStateM ε σ α} {P : σ → Prop} {s : σ}
    (h : wp m (fun _ s' => P s') s) : P (finalState m s) := by
  cases hm : m s with
  | ok a s' => simpa [LeanCtx.finalState, hm] using h.of_ok hm
  | error e s' => simpa [LeanCtx.finalState, hm] using h.of_error hm

theorem wp.imp {m : EStateM ε σ α} {Q R : Except ε α → σ → Prop} {s : σ} (h : wp m Q s)
    (hQR : ∀ r s', Q r s' → R r s') : wp m R s :=
  wp_iff.mpr ⟨fun _ _ hm => hQR _ _ (h.of_ok hm), fun _ _ hm => hQR _ _ (h.of_error hm)⟩

theorem wp.and {m : EStateM ε σ α} {Q R : Except ε α → σ → Prop} {s : σ} (h : wp m Q s)
    (h' : wp m R s) : wp m (fun r s' => Q r s' ∧ R r s') s :=
  wp_iff.mpr ⟨fun _ _ hm => ⟨h.of_ok hm, h'.of_ok hm⟩,
    fun _ _ hm => ⟨h.of_error hm, h'.of_error hm⟩⟩

@[simp] theorem wp_pure {a : α} {Q : Except ε α → σ → Prop} {s : σ} :
    wp (pure a : EStateM ε σ α) Q s ↔ Q (.ok a) s := Iff.rfl

@[simp] theorem wp_throw {e : ε} {Q : Except ε α → σ → Prop} {s : σ} :
    wp (throw e : EStateM ε σ α) Q s ↔ Q (.error e) s := Iff.rfl

/-- Sequencing: an error of the first part is an error of the whole. -/
theorem wp_bind {m : EStateM ε σ α} {k : α → EStateM ε σ β} {Q : Except ε β → σ → Prop} {s : σ} :
    wp (m >>= k) Q s ↔ wp m (fun r s' => match r with
      | .ok a => wp (k a) Q s'
      | .error e => Q (.error e) s') s := by
  cases hm : m s with
  | ok a s' => simp [wp, Bind.bind, EStateM.bind, hm]
  | error e s' => simp [wp, Bind.bind, EStateM.bind, hm]

theorem wp_get_bind {k : σ → EStateM ε σ β} {Q : Except ε β → σ → Prop} {s : σ}
    (h : wp (k s) Q s) : wp (get >>= k) Q s := h

theorem wp_set_bind {t : σ} {k : PUnit → EStateM ε σ β} {Q : Except ε β → σ → Prop} {s : σ}
    (h : wp (k ⟨⟩) Q t) : wp (set t >>= k) Q s := h

theorem wp_modify_bind {f : σ → σ} {k : PUnit → EStateM ε σ β} {Q : Except ε β → σ → Prop} {s : σ}
    (h : wp (k ⟨⟩) Q (f s)) : wp (modify f >>= k) Q s := h

theorem wp_modify {f : σ → σ} {Q : Except ε PUnit → σ → Prop} {s : σ}
    (h : Q (.ok ⟨⟩) (f s)) : wp (modify f) Q s := h

theorem wp_rejectIf {c : Prop} [Decidable c] {e : ε} {Q : Except ε Unit → σ → Prop} {s : σ} :
    wp (rejectIf c e) Q s ↔ (c → Q (.error e) s) ∧ (¬ c → Q (.ok ()) s) := by
  by_cases h : c <;> simp [rejectIf, h]

theorem wp_rejectIf_bind {c : Prop} [Decidable c] {e : ε} {k : Unit → EStateM ε σ β}
    {Q : Except ε β → σ → Prop} {s : σ} (hfail : Q (.error e) s) (h : ¬ c → wp (k ()) Q s) :
    wp (rejectIf c e >>= k) Q s := by
  rw [wp_bind, wp_rejectIf]
  exact ⟨fun _ => hfail, h⟩

theorem wp_ofExcept_bind {δ : Type} {f : δ → ε} {x : Except δ α} {k : α → EStateM ε σ β}
    {Q : Except ε β → σ → Prop} {s : σ} (hfail : ∀ e, Q (.error (f e)) s)
    (h : ∀ a, x = .ok a → wp (k a) Q s) : wp (ofExcept f x >>= k) Q s := by
  cases x with
  | ok a => exact h a rfl
  | error e => exact hfail e

theorem wp_ofOption_bind {e : ε} {x : Option α} {k : α → EStateM ε σ β}
    {Q : Except ε β → σ → Prop} {s : σ} (hfail : Q (.error e) s)
    (h : ∀ a, x = some a → wp (k a) Q s) : wp (ofOption e x >>= k) Q s := by
  cases x with
  | some a => exact h a rfl
  | none => exact hfail

theorem wp_bind_of {m : EStateM ε σ α} {k : α → EStateM ε σ β} {P : Except ε α → σ → Prop}
    {Q : Except ε β → σ → Prop} {s : σ} (hm : wp m P s)
    (hfail : ∀ e s', P (.error e) s' → Q (.error e) s')
    (h : ∀ a s', P (.ok a) s' → wp (k a) Q s') : wp (m >>= k) Q s := by
  rw [wp_bind]
  apply hm.imp
  intro r s' hP
  cases r with
  | ok a => exact h a s' hP
  | error e => exact hfail e s' hP

/-- A loop that never fails keeps what each of its rounds keeps. -/
theorem wp_foldlM {γ : Type} {f : α → γ → EStateM ε σ α} {I : σ → Prop} {l : List γ}
    (h : ∀ a, ∀ c ∈ l, ∀ s, I s → wp (f a c) (fun r s' => (∃ b, r = .ok b) ∧ I s') s) (a : α) {s : σ}
    (hs : I s) : wp (l.foldlM f a) (fun r s' => (∃ b, r = .ok b) ∧ I s') s := by
  induction l generalizing a s with
  | nil => exact ⟨⟨a, rfl⟩, hs⟩
  | cons c l ih =>
    rw [List.foldlM_cons]
    refine wp_bind_of (h a c (by simp) s hs) ?_ ?_
    · rintro e s' ⟨⟨b, hb⟩, -⟩
      cases hb
    · rintro b s' ⟨-, hs'⟩
      exact ih (fun a' c' hc' => h a' c' (by simp [hc'])) b hs'

end LeanCtx
