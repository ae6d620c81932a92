import Mathlib.Data.List.Basic
import Mathlib.Tactic.Common

/-!
# Runs of a state machine that answers

A machine takes an input in a state, answers, and is in a next state. `log` is
what an observer of a run sees, `final` the state it ends in. A condition on
single steps is asked of a whole run by `Along`; what each step preserves under
it holds at the end (`invariant`), also when it speaks of the log so far
(`log_invariant`) or of what an observer has kept (`observe_invariant`).
-/

namespace LeanCtx.Trace

variable {σ ι α : Type} (step : σ → ι → α × σ)

/-- The inputs of a run with their answers. -/
def log : σ → List ι → List (ι × α)
  | _, [] => []
  | s, i :: rest => (i, (step s i).1) :: log (step s i).2 rest

/-- The state a run ends in. -/
def final : σ → List ι → σ
  | s, [] => s
  | s, i :: rest => final (step s i).2 rest

/-- Every input of the run meets the condition in the state it is taken in. -/
def Along (C : σ → ι → Prop) : σ → List ι → Prop
  | _, [] => True
  | s, i :: rest => C s i ∧ Along C (step s i).2 rest

instance decidableAlong (C : σ → ι → Prop) [∀ s i, Decidable (C s i)] :
    (s : σ) → (inputs : List ι) → Decidable (Along step C s inputs)
  | _, [] => isTrue trivial
  | s, i :: rest =>
    have := decidableAlong C (step s i).2 rest
    inferInstanceAs (Decidable (C s i ∧ Along step C (step s i).2 rest))

/-- What an observer of every state and input keeps of a run. -/
def observe {γ : Type} (see : γ → σ → ι → γ) : γ → σ → List ι → γ
  | kept, _, [] => kept
  | kept, s, i :: rest => observe see (see kept s i) (step s i).2 rest

variable {step} {C : σ → ι → Prop}

/-- What every step keeps holds at the end. -/
theorem invariant {P : σ → Prop} (hstep : ∀ s i, C s i → P s → P (step s i).2) {s : σ}
    {inputs : List ι} (hrun : Along step C s inputs) (h : P s) : P (final step s inputs) := by
  induction inputs generalizing s with
  | nil => exact h
  | cons i rest ih => exact ih hrun.2 (hstep s i hrun.1 h)

/-- What every step keeps makes one condition on the steps of a run follow from another. -/
theorem along_of_invariant {P : σ → Prop} {D : σ → ι → Prop}
    (hcond : ∀ s i, P s → C s i → D s i) (hstep : ∀ s i, C s i → P s → P (step s i).2) {s : σ}
    {inputs : List ι} (hrun : Along step C s inputs) (h : P s) : Along step D s inputs := by
  induction inputs generalizing s with
  | nil => trivial
  | cons i rest ih => exact ⟨hcond s i h hrun.1, ih hrun.2 (hstep s i hrun.1 h)⟩

/-- A condition on inputs alone is met along a run when every input meets it. -/
theorem along_of_forall {D : ι → Prop} {s : σ} {inputs : List ι} (h : ∀ i ∈ inputs, D i) :
    Along step (fun _ i => D i) s inputs := by
  induction inputs generalizing s with
  | nil => trivial
  | cons i rest ih =>
    exact ⟨h i List.mem_cons_self, ih fun j hj => h j (List.mem_cons_of_mem _ hj)⟩

theorem Along.and {D : σ → ι → Prop} {s : σ} {inputs : List ι} (hC : Along step C s inputs)
    (hD : Along step D s inputs) : Along step (fun s i => C s i ∧ D s i) s inputs := by
  induction inputs generalizing s with
  | nil => trivial
  | cons i rest ih => exact ⟨⟨hC.1, hD.1⟩, ih hC.2 hD.2⟩

/-- The same for what relates the log so far to the state. -/
theorem log_invariant {P : List (ι × α) → σ → Prop}
    (hstep : ∀ l s i, C s i → P l s → P (l ++ [(i, (step s i).1)]) (step s i).2) {s : σ}
    {inputs : List ι} {l : List (ι × α)} (hrun : Along step C s inputs) (h : P l s) :
    P (l ++ log step s inputs) (final step s inputs) := by
  induction inputs generalizing s l with
  | nil => rwa [log, List.append_nil]
  | cons i rest ih =>
    have hnext := ih hrun.2 (hstep l s i hrun.1 h)
    rwa [List.append_assoc] at hnext

/-- The same for what an observer keeps. -/
theorem observe_invariant {γ : Type} {see : γ → σ → ι → γ} {P : γ → σ → Prop}
    (hstep : ∀ kept s i, C s i → P kept s → P (see kept s i) (step s i).2) {s : σ}
    {inputs : List ι} {kept : γ} (hrun : Along step C s inputs) (h : P kept s) :
    P (observe step see kept s inputs) (final step s inputs) := by
  induction inputs generalizing s kept with
  | nil => exact h
  | cons i rest ih => exact ih hrun.2 (hstep kept s i hrun.1 h)

theorem final_append (s : σ) (front back : List ι) :
    final step s (front ++ back) = final step (final step s front) back := by
  induction front generalizing s with
  | nil => rfl
  | cons i front ih => exact ih _

theorem log_append (s : σ) (front back : List ι) :
    log step s (front ++ back) = log step s front ++ log step (final step s front) back := by
  induction front generalizing s with
  | nil => rfl
  | cons i front ih => rw [List.cons_append, log, ih, log, final, List.cons_append]

theorem log_map_fst (s : σ) (inputs : List ι) : (log step s inputs).map Prod.fst = inputs := by
  induction inputs generalizing s with
  | nil => rfl
  | cons i rest ih => rw [log, List.map_cons, ih]

/-- A log is known from its inputs and its answers. -/
theorem log_eq_zip {s : σ} {inputs : List ι} {answers : List α}
    (h : (log step s inputs).map Prod.snd = answers) : log step s inputs = inputs.zip answers := by
  rw [← h]
  nth_rewrite 2 [← @log_map_fst _ _ _ step s inputs]
  rw [List.zip_map']
  simp

end LeanCtx.Trace
