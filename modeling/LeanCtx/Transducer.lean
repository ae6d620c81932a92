import Mathlib.Data.List.Basic
import Mathlib.Tactic.Common

/-!
# Machines that write

A machine reads one input at a time, changes its state and writes some output.
Runs compose, so what is written for a whole input does not depend on the
pieces in which it arrives, and a relation between the state and everything
written so far that each input keeps is kept by a run.
-/

namespace LeanCtx.Transducer

variable {σ α ε : Type*}

/-- One move: the state after it, and what it writes. -/
abbrev Move (σ ε : Type*) := σ → σ × List ε

/-- The move that writes nothing and changes nothing. -/
def idle : Move σ ε := fun x => (x, [])

/-- One move after another. -/
def andThen (f g : Move σ ε) : Move σ ε := fun x =>
  ((g (f x).1).1, (f x).2 ++ (g (f x).1).2)

@[simp] theorem idle_state (x : σ) : ((idle : Move σ ε) x).1 = x := rfl

@[simp] theorem idle_output (x : σ) : ((idle : Move σ ε) x).2 = [] := rfl

@[simp] theorem andThen_state (f g : Move σ ε) (x : σ) : (andThen f g x).1 = (g (f x).1).1 := rfl

@[simp] theorem andThen_output (f g : Move σ ε) (x : σ) :
    (andThen f g x).2 = (f x).2 ++ (g (f x).1).2 := rfl

theorem idle_andThen (f : Move σ ε) : andThen idle f = f := by
  funext x
  simp [andThen]

theorem andThen_idle (f : Move σ ε) : andThen f idle = f := by
  funext x
  simp [andThen]

theorem andThen_assoc (f g h : Move σ ε) :
    andThen (andThen f g) h = andThen f (andThen g h) := by
  funext x
  simp [andThen]

/-- The inputs one after another. -/
def run (step : α → Move σ ε) : List α → Move σ ε
  | [] => idle
  | a :: rest => andThen (step a) (run step rest)

@[simp] theorem run_nil (step : α → Move σ ε) : run step [] = idle := rfl

@[simp] theorem run_cons (step : α → Move σ ε) (a : α) (rest : List α) :
    run step (a :: rest) = andThen (step a) (run step rest) := rfl

theorem run_append (step : α → Move σ ε) (front rest : List α) :
    run step (front ++ rest) = andThen (run step front) (run step rest) := by
  induction front with
  | nil => exact (idle_andThen _).symm
  | cons a front ih => rw [List.cons_append, run_cons, ih, run_cons, andThen_assoc]

/-- A run over pieces of the input is the run over the whole of it. -/
theorem run_run (step : α → Move σ ε) (pieces : List (List α)) :
    run (run step) pieces = run step pieces.flatten := by
  induction pieces with
  | nil => rfl
  | cons piece pieces ih => rw [run_cons, ih, List.flatten_cons, run_append]

theorem run_map {β : Type*} (step : β → Move σ ε) (f : α → β) (inputs : List α) :
    run step (inputs.map f) = run (fun a => step (f a)) inputs := by
  induction inputs with
  | nil => rfl
  | cons a inputs ih => rw [List.map_cons, run_cons, ih, run_cons]

/-- What each input keeps between the state and the output so far, a run keeps. -/
theorem run_keeps {I : σ → List ε → Prop} {step : α → Move σ ε} {inputs : List α}
    (hstep : ∀ a ∈ inputs, ∀ x out, I x out → I (step a x).1 (out ++ (step a x).2)) {x : σ}
    {out : List ε} (h : I x out) : I (run step inputs x).1 (out ++ (run step inputs x).2) := by
  induction inputs generalizing x out with
  | nil => simpa using h
  | cons a inputs ih =>
    have hfirst := hstep a List.mem_cons_self x out h
    have hrest := ih (fun b hb => hstep b (List.mem_cons_of_mem _ hb)) hfirst
    rwa [run_cons, andThen_state, andThen_output, ← List.append_assoc]

end LeanCtx.Transducer
