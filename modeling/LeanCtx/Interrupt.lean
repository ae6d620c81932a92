import Mathlib.Tactic.Common

/-!
# Programs that can be interrupted

A program changes a durable state step by step. Its run records every state it
passes through, so that an interruption leaves the state it started from or
one of these, and the changes made before it are the ones made first.
-/

namespace LeanCtx.Interrupt

variable {σ ε α β : Type}

/-- The states passed through in order, the state at the end and what was returned. -/
structure Ran (σ ε α : Type) where
  passed : List σ
  final : σ
  result : Except ε α

/-- The run with the states of an earlier part in front. -/
def Ran.after (earlier : List σ) (ran : Ran σ ε α) : Ran σ ε α :=
  ⟨earlier ++ ran.passed, ran.final, ran.result⟩

structure Prog (σ ε α : Type) where
  run : σ → Ran σ ε α

instance : Monad (Prog σ ε) where
  pure a := ⟨fun s => ⟨[], s, .ok a⟩⟩
  bind p f := ⟨fun s =>
    match (p.run s).result with
    | .ok a => ((f a).run (p.run s).final).after (p.run s).passed
    | .error e => ⟨(p.run s).passed, (p.run s).final, .error e⟩⟩

def fail (e : ε) : Prog σ ε α := ⟨fun s => ⟨[], s, .error e⟩⟩

def see (f : σ → α) : Prog σ ε α := ⟨fun s => ⟨[], s, .ok (f s)⟩⟩

/-- A computation that may fail and leaves the state alone. -/
def attempt (result : Except ε α) : Prog σ ε α := ⟨fun s => ⟨[], s, result⟩⟩

def ensure (c : Prop) [Decidable c] (e : ε) : Prog σ ε Unit :=
  attempt (if c then .ok () else .error e)

def change (f : σ → σ) : Prog σ ε Unit := ⟨fun s => ⟨[f s], f s, .ok ()⟩⟩

/-- A change that becomes durable in `n` parts. -/
def changeInParts (n : ℕ) (part : ℕ → σ → σ) : Prog σ ε Unit := ⟨fun s =>
  ⟨(List.range n).map fun k => part (k + 1) s, if n = 0 then s else part n s, .ok ()⟩⟩

/-- An interruption of the program leaves this state. -/
def Prog.Stops (p : Prog σ ε α) (s t : σ) : Prop := t = s ∨ t ∈ (p.run s).passed

@[simp] theorem Ran.after_nil (ran : Ran σ ε α) : ran.after [] = ran := rfl

@[simp] theorem Ran.after_mk (earlier l : List σ) (s : σ) (r : Except ε α) :
    Ran.after earlier ⟨l, s, r⟩ = ⟨earlier ++ l, s, r⟩ := rfl

@[simp] theorem run_pure (a : α) (s : σ) : (pure a : Prog σ ε α).run s = ⟨[], s, .ok a⟩ := rfl

@[simp] theorem run_fail (e : ε) (s : σ) : (fail e : Prog σ ε α).run s = ⟨[], s, .error e⟩ := rfl

@[simp] theorem run_change (g : σ → σ) (s : σ) :
    (change g : Prog σ ε Unit).run s = ⟨[g s], g s, .ok ()⟩ := rfl

theorem bind_of_ok {p : Prog σ ε α} {f : α → Prog σ ε β} {s t : σ} {l : List σ} {a : α}
    (h : p.run s = ⟨l, t, .ok a⟩) : (p >>= f).run s = ((f a).run t).after l := by
  change (match (p.run s).result with
    | .ok a => ((f a).run (p.run s).final).after (p.run s).passed
    | .error e => ⟨(p.run s).passed, (p.run s).final, .error e⟩) = _
  rw [h]

theorem bind_of_error {p : Prog σ ε α} {f : α → Prog σ ε β} {s t : σ} {l : List σ} {e : ε}
    (h : p.run s = ⟨l, t, .error e⟩) : (p >>= f).run s = ⟨l, t, .error e⟩ := by
  change (match (p.run s).result with
    | .ok a => ((f a).run (p.run s).final).after (p.run s).passed
    | .error e => ⟨(p.run s).passed, (p.run s).final, .error e⟩) = _
  rw [h]

theorem bind_assoc_run {γ : Type} (p : Prog σ ε α) (q : α → Prog σ ε β) (f : β → Prog σ ε γ)
    (s : σ) : (p >>= fun a => q a >>= f).run s = (p >>= q >>= f).run s := by
  rcases hp : p.run s with ⟨l, t, result⟩
  cases result with
  | error e => rw [bind_of_error hp, bind_of_error (bind_of_error hp)]
  | ok a =>
    rcases hq : (q a).run t with ⟨l', t', result'⟩
    have hpq : (p >>= q).run s = ⟨l ++ l', t', result'⟩ := by
      rw [bind_of_ok hp, hq, Ran.after_mk]
    cases result' with
    | error e => rw [bind_of_ok hp, bind_of_error hq, bind_of_error hpq, Ran.after_mk]
    | ok b =>
      rw [bind_of_ok hp, bind_of_ok hq, bind_of_ok hpq]
      simp [Ran.after]

@[simp] theorem see_bind (g : σ → α) (f : α → Prog σ ε β) (s : σ) :
    (see g >>= f).run s = (f (g s)).run s := rfl

@[simp] theorem attempt_ok_bind (a : α) (f : α → Prog σ ε β) (s : σ) :
    (attempt (.ok a) >>= f).run s = (f a).run s := rfl

@[simp] theorem attempt_error_bind (e : ε) (f : α → Prog σ ε β) (s : σ) :
    (attempt (.error e) >>= f).run s = ⟨[], s, .error e⟩ := rfl

theorem ensure_bind {c : Prop} [Decidable c] {e : ε} {f : Unit → Prog σ ε β} {s : σ} (h : c) :
    (ensure c e >>= f).run s = (f ()).run s := by
  rw [ensure, if_pos h, attempt_ok_bind]

theorem ensure_bind_error {c : Prop} [Decidable c] {e : ε} {f : Unit → Prog σ ε β} {s : σ}
    (h : ¬ c) : (ensure c e >>= f).run s = ⟨[], s, .error e⟩ := by
  rw [ensure, if_neg h, attempt_error_bind]

@[simp] theorem change_bind (g : σ → σ) (f : Unit → Prog σ ε β) (s : σ) :
    (change g >>= f).run s = ((f ()).run (g s)).after [g s] :=
  bind_of_ok rfl

end LeanCtx.Interrupt
