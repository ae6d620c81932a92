import Mathlib.Data.List.TakeWhile
import Mathlib.Tactic.Common

/-!
# Expanding variables in a configured path

The loop replaces the first reference of the whole text in every pass, so what a
variable stands for is searched again. It ends with the references of the entry
replaced once when no value puts a reference of its own into the text.
-/

namespace LeanCtx.PathExpand

abbrev Text := List Char

/-- The variables of the process and the home directory of the platform. -/
structure Env where
  var : Text → Option Text
  homeDir : Option Text

/-! ## One pass -/

def isNameChar (c : Char) : Bool := c.isAlphanum || c == '_'

/-- The name behind a `$` and what follows the reference. -/
def reference : Text → Option (Text × Text)
  | '{' :: stripped =>
    if '}' ∈ stripped then
      some (stripped.takeWhile (· ≠ '}'), (stripped.dropWhile (· ≠ '}')).tail)
    else none
  | rest => some (rest.takeWhile isNameChar, rest.dropWhile isNameChar)

def lookup (env : Env) (name : Text) : Option Text :=
  (env.var name).or (if name = "HOME".toList then env.homeDir else none)

/-- The text before the first `$`, the value of its reference, and the text behind it. -/
def nextRef (env : Env) (s : Text) : Option (Text × Text × Text) := do
  let rest ← (s.dropWhile (· ≠ '$')).tail?
  let (name, after) ← reference rest
  if name = [] then none
  else return (s.takeWhile (· ≠ '$'), ← lookup env name, after)

def step (env : Env) (s : Text) : Option Text :=
  (nextRef env s).map fun (before, value, after) => before ++ value ++ after

/-! ## The loop -/

/-- The loop with a number of passes it may take. -/
def run (env : Env) : ℕ → Text → Option Text
  | 0, _ => none
  | n + 1, s => (step env s).elim (some s) (run env n)

/-- The home directory in place of a leading `~`, and the rest of the entry. -/
def expandHome (env : Env) (raw : Text) : Text × Text :=
  if raw = ['~'] ∨ ['~', '/'] <+: raw then
    env.homeDir.elim ([], raw) fun home => (home, raw.tail)
  else ([], raw)

def expandUserPath (env : Env) (passes : ℕ) (raw : Text) : Option Text :=
  run env passes ((expandHome env raw).1 ++ (expandHome env raw).2)

/-! ## Expanding once -/

/-- The references of an entry replaced by their values, up to the first that has none. -/
inductive Expands (env : Env) : Text → Text → Prop
  | stop {s} (h : nextRef env s = none) : Expands env s s
  | next {s before value after r} (h : nextRef env s = some (before, value, after))
      (hafter : Expands env after r) : Expands env s (before ++ value ++ r)

/-- A run of the loop that replaces references of the entry only: none in the text that is done. -/
inductive Own (env : Env) : Text → Text → Text → Prop
  | stop {done rest} (h : step env (done ++ rest) = none) : Own env done rest (done ++ rest)
  | next {done rest before value after r} (hdone : '$' ∉ done)
      (h : nextRef env rest = some (before, value, after))
      (hafter : Own env (done ++ before ++ value) after r) : Own env done rest r

/-- The loop ends, replaces nothing in a value, and returns the entry expanded once. -/
def ExpandsOnce (env : Env) (raw : Text) : Prop :=
  ∃ passes r e, expandUserPath env passes raw = some r ∧
    Own env (expandHome env raw).1 (expandHome env raw).2 r ∧
    Expands env (expandHome env raw).2 e ∧ r = (expandHome env raw).1 ++ e

/-- A value and the rest of the entry: the value holds no `$` and the rest is alike, or the text
from the value on has no reference to replace and the rest of the entry stays as it is. -/
inductive Settled (env : Env) : Text → Text → Prop
  | stop {value rest} (hvalue : '$' ∉ value) (h : nextRef env rest = none) :
      Settled env value rest
  | next {value rest before value' after} (hvalue : '$' ∉ value)
      (h : nextRef env rest = some (before, value', after)) (hafter : Settled env value' after) :
      Settled env value rest
  | dollar {value rest} (hvalue : '$' ∈ value) (h : nextRef env (value ++ rest) = none)
      (hrest : Expands env rest rest) : Settled env value rest

section Steps

variable {env : Env}

theorem nextRef_append {done : Text} (hdone : '$' ∉ done) (rest : Text) :
    nextRef env (done ++ rest) =
      (nextRef env rest).map fun (before, value, after) => (done ++ before, value, after) := by
  have hall : ∀ c ∈ done, decide (c ≠ '$') = true := fun c hc =>
    decide_eq_true fun heq => hdone (heq ▸ hc)
  rw [nextRef, nextRef, List.dropWhile_append_of_pos hall, List.takeWhile_append_of_pos hall]
  rcases (rest.dropWhile (· ≠ '$')).tail? with _ | body
  · rfl
  · rcases hreference : reference body with _ | ⟨name, after⟩
    · simp [hreference]
    · by_cases hname : name = []
      · simp [hreference, hname]
      · rcases hvalue : lookup env name with _ | value
        · simp [hreference, hname, hvalue]
        · simp [hreference, hname, hvalue]

theorem not_mem_before {s before value after : Text}
    (h : nextRef env s = some (before, value, after)) : '$' ∉ before := by
  obtain ⟨body, -, h⟩ := Option.bind_eq_some_iff.mp h
  obtain ⟨⟨name, after'⟩, -, h⟩ := Option.bind_eq_some_iff.mp h
  dsimp only at h
  split_ifs at h with hname
  obtain ⟨value', -, h⟩ := Option.bind_eq_some_iff.mp h
  obtain ⟨rfl, -⟩ := Prod.mk.inj (Option.some.inj h)
  intro hmem
  have hkept := List.mem_takeWhile_imp hmem
  rw [decide_eq_true_eq] at hkept
  exact hkept rfl

theorem step_append {done rest : Text} (hdone : '$' ∉ done) :
    step env (done ++ rest) = (step env rest).map (done ++ ·) := by
  rw [step, step, nextRef_append hdone, Option.map_map, Option.map_map]
  congr 1
  funext ⟨before, value, after⟩
  simp

/-- A run that replaces references of the entry only is a run of the loop. -/
theorem Own.run {done rest r : Text} (h : Own env done rest r) :
    ∃ passes, run env passes (done ++ rest) = some r := by
  induction h with
  | stop h => exact ⟨1, by rw [PathExpand.run, h]; rfl⟩
  | @next done rest before value after r hdone h hafter ih =>
    obtain ⟨passes, hpasses⟩ := ih
    have hstep : step env (done ++ rest) = some (done ++ before ++ value ++ after) := by
      rw [step_append hdone, step, h]
      simp
    exact ⟨passes + 1, by rw [PathExpand.run, hstep]; exact hpasses⟩

theorem Settled.expandsOnce {value rest : Text} (h : Settled env value rest) {done : Text}
    (hdone : '$' ∉ done) : ∃ e, Own env (done ++ value) rest (done ++ value ++ e) ∧
      Expands env rest e := by
  induction h generalizing done with
  | @stop value rest hvalue h =>
    have hall : '$' ∉ done ++ value := by
      rw [List.mem_append]
      exact fun hmem => hmem.elim hdone hvalue
    refine ⟨rest, .stop ?_, .stop h⟩
    rw [step_append hall, step, h]
    rfl
  | @next value rest before value' after hvalue h hafter ih =>
    have hall : '$' ∉ done ++ value := by
      rw [List.mem_append]
      exact fun hmem => hmem.elim hdone hvalue
    have hbefore : '$' ∉ done ++ value ++ before := by
      rw [List.mem_append]
      exact fun hmem => hmem.elim hall (not_mem_before h)
    obtain ⟨e, hown, he⟩ := ih hbefore
    refine ⟨before ++ value' ++ e, .next hall h ?_, .next h he⟩
    simp only [List.append_assoc] at hown ⊢
    exact hown
  | @dollar value rest hvalue h hrest =>
    refine ⟨rest, .stop ?_, hrest⟩
    rw [List.append_assoc, step_append hdone, step, h]
    rfl

theorem Own.settled {front rest r : Text} (h : Own env front rest r) {done value e : Text}
    (hfront : front = done ++ value) (hdone : '$' ∉ done) (he : Expands env rest e)
    (hr : r = done ++ value ++ e) : Settled env value rest := by
  induction h generalizing done value e with
  | @stop front rest h =>
    subst hfront
    obtain rfl : rest = e := List.append_cancel_left hr
    by_cases hvalue : '$' ∈ value
    · refine .dollar hvalue ?_ he
      rw [List.append_assoc, step_append hdone, Option.map_eq_none_iff, step,
        Option.map_eq_none_iff] at h
      exact h
    · have hall : '$' ∉ done ++ value := by
        rw [List.mem_append]
        exact fun hmem => hmem.elim hdone hvalue
      refine .stop hvalue ?_
      rwa [step_append hall, Option.map_eq_none_iff, step, Option.map_eq_none_iff] at h
  | @next front rest before value' after r hall h hafter ih =>
    subst hfront
    have hvalue : '$' ∉ value := fun hmem => hall (List.mem_append_right _ hmem)
    have hbefore : '$' ∉ done ++ value ++ before := by
      rw [List.mem_append]
      exact fun hmem => hmem.elim hall (not_mem_before h)
    cases he with
    | stop hnone =>
      rw [hnone] at h
      cases h
    | next hsome he' =>
      rw [hsome, Option.some.injEq, Prod.mk.injEq, Prod.mk.injEq] at h
      obtain ⟨rfl, rfl, rfl⟩ := h
      refine .next hvalue hsome (ih rfl hbefore he' ?_)
      rw [hr]
      simp only [List.append_assoc]

end Steps

/-- The loop expands each reference of an entry once exactly when no value leads it astray. -/
theorem expandsOnce_iff (env : Env) (raw : Text) :
    ExpandsOnce env raw ↔ Settled env (expandHome env raw).1 (expandHome env raw).2 := by
  constructor
  · rintro ⟨passes, r, e, -, hown, he, hr⟩
    exact hown.settled (List.nil_append _).symm List.not_mem_nil he hr
  · intro h
    obtain ⟨e, hown, he⟩ := h.expandsOnce List.not_mem_nil
    obtain ⟨passes, hrun⟩ := hown.run
    exact ⟨passes, _, e, hrun, hown, he, rfl⟩

/-! ## Variables that refer to variables -/

/-- A variable that refers to itself, and one that refers to another. -/
def cyclicEnv : Env where
  var name :=
    if name = ['A'] then some "$A".toList
    else if name = ['B'] then some "$C".toList
    else if name = ['C'] then some "src".toList
    else none
  homeDir := none

theorem run_cyclic (passes : ℕ) : run cyclicEnv passes "$A".toList = none := by
  have hstep : step cyclicEnv "$A".toList = some "$A".toList := by decide +kernel
  induction passes with
  | zero => rfl
  | succ passes ih =>
    rw [run, hstep]
    exact ih

/-- The loop does not end on the first entry and expands a value in the second. -/
theorem not_always_once : (¬∃ passes r, expandUserPath cyclicEnv passes "$A".toList = some r) ∧
    expandUserPath cyclicEnv 3 "$B/lib".toList = some "src/lib".toList ∧
      Expands cyclicEnv "$B/lib".toList "$C/lib".toList := by
  refine ⟨?_, by decide +kernel, ?_⟩
  · rintro ⟨passes, r, h⟩
    have hentry : (expandHome cyclicEnv "$A".toList).1 ++ (expandHome cyclicEnv "$A".toList).2 =
        "$A".toList := by decide +kernel
    rw [expandUserPath, hentry, run_cyclic] at h
    cases h
  · have href : nextRef cyclicEnv "$B/lib".toList = some ([], "$C".toList, "/lib".toList) := by
      decide +kernel
    have hrest : nextRef cyclicEnv "/lib".toList = none := by decide +kernel
    exact .next href (.stop hrest)

end LeanCtx.PathExpand
