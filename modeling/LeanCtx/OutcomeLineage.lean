import LeanCtx.ByteText
import LeanCtx.Trace
import Mathlib.Algebra.Order.Ring.Nat
import Mathlib.Logic.Relation

/-!
# The lineage of outcomes

A history of outcomes is only appended to. A late evaluation of a task under a
contract points at the outcome before it; since the evaluator derives one
identifier for all of them, an outcome with the identifier of its predecessor
is given a new one. The identifiers of earlier outcomes are not looked at.
-/

namespace LeanCtx.Outcome

open ByteText (isWhitespace)

abbrev Text := List Char

/-! ## Identifiers -/

def maxIdentifierLength : ℕ := 256

def isControl (c : Char) : Bool := c.toNat < 32 || (127 ≤ c.toNat && c.toNat < 160)

/-- The wire bounds of an opaque identifier. -/
def isIdentifier (value : Text) : Bool :=
  !value.all isWhitespace && (value.map Char.utf8Size).sum ≤ maxIdentifierLength &&
    !value.any isControl

def makeOutcomeId (value : Text) : Text :=
  if isIdentifier value then value else "outcome-unknown".toList

def makeTaskId (value : Text) : Text :=
  if isIdentifier value then value else "task-unknown".toList

/-! ## Evaluated outcomes -/

inductive TaskClass
  | bugFix
  | refactor
  | testAddition
  | documentation
  | investigation

def TaskClass.asStr : TaskClass → Text
  | .bugFix => "bug_fix".toList
  | .refactor => "refactor".toList
  | .testAddition => "test_addition".toList
  | .documentation => "documentation".toList
  | .investigation => "investigation".toList

structure OutcomeContractV1 where
  taskClass : TaskClass
  contractVersion : Text
  supersessionAllowed : Bool

def OutcomeContractV1.reference (contract : OutcomeContractV1) : Text :=
  "outcome-contract/".toList ++ contract.taskClass.asStr ++ "/v".toList ++ contract.contractVersion

structure EvaluationContext where
  taskId : Text
  contractVersion : Text
  evaluatorVersion : Text

/-- `rest` is what the evaluation found. -/
structure AcceptedOutcomeV1 (E : Type) where
  outcomeId : Text
  taskId : Text
  contractRef : Option Text
  rest : E
deriving DecidableEq

structure OutcomeEvaluation (E : Type) where
  outcome : AcceptedOutcomeV1 E

section

-- `blake3` in hexadecimal
variable (hash : Text → Text)

def contextOutcomeId (context : EvaluationContext) : Text :=
  makeOutcomeId ("outcome:".toList ++ hash ("outcome-v1:".toList ++ context.taskId ++ [':'] ++
    context.contractVersion ++ [':'] ++ context.evaluatorVersion))

/-- The outcome of an evaluation, as far as its identity goes. -/
def evaluated {E : Type} (contract : OutcomeContractV1) (context : EvaluationContext) (rest : E) :
    AcceptedOutcomeV1 E where
  outcomeId := contextOutcomeId hash context
  taskId := makeTaskId context.taskId
  contractRef := some contract.reference
  rest := rest

end

/-! ## The history -/

structure OutcomeRecord (E : Type) where
  outcome : AcceptedOutcomeV1 E
  supersedes : Option Text

structure OutcomeHistory (E : Type) where
  records : List (OutcomeRecord E)

variable {E : Type}

/-- Whether two outcomes are of one task and contract. -/
def SameTask (a b : AcceptedOutcomeV1 E) : Prop :=
  a.taskId = b.taskId ∧ a.contractRef = b.contractRef

instance (a b : AcceptedOutcomeV1 E) : Decidable (SameTask a b) :=
  inferInstanceAs (Decidable (a.taskId = b.taskId ∧ a.contractRef = b.contractRef))

def supersedingId (n : ℕ) : Text :=
  makeOutcomeId ("outcome-superseding-".toList ++ n.repr.toList)

namespace OutcomeHistory

def new : OutcomeHistory E := ⟨[]⟩

/-- The latest record of the outcome's task and contract. -/
def previous (h : OutcomeHistory E) (outcome : AcceptedOutcomeV1 E) : Option (OutcomeRecord E) :=
  h.records.reverse.find? fun record => SameTask record.outcome outcome

def appendInternal (h : OutcomeHistory E) (outcome : AcceptedOutcomeV1 E)
    (supersessionAllowed : Bool) : OutcomeRecord E × OutcomeHistory E :=
  let previous := if supersessionAllowed then h.previous outcome else none
  let supersedes := previous.map fun record => record.outcome.outcomeId
  let outcome :=
    if supersedes = some outcome.outcomeId then
      { outcome with outcomeId := supersedingId (h.records.length + 1) }
    else outcome
  let record := { outcome, supersedes }
  (record, ⟨h.records ++ [record]⟩)

def append (h : OutcomeHistory E) (outcome : AcceptedOutcomeV1 E) :
    OutcomeRecord E × OutcomeHistory E :=
  h.appendInternal outcome true

def appendForContract (h : OutcomeHistory E) (outcome : AcceptedOutcomeV1 E)
    (contract : OutcomeContractV1) : OutcomeRecord E × OutcomeHistory E :=
  h.appendInternal outcome contract.supersessionAllowed

def appendEvaluation (h : OutcomeHistory E) (evaluation : OutcomeEvaluation E) :
    OutcomeRecord E × OutcomeHistory E :=
  h.append evaluation.outcome

end OutcomeHistory

inductive Call (E : Type)
  | append (outcome : AcceptedOutcomeV1 E)
  | appendForContract (outcome : AcceptedOutcomeV1 E) (contract : OutcomeContractV1)
  | appendEvaluation (evaluation : OutcomeEvaluation E)

namespace Call

def outcome : Call E → AcceptedOutcomeV1 E
  | .append outcome => outcome
  | .appendForContract outcome _ => outcome
  | .appendEvaluation evaluation => evaluation.outcome

def supersessionAllowed : Call E → Bool
  | .appendForContract _ contract => contract.supersessionAllowed
  | _ => true

def run (h : OutcomeHistory E) : Call E → OutcomeRecord E × OutcomeHistory E
  | .append outcome => h.append outcome
  | .appendForContract outcome contract => h.appendForContract outcome contract
  | .appendEvaluation evaluation => h.appendEvaluation evaluation

theorem run_eq (h : OutcomeHistory E) (call : Call E) :
    call.run h = h.appendInternal call.outcome call.supersessionAllowed := by
  cases call with
  | append outcome => rfl
  | appendForContract outcome contract => rfl
  | appendEvaluation evaluation => rfl

end Call

/-! ## Lineages -/

/-- The record at `i` points at the record at `j`. -/
def Supersedes (records : List (OutcomeRecord E)) (i j : ℕ) : Prop :=
  ∃ r p, records[i]? = some r ∧ records[j]? = some p ∧ SameTask p.outcome r.outcome ∧
    r.supersedes = some p.outcome.outcomeId

instance (records : List (OutcomeRecord E)) (i j : ℕ) : Decidable (Supersedes records i j) :=
  decidable_of_iff ((records[i]?).any fun r => (records[j]?).any fun p =>
      SameTask p.outcome r.outcome ∧ r.supersedes = some p.outcome.outcomeId) <| by
    simp only [Option.any_eq_true, decide_eq_true_eq, Supersedes]
    exact ⟨fun ⟨r, hr, p, hp, h⟩ => ⟨r, p, hr, hp, h⟩, fun ⟨r, p, hr, hp, h⟩ => ⟨r, hr, p, hp, h⟩⟩

/-- No earlier record is of the same task and contract. -/
def First (records : List (OutcomeRecord E)) (j : ℕ) : Prop :=
  ∃ r, records[j]? = some r ∧
    ∀ k < j, ∀ p, records[k]? = some p → ¬ SameTask p.outcome r.outcome

/-- What holds of the calls of a run with the records they made: the identifiers of a task and
contract differ where supersession is allowed, links lead to earlier records, and from every record
they lead to the first of its task and contract, where they end. -/
structure Lineage (log : List (Call E × OutcomeRecord E)) : Prop where
  distinct : ∀ (i j : ℕ) (a b : Call E × OutcomeRecord E), log[i]? = some a → log[j]? = some b →
    a.1.supersessionAllowed = true → b.1.supersessionAllowed = true →
    SameTask a.2.outcome b.2.outcome → a.2.outcome.outcomeId = b.2.outcome.outcomeId → i = j
  earlier : ∀ i j, Supersedes (log.map Prod.snd) i j → j < i
  ends : ∀ i < log.length, ∃ j, Relation.ReflTransGen (Supersedes (log.map Prod.snd)) i j ∧
    First (log.map Prod.snd) j
  stops : ∀ i, First (log.map Prod.snd) i → ∀ j, ¬ Supersedes (log.map Prod.snd) i j
  acyclic : ∀ i, ¬ Relation.TransGen (Supersedes (log.map Prod.snd)) i i

/-- A further outcome of a task and contract may supersede, and has the identifier of the latest or
of none. -/
def Chained (h : OutcomeHistory E) (call : Call E) : Prop :=
  ∀ latest ∈ h.previous call.outcome, call.supersessionAllowed = true ∧
    (call.outcome.outcomeId = latest.outcome.outcomeId ∨
      ∀ r ∈ h.records, SameTask r.outcome call.outcome →
        r.outcome.outcomeId ≠ call.outcome.outcomeId)

instance (h : OutcomeHistory E) (call : Call E) : Decidable (Chained h call) :=
  inferInstanceAs (Decidable (∀ latest ∈ h.previous call.outcome, _))

/-- The outcome of a call comes from the evaluator. -/
def Made (hash : Text → Text) (call : Call E) : Prop :=
  ∃ contract context rest, call.outcome = evaluated hash contract context rest

/-! ## Identifiers are told apart -/

theorem isDigit_repr {n : ℕ} {c : Char} (hc : c ∈ n.repr.toList) : c.isDigit = true := by
  rw [Nat.toList_repr] at hc
  exact Nat.isDigit_of_mem_toDigits (by decide) (by decide) hc

theorem length_repr {n : ℕ} (h : n < 2 ^ 64) : n.repr.toList.length ≤ 20 := by
  rw [Nat.toList_repr, Nat.length_toDigits_le_iff (by decide) (by decide)]
  exact Nat.lt_trans h (by decide)

theorem toNat_digit {c : Char} (h : c.isDigit = true) : 48 ≤ c.toNat ∧ c.toNat ≤ 57 := by
  simp only [Char.isDigit, Bool.and_eq_true, decide_eq_true_eq, UInt32.le_iff_toNat_le] at h
  exact h

theorem sum_utf8Size_digits {s : Text} (h : ∀ c ∈ s, c.isDigit = true) :
    (s.map Char.utf8Size).sum = s.length := by
  induction s with
  | nil => rfl
  | cons c s ih =>
    obtain ⟨hc, hs⟩ := List.forall_mem_cons.mp h
    have hone : c.utf8Size = 1 := by
      rw [Char.utf8Size_eq_one_iff, UInt32.le_iff_toNat_le]
      exact Nat.le_trans (toNat_digit hc).2 (by decide)
    rw [List.map_cons, List.sum_cons, ih hs, hone, List.length_cons]
    omega

/-- A history is never so long that the identifier is out of bounds. -/
theorem supersedingId_eq {n : ℕ} (h : n < 2 ^ 64) :
    supersedingId n = "outcome-superseding-".toList ++ n.repr.toList := by
  have hdigits : ∀ c ∈ n.repr.toList, c.isDigit = true := fun c hc => isDigit_repr hc
  have hcontrol : (n.repr.toList.any isControl) = false := by
    rw [List.any_eq_false]
    intro c hc
    have hrange := toNat_digit (hdigits c hc)
    simp [isControl]
    omega
  have hsize : (("outcome-superseding-".toList ++ n.repr.toList).map Char.utf8Size).sum ≤
      maxIdentifierLength := by
    rw [List.map_append, List.sum_append, sum_utf8Size_digits hdigits]
    have hlen := length_repr h
    have hprefix : (("outcome-superseding-".toList).map Char.utf8Size).sum = 20 := by decide
    unfold maxIdentifierLength
    omega
  have hbounds : isIdentifier ("outcome-superseding-".toList ++ n.repr.toList) = true := by
    unfold isIdentifier
    rw [decide_eq_true hsize, List.any_append, hcontrol, List.all_append]
    rfl
  rw [supersedingId, makeOutcomeId, if_pos hbounds]

theorem supersedingId_inj {m n : ℕ} (hm : m < 2 ^ 64) (hn : n < 2 ^ 64)
    (h : supersedingId m = supersedingId n) : m = n := by
  rw [supersedingId_eq hm, supersedingId_eq hn] at h
  have hdigits := List.append_cancel_left h
  rw [Nat.toList_repr, Nat.toList_repr] at hdigits
  rw [← @Nat.ofDigitChars_ten_toDigits m, hdigits, Nat.ofDigitChars_ten_toDigits]

/-- The evaluator's identifiers are of another form. -/
theorem evaluated_ne_supersedingId {hash : Text → Text} {call : Call E} (h : Made hash call) {n : ℕ}
    (hn : n < 2 ^ 64) : call.outcome.outcomeId ≠ supersedingId n := by
  obtain ⟨contract, context, rest, heq⟩ := h
  rw [heq, supersedingId_eq hn]
  intro hid
  simp only [evaluated, contextOutcomeId, makeOutcomeId] at hid
  split at hid
  · have hseventh := congrArg (fun s => s[7]?) hid
    simp at hseventh
  · have hninth := congrArg (fun s => s[8]?) hid
    simp at hninth

/-! ## One call -/

theorem SameTask.symm {a b : AcceptedOutcomeV1 E} (h : SameTask a b) : SameTask b a :=
  ⟨h.1.symm, h.2.symm⟩

theorem SameTask.trans {a b c : AcceptedOutcomeV1 E} (h : SameTask a b) (h' : SameTask b c) :
    SameTask a c :=
  ⟨h.1.trans h'.1, h.2.trans h'.2⟩

theorem previous_eq_some {h : OutcomeHistory E} {outcome : AcceptedOutcomeV1 E}
    {latest : OutcomeRecord E} (hprev : h.previous outcome = some latest) :
    latest ∈ h.records ∧ SameTask latest.outcome outcome := by
  obtain hmem := List.mem_of_find?_eq_some hprev
  have hsame := List.find?_some hprev
  exact ⟨List.mem_reverse.mp hmem, by simpa using hsame⟩

theorem previous_eq_none {h : OutcomeHistory E} {outcome : AcceptedOutcomeV1 E}
    (hprev : h.previous outcome = none) :
    ∀ r ∈ h.records, ¬ SameTask r.outcome outcome := by
  intro r hr
  have hnone := List.find?_eq_none.mp hprev r (List.mem_reverse.mpr hr)
  simpa using hnone

/-- A call adds its record; the history before it stays. -/
theorem run_records (h : OutcomeHistory E) (call : Call E) :
    (call.run h).2.records = h.records ++ [(call.run h).1] ∧
      SameTask (call.run h).1.outcome call.outcome := by
  rw [Call.run_eq]
  unfold OutcomeHistory.appendInternal
  refine ⟨rfl, ?_⟩
  dsimp only
  split <;> split <;> exact ⟨rfl, rfl⟩

theorem run_first {h : OutcomeHistory E} {call : Call E} (hprev : h.previous call.outcome = none) :
    (call.run h).1 = ⟨call.outcome, none⟩ := by
  rw [Call.run_eq]
  simp [OutcomeHistory.appendInternal, hprev]

theorem run_later {h : OutcomeHistory E} {call : Call E} {latest : OutcomeRecord E}
    (hprev : h.previous call.outcome = some latest) (hallowed : call.supersessionAllowed = true) :
    (call.run h).1.supersedes = some latest.outcome.outcomeId ∧
      (call.run h).1.outcome.outcomeId =
        if latest.outcome.outcomeId = call.outcome.outcomeId then
          supersedingId (h.records.length + 1)
        else call.outcome.outcomeId := by
  rw [Call.run_eq]
  by_cases hid : latest.outcome.outcomeId = call.outcome.outcomeId
  · simp [OutcomeHistory.appendInternal, hallowed, hprev, hid]
  · simp [OutcomeHistory.appendInternal, hallowed, hprev, hid]

/-! ## What a run keeps -/

structure Held (records : List (OutcomeRecord E)) : Prop where
  ids : ∀ (i : ℕ) (r : OutcomeRecord E), records[i]? = some r → r.outcome.outcomeId = supersedingId (i + 1) ∨
    ∀ n < 2 ^ 64, r.outcome.outcomeId ≠ supersedingId n
  distinct : ∀ (i j : ℕ) (r p : OutcomeRecord E), records[i]? = some r → records[j]? = some p →
    SameTask r.outcome p.outcome → r.outcome.outcomeId = p.outcome.outcomeId → i = j
  linked : ∀ (i : ℕ) (r : OutcomeRecord E), records[i]? = some r →
    (First records i ∧ r.supersedes = none) ∨ ∃ j < i, Supersedes records i j

/-- A position of an extended list is an old one, or the last. -/
theorem getElem?_snoc {α : Type} {l : List α} {a b : α} {i : ℕ} (h : (l ++ [a])[i]? = some b) :
    l[i]? = some b ∧ i < l.length ∨ i = l.length ∧ a = b := by
  rcases Nat.lt_or_ge i l.length with hlt | hge
  · rw [List.getElem?_append_left hlt] at h
    exact .inl ⟨h, hlt⟩
  · rw [List.getElem?_append_right hge, List.getElem?_singleton] at h
    split at h
    · exact .inr ⟨by omega, Option.some.inj h⟩
    · cases h

theorem getElem?_of_snoc {α : Type} {l : List α} {a b : α} {i : ℕ} (h : l[i]? = some b) :
    (l ++ [a])[i]? = some b := by
  obtain ⟨hlt, -⟩ := List.getElem?_eq_some_iff.mp h
  rw [List.getElem?_append_left hlt, h]

theorem First.snoc {records : List (OutcomeRecord E)} {j : ℕ} (h : First records j)
    (r : OutcomeRecord E) : First (records ++ [r]) j := by
  obtain ⟨first, hfirst, hnone⟩ := h
  obtain ⟨hj, -⟩ := List.getElem?_eq_some_iff.mp hfirst
  refine ⟨first, getElem?_of_snoc hfirst, ?_⟩
  intro k hk p hp
  rw [List.getElem?_append_left (Nat.lt_trans hk hj)] at hp
  exact hnone k hk p hp

theorem Supersedes.snoc {records : List (OutcomeRecord E)} {i j : ℕ} (h : Supersedes records i j)
    (r : OutcomeRecord E) : Supersedes (records ++ [r]) i j := by
  obtain ⟨later, p, hlater, hp, hlink⟩ := h
  exact ⟨later, p, getElem?_of_snoc hlater, getElem?_of_snoc hp, hlink⟩

/-- The identifier of a call's record is no identifier of its task and contract. -/
theorem fresh {h : OutcomeHistory E} {call : Call E} (hheld : Held h.records)
    (hlen : h.records.length + 1 < 2 ^ 64) (hchained : Chained h call) {i : ℕ}
    {r : OutcomeRecord E} (hr : h.records[i]? = some r)
    (hsame : SameTask r.outcome call.outcome) :
    r.outcome.outcomeId ≠ (call.run h).1.outcome.outcomeId := by
  obtain ⟨hi, -⟩ := List.getElem?_eq_some_iff.mp hr
  have hmem := List.mem_of_getElem? hr
  cases hprev : h.previous call.outcome with
  | none => exact absurd hsame (previous_eq_none hprev r hmem)
  | some latest =>
    obtain ⟨hallowed, hid⟩ := hchained latest hprev
    rw [(run_later hprev hallowed).2]
    split
    · -- the new identifier counts the records
      rcases hheld.ids i r hr with hold | hother
      · rw [hold]
        intro heq
        have hsucc := supersedingId_inj (by omega) hlen heq
        omega
      · exact hother _ hlen
    · rename_i hne
      exact (hid.resolve_left fun heq => hne heq.symm) r hmem hsame

theorem Held.run {hash : Text → Text} {h : OutcomeHistory E} {call : Call E}
    (hheld : Held h.records) (hlen : h.records.length + 1 < 2 ^ 64) (hmade : Made hash call)
    (hchained : Chained h call) : Held (call.run h).2.records := by
  obtain ⟨hrecords, hsame⟩ := run_records h call
  rw [hrecords]
  refine ⟨?_, ?_, ?_⟩
  · intro i r hr
    rcases getElem?_snoc hr with ⟨hold, -⟩ | ⟨rfl, rfl⟩
    · exact hheld.ids i r hold
    · cases hprev : h.previous call.outcome with
      | none =>
        rw [run_first hprev]
        exact .inr fun n hn => evaluated_ne_supersedingId hmade hn
      | some latest =>
        rw [(run_later hprev (hchained latest hprev).1).2]
        split
        · exact .inl rfl
        · exact .inr fun n hn => evaluated_ne_supersedingId hmade hn
  · intro i j r p hr hp hrp hid
    rcases getElem?_snoc hr with ⟨hr, -⟩ | ⟨rfl, rfl⟩
    · rcases getElem?_snoc hp with ⟨hp, -⟩ | ⟨rfl, rfl⟩
      · exact hheld.distinct i j r p hr hp hrp hid
      · exact absurd hid (fresh hheld hlen hchained hr (hrp.trans hsame))
    · rcases getElem?_snoc hp with ⟨hp, -⟩ | ⟨rfl, -⟩
      · exact absurd hid.symm (fresh hheld hlen hchained hp (hrp.symm.trans hsame))
      · rfl
  · intro i r hr
    rcases getElem?_snoc hr with ⟨hold, -⟩ | ⟨rfl, rfl⟩
    · rcases hheld.linked i r hold with ⟨hfirst, hnone⟩ | ⟨j, hj, hlink⟩
      · exact .inl ⟨hfirst.snoc _, hnone⟩
      · exact .inr ⟨j, hj, hlink.snoc _⟩
    · cases hprev : h.previous call.outcome with
      | none =>
        refine .inl ⟨⟨(call.run h).1, List.getElem?_concat_length, ?_⟩, ?_⟩
        · intro k hk p hp hpsame
          rw [List.getElem?_append_left hk] at hp
          exact previous_eq_none hprev p (List.mem_of_getElem? hp) (hpsame.trans hsame)
        · rw [run_first hprev]
      | some latest =>
        obtain ⟨hmem, hlatest⟩ := previous_eq_some hprev
        obtain ⟨j, hj⟩ := List.mem_iff_getElem?.mp hmem
        obtain ⟨hjlt, -⟩ := List.getElem?_eq_some_iff.mp hj
        exact .inr ⟨j, hjlt, (call.run h).1, latest, List.getElem?_concat_length,
          getElem?_of_snoc hj, hlatest.trans hsame.symm,
          (run_later hprev (hchained latest hprev).1).1⟩

namespace Held

variable {records : List (OutcomeRecord E)} (h : Held records)

include h

/-- A link leads to an earlier record, since no other has the identifier. -/
theorem earlier {i j : ℕ} (hlink : Supersedes records i j) : j < i := by
  obtain ⟨r, p, hr, hp, hsame, hid⟩ := hlink
  rcases h.linked i r hr with ⟨-, hnone⟩ | ⟨k, hk, r', q, hr', hq, hsame', hid'⟩
  · rw [hnone] at hid
    cases hid
  · obtain rfl := Option.some.inj (hr.symm.trans hr')
    have heq : j = k := by
      apply h.distinct j k p q hp hq (hsame.trans hsame'.symm)
      exact Option.some.inj (hid.symm.trans hid')
    rwa [heq]

theorem earlier_of_transGen {i j : ℕ} (hlink : Relation.TransGen (Supersedes records) i j) :
    j < i := by
  induction hlink with
  | single hstep => exact h.earlier hstep
  | tail _ hstep ih => exact Nat.lt_trans (h.earlier hstep) ih

theorem ends (i : ℕ) (hi : i < records.length) :
    ∃ j, Relation.ReflTransGen (Supersedes records) i j ∧ First records j := by
  induction i using Nat.strongRecOn with
  | ind i ih =>
    rcases h.linked i _ (List.getElem?_eq_getElem hi) with ⟨hfirst, -⟩ | ⟨j, hj, hlink⟩
    · exact ⟨i, .refl, hfirst⟩
    · obtain ⟨k, hreach, hfirst⟩ := ih j hj (Nat.lt_trans hj hi)
      exact ⟨k, .head hlink hreach, hfirst⟩

theorem stops {i : ℕ} (hfirst : First records i) (j : ℕ) : ¬ Supersedes records i j := by
  intro hlink
  have hj := h.earlier hlink
  obtain ⟨r, p, hr, hp, hsame, -⟩ := hlink
  obtain ⟨r', hr', hnone⟩ := hfirst
  obtain rfl := Option.some.inj (hr.symm.trans hr')
  exact hnone j hj p hp hsame

end Held

/-! ## Runs -/

/-- What is asked of each call of a run. -/
def Fits (hash : Text → Text) (h : OutcomeHistory E) (call : Call E) : Prop :=
  Chained h call ∧ Made hash call ∧ h.records.length + 1 < 2 ^ 64

theorem held_of_fits {hash : Text → Text} {calls : List (Call E)}
    (hrun : Trace.Along Call.run (Fits hash) .new calls) :
    (Trace.log Call.run .new calls).map Prod.snd =
        (Trace.final Call.run .new calls).records ∧
      Held (Trace.final Call.run .new calls).records := by
  have hstep := Trace.log_invariant (P := fun l h => l.map Prod.snd = h.records ∧ Held h.records)
    (fun l h call hfits hp => ?_) hrun (l := []) ⟨rfl, ?_⟩
  · rwa [List.nil_append] at hstep
  · obtain ⟨hlog, hheld⟩ := hp
    refine ⟨?_, hheld.run hfits.2.2 hfits.2.1 hfits.1⟩
    rw [List.map_append, hlog, (run_records h call).1]
    rfl
  · exact ⟨nofun, nofun, nofun⟩

theorem Held.lineage {log : List (Call E × OutcomeRecord E)} (h : Held (log.map Prod.snd)) :
    Lineage log where
  distinct i j a b ha hb _ _ hsame hid := by
    refine h.distinct i j a.2 b.2 ?_ ?_ hsame hid
    · rw [List.getElem?_map, ha, Option.map_some]
    · rw [List.getElem?_map, hb, Option.map_some]
  earlier _ _ hlink := h.earlier hlink
  ends i hi := h.ends i (by rwa [List.length_map])
  stops _ hfirst j := h.stops hfirst j
  acyclic i hlink := Nat.lt_irrefl i (h.earlier_of_transGen hlink)

/-- No call changes an earlier record. -/
theorem final_records (h : OutcomeHistory E) (calls : List (Call E)) :
    h.records <+: (Trace.final Call.run h calls).records := by
  induction calls generalizing h with
  | nil => exact List.prefix_rfl
  | cons call rest ih =>
    have hcall := ih (call.run h).2
    rw [(run_records h call).1] at hcall
    exact (List.prefix_append _ _).trans hcall

/-- A run is short enough when all of it is. -/
theorem along_fits {hash : Text → Text} {h : OutcomeHistory E} {calls : List (Call E)}
    (hmade : ∀ call ∈ calls, Made hash call) (hlen : h.records.length + calls.length < 2 ^ 64)
    (hrun : Trace.Along Call.run Chained h calls) : Trace.Along Call.run (Fits hash) h calls := by
  induction calls generalizing h with
  | nil => trivial
  | cons call rest ih =>
    obtain ⟨hcall, hrest⟩ := List.forall_mem_cons.mp hmade
    rw [List.length_cons] at hlen
    refine ⟨⟨hrun.1, hcall, by omega⟩, ih hrest ?_ hrun.2⟩
    rw [(run_records h call).1, List.length_append, List.length_singleton]
    omega

/-- Along runs of evaluated outcomes where every call is chained, earlier records stay, and the
records form lineages. -/
theorem lineage_of_chained {hash : Text → Text} {calls : List (Call E)}
    (hmade : ∀ call ∈ calls, Made hash call) (hlen : calls.length < 2 ^ 64)
    (hrun : Trace.Along Call.run Chained .new calls) :
    Lineage (Trace.log Call.run .new calls) ∧
      (Trace.log Call.run .new calls).map Prod.snd = (Trace.final Call.run .new calls).records ∧
      ∀ front back, calls = front ++ back → (Trace.final Call.run .new front).records <+:
        (Trace.final Call.run .new calls).records := by
  have hfits : Trace.Along Call.run (Fits hash) .new calls :=
    along_fits hmade (by rwa [OutcomeHistory.new, List.length_nil, Nat.zero_add]) hrun
  obtain ⟨hlog, hheld⟩ := held_of_fits hfits
  refine ⟨Held.lineage (by rwa [hlog]), hlog, ?_⟩
  rintro front back rfl
  rw [Trace.final_append]
  exact final_records _ back

/-! ## Two evaluations, and three -/

/-- The digests that occur below. -/
def sampleHash (seed : Text) : Text :=
  if seed = "outcome-v1:task-1:unknown:1.0.1".toList then
    "eaabfe67583eb36828da699b79350addf08d1ce143471d9603dd1ff86187bd1c".toList
  else "f7f882844532a358e1a7e6cfa6aac528c4d5cd857315c4817cdaa11d1f0d571c".toList

def bugFixContract : OutcomeContractV1 := ⟨.bugFix, "1.0.0".toList, true⟩

/-- An evaluation for a task, late or not. -/
def sampleCall (task : Text) (late : Bool) : Call Bool :=
  .appendForContract (evaluated sampleHash bugFixContract ⟨task, "unknown".toList, "1.0.1".toList⟩
    late) bugFixContract

theorem made_sampleCall (task : Text) (late : Bool) : Made sampleHash (sampleCall task late) :=
  ⟨bugFixContract, ⟨task, "unknown".toList, "1.0.1".toList⟩, late, rfl⟩

def twice : List (Call Bool) :=
  [sampleCall "task-1".toList false, sampleCall "task-unknown".toList false,
    sampleCall "task-1".toList true]

theorem lineage_of_chained_twice :
    Trace.Along Call.run Chained .new twice ∧ Lineage (Trace.log Call.run .new twice) := by
  have hmade : ∀ call ∈ twice, Made sampleHash call := by
    intro call hcall
    simp only [twice, List.mem_cons, List.not_mem_nil, or_false] at hcall
    rcases hcall with rfl | rfl | rfl
    · exact made_sampleCall _ _
    · exact made_sampleCall _ _
    · exact made_sampleCall _ _
  have hrun : Trace.Along Call.run Chained .new twice := by decide +kernel
  exact ⟨hrun, (lineage_of_chained hmade (by decide) hrun).1⟩

def thrice : List (Call Bool) :=
  [sampleCall "task-1".toList false, sampleCall "task-1".toList true,
    sampleCall "task-1".toList true]

/-- The third evaluation has the identifier of the first again, and the second points at it. -/
theorem third_evaluation_repeats : (∀ call ∈ thrice, Made sampleHash call) ∧
    ¬ Lineage (Trace.log Call.run .new thrice) ∧
    Supersedes ((Trace.log Call.run .new thrice).map Prod.snd) 1 2 ∧
    Supersedes ((Trace.log Call.run .new thrice).map Prod.snd) 2 1 := by
  have hmade : ∀ call ∈ thrice, Made sampleHash call := by
    intro call hcall
    simp only [thrice, List.mem_cons, List.not_mem_nil, or_false] at hcall
    rcases hcall with rfl | rfl | rfl
    · exact made_sampleCall _ _
    · exact made_sampleCall _ _
    · exact made_sampleCall _ _
  have hforward : Supersedes ((Trace.log Call.run .new thrice).map Prod.snd) 1 2 := by
    decide +kernel
  have hback : Supersedes ((Trace.log Call.run .new thrice).map Prod.snd) 2 1 := by
    decide +kernel
  refine ⟨hmade, ?_, hforward, hback⟩
  intro hlineage
  exact hlineage.acyclic 1 (.tail (.single hforward) hback)

end LeanCtx.Outcome
