import LeanCtx.ExecutionRecovery

/-!
# The history the execution ledger admits

Whether an event may follow a list of events is said here in terms of that
list: what the task did before, and which receipts stand in its receipt chain.
The replayed state holds exactly this, so a ledger verifies only if every event
of it is admitted by the events before it. The laws of a stored ledger follow
from that, and from the lookup of an event by its key.
-/

namespace LeanCtx.Execution

open ByteText Interrupt

/-! ## What an event says -/

def EventBody.createdPlan : EventBody → Option String
  | .planCreated planId _ => some planId
  | _ => none

/-- The plan and the invocation an invocation names. -/
def EventBody.invocation : EventBody → Option (String × String)
  | .modelInvoked planId invocationId .. => some (planId, invocationId)
  | .engineInvoked planId invocationId .. => some (planId, invocationId)
  | _ => none

def EventBody.legacyReceipt : EventBody → Option String
  | .receiptSigned receiptId _ _ => some receiptId
  | _ => none

def EventBody.canonicalReceipt : EventBody → Option CanonicalReceipt
  | .canonicalReceiptRecorded receipt => some receipt
  | _ => none

/-- The outcome and the receipt it is about. -/
def EventBody.outcome : EventBody → Option (String × String)
  | .outcomeRecorded outcomeId receiptId _ => some (outcomeId, receiptId)
  | _ => none

def EventBody.decision : EventBody → Option String
  | .decisionRecorded decisionId _ _ => some decisionId
  | _ => none

def EventBody.deliversContext : EventBody → Bool
  | .contextDelivered _ => true
  | _ => false

/-! ## Histories -/

/-- What the task did, in order. -/
def historyOf (task : String) (events : List ExecutionEvent) : List ExecutionEvent :=
  events.filter fun e => e.taskId = task

/-- What the events of one task, or of all, say. -/
def said {α : Type} (f : EventBody → Option α) (events : List ExecutionEvent) : List α :=
  events.filterMap fun e => f e.body

def delivered (own : List ExecutionEvent) : Bool := own.any fun e => e.body.deliversContext

def receiptIds (events : List ExecutionEvent) : List String :=
  (said EventBody.canonicalReceipt events).map CanonicalReceipt.receiptId

/-- The receipts of a chain, across all tasks. -/
def receiptsOf (chain : String) (events : List ExecutionEvent) : List CanonicalReceipt :=
  (said EventBody.canonicalReceipt events).filter fun r => r.receiptChainId = chain

/-- Whether the receipt is the next one after these receipts of its chain. -/
def FollowsChain (receipts : List CanonicalReceipt) (r : CanonicalReceipt) : Prop :=
  match receipts.getLast? with
  | none =>
    r.receiptSequenceNumber = 1 ∧ r.previousReceiptId = none ∧ r.previousSignatureDigest = none
  | some head =>
    checkedAdd head.receiptSequenceNumber 1 = some r.receiptSequenceNumber ∧
      r.previousReceiptId = some head.receiptId ∧ r.previousSignatureDigest.any isSha256

/-- Whether a task that did this admits the event. -/
def TaskAdmits (own : List ExecutionEvent) : EventBody → Prop
  | .taskStarted _ => False
  | .planCreated planId _ => said EventBody.createdPlan own = [] ∧ planId ≠ ""
  | .contextDelivered _ =>
    said EventBody.createdPlan own ≠ [] ∧ delivered own = false
  | .modelInvoked planId invocationId invocationRef _ provider _ _ _ =>
    (delivered own = true ∨ provider = "savings-ledger") ∧
      planId ∈ said EventBody.createdPlan own ∧ invocationId ≠ "" ∧ invocationRef ≠ "" ∧
      invocationId ∉ (said EventBody.invocation own).map Prod.snd
  | .engineInvoked planId invocationId invocationRef capabilityId capabilityVersion =>
    delivered own = true ∧
      planId ∈ said EventBody.createdPlan own ∧ invocationId ≠ "" ∧ invocationRef ≠ "" ∧
      capabilityId ≠ "" ∧ capabilityVersion ≠ "" ∧
      invocationId ∉ (said EventBody.invocation own).map Prod.snd
  | .receiptSigned receiptId _ _ =>
    said EventBody.invocation own ≠ [] ∧ receiptId ≠ "" ∧
      receiptId ∉ said EventBody.legacyReceipt own
  | .canonicalReceiptRecorded r =>
    delivered own = true ∧
      r.invocationId ∈ (said EventBody.invocation own).map Prod.snd ∧ isSha256 r.receiptId ∧
      isSha256 r.receiptDigest ∧ r.receiptRef = "id:" ++ r.receiptDigest ∧
      r.receiptChainId ≠ "" ∧ r.receiptId ∉ receiptIds own
  | .outcomeRecorded outcomeId receiptId _ =>
    receiptId ∈ receiptIds own ∧ outcomeId ≠ "" ∧
      receiptId ∉ (said EventBody.outcome own).map Prod.snd ∧
      outcomeId ∉ (said EventBody.outcome own).map Prod.fst
  | .decisionRecorded decisionId _ _ => decisionId ≠ "" ∧ decisionId ∉ said EventBody.decision own

/-- Whether the events so far admit the receipt, whatever its task did. -/
def ChainAdmits (events : List ExecutionEvent) : EventBody → Prop
  | .canonicalReceiptRecorded r =>
    FollowsChain (receiptsOf r.receiptChainId events) r ∧ r.receiptId ∉ receiptIds events
  | _ => True

/-- Whether the event may follow these events. -/
def Admits (events : List ExecutionEvent) (e : ExecutionEvent) : Prop :=
  e.taskId ≠ "" ∧ e.traceId ≠ "" ∧ e.timestamp ≠ "" ∧
    match e.body, (historyOf e.taskId events).head? with
    | .taskStarted _, none => True
    | .taskStarted _, some _ => False
    | _, none => False
    | body, some first =>
      first.traceId = e.traceId ∧ TaskAdmits (historyOf e.taskId events) body ∧
        ChainAdmits events body

/-! ## The replayed state -/

/-- The state of a task that did this. -/
def taskStateOf (own : List ExecutionEvent) : Option TaskState :=
  own.head?.map fun first =>
    { traceId := first.traceId
      plans := (said EventBody.createdPlan own).toFinset
      invocations := ((said EventBody.invocation own).map Prod.snd).toFinset
      legacyReceipts := (said EventBody.legacyReceipt own).toFinset
      canonicalReceipts := (receiptIds own).toFinset
      canonicalOutcomes := ((said EventBody.outcome own).map Prod.snd).toFinset
      outcomes := ((said EventBody.outcome own).map Prod.fst).toFinset
      decisions := (said EventBody.decision own).toFinset
      contextDelivered := delivered own }

structure Describes (events : List ExecutionEvent) (life : Lifecycle) : Prop where
  tasks : ∀ task : String, life.tasks[task]? = taskStateOf (historyOf task events)
  chains : ∀ chain : String, life.receiptChains[chain]? =
    (receiptsOf chain events).getLast?.map fun r => (r.receiptSequenceNumber, r.receiptId)
  ids : life.canonicalReceiptIds = (receiptIds events).toFinset

theorem describes_nil : Describes [] {} where
  tasks task := by simp [historyOf, taskStateOf]
  chains chain := by simp [receiptsOf, said]
  ids := rfl

@[simp] theorem said_append {α : Type} (f : EventBody → Option α) (events : List ExecutionEvent)
    (e : ExecutionEvent) : said f (events ++ [e]) = said f events ++ (f e.body).toList := by
  cases h : f e.body <;> simp [said, h]

@[simp] theorem receiptIds_append (events : List ExecutionEvent) (e : ExecutionEvent) :
    receiptIds (events ++ [e]) = receiptIds events ++
      (e.body.canonicalReceipt.map CanonicalReceipt.receiptId).toList := by
  cases h : e.body.canonicalReceipt <;> simp [receiptIds, h]

@[simp] theorem delivered_append (own : List ExecutionEvent) (e : ExecutionEvent) :
    delivered (own ++ [e]) = (delivered own || e.body.deliversContext) := by
  simp [delivered]

theorem historyOf_append (task : String) (events : List ExecutionEvent) (e : ExecutionEvent) :
    historyOf task (events ++ [e]) =
      if e.taskId = task then historyOf task events ++ [e] else historyOf task events := by
  split_ifs with h <;> simp [historyOf, h]

attribute [local simp] EventBody.createdPlan EventBody.invocation EventBody.legacyReceipt
  EventBody.canonicalReceipt EventBody.outcome EventBody.decision EventBody.deliversContext

/-- A task takes an admitted event into its state. -/
theorem next_of_admits {own : List ExecutionEvent} {e : ExecutionEvent} {state : TaskState}
    (hstate : taskStateOf own = some state) (h : TaskAdmits own e.body) :
    state.next e.body = taskStateOf (own ++ [e]) := by
  obtain ⟨first, hfirst, rfl⟩ := Option.map_eq_some_iff.mp hstate
  have hhead : (own ++ [e]).head? = some first := by
    rw [List.head?_append, hfirst, Option.some_or]
  rw [taskStateOf, hhead, Option.map_some]
  cases hbody : e.body with
  | taskStarted envelopeRef =>
    rw [hbody] at h
    exact h.elim
  | planCreated planId planRef =>
    rw [hbody] at h
    obtain ⟨hnone, hid⟩ := h
    simp [TaskState.next, hnone, hid, hbody]
  | contextDelivered balance =>
    rw [hbody] at h
    obtain ⟨hplans, hnew⟩ := h
    simp [TaskState.next, hplans, hnew, hbody]
  | modelInvoked planId invocationId invocationRef model provider tokensIn tokensOut latencyMs =>
    rw [hbody] at h
    simp only [TaskAdmits] at h
    simp [TaskState.next, hbody, h]
  | engineInvoked planId invocationId invocationRef capabilityId capabilityVersion =>
    rw [hbody] at h
    simp only [TaskAdmits] at h
    simp [TaskState.next, hbody, h]
  | receiptSigned receiptId receiptHash signature =>
    rw [hbody] at h
    simp only [TaskAdmits] at h
    simp [TaskState.next, hbody, h]
  | canonicalReceiptRecorded r =>
    rw [hbody] at h
    simp only [TaskAdmits] at h
    simp [TaskState.next, hbody, h]
  | outcomeRecorded outcomeId receiptId acceptance =>
    rw [hbody] at h
    simp only [TaskAdmits] at h
    simp [TaskState.next, hbody, h]
  | decisionRecorded decisionId kind selected =>
    rw [hbody] at h
    simp only [TaskAdmits] at h
    simp [TaskState.next, hbody, h]

/-- A task takes no other event. -/
theorem admits_of_next {own : List ExecutionEvent} {body : EventBody} {state state' : TaskState}
    (hstate : taskStateOf own = some state) (h : state.next body = some state') :
    TaskAdmits own body := by
  obtain ⟨first, -, rfl⟩ := Option.map_eq_some_iff.mp hstate
  have hplans : said EventBody.createdPlan own = [] ↔
    (said EventBody.createdPlan own).toFinset = ∅ := List.toFinset_eq_empty_iff _ |>.symm
  have hinvocations : said EventBody.invocation own = [] ↔
      ((said EventBody.invocation own).map Prod.snd).toFinset = ∅ := by
    rw [List.toFinset_eq_empty_iff, List.map_eq_nil_iff]
  cases body with
  | taskStarted envelopeRef => cases h
  | planCreated planId planRef =>
    simp only [TaskState.next] at h
    split_ifs at h with hc
    exact ⟨hplans.mpr hc.1, hc.2.1⟩
  | contextDelivered balance =>
    simp only [TaskState.next] at h
    split_ifs at h with hc
    obtain ⟨hnew, hsome⟩ := not_or.mp hc
    exact ⟨fun hnone => hsome (hplans.mp hnone), by simpa using hnew⟩
  | modelInvoked planId invocationId invocationRef model provider tokensIn tokensOut latencyMs =>
    simp only [TaskState.next, List.mem_toFinset] at h
    split_ifs at h with hc
    exact hc
  | engineInvoked planId invocationId invocationRef capabilityId capabilityVersion =>
    simp only [TaskState.next, List.mem_toFinset] at h
    split_ifs at h with hc
    exact hc
  | receiptSigned receiptId receiptHash signature =>
    simp only [TaskState.next, List.mem_toFinset, ne_eq, ← hinvocations] at h
    split_ifs at h with hc
    exact hc
  | canonicalReceiptRecorded r =>
    simp only [TaskState.next, List.mem_toFinset] at h
    split_ifs at h with hc
    exact hc
  | outcomeRecorded outcomeId receiptId acceptance =>
    simp only [TaskState.next, List.mem_toFinset] at h
    split_ifs at h with hc
    exact hc
  | decisionRecorded decisionId kind selected =>
    simp only [TaskState.next, List.mem_toFinset] at h
    split_ifs at h with hc
    exact hc

theorem validPredecessor_iff {events : List ExecutionEvent} {life : Lifecycle}
    (h : Describes events life) (r : CanonicalReceipt) :
    life.validPredecessor r = true ↔ FollowsChain (receiptsOf r.receiptChainId events) r := by
  unfold Lifecycle.validPredecessor FollowsChain
  rw [h.chains]
  cases (receiptsOf r.receiptChainId events).getLast? with
  | none => simp [and_assoc]
  | some head => simp [and_assoc]

theorem receiptsOf_append (chain : String) (events : List ExecutionEvent) (e : ExecutionEvent) :
    receiptsOf chain (events ++ [e]) = receiptsOf chain events ++
      e.body.canonicalReceipt.toList.filter fun r => r.receiptChainId = chain := by
  rw [receiptsOf, said_append, List.filter_append, receiptsOf]

/-- What the chains hold after a receipt. -/
structure Chained (events : List ExecutionEvent) (e : ExecutionEvent) (life life' : Lifecycle) :
    Prop where
  tasks : life'.tasks = life.tasks
  chains : ∀ chain : String, life'.receiptChains[chain]? =
    (receiptsOf chain (events ++ [e])).getLast?.map fun r => (r.receiptSequenceNumber, r.receiptId)
  ids : life'.canonicalReceiptIds = (receiptIds (events ++ [e])).toFinset

theorem chainReceipt_of_other {events : List ExecutionEvent} {life : Lifecycle}
    (h : Describes events life) {e : ExecutionEvent} (hbody : e.body.canonicalReceipt = none) :
    ChainAdmits events e.body ∧ life.chainReceipt e.body = some life ∧
      Chained events e life life := by
  refine ⟨?_, ?_, ⟨rfl, fun chain => ?_, ?_⟩⟩
  · cases hb : e.body <;> simp_all [ChainAdmits]
  · cases hb : e.body <;> simp_all [Lifecycle.chainReceipt]
  · rw [receiptsOf_append, hbody, Option.toList_none, List.filter_nil, List.append_nil, h.chains]
  · rw [receiptIds_append, hbody, Option.map_none, Option.toList_none, List.append_nil, h.ids]

theorem chainReceipt_of_receipt {events : List ExecutionEvent} {life : Lifecycle}
    (h : Describes events life) {e : ExecutionEvent} {r : CanonicalReceipt}
    (hbody : e.body = .canonicalReceiptRecorded r) (hadmits : ChainAdmits events e.body) :
    ∃ life', life.chainReceipt e.body = some life' ∧ Chained events e life life' := by
  rw [hbody] at hadmits
  obtain ⟨hfollows, hnew⟩ := hadmits
  have hcond : life.validPredecessor r ∧ r.receiptId ∉ life.canonicalReceiptIds := by
    refine ⟨(validPredecessor_iff h r).mpr hfollows, ?_⟩
    rw [h.ids, List.mem_toFinset]
    exact hnew
  rw [hbody, Lifecycle.chainReceipt, if_pos hcond]
  refine ⟨_, rfl, ⟨rfl, fun chain => ?_, ?_⟩⟩
  · rw [receiptsOf_append, hbody, Std.ExtTreeMap.getElem?_insert]
    by_cases hchain : r.receiptChainId = chain
    · simp [hchain]
    · simp [hchain, h.chains]
  · simp [hbody, h.ids]

theorem body_of_canonicalReceipt {body : EventBody} {r : CanonicalReceipt}
    (h : body.canonicalReceipt = some r) : body = .canonicalReceiptRecorded r := by
  cases body with
  | canonicalReceiptRecorded receipt => rw [Option.some.inj h]
  | _ => cases h

theorem body_of_outcome {body : EventBody} {outcomeId receiptId : String}
    (h : body.outcome = some (outcomeId, receiptId)) :
    ∃ acceptance, body = .outcomeRecorded outcomeId receiptId acceptance := by
  cases body with
  | outcomeRecorded outcomeId receiptId acceptance =>
    obtain ⟨rfl, rfl⟩ := Prod.mk.inj (Option.some.inj h)
    exact ⟨acceptance, rfl⟩
  | _ => cases h

theorem body_of_createdPlan {body : EventBody} {planId : String}
    (h : body.createdPlan = some planId) : ∃ planRef, body = .planCreated planId planRef := by
  cases body with
  | planCreated planId planRef => exact ⟨planRef, by rw [Option.some.inj h]⟩
  | _ => cases h

/-- The chains take an admitted event. -/
theorem chainReceipt_of_admits {events : List ExecutionEvent} {life : Lifecycle}
    (h : Describes events life) {e : ExecutionEvent} (hadmits : ChainAdmits events e.body) :
    ∃ life', life.chainReceipt e.body = some life' ∧ Chained events e life life' := by
  cases hreceipt : e.body.canonicalReceipt with
  | none => exact ⟨life, (chainReceipt_of_other h hreceipt).2⟩
  | some r =>
    exact chainReceipt_of_receipt h (body_of_canonicalReceipt hreceipt) hadmits

theorem admits_of_chainReceipt {events : List ExecutionEvent} {life life' : Lifecycle}
    (h : Describes events life) {body : EventBody} (hchain : life.chainReceipt body = some life') :
    ChainAdmits events body := by
  cases body with
  | canonicalReceiptRecorded r =>
    simp only [Lifecycle.chainReceipt] at hchain
    split_ifs at hchain with hc
    refine ⟨(validPredecessor_iff h r).mp hc.1, ?_⟩
    have hnew := hc.2
    rwa [h.ids, List.mem_toFinset] at hnew
  | _ => trivial

/-! ### One event -/

def EventBody.starts : EventBody → Bool
  | .taskStarted _ => true
  | _ => false

theorem exists_of_starts {body : EventBody} (h : body.starts = true) :
    ∃ envelopeRef, body = .taskStarted envelopeRef := by
  cases body with
  | taskStarted envelopeRef => exact ⟨envelopeRef, rfl⟩
  | _ => cases h

theorem validateLifecycle_of_not_starts {e : ExecutionEvent} (he : e.body.starts = false)
    (life : Lifecycle) :
    validateLifecycle e life =
      if e.taskId = "" ∨ e.traceId = "" ∨ e.timestamp = "" then none
      else do
        let state ← life.tasks[e.taskId]?
        if state.traceId ≠ e.traceId then none
        else do
          let state ← state.next e.body
          let life ← life.chainReceipt e.body
          return life.setTask e.taskId state := by
  unfold validateLifecycle
  congr 1
  cases hbody : e.body with
  | taskStarted envelopeRef => simp [hbody, EventBody.starts] at he
  | _ => cases life.tasks[e.taskId]? <;> rfl

theorem admits_of_not_starts {e : ExecutionEvent} (he : e.body.starts = false)
    (events : List ExecutionEvent) :
    Admits events e ↔ e.taskId ≠ "" ∧ e.traceId ≠ "" ∧ e.timestamp ≠ "" ∧
      ∃ first, (historyOf e.taskId events).head? = some first ∧ first.traceId = e.traceId ∧
        TaskAdmits (historyOf e.taskId events) e.body ∧ ChainAdmits events e.body := by
  unfold Admits
  cases hbody : e.body with
  | taskStarted envelopeRef => simp [hbody, EventBody.starts] at he
  | _ => cases (historyOf e.taskId events).head? <;> simp

theorem Describes.setTask {events : List ExecutionEvent} {e : ExecutionEvent}
    {life life' : Lifecycle} {state : TaskState} (h : Describes events life)
    (hchained : Chained events e life life')
    (hstate : taskStateOf (historyOf e.taskId events ++ [e]) = some state) :
    Describes (events ++ [e]) (life'.setTask e.taskId state) where
  tasks task := by
    rw [historyOf_append, Lifecycle.setTask, Std.ExtTreeMap.getElem?_insert, hchained.tasks,
      h.tasks]
    by_cases htask : e.taskId = task
    · subst htask
      simp [hstate]
    · simp [htask]
  chains chain := hchained.chains chain
  ids := hchained.ids

/-- The replayed state admits what its events admit, and goes on to describe them all. -/
theorem validateLifecycle_of_admits {events : List ExecutionEvent} {e : ExecutionEvent}
    {life : Lifecycle} (h : Describes events life) (hadmits : Admits events e) :
    ∃ life', validateLifecycle e life = some life' ∧ Describes (events ++ [e]) life' := by
  cases hstarts : e.body.starts with
  | true =>
    obtain ⟨envelopeRef, hbody⟩ := exists_of_starts hstarts
    obtain ⟨htask, htrace, htime, hnew⟩ := hadmits
    have hnone : historyOf e.taskId events = [] := by
      rw [hbody] at hnew
      cases hhead : (historyOf e.taskId events).head? with
      | none => exact List.head?_eq_none_iff.mp hhead
      | some first => simp [hhead] at hnew
    have hother : e.body.canonicalReceipt = none := by rw [hbody]; rfl
    have hstate : taskStateOf (historyOf e.taskId events ++ [e]) =
        some { traceId := e.traceId } := by
      simp [hnone, taskStateOf, said, receiptIds, delivered, hbody]
    refine ⟨_, ?_, h.setTask (chainReceipt_of_other h hother).2.2 hstate⟩
    have hmissing : taskStateOf (historyOf e.taskId events) = none := by rw [hnone]; rfl
    rw [validateLifecycle, if_neg (by simp [htask, htrace, htime]), hbody, h.tasks, hmissing]
  | false =>
    obtain ⟨htask, htrace, htime, first, hfirst, hsame, hown, hchain⟩ :=
      (admits_of_not_starts hstarts events).mp hadmits
    obtain ⟨life', hlife', hchained⟩ := chainReceipt_of_admits h hchain
    obtain ⟨state, hstate⟩ : ∃ state, taskStateOf (historyOf e.taskId events) = some state :=
      ⟨_, by rw [taskStateOf, hfirst, Option.map_some]⟩
    have hstate' : state.traceId = e.traceId := by
      rw [taskStateOf, hfirst, Option.map_some] at hstate
      rw [← Option.some.inj hstate, hsame]
    have hallowed := next_of_admits hstate hown
    obtain ⟨next, hnext⟩ : ∃ next, taskStateOf (historyOf e.taskId events ++ [e]) = some next :=
      ⟨_, by rw [taskStateOf, List.head?_append, hfirst, Option.some_or, Option.map_some]⟩
    refine ⟨life'.setTask e.taskId next, ?_, h.setTask hchained hnext⟩
    rw [validateLifecycle_of_not_starts hstarts, h.tasks, hstate]
    simp [htask, htrace, htime, hstate', hallowed, hnext, hlife']

theorem admits_of_validateLifecycle {events : List ExecutionEvent} {e : ExecutionEvent}
    {life life' : Lifecycle} (h : Describes events life)
    (hvalid : validateLifecycle e life = some life') : Admits events e := by
  cases hstarts : e.body.starts with
  | true =>
    obtain ⟨envelopeRef, hbody⟩ := exists_of_starts hstarts
    rw [validateLifecycle, hbody, h.tasks] at hvalid
    split_ifs at hvalid with hempty
    obtain ⟨htask, hrest⟩ := not_or.mp hempty
    obtain ⟨htrace, htime⟩ := not_or.mp hrest
    refine ⟨htask, htrace, htime, ?_⟩
    rw [hbody]
    cases hhead : (historyOf e.taskId events).head? with
    | none => trivial
    | some first => simp [taskStateOf, hhead] at hvalid
  | false =>
    rw [validateLifecycle_of_not_starts hstarts, h.tasks] at hvalid
    split_ifs at hvalid with hempty
    obtain ⟨htask, hrest⟩ := not_or.mp hempty
    obtain ⟨htrace, htime⟩ := not_or.mp hrest
    obtain ⟨state, hstate, hvalid⟩ := Option.bind_eq_some_iff.mp hvalid
    split_ifs at hvalid with hsame
    obtain ⟨next, hnext, hvalid⟩ := Option.bind_eq_some_iff.mp hvalid
    obtain ⟨chained, hchained, -⟩ := Option.bind_eq_some_iff.mp hvalid
    obtain ⟨first, hfirst, rfl⟩ := Option.map_eq_some_iff.mp hstate
    exact (admits_of_not_starts hstarts events).mpr ⟨htask, htrace, htime, first, hfirst,
      not_not.mp hsame, admits_of_next hstate hnext, admits_of_chainReceipt h hchained⟩

/-! ## Verified ledgers -/

variable {env : Env}

/-- Every event is admitted by the events before it. -/
def Admissible (events : List ExecutionEvent) : Prop :=
  ∀ before e after, events = before ++ e :: after → Admits before e

theorem verifyFrom_cons {v : Verifier} {e : ExecutionEvent} {rest : List ExecutionEvent} :
    verifyFrom env v (e :: rest) = .ok true ↔
      ∃ w, v.step env e = .ok (some w) ∧ verifyFrom env w rest = .ok true := by
  rw [verifyFrom]
  cases hstep : v.step env e with
  | error error => simp
  | ok next =>
    cases next with
    | none => simp
    | some w => simp

theorem Verifier.step_life {v w : Verifier} {e : ExecutionEvent}
    (h : v.step env e = .ok (some w)) : validateLifecycle e v.life = some w.life := by
  simp only [Verifier.step] at h
  split_ifs at h
  · cases h
  · cases h
  · cases h
  · split at h
    · cases h
    · next life hlife =>
      split at h
      · cases h
      · rw [hlife]
        obtain rfl := Option.some.inj (Except.ok.inj h)
        rfl

/-- Replaying from the state of the events so far admits every event that follows. -/
theorem admits_of_verifyFrom {before after events : List ExecutionEvent} {e : ExecutionEvent}
    {v : Verifier} (h : Describes before v.life)
    (hverified : verifyFrom env v events = .ok true) {middle : List ExecutionEvent}
    (hevents : events = middle ++ e :: after) : Admits (before ++ middle) e := by
  induction middle generalizing before v events with
  | nil =>
    rw [List.append_nil]
    rw [hevents, List.nil_append, verifyFrom_cons] at hverified
    obtain ⟨w, hstep, -⟩ := hverified
    exact admits_of_validateLifecycle h (Verifier.step_life hstep)
  | cons x middle ih =>
    rw [hevents, List.cons_append, verifyFrom_cons] at hverified
    obtain ⟨w, hstep, hrest⟩ := hverified
    have hlife := Verifier.step_life hstep
    obtain ⟨life, hlife', hdescribes⟩ :=
      validateLifecycle_of_admits h (admits_of_validateLifecycle h hlife)
    rw [hlife] at hlife'
    obtain rfl := Option.some.inj hlife'
    have hnext := ih hdescribes hrest rfl
    rwa [List.append_assoc, List.singleton_append] at hnext

theorem admissible_of_verified {events : List ExecutionEvent}
    (h : verifyEvents env events = .ok true) : Admissible events := by
  intro before e after hevents
  exact admits_of_verifyFrom describes_nil h hevents

theorem Admissible.init {events : List ExecutionEvent} {e : ExecutionEvent}
    (h : Admissible (events ++ [e])) : Admissible events ∧ Admits events e := by
  refine ⟨fun before x after hevents => ?_, h events e [] rfl⟩
  exact h before x (after ++ [e]) (by rw [hevents]; simp)

/-! ## The laws -/

/-- A task has at most one plan. -/
theorem Admissible.plans_length {events : List ExecutionEvent} (h : Admissible events)
    (task : String) : (said EventBody.createdPlan (historyOf task events)).length ≤ 1 := by
  induction events using List.reverseRecOn with
  | nil => simp [historyOf, said]
  | append_singleton events e ih =>
    obtain ⟨hbefore, hadmits⟩ := h.init
    rw [historyOf_append]
    split_ifs with htask
    · rw [said_append, List.length_append]
      cases hplan : e.body.createdPlan with
      | none => simpa using ih hbefore
      | some plan =>
        -- A plan is created only by a task that has none.
        obtain ⟨planRef, hbody⟩ := body_of_createdPlan hplan
        have hstarts : e.body.starts = false := by rw [hbody]; rfl
        obtain ⟨-, -, -, -, -, -, hown, -⟩ := (admits_of_not_starts hstarts events).mp hadmits
        rw [hbody, htask] at hown
        simp [hown.1]
    · exact ih hbefore

theorem historyOf_mono (task : String) {before events : List ExecutionEvent}
    (h : before <+: events) : historyOf task before <+: historyOf task events := by
  obtain ⟨after, rfl⟩ := h
  exact ⟨historyOf task after, by simp [historyOf]⟩

theorem said_mono {α : Type} (f : EventBody → Option α) {before events : List ExecutionEvent}
    (h : before <+: events) : said f before <+: said f events := by
  obtain ⟨after, rfl⟩ := h
  exact ⟨said f after, by simp [said]⟩

theorem eq_singleton_of_mem {l : List String} {a : String} (hmem : a ∈ l) (hlen : l.length ≤ 1) :
    l = [a] := by
  cases l with
  | nil => cases hmem
  | cons b l =>
    have hl : l = [] := List.eq_nil_of_length_eq_zero (by simpa using hlen)
    subst hl
    rw [List.mem_singleton.mp hmem]

/-- Every invocation names the one plan of its task, created before it. -/
def PlanLaw (events : List ExecutionEvent) : Prop :=
  ∀ before e after plan invocation, events = before ++ e :: after →
    e.body.invocation = some (plan, invocation) →
    said EventBody.createdPlan (historyOf e.taskId before) = [plan] ∧
      said EventBody.createdPlan (historyOf e.taskId events) = [plan]

theorem admits_invocation {events : List ExecutionEvent} {e : ExecutionEvent}
    {plan invocation : String} (h : Admits events e)
    (hinvocation : e.body.invocation = some (plan, invocation)) :
    plan ∈ said EventBody.createdPlan (historyOf e.taskId events) := by
  have hstarts : e.body.starts = false := by
    cases hbody : e.body with
    | taskStarted envelopeRef => rw [hbody] at hinvocation; cases hinvocation
    | _ => rfl
  obtain ⟨-, -, -, -, -, -, hown, -⟩ := (admits_of_not_starts hstarts events).mp h
  cases hbody : e.body with
  | modelInvoked planId invocationId invocationRef model provider tokensIn tokensOut latencyMs =>
    rw [hbody] at hown hinvocation
    obtain ⟨rfl, -⟩ := Prod.mk.inj (Option.some.inj hinvocation)
    exact hown.2.1
  | engineInvoked planId invocationId invocationRef capabilityId capabilityVersion =>
    rw [hbody] at hown hinvocation
    obtain ⟨rfl, -⟩ := Prod.mk.inj (Option.some.inj hinvocation)
    exact hown.2.1
  | _ => rw [hbody] at hinvocation; cases hinvocation

theorem Admissible.planLaw {events : List ExecutionEvent} (h : Admissible events) :
    PlanLaw events := by
  intro before e after plan invocation hevents hinvocation
  have hmem := admits_invocation (h before e after hevents) hinvocation
  have hfront : before <+: events := ⟨e :: after, hevents.symm⟩
  have hsaid := said_mono EventBody.createdPlan (historyOf_mono e.taskId hfront)
  have hall := eq_singleton_of_mem (hsaid.subset hmem) (h.plans_length e.taskId)
  have hlen := hsaid.length_le
  rw [hall] at hlen
  exact ⟨eq_singleton_of_mem hmem hlen, hall⟩

/-- A receipt is recorded once, by one task. -/
theorem Admissible.receipt_unique {events : List ExecutionEvent} (h : Admissible events) :
    ∀ c ∈ events, ∀ c' ∈ events, ∀ r r', c.body.canonicalReceipt = some r →
      c'.body.canonicalReceipt = some r' → r.receiptId = r'.receiptId → c = c' := by
  induction events using List.reverseRecOn with
  | nil => exact nofun
  | append_singleton events e ih =>
    obtain ⟨hbefore, hadmits⟩ := h.init
    have hnew : ∀ c ∈ events, ∀ r r', c.body.canonicalReceipt = some r →
        e.body.canonicalReceipt = some r' → r.receiptId ≠ r'.receiptId := by
      intro c hc r r' hr hr' hid
      have hbody := body_of_canonicalReceipt hr'
      have hstarts : e.body.starts = false := by rw [hbody]; rfl
      obtain ⟨-, -, -, -, -, -, -, hchain⟩ := (admits_of_not_starts hstarts events).mp hadmits
      rw [hbody] at hchain
      refine hchain.2 ?_
      rw [← hid]
      exact List.mem_map.mpr ⟨r, List.mem_filterMap.mpr ⟨c, hc, hr⟩, rfl⟩
    intro c hc c' hc' r r' hr hr' hid
    rcases List.mem_append.mp hc with hc | hc <;> rcases List.mem_append.mp hc' with hc' | hc'
    · exact ih hbefore c hc c' hc' r r' hr hr' hid
    · rw [List.mem_singleton.mp hc'] at hr'
      exact absurd hid (hnew c hc r r' hr hr')
    · rw [List.mem_singleton.mp hc] at hr
      exact absurd hid.symm (hnew c' hc' r' r hr' hr)
    · rw [List.mem_singleton.mp hc, List.mem_singleton.mp hc']

/-- Every outcome is about a receipt its task recorded before it. -/
def OutcomeLaw (events : List ExecutionEvent) : Prop :=
  ∀ before e after outcome receipt, events = before ++ e :: after →
    e.body.outcome = some (outcome, receipt) →
    ∃ c ∈ before, c.taskId = e.taskId ∧
      ∃ r, c.body.canonicalReceipt = some r ∧ r.receiptId = receipt

theorem admits_outcome {events : List ExecutionEvent} {e : ExecutionEvent}
    {outcome receipt : String} (h : Admits events e)
    (houtcome : e.body.outcome = some (outcome, receipt)) :
    receipt ∈ receiptIds (historyOf e.taskId events) ∧
      receipt ∉ (said EventBody.outcome (historyOf e.taskId events)).map Prod.snd := by
  obtain ⟨acceptance, hbody⟩ := body_of_outcome houtcome
  have hstarts : e.body.starts = false := by rw [hbody]; rfl
  obtain ⟨-, -, -, -, -, -, hown, -⟩ := (admits_of_not_starts hstarts events).mp h
  rw [hbody] at hown
  exact ⟨hown.1, hown.2.2.1⟩

theorem mem_receiptIds {events : List ExecutionEvent} {task receipt : String} :
    receipt ∈ receiptIds (historyOf task events) ↔
      ∃ c ∈ events, c.taskId = task ∧
        ∃ r, c.body.canonicalReceipt = some r ∧ r.receiptId = receipt := by
  simp only [receiptIds, said, historyOf, List.mem_map, List.mem_filterMap, List.mem_filter,
    decide_eq_true_eq]
  constructor
  · rintro ⟨r, ⟨c, ⟨hc, htask⟩, hr⟩, hid⟩
    exact ⟨c, hc, htask, r, hr, hid⟩
  · rintro ⟨c, hc, htask, r, hr, hid⟩
    exact ⟨r, ⟨c, ⟨hc, htask⟩, hr⟩, hid⟩

theorem Admissible.outcomeLaw {events : List ExecutionEvent} (h : Admissible events) :
    OutcomeLaw events := by
  intro before e after outcome receipt hevents houtcome
  exact mem_receiptIds.mp (admits_outcome (h before e after hevents) houtcome).1

/-- No receipt has two outcomes. -/
theorem Admissible.outcomes_nodup {events : List ExecutionEvent} (h : Admissible events) :
    ((said EventBody.outcome events).map Prod.snd).Nodup := by
  induction events using List.reverseRecOn with
  | nil => exact List.nodup_nil
  | append_singleton events e ih =>
    obtain ⟨hbefore, hadmits⟩ := h.init
    rw [said_append, List.map_append]
    cases houtcome : e.body.outcome with
    | none => simpa using ih hbefore
    | some named =>
      obtain ⟨outcome, receipt⟩ := named
      refine List.Nodup.append (ih hbefore) (List.nodup_singleton _) ?_
      rw [Option.toList_some, List.map_singleton, List.disjoint_singleton]
      intro hmem
      obtain ⟨⟨other, receipt'⟩, hother, hsame⟩ := List.mem_map.mp hmem
      obtain ⟨x, hx, hxoutcome⟩ := List.mem_filterMap.mp hother
      obtain ⟨pre, post, hsplit⟩ := List.append_of_mem hx
      obtain ⟨hrecorded, hfresh⟩ := admits_outcome hadmits houtcome
      -- The other outcome is about the same receipt, so it is of the same task.
      obtain ⟨c, hc, hctask, r, hr, hrid⟩ := mem_receiptIds.mp hrecorded
      obtain ⟨c', hc', hctask', r', hr', hrid'⟩ :=
        hbefore.outcomeLaw pre x post other receipt' hsplit hxoutcome
      have hcc : c = c' := by
        refine hbefore.receipt_unique c hc c' ?_ r r' hr hr' ?_
        · rw [hsplit]
          exact List.mem_append_left _ hc'
        · rw [hrid, hrid']
          exact hsame.symm
      refine hfresh (List.mem_map.mpr ⟨(other, receipt'), ?_, hsame⟩)
      refine List.mem_filterMap.mpr ⟨x, List.mem_filter.mpr ⟨hx, ?_⟩, hxoutcome⟩
      rw [decide_eq_true_eq, ← hctask', ← hcc, hctask]

theorem toNat_of_checkedAdd {n m : UInt64} (h : checkedAdd n 1 = some m) :
    m.toNat = n.toNat + 1 := by
  unfold checkedAdd at h
  split_ifs at h with hlt
  have hone : (1 : UInt64).toNat = 1 := rfl
  rw [hone] at hlt
  rw [← Option.some.inj h, UInt64.toNat_add, hone]
  exact Nat.mod_eq_of_lt hlt

/-- Numbered from one, each naming the one before it. -/
def Numbered (receipts : List CanonicalReceipt) : Prop :=
  ∀ (i : ℕ) (r : CanonicalReceipt), receipts[i]? = some r →
    r.receiptSequenceNumber.toNat = i + 1 ∧
      r.previousReceiptId =
        if i = 0 then none else receipts[i - 1]?.map CanonicalReceipt.receiptId

theorem Numbered.append {receipts : List CanonicalReceipt} {r : CanonicalReceipt}
    (h : Numbered receipts) (hfollows : FollowsChain receipts r) :
    Numbered (receipts ++ [r]) := by
  intro i x hx
  rcases Nat.lt_trichotomy i receipts.length with hi | hi | hi
  · rw [List.getElem?_append_left hi] at hx
    rw [List.getElem?_append_left (by omega)]
    exact h i x hx
  · subst hi
    rw [List.getElem?_append_right (Nat.le_refl _), Nat.sub_self] at hx
    obtain rfl := Option.some.inj hx
    unfold FollowsChain at hfollows
    cases hlast : receipts.getLast? with
    | none =>
      rw [hlast] at hfollows
      rw [List.getLast?_eq_none_iff.mp hlast]
      exact ⟨by rw [hfollows.1]; rfl, hfollows.2.1⟩
    | some head =>
      rw [hlast] at hfollows
      have hpos : 0 < receipts.length := by
        apply List.length_pos_of_ne_nil
        rintro rfl
        cases hlast
      rw [List.getLast?_eq_getElem?] at hlast
      have hhead := (h _ head hlast).1
      refine ⟨by rw [toNat_of_checkedAdd hfollows.1]; omega, ?_⟩
      rw [if_neg (by omega), List.getElem?_append_left (by omega), hlast, hfollows.2.1]
      rfl
  · rw [List.getElem?_eq_none (by simp; omega)] at hx
    cases hx

theorem Admissible.chainLaw {events : List ExecutionEvent} (h : Admissible events)
    (chain : String) : Numbered (receiptsOf chain events) := by
  induction events using List.reverseRecOn with
  | nil => exact nofun
  | append_singleton events e ih =>
    obtain ⟨hbefore, hadmits⟩ := h.init
    rw [receiptsOf_append]
    cases hreceipt : e.body.canonicalReceipt with
    | none => simpa using ih hbefore
    | some r =>
      by_cases hchain : r.receiptChainId = chain
      · have hbody := body_of_canonicalReceipt hreceipt
        have hstarts : e.body.starts = false := by rw [hbody]; rfl
        obtain ⟨-, -, -, -, -, -, -, hadmits⟩ :=
          (admits_of_not_starts hstarts events).mp hadmits
        rw [hbody] at hadmits
        simp only [Option.toList_some, hchain, decide_true, List.filter_cons_of_pos,
          List.filter_nil]
        refine (ih hbefore).append ?_
        rw [← hchain]
        exact hadmits.1
      · simpa [hchain] using ih hbefore

/-! ## Appending -/

theorem admits_stored (events : List ExecutionEvent) (e : ExecutionEvent) (n : UInt64)
    (p v : String) : Admits events (stored e n p v) ↔ Admits events e := by
  obtain ⟨taskId, traceId, body, timestamp, sequenceNumber, prevHash⟩ := e
  cases body with
  | canonicalReceiptRecorded receipt =>
    rw [admits_of_not_starts rfl, admits_of_not_starts rfl]
    exact Iff.rfl
  | _ => exact Iff.rfl

/-- The key of an event is read off its payload. -/
theorem idempotencyKey_of_payloadJson {x e : ExecutionEvent}
    (h : x.payloadJson = e.payloadJson) : x.idempotencyKey = e.idempotencyKey := by
  have hpayload := payloadJson_inj.mp h
  calc x.idempotencyKey = x.payload.idempotencyKey := (idempotencyKey_stored x 0 "" "").symm
    _ = e.payload.idempotencyKey := by rw [hpayload]
    _ = e.idempotencyKey := idempotencyKey_stored e 0 "" ""

theorem prepareAppend_eq_none {events : List ExecutionEvent} {e : ExecutionEvent}
    (h : prepareAppend env events e = .ok none) :
    ∃ x ∈ events, x.payloadJson = e.payloadJson := by
  unfold prepareAppend at h
  cases hfind : events.find? fun existing => existing.idempotencyKey = e.idempotencyKey with
  | some x =>
    simp only [hfind] at h
    split_ifs at h with hpayload
    exact ⟨x, List.mem_of_find?_eq_some hfind, hpayload⟩
  | none =>
    simp only [hfind] at h
    split at h
    · obtain ⟨verified, -, h⟩ := except_bind_eq_ok.mp h
      cases verified <;> cases h
    · cases h

theorem prepareAppend_of_mem {events : List ExecutionEvent}
    (hkeys : (events.map ExecutionEvent.idempotencyKey).Nodup) {x e : ExecutionEvent}
    (hx : x ∈ events) (h : x.payloadJson = e.payloadJson) :
    prepareAppend env events e = .ok none := by
  have hkey := idempotencyKey_of_payloadJson h
  unfold prepareAppend
  cases hfind : events.find? fun existing => existing.idempotencyKey = e.idempotencyKey with
  | none =>
    have hnone := List.find?_eq_none.mp hfind x hx
    simp [hkey] at hnone
  | some found =>
    have hfound : found.idempotencyKey = e.idempotencyKey := by
      simpa using List.find?_some hfind
    -- No other event has this key.
    have hsame : found = x := List.inj_on_of_nodup_map hkeys
      (List.mem_of_find?_eq_some hfind) hx (by rw [hfound, hkey])
    subst hsame
    simp [h]

theorem admits_of_prepareAppend {events : List ExecutionEvent} {e : ExecutionEvent}
    {r : LedgerRecord} (h : prepareAppend env events e = .ok (some r)) : Admits events e := by
  obtain ⟨-, hverified, -, n, p, v, hevent⟩ := prepareAppend_eq_some h
  have hadmits := (admissible_of_verified hverified).init.2
  rwa [hevent, admits_stored] at hadmits

/-- What an append can do to a list of events. -/
theorem appendEvents_effect (env : Env) (events : List ExecutionEvent) (e : ExecutionEvent) :
    (∃ x, appendEvents env events e = (.ok true, events ++ [x]) ∧ Admits events e ∧
        x.payloadJson = e.payloadJson ∧ x.idempotencyKey = e.idempotencyKey ∧
        e.idempotencyKey ∉ events.map ExecutionEvent.idempotencyKey) ∨
      (appendEvents env events e = (.ok false, events) ∧
        ∃ x ∈ events, x.payloadJson = e.payloadJson) ∨
      ∃ error, appendEvents env events e = (.error error, events) := by
  unfold appendEvents
  cases hprepare : prepareAppend env events e with
  | error error => exact .inr (.inr ⟨error, rfl⟩)
  | ok prepared =>
    cases prepared with
    | none => exact .inr (.inl ⟨rfl, prepareAppend_eq_none hprepare⟩)
    | some r =>
      dsimp only
      split_ifs
      · exact .inr (.inr ⟨_, rfl⟩)
      · exact .inr (.inr ⟨_, rfl⟩)
      · obtain ⟨-, -, hfresh, n, p, v, hevent⟩ := prepareAppend_eq_some hprepare
        have hkey : r.event.idempotencyKey = e.idempotencyKey := by
          rw [hevent, idempotencyKey_stored]
        have hpayload : r.event.payloadJson = e.payloadJson := by
          rw [payloadJson_inj, hevent, payload_stored]
        refine .inl ⟨_, rfl, admits_of_prepareAppend hprepare, hpayload, hkey, ?_⟩
        intro hmem
        obtain ⟨x, hx, hxkey⟩ := List.mem_map.mp hmem
        have hnone := List.find?_eq_none.mp hfresh x hx
        simp [hxkey] at hnone

theorem appendEvents_of_mem {events : List ExecutionEvent}
    (hkeys : (events.map ExecutionEvent.idempotencyKey).Nodup) {x e : ExecutionEvent}
    (hx : x ∈ events) (h : x.payloadJson = e.payloadJson) :
    (appendEvents env events e).1 = .ok false := by
  unfold appendEvents
  rw [prepareAppend_of_mem hkeys hx h]

theorem appendEvents_keys (env : Env) {events : List ExecutionEvent}
    (h : (events.map ExecutionEvent.idempotencyKey).Nodup) (e : ExecutionEvent) :
    ((appendEvents env events e).2.map ExecutionEvent.idempotencyKey).Nodup := by
  rcases appendEvents_effect env events e with
    ⟨x, happend, -, -, hkey, hfresh⟩ | ⟨happend, -⟩ | ⟨error, happend⟩
  · rw [happend, List.map_append]
    refine List.Nodup.append h (List.nodup_singleton _) ?_
    rw [List.map_singleton, List.disjoint_singleton, hkey]
    exact hfresh
  · rwa [happend]
  · rwa [happend]

/-! ## Every ledger -/

variable (env)

/-- The disk after these appends to no ledger at all. -/
def appendAll (appends : List ExecutionEvent) : Disk :=
  appends.foldl (fun d e => ((appendIfNew env e).run d).final) Disk.empty

/-- The events stored on a disk that no append is pending on. -/
def StoredAs (d : Disk) (events : List ExecutionEvent) : Prop :=
  d.sidecars = .none ∧ readEventsFromFile env d.bytes = .ok events

variable {env}

theorem storedAs_settled {events : List ExecutionEvent} (h : Valid env events) :
    StoredAs env (settledDisk env events) events :=
  ⟨rfl, readEventsFromFile_eq_ok.mpr ⟨rfl, h.fits⟩⟩

/-- A disk that holds a verified ledger with no two events of one key. -/
structure Holds (env : Env) (d : Disk) (events : List ExecutionEvent) : Prop where
  restores : Restores env events d
  storedAs : StoredAs env d events
  keys : (events.map ExecutionEvent.idempotencyKey).Nodup

theorem holds_empty : Holds env Disk.empty [] where
  restores := .absent
  storedAs := ⟨rfl, readEventsFromFile_eq_ok.mpr ⟨rfl, valid_nil.fits⟩⟩
  keys := List.nodup_nil

/-- One append keeps it. -/
theorem Holds.append {d : Disk} {events : List ExecutionEvent} (h : Holds env d events)
    (e : ExecutionEvent) :
    Holds env ((appendIfNew env e).run d).final (appendEvents env events e).2 ∧
      ((appendIfNew env e).run d).result = (appendEvents env events e).1 := by
  obtain ⟨l, -, hrun⟩ := h.restores.append e
  have hvalid := h.restores.valid.appendEvents e
  rw [hrun]
  exact ⟨⟨.settled hvalid, storedAs_settled hvalid, appendEvents_keys env h.keys e⟩, rfl⟩

theorem appendAll_append (env : Env) (appends : List ExecutionEvent) (e : ExecutionEvent) :
    appendAll env (appends ++ [e]) = ((appendIfNew env e).run (appendAll env appends)).final := by
  rw [appendAll, List.foldl_append, List.foldl_cons, List.foldl_nil, appendAll]

theorem holds_appendAll (env : Env) (appends : List ExecutionEvent) :
    ∃ events, Holds env (appendAll env appends) events := by
  induction appends using List.reverseRecOn with
  | nil => exact ⟨[], holds_empty⟩
  | append_singleton appends e ih =>
    obtain ⟨events, hevents⟩ := ih
    refine ⟨(appendEvents env events e).2, ?_⟩
    rw [appendAll_append]
    exact (hevents.append e).1

/-- What holds of the stored events, whichever events were appended. -/
structure Lawful (env : Env) (events : List ExecutionEvent) : Prop where
  verified : verifyEvents env events = .ok true
  keys : (events.map ExecutionEvent.idempotencyKey).Nodup
  plans : PlanLaw events
  outcomes : OutcomeLaw events
  outcomesOnce : ((said EventBody.outcome events).map Prod.snd).Nodup
  chains : ∀ chain, Numbered (receiptsOf chain events)

theorem Holds.lawful {d : Disk} {events : List ExecutionEvent} (h : Holds env d events) :
    Lawful env events := by
  have hadmissible := admissible_of_verified h.restores.valid.verified
  exact ⟨h.restores.valid.verified, h.keys, hadmissible.planLaw, hadmissible.outcomeLaw,
    hadmissible.outcomes_nodup, hadmissible.chainLaw⟩

/-- Appends of any events leave a ledger that keeps the laws. The next append stores one event
more, at the end, or leaves the ledger as it is: when its payload is stored already it succeeds,
and otherwise it is refused unless the events so far admit it. -/
theorem appendAll_lawful (env : Env) (appends : List ExecutionEvent) :
    ∃ events, StoredAs env (appendAll env appends) events ∧ Lawful env events ∧
      ∀ e, ∃ events', StoredAs env (appendAll env (appends ++ [e])) events' ∧
        ((∃ x, ((appendIfNew env e).run (appendAll env appends)).result = .ok true ∧
            events' = events ++ [x] ∧ x.payloadJson = e.payloadJson) ∨
          (((appendIfNew env e).run (appendAll env appends)).result = .ok false ∧
            events' = events ∧ ∃ x ∈ events, x.payloadJson = e.payloadJson) ∨
          ∃ error, ((appendIfNew env e).run (appendAll env appends)).result = .error error ∧
            events' = events) ∧
        ((∃ x ∈ events, x.payloadJson = e.payloadJson) →
          ((appendIfNew env e).run (appendAll env appends)).result = .ok false) ∧
        ((∀ x ∈ events, x.payloadJson ≠ e.payloadJson) → ¬ Admits events e →
          ∃ error, ((appendIfNew env e).run (appendAll env appends)).result = .error error) := by
  obtain ⟨events, hholds⟩ := holds_appendAll env appends
  refine ⟨events, hholds.storedAs, hholds.lawful, fun e => ?_⟩
  obtain ⟨hnext, hresult⟩ := hholds.append e
  rw [appendAll_append, hresult]
  refine ⟨(appendEvents env events e).2, hnext.storedAs, ?_, ?_, ?_⟩
  · rcases appendEvents_effect env events e with
      ⟨x, happend, -, hpayload, -⟩ | ⟨happend, hstored⟩ | ⟨error, happend⟩
    · rw [happend]
      exact .inl ⟨x, rfl, rfl, hpayload⟩
    · rw [happend]
      exact .inr (.inl ⟨rfl, rfl, hstored⟩)
    · rw [happend]
      exact .inr (.inr ⟨error, rfl, rfl⟩)
  · rintro ⟨x, hx, hpayload⟩
    exact appendEvents_of_mem hholds.keys hx hpayload
  · intro hunstored hrefused
    rcases appendEvents_effect env events e with
      ⟨x, -, hadmits, -⟩ | ⟨-, x, hx, hpayload⟩ | ⟨error, happend⟩
    · exact absurd hadmits hrefused
    · exact absurd hpayload (hunstored x hx)
    · rw [happend]
      exact ⟨error, rfl⟩

end LeanCtx.Execution
