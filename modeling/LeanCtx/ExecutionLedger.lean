import LeanCtx.ByteText
import LeanCtx.Interrupt
import LeanCtx.JsonText
import LeanCtx.SavingsLedger

/-!
# The execution ledger

An append-only ledger of what tasks did: plans, delivered context, model and
engine invocations, receipts, outcomes and decisions of many tasks in one
sequence. Every event is numbered and names the hash of the event before it,
and the events of a task follow a lifecycle that is checked by replaying the
whole ledger.

The ledger is a file with one record a line. An append first publishes a
journal of the record it is about to write, so that an interrupted append can
be completed by the next one.
-/

namespace LeanCtx.Execution

open ByteText Interrupt JsonText

/-! ## Events -/

structure ContextBalance where
  originalTokens : UInt64
  materializedTokens : UInt64
  deliveredTokens : UInt64
  providerBilledTokens : UInt64
deriving DecidableEq, Repr

inductive AcceptanceState
  | accepted
  | rejected
  | unknown
deriving DecidableEq, Repr

structure CanonicalReceipt where
  invocationId : String
  receiptId : String
  receiptRef : String
  receiptDigest : String
  receiptChainId : String
  receiptSequenceNumber : UInt64
  previousReceiptId : Option String
  previousSignatureDigest : Option String
  entryHash : String
deriving DecidableEq, Repr

/-- What the kinds of event carry beside the fields they all have. -/
inductive EventBody
  | taskStarted (envelopeRef : String)
  | planCreated (planId planRef : String)
  | contextDelivered (contextBalance : ContextBalance)
  | modelInvoked (planId invocationId invocationRef model provider : String)
      (tokensIn tokensOut latencyMs : UInt64)
  | engineInvoked (planId invocationId invocationRef capabilityId capabilityVersion : String)
  | receiptSigned (receiptId receiptHash signature : String)
  | canonicalReceiptRecorded (receipt : CanonicalReceipt)
  | outcomeRecorded (outcomeId receiptId : String) (acceptance : AcceptanceState)
  | decisionRecorded (decisionId kind selected : String)
deriving DecidableEq, Repr

structure ExecutionEvent where
  taskId : String
  traceId : String
  body : EventBody
  timestamp : String
  sequenceNumber : UInt64
  prevHash : String
deriving DecidableEq, Repr

inductive IdentityKind
  | task
  | plan
  | invocation
  | receipt
  | canonicalReceipt
  | outcome
  | decision
  | context
deriving DecidableEq, Repr

/-- Every kind of event has one. -/
def ExecutionEvent.idempotencyKey (e : ExecutionEvent) : IdentityKind × String × String :=
  match e.body with
  | .taskStarted _ => (.task, e.taskId, "")
  | .planCreated planId _ => (.plan, e.taskId, planId)
  | .modelInvoked _ invocationId _ _ _ _ _ _ => (.invocation, e.taskId, invocationId)
  | .engineInvoked _ invocationId _ _ _ => (.invocation, e.taskId, invocationId)
  | .receiptSigned receiptId _ _ => (.receipt, e.taskId, receiptId)
  | .canonicalReceiptRecorded receipt => (.canonicalReceipt, receipt.receiptRef, "")
  | .outcomeRecorded outcomeId _ _ => (.outcome, e.taskId, outcomeId)
  | .decisionRecorded decisionId _ _ => (.decision, e.taskId, decisionId)
  | .contextDelivered _ => (.context, e.taskId, "")

def ExecutionEvent.setChainFields (e : ExecutionEvent) (sequenceNumber : UInt64)
    (prevHash : String) : ExecutionEvent :=
  { e with sequenceNumber := sequenceNumber, prevHash := prevHash }

def ExecutionEvent.setEntryHash (e : ExecutionEvent) (value : String) : ExecutionEvent :=
  match e.body with
  | .canonicalReceiptRecorded receipt =>
    { e with body := .canonicalReceiptRecorded { receipt with entryHash := value } }
  | _ => e

def ExecutionEvent.entryHash (e : ExecutionEvent) : Option String :=
  match e.body with
  | .canonicalReceiptRecorded receipt => some receipt.entryHash
  | _ => none

/-! ### Their texts -/

def countDoc (n : UInt64) : Doc := .num n.toNat

def ContextBalance.doc (b : ContextBalance) : Doc :=
  .obj (fields [("original_tokens", countDoc b.originalTokens),
    ("materialized_tokens", countDoc b.materializedTokens),
    ("delivered_tokens", countDoc b.deliveredTokens),
    ("provider_billed_tokens", countDoc b.providerBilledTokens)])

def AcceptanceState.str : AcceptanceState → String
  | .accepted => "accepted"
  | .rejected => "rejected"
  | .unknown => "unknown"

def EventBody.variant : EventBody → String
  | .taskStarted .. => "TaskStarted"
  | .planCreated .. => "PlanCreated"
  | .contextDelivered .. => "ContextDelivered"
  | .modelInvoked .. => "ModelInvoked"
  | .engineInvoked .. => "EngineInvoked"
  | .receiptSigned .. => "ReceiptSigned"
  | .canonicalReceiptRecorded .. => "CanonicalReceiptRecorded"
  | .outcomeRecorded .. => "OutcomeRecorded"
  | .decisionRecorded .. => "DecisionRecorded"

/-- The fields declared between the trace and the timestamp. -/
def EventBody.entries : EventBody → List (String × Doc)
  | .taskStarted envelopeRef => [("envelope_ref", .str envelopeRef)]
  | .planCreated planId planRef => [("plan_id", .str planId), ("plan_ref", .str planRef)]
  | .contextDelivered balance => [("context_balance", balance.doc)]
  | .modelInvoked planId invocationId invocationRef model provider tokensIn tokensOut latencyMs =>
    [("plan_id", .str planId), ("invocation_id", .str invocationId),
      ("invocation_ref", .str invocationRef), ("model", .str model), ("provider", .str provider),
      ("tokens_in", countDoc tokensIn), ("tokens_out", countDoc tokensOut),
      ("latency_ms", countDoc latencyMs)]
  | .engineInvoked planId invocationId invocationRef capabilityId capabilityVersion =>
    [("plan_id", .str planId), ("invocation_id", .str invocationId),
      ("invocation_ref", .str invocationRef), ("capability_id", .str capabilityId),
      ("capability_version", .str capabilityVersion)]
  | .receiptSigned receiptId receiptHash signature =>
    [("receipt_id", .str receiptId), ("receipt_hash", .str receiptHash),
      ("signature", .str signature)]
  | .canonicalReceiptRecorded r =>
    [("invocation_id", .str r.invocationId), ("receipt_id", .str r.receiptId),
      ("receipt_ref", .str r.receiptRef), ("receipt_digest", .str r.receiptDigest),
      ("receipt_chain_id", .str r.receiptChainId),
      ("receipt_sequence_number", countDoc r.receiptSequenceNumber),
      ("previous_receipt_id", optionDoc r.previousReceiptId),
      ("previous_signature_digest", optionDoc r.previousSignatureDigest)]
  | .outcomeRecorded outcomeId receiptId acceptance =>
    [("outcome_id", .str outcomeId), ("receipt_id", .str receiptId),
      ("accepted", .str acceptance.str)]
  | .decisionRecorded decisionId kind selected =>
    [("decision_id", .str decisionId), ("kind", .str kind), ("selected", .str selected)]

/-- The field declared after the chain fields. -/
def EventBody.lastEntries : EventBody → List (String × Doc)
  | .canonicalReceiptRecorded r => [("entry_hash", .str r.entryHash)]
  | _ => []

def ExecutionEvent.doc (e : ExecutionEvent) : Doc :=
  .obj (fields [(e.body.variant, .obj (fields (
    [("task_id", .str e.taskId), ("trace_id", .str e.traceId)] ++ e.body.entries ++
    [("timestamp", .str e.timestamp), ("sequence_number", countDoc e.sequenceNumber),
      ("prev_hash", .str e.prevHash)] ++ e.body.lastEntries)))])

def ExecutionEvent.canonicalJson (e : ExecutionEvent) : String := e.doc.text

/-- The event without what the store assigns. -/
def ExecutionEvent.payload (e : ExecutionEvent) : ExecutionEvent :=
  (e.setChainFields 0 "").setEntryHash ""

def ExecutionEvent.payloadJson (e : ExecutionEvent) : String := e.payload.canonicalJson

def ExecutionEvent.hashableJson (e : ExecutionEvent) : String := (e.setEntryHash "").canonicalJson

/-! ### An event is read off its text -/

theorem countDoc_inj {m n : UInt64} (h : countDoc m = countDoc n) : m = n :=
  UInt64.toNat_inj.mp (Doc.num.inj h)

theorem AcceptanceState.str_inj {a b : AcceptanceState} (h : a.str = b.str) : a = b := by
  cases a <;> cases b <;> first | rfl | exact absurd h (by decide)

theorem ContextBalance.doc_inj {a b : ContextBalance} (h : a.doc = b.doc) : a = b := by
  have hfields := fields_inj (Doc.obj.inj h)
  simp only [List.cons.injEq, Prod.mk.injEq, true_and, and_true] at hfields
  obtain ⟨h₁, h₂, h₃, h₄⟩ := hfields
  cases a
  cases b
  simp only [ContextBalance.mk.injEq]
  exact ⟨countDoc_inj h₁, countDoc_inj h₂, countDoc_inj h₃, countDoc_inj h₄⟩

theorem EventBody.entries_inj {a b : EventBody} (hvariant : a.variant = b.variant)
    (h : a.entries = b.entries) (hlast : a.lastEntries = b.lastEntries) : a = b := by
  cases a <;> cases b <;> simp only [variant, String.reduceEq] at hvariant
  all_goals
    simp only [entries, lastEntries, List.cons.injEq, Prod.mk.injEq, Doc.str.injEq, true_and,
      and_true] at h hlast
  case taskStarted.taskStarted => rw [h]
  case planCreated.planCreated => rw [h.1, h.2]
  case contextDelivered.contextDelivered => rw [ContextBalance.doc_inj h]
  case modelInvoked.modelInvoked =>
    obtain ⟨rfl, rfl, rfl, rfl, rfl, h₁, h₂, h₃⟩ := h
    rw [countDoc_inj h₁, countDoc_inj h₂, countDoc_inj h₃]
  case engineInvoked.engineInvoked =>
    obtain ⟨rfl, rfl, rfl, rfl, rfl⟩ := h
    rfl
  case receiptSigned.receiptSigned => rw [h.1, h.2.1, h.2.2]
  case canonicalReceiptRecorded.canonicalReceiptRecorded r r' =>
    obtain ⟨h₁, h₂, h₃, h₄, h₅, h₆, h₇, h₈⟩ := h
    congr 1
    cases r
    cases r'
    simp only [CanonicalReceipt.mk.injEq]
    exact ⟨h₁, h₂, h₃, h₄, h₅, countDoc_inj h₆, optionDoc_inj h₇, optionDoc_inj h₈, hlast⟩
  case outcomeRecorded.outcomeRecorded =>
    obtain ⟨rfl, rfl, hstate⟩ := h
    rw [AcceptanceState.str_inj hstate]
  case decisionRecorded.decisionRecorded => rw [h.1, h.2.1, h.2.2]

theorem EventBody.entries_length {a b : EventBody} (hvariant : a.variant = b.variant) :
    a.entries.length = b.entries.length := by
  cases a <;> cases b <;> simp only [variant, String.reduceEq] at hvariant
  all_goals rfl

theorem ExecutionEvent.doc_inj {a b : ExecutionEvent} (h : a.doc = b.doc) : a = b := by
  obtain ⟨hentry, -⟩ := List.cons.inj (fields_inj (Doc.obj.inj h))
  obtain ⟨hvariant, hdoc⟩ := Prod.mk.inj hentry
  have hfields := fields_inj (Doc.obj.inj hdoc)
  simp only [List.cons_append, List.nil_append, List.append_assoc, List.cons.injEq,
    Prod.mk.injEq, Doc.str.injEq, true_and] at hfields
  obtain ⟨htask, htrace, hrest⟩ := hfields
  obtain ⟨hbody, hrest⟩ := List.append_inj hrest (EventBody.entries_length hvariant)
  simp only [List.cons.injEq, Prod.mk.injEq, Doc.str.injEq, true_and] at hrest
  obtain ⟨htime, hsequence, hprev, hlast⟩ := hrest
  have hbodies := EventBody.entries_inj hvariant hbody hlast
  cases a
  cases b
  simp only [ExecutionEvent.mk.injEq]
  exact ⟨htask, htrace, hbodies, htime, countDoc_inj hsequence, hprev⟩

theorem payloadJson_inj {a b : ExecutionEvent} :
    a.payloadJson = b.payloadJson ↔ a.payload = b.payload :=
  ⟨fun h => ExecutionEvent.doc_inj (Doc.text_inj h),
    fun h => congrArg ExecutionEvent.canonicalJson h⟩

/-! ## Records and journals -/

def ledgerRecordSchema : String := "lean-ctx.execution-ledger-record.v1"
def ledgerRecordKind : String := "execution_event"
def appendJournalSchema : String := "lean-ctx.execution-ledger-append-journal.v1"
def maxLedgerRecordBytes : ℕ := 1024 * 1024
def maxAppendJournalBytes : ℕ := maxLedgerRecordBytes * 2 + 1024

structure LedgerRecord where
  schema : String
  kind : String
  event : ExecutionEvent
  entryHash : String
deriving DecidableEq, Repr

def LedgerRecord.doc (r : LedgerRecord) : Doc :=
  .obj (fields [("schema", .str r.schema), ("kind", .str r.kind), ("event", r.event.doc),
    ("entry_hash", .str r.entryHash)])

def LedgerRecord.json (r : LedgerRecord) : String := r.doc.text

structure AppendJournal where
  schema : String
  previousLen : ℕ
  previousSha256 : String
  record : String
  recordSha256 : String
deriving DecidableEq, Repr

def AppendJournal.doc (j : AppendJournal) : Doc :=
  .obj (fields [("schema", .str j.schema), ("previous_len", .num j.previousLen),
    ("previous_sha256", .str j.previousSha256), ("record", .str j.record),
    ("record_sha256", .str j.recordSha256)])

def AppendJournal.json (j : AppendJournal) : String := j.doc.text

theorem LedgerRecord.json_inj {a b : LedgerRecord} (h : a.json = b.json) : a = b := by
  have hfields := fields_inj (Doc.obj.inj (Doc.text_inj h))
  simp only [List.cons.injEq, Prod.mk.injEq, Doc.str.injEq, true_and, and_true] at hfields
  obtain ⟨hschema, hkind, hevent, hhash⟩ := hfields
  cases a
  cases b
  simp only [LedgerRecord.mk.injEq]
  exact ⟨hschema, hkind, ExecutionEvent.doc_inj hevent, hhash⟩

theorem AppendJournal.json_inj {a b : AppendJournal} (h : a.json = b.json) : a = b := by
  have hfields := fields_inj (Doc.obj.inj (Doc.text_inj h))
  simp only [List.cons.injEq, Prod.mk.injEq, Doc.str.injEq, Doc.num.injEq, true_and,
    and_true] at hfields
  cases a
  cases b
  simpa only [AppendJournal.mk.injEq] using hfields

/-- SHA-256 in hexadecimal, and reading records and journals from JSON: what was written as
JSON is read back. -/
structure Env where
  sha256Hex : Bytes → String
  readRecord : String → Option LedgerRecord
  readJournal : String → Option AppendJournal
  readRecord_json : ∀ r : LedgerRecord, readRecord r.json = some r
  readJournal_json : ∀ j : AppendJournal, readJournal j.json = some j

inductive IoErrorKind
  | alreadyExists
  | notFound
deriving DecidableEq, Repr

inductive LedgerError
  | io (kind : IoErrorKind)
  | serialization
  | invalidChain (detail : String)
  | invalidRecord (detail : String)
deriving DecidableEq, Repr

/-! ## Verification -/

def genesis : String := "genesis"

def Env.hashEvent (env : Env) (e : ExecutionEvent) : String :=
  Savings.computeHash (fun text => env.sha256Hex (utf8 text)) e.prevHash e.hashableJson

def checkedAdd (n m : UInt64) : Option UInt64 :=
  if n.toNat + m.toNat < UInt64.size then some (n + m) else none

/-- Sixty-four lower-case hexadecimal digits after the name of the hash. -/
def isSha256 (value : String) : Bool :=
  "sha256:".toList.isPrefixOf value.toList && (value.toList.drop 7).length == 64 &&
    (value.toList.drop 7).all fun c => c.isDigit || ('a' ≤ c && c ≤ 'f')

structure TaskState where
  traceId : String
  plans : Finset String := ∅
  invocations : Finset String := ∅
  legacyReceipts : Finset String := ∅
  canonicalReceipts : Finset String := ∅
  canonicalOutcomes : Finset String := ∅
  outcomes : Finset String := ∅
  decisions : Finset String := ∅
  contextDelivered : Bool := false

/-- The tasks, the last receipt of every receipt chain, and the receipts of all tasks. -/
structure Lifecycle where
  tasks : Std.ExtTreeMap String TaskState := ∅
  receiptChains : Std.ExtTreeMap String (UInt64 × String) := ∅
  canonicalReceiptIds : Finset String := ∅

def Lifecycle.setTask (life : Lifecycle) (taskId : String) (state : TaskState) : Lifecycle :=
  { life with tasks := life.tasks.insert taskId state }

/-- Whether the receipt is the next one of its chain. -/
def Lifecycle.validPredecessor (life : Lifecycle) (r : CanonicalReceipt) : Bool :=
  match life.receiptChains[r.receiptChainId]? with
  | none =>
    r.receiptSequenceNumber == 1 && r.previousReceiptId == none &&
      r.previousSignatureDigest == none
  | some (sequence, head) =>
    checkedAdd sequence 1 == some r.receiptSequenceNumber && r.previousReceiptId == some head &&
      r.previousSignatureDigest.any isSha256

/-- What the event makes of its task, and nothing if the task does not admit it. -/
def TaskState.next (state : TaskState) : EventBody → Option TaskState
  | .taskStarted _ => none
  | .planCreated planId _ =>
    if state.plans = ∅ ∧ planId ≠ "" ∧ planId ∉ state.plans then
      some { state with plans := insert planId state.plans }
    else none
  | .contextDelivered _ =>
    if state.contextDelivered ∨ state.plans = ∅ then none
    else some { state with contextDelivered := true }
  | .modelInvoked planId invocationId invocationRef _ provider _ _ _ =>
    if (state.contextDelivered ∨ provider = "savings-ledger") ∧ planId ∈ state.plans ∧
        invocationId ≠ "" ∧ invocationRef ≠ "" ∧ invocationId ∉ state.invocations then
      some { state with invocations := insert invocationId state.invocations }
    else none
  | .engineInvoked planId invocationId invocationRef capabilityId capabilityVersion =>
    if state.contextDelivered ∧ planId ∈ state.plans ∧ invocationId ≠ "" ∧ invocationRef ≠ "" ∧
        capabilityId ≠ "" ∧ capabilityVersion ≠ "" ∧ invocationId ∉ state.invocations then
      some { state with invocations := insert invocationId state.invocations }
    else none
  | .receiptSigned receiptId _ _ =>
    if state.invocations ≠ ∅ ∧ receiptId ≠ "" ∧ receiptId ∉ state.legacyReceipts then
      some { state with legacyReceipts := insert receiptId state.legacyReceipts }
    else none
  | .canonicalReceiptRecorded r =>
    if state.contextDelivered ∧ r.invocationId ∈ state.invocations ∧ isSha256 r.receiptId ∧
        isSha256 r.receiptDigest ∧ r.receiptRef = "id:" ++ r.receiptDigest ∧
        r.receiptChainId ≠ "" ∧ r.receiptId ∉ state.canonicalReceipts then
      some { state with canonicalReceipts := insert r.receiptId state.canonicalReceipts }
    else none
  | .outcomeRecorded outcomeId receiptId _ =>
    if receiptId ∈ state.canonicalReceipts ∧ outcomeId ≠ "" ∧
        receiptId ∉ state.canonicalOutcomes ∧ outcomeId ∉ state.outcomes then
      some { state with
        canonicalOutcomes := insert receiptId state.canonicalOutcomes
        outcomes := insert outcomeId state.outcomes }
    else none
  | .decisionRecorded decisionId _ _ =>
    if decisionId ≠ "" ∧ decisionId ∉ state.decisions then
      some { state with decisions := insert decisionId state.decisions }
    else none

/-- The receipt takes its place at the end of its chain, across all tasks. -/
def Lifecycle.chainReceipt (life : Lifecycle) : EventBody → Option Lifecycle
  | .canonicalReceiptRecorded r =>
    if life.validPredecessor r ∧ r.receiptId ∉ life.canonicalReceiptIds then
      some { life with
        canonicalReceiptIds := insert r.receiptId life.canonicalReceiptIds
        receiptChains :=
          life.receiptChains.insert r.receiptChainId (r.receiptSequenceNumber, r.receiptId) }
    else none
  | _ => some life

/-- The state after the event, and nothing if the histories so far do not admit it. -/
def validateLifecycle (e : ExecutionEvent) (life : Lifecycle) : Option Lifecycle :=
  if e.taskId = "" ∨ e.traceId = "" ∨ e.timestamp = "" then none
  else match e.body, life.tasks[e.taskId]? with
    | .taskStarted _, none => some (life.setTask e.taskId { traceId := e.traceId })
    | .taskStarted _, some _ => none
    | _, none => none
    | body, some state =>
      if state.traceId ≠ e.traceId then none
      else do
        let state ← state.next body
        let life ← life.chainReceipt body
        return life.setTask e.taskId state

structure Verifier where
  index : ℕ := 0
  expectedPrevious : String := genesis
  expectedSequence : UInt64 := 1
  life : Lifecycle := {}

/-- One event of the loop: an error, a refusal, or the state for the next event. -/
def Verifier.step (env : Env) (v : Verifier) (e : ExecutionEvent) :
    Except LedgerError (Option Verifier) :=
  if e.sequenceNumber ≠ v.expectedSequence then .ok none
  else if e.prevHash ≠ v.expectedPrevious then .ok none
  else
    let actualHash := env.hashEvent e
    if e.entryHash.any (· ≠ actualHash) then .ok none
    else if 0 < v.index ∧ actualHash = "" then
      .error (.invalidChain "event hash unexpectedly empty")
    else match validateLifecycle e v.life with
      | none => .ok none
      | some life =>
        match checkedAdd v.expectedSequence 1 with
        | none => .error (.invalidChain "execution ledger sequence number overflow")
        | some next => .ok (some ⟨v.index + 1, actualHash, next, life⟩)

def verifyFrom (env : Env) (v : Verifier) : List ExecutionEvent → Except LedgerError Bool
  | [] => .ok true
  | e :: rest =>
    match v.step env e with
    | .error error => .error error
    | .ok none => .ok false
    | .ok (some v') => verifyFrom env v' rest

def verifyEvents (env : Env) (events : List ExecutionEvent) : Except LedgerError Bool :=
  verifyFrom env {} events

/-! ## Preparing an append -/

/-- The record that is appended after `events`, or nothing when the event is stored already. -/
def prepareAppend (env : Env) (events : List ExecutionEvent) (event : ExecutionEvent) :
    Except LedgerError (Option LedgerRecord) :=
  match events.find? fun existing => existing.idempotencyKey = event.idempotencyKey with
  | some existing =>
    if existing.payloadJson = event.payloadJson then .ok none
    else .error (.invalidRecord "event identity already exists with different payload")
  | none => do
    let previousHash :=
      match events.getLast? with
      | some previous => env.hashEvent previous
      | none => genesis
    let last := (events.getLast?.map ExecutionEvent.sequenceNumber).getD 1
    let some sequenceNumber := checkedAdd last (if events = [] then 0 else 1)
      | .error (.invalidRecord "execution ledger sequence number overflow")
    let event := event.setChainFields sequenceNumber previousHash
    let entryHash := env.hashEvent event
    let event := event.setEntryHash entryHash
    if ← verifyEvents env (events ++ [event]) then
      return some ⟨ledgerRecordSchema, ledgerRecordKind, event, entryHash⟩
    else .error (.invalidChain "event violates execution lifecycle")

/-! ## Reading records -/

def parseCanonicalEvent (env : Env) (line : String) : Except LedgerError ExecutionEvent :=
  match env.readRecord line with
  | none => .error .serialization
  | some record =>
    if record.schema ≠ ledgerRecordSchema ∨ record.kind ≠ ledgerRecordKind then
      .error (.invalidRecord "unsupported execution ledger record schema or kind")
    else if record.json ≠ line then
      .error (.invalidRecord "execution ledger record is not canonical JSON")
    else if env.hashEvent record.event ≠ record.entryHash then
      .error (.invalidChain "execution ledger record digest mismatch")
    else .ok record.event

/-- The events of the lines from line `lineNumber` on. -/
def readLines (env : Env) (lineNumber : ℕ) : List Bytes → Except LedgerError (List ExecutionEvent)
  | [] => .ok []
  | line :: rest =>
    if maxLedgerRecordBytes + 1 < line.length + 1 then
      .error (.invalidRecord "execution ledger record exceeds byte limit")
    else match fromUtf8 line with
      | none => .error (.invalidRecord s!"ledger record at index {lineNumber} is not UTF-8")
      | some text =>
        if text.toList.all isWhitespace then
          .error (.invalidRecord s!"empty line at index {lineNumber}")
        else do
          let event ← parseCanonicalEvent env text
          let events ← readLines env (lineNumber + 1) rest
          return event :: events

def readCompleteEventsAndTail (env : Env) (bytes : Bytes) :
    Except LedgerError (List ExecutionEvent × Bytes) := do
  let events ← readLines env 0 (splitLines bytes).1
  if maxLedgerRecordBytes + 1 < (splitLines bytes).2.length then
    .error (.invalidRecord "execution ledger record exceeds byte limit")
  else return (events, (splitLines bytes).2)

def readEventsFromFile (env : Env) (bytes : Bytes) : Except LedgerError (List ExecutionEvent) := do
  let (events, tail) ← readCompleteEventsAndTail env bytes
  if tail ≠ [] then
    .error (.invalidRecord "execution ledger has an unterminated final record")
  else return events

end LeanCtx.Execution
