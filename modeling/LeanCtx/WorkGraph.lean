import LeanCtx.OrdMap
import LeanCtx.Word

/-!
# The bounded work graph: data model and validators

Nodes, chain budgets, receipts and the graph record of `work_graph.rs`, with the
validators that guard every field. The hash behind execution fences and spend
ids (`blake3`, hexadecimal) is a parameter: nothing below depends on its values.
-/

namespace LeanCtx

def maxDeliveryAttempts : ℕ := 2
def maxGraphNodes : ℕ := 256
def maxFanOutLimit : ℕ := 16
def maxDepthLimit : ℕ := 8
def maxLocalConcurrencyLimit : ℕ := 32
def maxIdentifierBytes : ℕ := 128
def maxResultClaims : ℕ := 64
def maxPathClaims : ℕ := 64
def maxCascadeDepth : ℕ := 5

inductive ChildOutcome
  | accepted | rejected | partialResult
  deriving DecidableEq, Repr

inductive UsageSource
  | measured | reported
  deriving DecidableEq, Repr

inductive NodeStatus
  | pending | active | completed | stopped | failed
  deriving DecidableEq, Repr

inductive StopReason
  | budgetExhausted | stale | redundant | parentStopped | manualStop | depthExceeded
  | fanOutExceeded | policyDenied | leaseLost | duplicate | lowValue | executionFailed
  deriving DecidableEq, Repr

structure ResultClaim where
  key : String
  value : String
  deriving DecidableEq, Repr

structure ChildExecutionReceipt where
  receiptId : String
  nodeId : String
  outcomeRef : String
  outcome : ChildOutcome
  tokensConsumed : UInt64
  costMicrosConsumed : UInt64
  executionFence : Option String
  claims : List ResultClaim
  usageSource : UsageSource
  deriving DecidableEq, Repr

structure MeasuredExecutionSpend where
  spendId : String
  nodeId : String
  outcomeRefs : List String
  tokensConsumed : UInt64
  costMicrosConsumed : UInt64
  executionFence : String
  deriving DecidableEq, Repr

structure WorkNodeBudget where
  tokensAllocated : UInt64
  tokensConsumed : UInt64
  costMicrosAllocated : UInt64
  costMicrosConsumed : UInt64
  deriving DecidableEq, Repr

namespace WorkNodeBudget

def tokensRemaining (b : WorkNodeBudget) : UInt64 := saturatingSub b.tokensAllocated b.tokensConsumed

def costRemaining (b : WorkNodeBudget) : UInt64 :=
  saturatingSub b.costMicrosAllocated b.costMicrosConsumed

def isExhausted (b : WorkNodeBudget) : Bool := b.tokensRemaining == 0 || b.costRemaining == 0

/-- The reservation of a child nobody reserved for. -/
def zero : WorkNodeBudget := ⟨0, 0, 0, 0⟩

end WorkNodeBudget

structure ChainBudget where
  chainId : String
  rootBudgetTokens : UInt64
  totalConsumedTokens : UInt64
  totalAllocatedTokens : UInt64
  rootBudgetCostMicros : UInt64
  totalConsumedCostMicros : UInt64
  totalAllocatedCostMicros : UInt64
  unauthorizedTokens : UInt64
  unauthorizedCostMicros : UInt64
  depth : ℕ
  deriving DecidableEq, Repr

structure WorkNode where
  nodeId : String
  agentId : String
  parentNodeId : Option String
  capsuleRef : String
  status : NodeStatus
  budget : WorkNodeBudget
  depth : ℕ
  stopReason : Option StopReason
  outcomeRef : Option String
  claimAttempt : UInt32
  deliveryAttempt : Option ℕ
  executionFence : Option String
  leaseExpiresEpochMs : Option ℕ
  pathClaims : List String
  taskRef : String
  parentTaskRef : Option String
  policyRef : String
  expectedOutcomeRef : String
  executionStarted : Bool
  deriving DecidableEq, Repr

structure BoundedWorkGraph where
  graphId : String
  nodes : OrdMap String WorkNode
  children : OrdMap String (List String)
  chainBudgets : OrdMap String ChainBudget
  pendingChildBudgets : OrdMap String WorkNodeBudget
  pendingChildParents : OrdMap String String
  receipts : OrdMap String ChildExecutionReceipt
  failedSpend : OrdMap String MeasuredExecutionSpend
  reapedExecutions : OrdMap String String
  acceptedPath : OrdSet String
  maxLocalConcurrency : ℕ
  maxFanOut : ℕ
  maxDepth : ℕ

inductive CascadeError
  | zeroAllocation
  | depthLimitExceeded (depth maximumDepth : ℕ)
  | lineageCycle (agentId : String)
  deriving DecidableEq, Repr

inductive WorkGraphError
  | capacityExceeded
  | duplicateNode (nodeId : String)
  | nodeNotFound (nodeId : String)
  | parentNotActive (nodeId : String)
  | depthExceeded (maxDepth : ℕ)
  | fanOutExceeded (maxFanOut : ℕ)
  | budgetExceedsParent (childRequested parentRemaining : UInt64)
  | invalidTransition (nodeId : String)
  | localConcurrencyExceeded (limit : ℕ)
  | invalidIdentifier (field : String)
  | invalidBudget
  | duplicateReceipt (receiptId : String)
  | receiptExceedsBudget (nodeId : String)
  | missingReceipt (nodeId : String)
  | rejectedAcceptedPath (nodeId : String)
  | tooManyClaims
  | tooManyPathClaims
  | invalidPathClaim
  | duplicateClaim (key : String)
  | overflow
  | staleExecutionFence (nodeId : String)
  | invalidGraph (reason : String)
  | cascade (error : CascadeError)
  deriving DecidableEq, Repr

/-- `char::is_control`: the Unicode category `Cc`. -/
def isControl (c : Char) : Bool := c.toNat < 0x20 || (0x7f ≤ c.toNat && c.toNat < 0xa0)

def isLowerHexDigit (c : Char) : Bool := c.isDigit || ('a' ≤ c && c ≤ 'f')

def stripPrefix (pre s : List Char) : Option (List Char) :=
  if pre.isPrefixOf s then some (s.drop pre.length) else none

def validateIdentifier (value field : String) : Except WorkGraphError Unit :=
  if value.isEmpty ∨ value.utf8ByteSize > maxIdentifierBytes ∨ value.toList.any isControl then
    .error (.invalidIdentifier field)
  else .ok ()

def validateBudget (budget : WorkNodeBudget) : Except WorkGraphError Unit :=
  if budget.tokensConsumed > budget.tokensAllocated ∨
      budget.costMicrosConsumed > budget.costMicrosAllocated then
    .error .invalidBudget
  else .ok ()

/-- `fence:` followed by 64 lower-case hexadecimal digits. -/
def isFence (fence : String) : Bool :=
  fence.utf8ByteSize == 70 && "fence:".toList.isPrefixOf fence.toList &&
    (fence.toList.drop 6).all isLowerHexDigit

def validateReceiptClaims : List ResultClaim → List String → Except WorkGraphError Unit
  | [], _ => .ok ()
  | claim :: claims, keys => do
    validateIdentifier claim.key "claim_key"
    validateIdentifier claim.value "claim_value"
    if claim.key ∈ keys then .error (.duplicateClaim claim.key)
    else validateReceiptClaims claims (claim.key :: keys)

def validateReceipt (receipt : ChildExecutionReceipt) : Except WorkGraphError Unit := do
  validateIdentifier receipt.receiptId "receipt_id"
  validateIdentifier receipt.nodeId "node_id"
  validateIdentifier receipt.outcomeRef "outcome_ref"
  if receipt.executionFence.any fun fence => !isFence fence then
    .error (.invalidIdentifier "execution_fence")
  else if receipt.claims.length > maxResultClaims then
    .error .tooManyClaims
  else validateReceiptClaims receipt.claims []

def validatePathClaim (value : String) : Except WorkGraphError Unit :=
  match stripPrefix "path:".toList value.toList with
  | none => .error .invalidPathClaim
  | some relative =>
    if relative.isEmpty ∨ (String.ofList relative).utf8ByteSize > 1024 ∨
        relative.head? = some '/' ∨ relative.head? = some '\\' ∨
        (relative.splitOnP fun c => c == '/' || c == '\\').any
          (fun part => part.isEmpty || part == ['.'] || part == ['.', '.']) ∨
        relative.any isControl then
      .error .invalidPathClaim
    else .ok ()

def pathClaimsOverlap (left right : String) : Bool :=
  left == right ||
    (stripPrefix right.toList left.toList).any (fun suffix => suffix.head? == some '/') ||
    (stripPrefix left.toList right.toList).any (fun suffix => suffix.head? == some '/')

section Hashed

variable (blake3 : String → String)

def executionFence (graphId : String) (node : WorkNode) : String :=
  "fence:" ++ blake3 (graphId ++ "\x00" ++ node.nodeId ++ "\x00" ++ node.agentId ++ "\x00" ++
    node.capsuleRef ++ "\x00" ++ toString node.claimAttempt.toNat)

def measuredSpendId (outcomeRefs : List String) : String :=
  "spend:" ++ blake3 ("\x00".intercalate outcomeRefs)

def validateSpendRefs : List String → List (List Char) → Except WorkGraphError Unit
  | [], _ => .ok ()
  | outcomeRef :: refs, seen => do
    validateIdentifier outcomeRef "outcome_ref"
    match stripPrefix "id:sha256:".toList outcomeRef.toList with
    | none => .error (.invalidIdentifier "outcome_ref")
    | some digest =>
      if ¬ ((String.ofList digest).utf8ByteSize == 64 && digest.all isLowerHexDigit) then
        .error (.invalidIdentifier "outcome_ref")
      else if digest ∈ seen then .error (.invalidGraph "duplicate failed spend receipt")
      else validateSpendRefs refs (digest :: seen)

def validateMeasuredSpend (spend : MeasuredExecutionSpend) : Except WorkGraphError Unit := do
  validateIdentifier spend.spendId "spend_id"
  validateIdentifier spend.nodeId "node_id"
  if spend.outcomeRefs.isEmpty ∨ spend.outcomeRefs.length > 2 then
    .error (.invalidGraph "failed spend must reference one or two receipts")
  else do
    validateSpendRefs spend.outcomeRefs []
    if spend.spendId ≠ measuredSpendId blake3 spend.outcomeRefs then
      .error (.invalidIdentifier "spend_id")
    else if ¬ isFence spend.executionFence then .error (.invalidIdentifier "execution_fence")
    else .ok ()

end Hashed

theorem validateIdentifier_eq_ok {value field field' : String}
    (h : validateIdentifier value field = .ok ()) : validateIdentifier value field' = .ok () := by
  unfold validateIdentifier at h ⊢
  split_ifs at h ⊢
  rfl

theorem validateIdentifier_nonempty {value field : String}
    (h : validateIdentifier value field = .ok ()) : value ≠ "" := by
  rintro rfl
  simp [validateIdentifier] at h

theorem validateBudget_eq_ok {b : WorkNodeBudget} : validateBudget b = .ok () ↔
    b.tokensConsumed.toNat ≤ b.tokensAllocated.toNat ∧
      b.costMicrosConsumed.toNat ≤ b.costMicrosAllocated.toNat := by
  simp [validateBudget, UInt64.le_iff_toNat_le]

@[simp] theorem WorkNodeBudget.toNat_tokensRemaining (b : WorkNodeBudget) :
    b.tokensRemaining.toNat = b.tokensAllocated.toNat - b.tokensConsumed.toNat :=
  toNat_saturatingSub _ _

@[simp] theorem WorkNodeBudget.toNat_costRemaining (b : WorkNodeBudget) :
    b.costRemaining.toNat = b.costMicrosAllocated.toNat - b.costMicrosConsumed.toNat :=
  toNat_saturatingSub _ _

theorem pathClaimsOverlap_comm (left right : String) :
    pathClaimsOverlap left right = pathClaimsOverlap right left := by
  unfold pathClaimsOverlap
  rw [Bool.or_assoc, Bool.or_assoc, Bool.or_comm (Option.any _ _)]
  congr 1
  by_cases h : left = right
  · rw [h]
  · simp [h, Ne.symm h]

end LeanCtx
