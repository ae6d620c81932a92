import LeanCtx.WorkGraphQueries
import LeanCtx.Effect

/-!
# The mutating operations of a work graph

Every operation of `graph_ops.rs` and `control_ops.rs` that takes `&mut self`,
with its checks and writes in source order. A call ends with a value, with a
`WorkGraphError`, or with a panic (`expect`, or recursion that never returns);
the state it leaves behind is kept in all three cases.
-/

namespace LeanCtx

/-- Why a call did not return a value. -/
inductive Fault
  | err (error : WorkGraphError)
  | panic (message : String)
  deriving DecidableEq, Repr

abbrev GraphM := EStateM Fault BoundedWorkGraph

def check {α : Type} (x : Except WorkGraphError α) : GraphM α := ofExcept .err x

/-! ## Budget cascade -/

structure CascadedBudget where
  allocatedTokens : UInt64
  parentRemaining : UInt64
  depth : ℕ
  lineage : List String

/-- `childFraction` is the `f64` product `(remaining as f64 * fraction) as u64`. -/
def cascadeBudget (parentBudgetTokens parentUsedTokens : UInt64) (childFraction : UInt64 → UInt64)
    (minimumBudget maximumBudget : UInt64) : CascadedBudget :=
  let parentRemaining := saturatingSub parentBudgetTokens parentUsedTokens
  { allocatedTokens := min (max (childFraction parentRemaining) minimumBudget) maximumBudget
    parentRemaining, depth := 0, lineage := [] }

def validateCascadeLineage : List String → List String → Except CascadeError Unit
  | [], _ => .ok ()
  | agentId :: rest, seen =>
    if agentId ∈ seen then .error (.lineageCycle agentId)
    else validateCascadeLineage rest (agentId :: seen)

def validateCascade (budget : CascadedBudget) : Except CascadeError Unit :=
  if budget.allocatedTokens = 0 then .error .zeroAllocation
  else if budget.depth > maxCascadeDepth then
    .error (.depthLimitExceeded budget.depth maxCascadeDepth)
  else validateCascadeLineage budget.lineage []

namespace BoundedWorkGraph

/-! ## Writes shared by several operations -/

def setNode (g : BoundedWorkGraph) (nodeId : String) (node : WorkNode) : BoundedWorkGraph :=
  { g with nodes := g.nodes.insert nodeId node }

/-- The end of a started incarnation is recorded; one that never started loses
its lease. -/
def endIncarnation (g : BoundedWorkGraph) (nodeId : String) : BoundedWorkGraph :=
  match g.nodes[nodeId]? with
  | none => g
  | some node =>
    if node.executionStarted = false then g.setNode nodeId { node with leaseExpiresEpochMs := none }
    else match node.executionFence with
      | none => g
      | some fence => { g with reapedExecutions := g.reapedExecutions.insert nodeId fence }

def stopNode (g : BoundedWorkGraph) (nodeId : String) (node : WorkNode) (reason : StopReason) :
    BoundedWorkGraph :=
  (g.setNode nodeId { node with status := .stopped, stopReason := some reason }).endIncarnation nodeId

/-- The chain record of a root nobody has spent from. -/
def freshChain (chainId : String) (root : WorkNodeBudget) : ChainBudget where
  chainId := chainId
  rootBudgetTokens := root.tokensAllocated
  totalConsumedTokens := 0
  totalAllocatedTokens := root.tokensAllocated
  rootBudgetCostMicros := root.costMicrosAllocated
  totalConsumedCostMicros := 0
  totalAllocatedCostMicros := root.costMicrosAllocated
  unauthorizedTokens := 0
  unauthorizedCostMicros := 0
  depth := 0

def ensureChainBudget (g : BoundedWorkGraph) (chainId : String) : BoundedWorkGraph :=
  if chainId ∈ g.chainBudgets then g
  else
    { g with
      chainBudgets := g.chainBudgets.insert chainId
        (freshChain chainId (((g.nodes[chainId]?).map (·.budget)).getD .zero)) }

def updateChain (g : BoundedWorkGraph) (chainId : String) (f : ChainBudget → ChainBudget) :
    BoundedWorkGraph :=
  match g.chainBudgets[chainId]? with
  | none => g
  | some chain => { g with chainBudgets := g.chainBudgets.insert chainId (f chain) }

def recordChainAllocation (g : BoundedWorkGraph) (chainId : String)
    (previousTokens tokensAllocated previousCostMicros costMicrosAllocated : UInt64) (depth : ℕ) :
    BoundedWorkGraph :=
  (g.ensureChainBudget chainId).updateChain chainId fun chain =>
    { chain with
      totalAllocatedTokens :=
        saturatingAdd (saturatingSub chain.totalAllocatedTokens previousTokens) tokensAllocated
      totalAllocatedCostMicros :=
        saturatingAdd (saturatingSub chain.totalAllocatedCostMicros previousCostMicros)
          costMicrosAllocated
      depth := max chain.depth depth }

/-- A node as it is created: nothing claimed, started or configured. -/
def freshNode (nodeId agentId : String) (parentNodeId : Option String) (capsuleRef : String)
    (status : NodeStatus) (budget : WorkNodeBudget) (depth : ℕ) : WorkNode where
  nodeId := nodeId
  agentId := agentId
  parentNodeId := parentNodeId
  capsuleRef := capsuleRef
  status := status
  budget := budget
  depth := depth
  stopReason := none
  outcomeRef := none
  claimAttempt := 0
  deliveryAttempt := none
  executionFence := none
  leaseExpiresEpochMs := none
  pathClaims := []
  taskRef := ""
  parentTaskRef := none
  policyRef := ""
  expectedOutcomeRef := ""
  executionStarted := false

/-! ## Insertion -/

def insertRoot (g : BoundedWorkGraph) (node : WorkNode) : BoundedWorkGraph :=
  { g with
    nodes := g.nodes.insert node.nodeId node
    chainBudgets := g.chainBudgets.insert node.nodeId (freshChain node.nodeId node.budget) }

def addRoot (nodeId agentId capsuleRef : String) (budget : WorkNodeBudget) : GraphM WorkNode := do
  let g ← get
  rejectIf (g.nodes.size ≥ maxGraphNodes) (.err .capacityExceeded)
  check (validateIdentifier nodeId "node_id")
  check (validateIdentifier agentId "agent_id")
  check (validateIdentifier capsuleRef "capsule_ref")
  check (validateBudget budget)
  rejectIf (g.activeCount ≥ g.localConcurrencyLimit)
    (.err (.localConcurrencyExceeded g.localConcurrencyLimit))
  rejectIf (nodeId ∈ g.nodes) (.err (.duplicateNode nodeId))
  let node := freshNode nodeId agentId none capsuleRef .active budget 0
  set (g.insertRoot node)
  pure node

/-- A pending reservation is either absent or complete and made for this parent. -/
def pendingReservationMatches (g : BoundedWorkGraph) (parentNodeId childNodeId : String) : Bool :=
  match g.pendingChildBudgets[childNodeId]?, g.pendingChildParents[childNodeId]? with
  | none, none => true
  | some _, some parent => parent == parentNodeId
  | _, _ => false

/-- The node and its entry in the parent's child index. -/
def linkChild (g : BoundedWorkGraph) (parentNodeId : String) (node : WorkNode) : BoundedWorkGraph :=
  { g with
    nodes := g.nodes.insert node.nodeId node
    children := g.children.insert parentNodeId (g.childrenOf parentNodeId ++ [node.nodeId]) }

def takePending (g : BoundedWorkGraph) (childNodeId : String) : BoundedWorkGraph :=
  { g with
    pendingChildBudgets := g.pendingChildBudgets.erase childNodeId
    pendingChildParents := g.pendingChildParents.erase childNodeId }

def insertChild (parentNodeId childNodeId childAgentId capsuleRef : String)
    (childBudget : WorkNodeBudget) (status : NodeStatus) : GraphM WorkNode := do
  let g ← get
  rejectIf (g.nodes.size ≥ maxGraphNodes) (.err .capacityExceeded)
  check (validateIdentifier parentNodeId "parent_node_id")
  check (validateIdentifier childNodeId "child_node_id")
  check (validateIdentifier childAgentId "child_agent_id")
  check (validateIdentifier capsuleRef "capsule_ref")
  check (validateBudget childBudget)
  rejectIf (childNodeId ∈ g.nodes) (.err (.duplicateNode childNodeId))
  rejectIf (g.pendingReservationMatches parentNodeId childNodeId = false) (.err (.invalidGraph
    "pending child reservation is incomplete or belongs to another parent"))
  let reserved ← check (g.reservedChildBudget parentNodeId (some childNodeId))
  let parent ← ofOption (.err (.nodeNotFound parentNodeId)) g.nodes[parentNodeId]?
  rejectIf (parent.status ≠ .active) (.err (.parentNotActive parentNodeId))
  rejectIf (parent.depth + 1 > g.maxDepth) (.err (.depthExceeded g.maxDepth))
  let availableTokens := saturatingSub parent.budget.tokensRemaining reserved.1
  let availableCost := saturatingSub parent.budget.costRemaining reserved.2
  rejectIf (childBudget.tokensAllocated > availableTokens)
    (.err (.budgetExceedsParent childBudget.tokensAllocated availableTokens))
  rejectIf (childBudget.costMicrosAllocated > availableCost)
    (.err (.budgetExceedsParent childBudget.costMicrosAllocated availableCost))
  rejectIf ((g.childrenOf parentNodeId).length ≥ g.maxFanOut) (.err (.fanOutExceeded g.maxFanOut))
  rejectIf (status = .active ∧ g.activeCount ≥ g.localConcurrencyLimit)
    (.err (.localConcurrencyExceeded g.localConcurrencyLimit))
  let node := freshNode childNodeId childAgentId (some parentNodeId) capsuleRef status childBudget
    (parent.depth + 1)
  set (g.linkChild parentNodeId node)
  let linked ← get
  let chainId ← ofOption (.panic "delegated child always has a root node")
    (linked.chainIdForNode childNodeId)
  let pendingBudget := (linked.pendingChildBudgets[childNodeId]?).getD .zero
  set ((linked.takePending childNodeId).recordChainAllocation chainId pendingBudget.tokensAllocated
    childBudget.tokensAllocated pendingBudget.costMicrosAllocated childBudget.costMicrosAllocated
    (parent.depth + 1))
  pure node

def delegate (parentNodeId childNodeId childAgentId capsuleRef : String)
    (childBudget : WorkNodeBudget) : GraphM WorkNode :=
  insertChild parentNodeId childNodeId childAgentId capsuleRef childBudget .active

def queueChild (parentNodeId childNodeId childAgentId capsuleRef : String)
    (childBudget : WorkNodeBudget) : GraphM WorkNode :=
  insertChild parentNodeId childNodeId childAgentId capsuleRef childBudget .pending

def addPending (g : BoundedWorkGraph) (parentId childId : String) (budget : WorkNodeBudget) :
    BoundedWorkGraph :=
  { g with
    pendingChildBudgets := g.pendingChildBudgets.insert childId budget
    pendingChildParents := g.pendingChildParents.insert childId parentId }

def allocateChildBudget (parentId childId : String) (fraction : UInt64 → UInt64) :
    GraphM WorkNodeBudget := do
  let g ← get
  check (validateIdentifier parentId "parent_node_id")
  check (validateIdentifier childId "child_node_id")
  rejectIf (childId ∈ g.nodes ∨ childId ∈ g.pendingChildBudgets) (.err (.duplicateNode childId))
  let parent ← ofOption (.err (.nodeNotFound parentId)) g.nodes[parentId]?
  rejectIf (parent.status ≠ .active) (.err (.parentNotActive parentId))
  rejectIf (parent.depth ≥ g.maxDepth) (.err (.depthExceeded g.maxDepth))
  let reserved ← check (g.reservedChildBudget parentId (some childId))
  let parentRemaining := saturatingSub
    (saturatingSub parent.budget.tokensAllocated parent.budget.tokensConsumed) reserved.1
  rejectIf (parentRemaining = 0) (.err (.budgetExceedsParent 1 parentRemaining))
  let cascaded := { cascadeBudget parent.budget.tokensAllocated parent.budget.tokensConsumed fraction
      0 parentRemaining with
    depth := parent.depth + 1, lineage := g.nodeLineage parentId ++ [childId] }
  check ((validateCascade cascaded).mapError .cascade)
  rejectIf (cascaded.allocatedTokens > parentRemaining)
    (.err (.budgetExceedsParent cascaded.allocatedTokens parentRemaining))
  let parentCostRemaining := saturatingSub parent.budget.costRemaining reserved.2
  let costMicrosAllocated :=
    if parentCostRemaining = 0 then 0
    else min (max (fraction parentCostRemaining) 1) parentCostRemaining
  let childBudget : WorkNodeBudget := ⟨cascaded.allocatedTokens, 0, costMicrosAllocated, 0⟩
  let chainId ← ofOption (.panic "parent node always has a root node") (g.chainIdForNode parentId)
  set ((g.addPending parentId childId childBudget).recordChainAllocation chainId 0
    childBudget.tokensAllocated 0 childBudget.costMicrosAllocated (parent.depth + 1))
  pure childBudget

/-! ## Claims -/

section Hashed

variable (blake3 : String → String)

/-- A pending node as its claim leaves it: the fence covers the new attempt. -/
def claimedNode (graphId : String) (node : WorkNode) (attempt : UInt32)
    (leaseExpiresEpochMs : Option ℕ) : WorkNode :=
  let claimed := { node with claimAttempt := attempt }
  { claimed with
    executionFence := some (LeanCtx.executionFence blake3 graphId claimed)
    deliveryAttempt := none
    leaseExpiresEpochMs := leaseExpiresEpochMs
    status := .active }

/-- `u32::checked_add(1)`. -/
def nextAttempt (attempt : UInt32) : Option UInt32 :=
  if attempt.toNat + 1 < 2 ^ 32 then some (attempt + 1) else none

def claimAndActivateUntil (nodeId : String) (leaseExpiresEpochMs : Option ℕ) : GraphM WorkNode := do
  let g ← get
  check (validateIdentifier nodeId "node_id")
  rejectIf (g.activeCount ≥ g.localConcurrencyLimit)
    (.err (.localConcurrencyExceeded g.localConcurrencyLimit))
  let node ← ofOption (.err (.nodeNotFound nodeId)) g.nodes[nodeId]?
  let parentId ← ofOption (.err (.invalidTransition nodeId)) node.parentNodeId
  rejectIf ((g.nodes[parentId]?).map (·.status) ≠ some .active) (.err (.parentNotActive parentId))
  rejectIf (node.status ≠ .pending) (.err (.invalidTransition nodeId))
  let attempt ← ofOption (.err .overflow) (nextAttempt node.claimAttempt)
  let node := claimedNode blake3 g.graphId node attempt leaseExpiresEpochMs
  set (g.setNode nodeId node)
  pure node

def claimOrResumeActiveUntil (nodeId : String) (leaseExpiresEpochMs : ℕ) : GraphM WorkNode := do
  let g ← get
  let node ← ofOption (.err (.nodeNotFound nodeId)) g.nodes[nodeId]?
  rejectIf (g.nodes.toList.any fun p =>
      p.1 != nodeId && p.2.executionStarted && p.2.capsuleRef == node.capsuleRef)
    (.err (.invalidGraph "context capsule was already consumed by another node"))
  match node.status with
  | .pending => do
    let claimed ← claimAndActivateUntil blake3 nodeId (some leaseExpiresEpochMs)
    let started := { claimed with executionStarted := true }
    modify fun g => g.setNode nodeId started
    pure started
  | .active => do
    rejectIf (node.parentNodeId.isNone ∨ node.executionFence.isNone ∨ node.executionStarted)
      (.err (.invalidTransition nodeId))
    let started :=
      { node with leaseExpiresEpochMs := some leaseExpiresEpochMs, executionStarted := true }
    set (g.setNode nodeId started)
    pure started
  | _ => throw (.err (.invalidTransition nodeId))

end Hashed

/-! ## Stops -/

/-- A child index with a cycle overflows the stack of the source. -/
def stopRecursive : ℕ → String → StopReason → List String → GraphM (List String)
  | 0, _, _, _ => throw (.panic "stack overflow")
  | fuel + 1, nodeId, reason, stopped => do
    let g ← get
    let stopped ← match g.nodes[nodeId]? with
      | none => pure stopped
      | some node =>
        if node.status = .active ∨ node.status = .pending then do
          set (g.stopNode nodeId node reason)
          pure (stopped ++ [nodeId])
        else pure stopped
    let g ← get
    (g.childrenOf nodeId).foldlM (fun stopped childId =>
      stopRecursive fuel childId .parentStopped stopped) stopped

/-- Along a chain of child entries at most `nodes.size + 1` ids differ. -/
def stopCascade (nodeId : String) (reason : StopReason) : GraphM (List String) := do
  let g ← get
  stopRecursive (g.nodes.size + 2) nodeId reason []

def stop (nodeId : String) (reason : StopReason) : GraphM (List String) := do
  let g ← get
  rejectIf (nodeId ∉ g.nodes) (.err (.nodeNotFound nodeId))
  stopCascade nodeId reason

def clearLease (g : BoundedWorkGraph) (nodeId : String) : BoundedWorkGraph :=
  match g.nodes[nodeId]? with
  | none => g
  | some node => g.setNode nodeId { node with leaseExpiresEpochMs := none }

def stopUnlaunched (nodeId : String) (reason : StopReason) : GraphM (List String) := do
  let stopped ← stop nodeId reason
  modify fun g => g.clearLease nodeId
  pure stopped

def recoverExpiredExecution (nodeId : String) (nowEpochMs : ℕ) : GraphM (List String) := do
  let g ← get
  let node ← ofOption (.err (.nodeNotFound nodeId)) g.nodes[nodeId]?
  if node.parentNodeId.isSome ∧ node.status = .active ∧
      node.leaseExpiresEpochMs.any (fun expires => nowEpochMs ≥ expires) then
    stop nodeId .leaseLost
  else pure []

/-! ## Context, paths and delivery -/

def setPathClaims (nodeId : String) (pathClaims : List String) : GraphM Unit := do
  rejectIf (pathClaims.length > maxPathClaims) (.err .tooManyPathClaims)
  let pathClaims := (pathClaims.insertionSort (· ≤ ·)).destutter (· ≠ ·)
  check (pathClaims.forM validatePathClaim)
  let g ← get
  let node ← ofOption (.err (.nodeNotFound nodeId)) g.nodes[nodeId]?
  rejectIf (node.status ≠ .pending) (.err (.invalidTransition nodeId))
  set (g.setNode nodeId { node with pathClaims := pathClaims })

def configureRootContext (nodeId taskRef policyRef expectedOutcomeRef : String) : GraphM Unit := do
  check (validateIdentifier taskRef "task_ref")
  check (validateIdentifier policyRef "policy_ref")
  check (validateIdentifier expectedOutcomeRef "expected_outcome_ref")
  let g ← get
  let node ← ofOption (.err (.nodeNotFound nodeId)) g.nodes[nodeId]?
  rejectIf node.parentNodeId.isSome (.err (.invalidTransition nodeId))
  set (g.setNode nodeId { node with taskRef, parentTaskRef := none, policyRef, expectedOutcomeRef })

def configureChildContext (nodeId taskRef expectedOutcomeRef : String) : GraphM Unit := do
  check (validateIdentifier taskRef "task_ref")
  check (validateIdentifier expectedOutcomeRef "expected_outcome_ref")
  let g ← get
  let parentId ← ofOption (.err (.invalidTransition nodeId))
    ((g.nodes[nodeId]?).bind (·.parentNodeId))
  let parent ← ofOption (.err (.nodeNotFound parentId)) g.nodes[parentId]?
  rejectIf (parent.taskRef.isEmpty ∨ parent.policyRef.isEmpty)
    (.err (.invalidGraph "parent context is not configured"))
  let node ← ofOption (.err (.nodeNotFound nodeId)) g.nodes[nodeId]?
  rejectIf (node.status ≠ .pending) (.err (.invalidTransition nodeId))
  set (g.setNode nodeId { node with
    taskRef, parentTaskRef := some parent.taskRef, policyRef := parent.policyRef, expectedOutcomeRef })

def beginDeliveryAttempt (nodeId fence : String) (attempt : ℕ) : GraphM Unit := do
  let g ← get
  let node ← ofOption (.err (.invalidTransition nodeId)) g.nodes[nodeId]?
  rejectIf (node.status ≠ .active ∨ node.executionStarted = false ∨
      node.executionFence ≠ some fence ∨ ¬ (1 ≤ attempt ∧ attempt ≤ maxDeliveryAttempts) ∨
      node.deliveryAttempt.getD 0 + 1 ≠ attempt)
    (.err (.invalidTransition nodeId))
  set (g.setNode nodeId { node with deliveryAttempt := some attempt })

/-! ## Completion, receipts and spend -/

def complete (nodeId outcomeRef : String) : GraphM Unit := do
  check (validateIdentifier outcomeRef "outcome_ref")
  let g ← get
  let node ← ofOption (.err (.nodeNotFound nodeId)) g.nodes[nodeId]?
  rejectIf (node.status ≠ .active) (.err (.invalidTransition nodeId))
  set ((g.setNode nodeId { node with
    status := .completed, outcomeRef := some outcomeRef, leaseExpiresEpochMs := none }).endIncarnation
      nodeId)

def receiptStatus : ChildOutcome → NodeStatus
  | .accepted | .partialResult => .completed
  | .rejected => .failed

def recordChildReceipt (receipt : ChildExecutionReceipt) : GraphM Unit := do
  check (validateReceipt receipt)
  let g ← get
  rejectIf (receipt.receiptId ∈ g.receipts ∨
      g.receipts.toList.any (fun p => p.2.nodeId == receipt.nodeId))
    (.err (.duplicateReceipt receipt.receiptId))
  let node ← ofOption (.err (.nodeNotFound receipt.nodeId)) g.nodes[receipt.nodeId]?
  rejectIf (node.parentNodeId.isNone ∨ node.status ≠ .active)
    (.err (.invalidTransition receipt.nodeId))
  rejectIf (node.executionFence.isSome ∧ receipt.executionFence ≠ node.executionFence)
    (.err (.staleExecutionFence receipt.nodeId))
  rejectIf (receipt.tokensConsumed > node.budget.tokensAllocated ∨
      receipt.costMicrosConsumed > node.budget.costMicrosAllocated ∨
      receipt.tokensConsumed < node.budget.tokensConsumed ∨
      receipt.costMicrosConsumed < node.budget.costMicrosConsumed)
    (.err (.receiptExceedsBudget receipt.nodeId))
  let tokenDelta := receipt.tokensConsumed - node.budget.tokensConsumed
  let costDelta := receipt.costMicrosConsumed - node.budget.costMicrosConsumed
  let reserved ← check (g.reservedChildBudget receipt.nodeId none)
  rejectIf (tokenDelta > saturatingSub node.budget.tokensRemaining reserved.1 ∨
      costDelta > saturatingSub node.budget.costRemaining reserved.2)
    (.err (.receiptExceedsBudget receipt.nodeId))
  let chainId ← ofOption (.panic "receipt node always has a root") (g.chainIdForNode receipt.nodeId)
  -- The missing chain record is written before the checks that may still refuse.
  set (g.ensureChainBudget chainId)
  let g ← get
  let chain ← ofOption (.panic "chain budget initialized") g.chainBudgets[chainId]?
  let chainConsumed ← ofOption (.err .overflow) (checkedAdd chain.totalConsumedTokens tokenDelta)
  let chainCost ← ofOption (.err .overflow) (checkedAdd chain.totalConsumedCostMicros costDelta)
  rejectIf (saturatingAdd chainConsumed chain.unauthorizedTokens > chain.rootBudgetTokens ∨
      saturatingAdd chainCost chain.unauthorizedCostMicros > chain.rootBudgetCostMicros)
    (.err (.receiptExceedsBudget receipt.nodeId))
  let g := (g.setNode receipt.nodeId { node with
    budget := { node.budget with
      tokensConsumed := receipt.tokensConsumed, costMicrosConsumed := receipt.costMicrosConsumed }
    status := receiptStatus receipt.outcome
    outcomeRef := some receipt.outcomeRef
    leaseExpiresEpochMs := none }).endIncarnation receipt.nodeId
  let g := g.updateChain chainId fun chain =>
    { chain with totalConsumedTokens := chainConsumed, totalConsumedCostMicros := chainCost }
  set { g with receipts := g.receipts.insert receipt.receiptId receipt }

def acceptedLineages (g : BoundedWorkGraph) :
    List String → OrdSet String → Except WorkGraphError (OrdSet String)
  | [], accepted => .ok accepted
  | nodeId :: rest, accepted => do
    validateIdentifier nodeId "node_id"
    match (g.receipts.toList.map (·.2)).find? (fun receipt => receipt.nodeId == nodeId) with
    | none => .error (.missingReceipt nodeId)
    | some receipt =>
      if receipt.outcome ≠ .accepted then .error (.rejectedAcceptedPath nodeId)
      else acceptedLineages g rest ((g.nodeLineage nodeId).foldl (fun s id => s.insert id) accepted)

def markAcceptedPath (nodeIds : List String) : GraphM Unit := do
  let g ← get
  let accepted ← check (g.acceptedLineages nodeIds ∅)
  set { g with acceptedPath := accepted }

/-- What a spend writes once every check passed: the node's and the chain's figures. -/
def commitSpend (g : BoundedWorkGraph) (nodeId : String) (node : WorkNode)
    (nextTokens nextCost : UInt64) (chainId : String) (nextChainTokens nextChainCost : UInt64) :
    BoundedWorkGraph :=
  (g.setNode nodeId { node with budget := { node.budget with
    tokensConsumed := nextTokens, costMicrosConsumed := nextCost } }).updateChain chainId
    fun chain => { chain with
      totalConsumedTokens := nextChainTokens, totalConsumedCostMicros := nextChainCost }

def consumeBudget (nodeId : String) (tokens costMicros : UInt64) : GraphM Bool := do
  let g ← get
  let node ← ofOption (.err (.nodeNotFound nodeId)) g.nodes[nodeId]?
  rejectIf (node.status ≠ .active) (.err (.invalidTransition nodeId))
  let nextTokens ← ofOption (.err .overflow) (checkedAdd node.budget.tokensConsumed tokens)
  let nextCost ← ofOption (.err .overflow) (checkedAdd node.budget.costMicrosConsumed costMicros)
  rejectIf (nextTokens > node.budget.tokensAllocated ∨ nextCost > node.budget.costMicrosAllocated)
    (.err .invalidBudget)
  let reserved ← check (g.reservedChildBudget nodeId none)
  rejectIf (tokens > saturatingSub node.budget.tokensRemaining reserved.1 ∨
      costMicros > saturatingSub node.budget.costRemaining reserved.2)
    (.err .invalidBudget)
  let exhausted := nextTokens = node.budget.tokensAllocated ∨
    nextCost = node.budget.costMicrosAllocated
  let chainId ← ofOption (.panic "node always has a root node") (g.chainIdForNode nodeId)
  let chain ← ofOption (.err (.invalidGraph "missing chain budget")) g.chainBudgets[chainId]?
  let nextChainTokens ← ofOption (.err .overflow) (checkedAdd chain.totalConsumedTokens tokens)
  let nextChainCost ← ofOption (.err .overflow) (checkedAdd chain.totalConsumedCostMicros costMicros)
  rejectIf (saturatingAdd nextChainTokens chain.unauthorizedTokens > chain.rootBudgetTokens ∨
      saturatingAdd nextChainCost chain.unauthorizedCostMicros > chain.rootBudgetCostMicros)
    (.err .invalidBudget)
  set (g.commitSpend nodeId node nextTokens nextCost chainId nextChainTokens nextChainCost)
  if saturatingAdd nextChainTokens chain.unauthorizedTokens = chain.rootBudgetTokens ∨
      saturatingAdd nextChainCost chain.unauthorizedCostMicros = chain.rootBudgetCostMicros then do
    let _ ← stopCascade chainId .budgetExhausted
    pure true
  else if exhausted then do
    let g ← get
    let node ← ofOption (.panic "node checked above") g.nodes[nodeId]?
    set (g.stopNode nodeId node .budgetExhausted)
    pure true
  else pure false

def enforceStopConditions : GraphM (List (String × StopReason)) := do
  let g ← get
  let exhausted := (g.nodes.toList.filter fun p =>
    p.2.status == .active && p.2.budget.isExhausted).map (·.1)
  exhausted.foldlM (fun stopped nodeId => do
    let cascade ← stopCascade nodeId .budgetExhausted
    pure (stopped ++ cascade.map fun id => (id, StopReason.budgetExhausted))) []

end BoundedWorkGraph

end LeanCtx
