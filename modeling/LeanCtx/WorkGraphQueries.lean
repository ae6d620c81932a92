import LeanCtx.WorkGraph

/-!
# Reading a work graph: lineages, reservations and the validator

The loops of `control_ops.rs` that follow parent links or child lists. A loop
that visits each node at most once runs on fuel `nodes.size + 1`; parent links
that form a cycle, on which an unchecked loop of the source never ends, exhaust
it. `reservedChildBudget` is the traversal that charges an unsettled child its
allocation and a settled child its spend and its own commitments.
-/

namespace LeanCtx.BoundedWorkGraph

def new (maxFanOut maxDepth : ℕ) : BoundedWorkGraph where
  graphId := ""
  nodes := ∅
  children := ∅
  chainBudgets := ∅
  pendingChildBudgets := ∅
  pendingChildParents := ∅
  receipts := ∅
  failedSpend := ∅
  reapedExecutions := ∅
  acceptedPath := ∅
  maxLocalConcurrency := maxFanOutLimit
  maxFanOut := max 1 (min maxFanOut maxFanOutLimit)
  maxDepth := max 1 (min maxDepth maxDepthLimit)

def localConcurrencyLimit (g : BoundedWorkGraph) : ℕ :=
  max 1 (min g.maxLocalConcurrency maxLocalConcurrencyLimit)

def activeCount (g : BoundedWorkGraph) : ℕ :=
  (g.nodes.toList.filter fun p => p.2.status == .active).length

/-- `children_of`: the child index of a node, empty when it has none. -/
def childrenOf (g : BoundedWorkGraph) (nodeId : String) : List String :=
  (g.children[nodeId]?).getD []

/-- A started incarnation is live exactly while its node is active. -/
def executionExitUnconfirmed (node : WorkNode) : Bool :=
  node.executionStarted && node.status == .active

def hasLivePathConflict (g : BoundedWorkGraph) (requested : List String) (nowEpochMs : ℕ)
    (exceptNodeId : Option String) : Bool :=
  g.nodes.toList.any fun p =>
    some p.2.nodeId != exceptNodeId &&
    (executionExitUnconfirmed p.2 ||
      (p.2.executionStarted && p.2.status == .stopped &&
        p.2.leaseExpiresEpochMs.any fun expires => nowEpochMs < expires)) &&
    p.2.pathClaims.any fun held => requested.any fun claim => pathClaimsOverlap held claim

/-! ## Lineages -/

def checkedLineageLoop (g : BoundedWorkGraph) :
    ℕ → List String → String → Except WorkGraphError (List String)
  | 0, _, _ => .error (.invalidGraph "cycle detected")
  | fuel + 1, lineage, id =>
    if id ∈ lineage then .error (.invalidGraph "cycle detected")
    else match g.nodes[id]? with
      | none => .error (.nodeNotFound id)
      | some node => match node.parentNodeId with
        | none => .ok (id :: lineage)
        | some parentId => checkedLineageLoop g fuel (id :: lineage) parentId

/-- The ids from the root down to `nodeId`; the list under construction is also
the set of ids seen. -/
def checkedLineage (g : BoundedWorkGraph) (nodeId : String) : Except WorkGraphError (List String) :=
  checkedLineageLoop g (g.nodes.size + 1) [] nodeId

def chainIdLoop (g : BoundedWorkGraph) : ℕ → String → Option String
  | 0, _ => none
  | fuel + 1, id => match g.nodes[id]? with
    | none => none
    | some node => match node.parentNodeId with
      | none => some id
      | some parentId => chainIdLoop g fuel parentId

def chainIdForNode (g : BoundedWorkGraph) (nodeId : String) : Option String :=
  chainIdLoop g (g.nodes.size + 1) nodeId

def nodeLineageLoop (g : BoundedWorkGraph) : ℕ → List String → String → List String
  | 0, lineage, _ => lineage
  | fuel + 1, lineage, id => match g.nodes[id]? with
    | none => lineage
    | some node => match node.parentNodeId with
      | none => id :: lineage
      | some parentId => nodeLineageLoop g fuel (id :: lineage) parentId

def nodeLineage (g : BoundedWorkGraph) (nodeId : String) : List String :=
  nodeLineageLoop g (g.nodes.size + 1) [] nodeId

/-! ## Reservations -/

/-- Only a fenced, measured receipt that equals the node's own figures frees the
unused part of a terminal child's allocation. -/
def settled (g : BoundedWorkGraph) (childId : String) (child : WorkNode) : Bool :=
  (child.status == .completed || child.status == .failed) && child.executionFence.isSome &&
    g.receipts.toList.any fun p =>
      p.2.nodeId == childId && p.2.usageSource == .measured &&
        p.2.tokensConsumed == child.budget.tokensConsumed &&
        p.2.costMicrosConsumed == child.budget.costMicrosConsumed &&
        p.2.executionFence == child.executionFence

/-- Both running totals of a reservation, tokens and cost. -/
abbrev Totals := UInt64 × UInt64

def addTotals (acc : Totals) (tokens cost : UInt64) : Except WorkGraphError Totals :=
  match checkedAdd acc.1 tokens, checkedAdd acc.2 cost with
  | some tokens, some cost => .ok (tokens, cost)
  | _, _ => .error .overflow

/-- Totals so far, the parents still to visit (last pushed first) and the ids visited. -/
structure ReserveState where
  totals : Totals
  pendingParents : List String
  visited : List String

def chargeChildren (g : BoundedWorkGraph) (parentId : String) (excludeChildId : Option String)
    (currentParent : String) : List String → ReserveState → Except WorkGraphError ReserveState
  | [], st => .ok st
  | childId :: rest, st =>
    if currentParent = parentId ∧ some childId = excludeChildId then
      chargeChildren g parentId excludeChildId currentParent rest st
    else if childId ∈ st.visited then .error (.invalidGraph "duplicate child or cycle")
    else match g.nodes[childId]? with
      | none => .error (.invalidGraph "dangling child")
      | some child =>
        if g.settled childId child then do
          let totals ← addTotals st.totals child.budget.tokensConsumed child.budget.costMicrosConsumed
          chargeChildren g parentId excludeChildId currentParent rest
            ⟨totals, childId :: st.pendingParents, childId :: st.visited⟩
        else do
          let totals ← addTotals st.totals child.budget.tokensAllocated child.budget.costMicrosAllocated
          chargeChildren g parentId excludeChildId currentParent rest
            ⟨totals, st.pendingParents, childId :: st.visited⟩

def chargePending (g : BoundedWorkGraph) (parentId : String) (excludeChildId : Option String)
    (currentParent : String) : List (String × WorkNodeBudget) → Totals → Except WorkGraphError Totals
  | [], acc => .ok acc
  | (childId, budget) :: rest, acc =>
    if (currentParent = parentId ∧ some childId = excludeChildId) ∨
        g.pendingChildParents[childId]? ≠ some currentParent then
      chargePending g parentId excludeChildId currentParent rest acc
    else do
      let acc ← addTotals acc budget.tokensAllocated budget.costMicrosAllocated
      chargePending g parentId excludeChildId currentParent rest acc

def reserveLoop (g : BoundedWorkGraph) (parentId : String) (excludeChildId : Option String) :
    ℕ → ReserveState → Except WorkGraphError Totals
  | 0, _ => .error (.invalidGraph "duplicate child or cycle")
  | fuel + 1, st => match st.pendingParents with
    | [] => .ok st.totals
    | currentParent :: rest => do
      let st ← chargeChildren g parentId excludeChildId currentParent (g.childrenOf currentParent)
        { st with pendingParents := rest }
      let totals ← chargePending g parentId excludeChildId currentParent
        g.pendingChildBudgets.toList st.totals
      reserveLoop g parentId excludeChildId fuel { st with totals }

/-- A parent is pushed only when it is first visited and is then a node, so at
most `nodes.size + 1` parents are popped. -/
def reservedChildBudget (g : BoundedWorkGraph) (parentId : String)
    (excludeChildId : Option String) : Except WorkGraphError Totals :=
  reserveLoop g parentId excludeChildId (g.nodes.size + 2) ⟨(0, 0), [parentId], [parentId]⟩

/-! ## The validator -/

section Validate

variable (blake3 : String → String) (g : BoundedWorkGraph)

def validateReaped (entry : String × String) : Except WorkGraphError Unit :=
  if (g.nodes[entry.1]?).any fun node =>
      node.executionStarted && node.executionFence == some entry.2 then .ok ()
  else .error (.invalidGraph "invalid execution exit acknowledgement")

def validateLimits : Except WorkGraphError Unit :=
  if g.nodes.size > maxGraphNodes ∨ g.maxFanOut = 0 ∨ g.maxFanOut > maxFanOutLimit ∨
      g.maxDepth = 0 ∨ g.maxDepth > maxDepthLimit ∨ g.maxLocalConcurrency = 0 ∨
      g.maxLocalConcurrency > maxLocalConcurrencyLimit ∨
      g.activeCount > g.localConcurrencyLimit then
    .error (.invalidGraph "configured limit exceeded")
  else .ok ()

def validateOptionalRef (field value : String) : Except WorkGraphError Unit :=
  if value.isEmpty then .ok () else validateIdentifier value field

def validateParentTaskRef : Option String → Except WorkGraphError Unit
  | some parentTaskRef => validateIdentifier parentTaskRef "parent_task_ref"
  | none => .ok ()

/-- A child whose context is set carries its parent's task and policy. -/
def validateContext (node : WorkNode) : Except WorkGraphError Unit :=
  match node.parentNodeId with
  | none => .ok ()
  | some parentId =>
    if node.taskRef.isEmpty then .ok ()
    else match g.nodes[parentId]? with
      | none => .error (.invalidGraph "missing context parent")
      | some parent =>
        if node.parentTaskRef ≠ some parent.taskRef ∨ node.policyRef ≠ parent.policyRef then
          .error (.invalidGraph "task lineage or policy inheritance mismatch")
        else .ok ()

def validatePathClaims : List String → List String → Except WorkGraphError Unit
  | [], _ => .ok ()
  | claim :: claims, seen => do
    validatePathClaim claim
    if claim ∈ seen then .error (.invalidGraph "duplicate path claim")
    else validatePathClaims claims (claim :: seen)

def validateFence (node : WorkNode) : Except WorkGraphError Unit :=
  if node.executionFence.any fun fence => fence != executionFence blake3 g.graphId node then
    .error (.invalidGraph "invalid execution fence")
  else .ok ()

def validateDeliveryAttempt (node : WorkNode) : Except WorkGraphError Unit :=
  if node.deliveryAttempt.any (fun attempt => !(1 ≤ attempt && attempt ≤ maxDeliveryAttempts)) ∨
      (node.deliveryAttempt.isSome ∧ (node.executionStarted = false ∨ node.executionFence.isNone)) then
    .error (.invalidGraph "invalid delivery attempt")
  else .ok ()

def validatePlacement (nodeId : String) (node : WorkNode) : Except WorkGraphError Unit := do
  let lineage ← g.checkedLineage nodeId
  if node.depth + 1 ≠ lineage.length ∨ node.depth > g.maxDepth then
    .error (.invalidGraph "invalid node depth")
  else match node.parentNodeId with
    | some parentId =>
      if (g.children[parentId]?).any fun children => children.contains nodeId then .ok ()
      else .error (.invalidGraph "parent/child mismatch")
    | none =>
      if nodeId ∈ g.chainBudgets then .ok ()
      else .error (.invalidGraph "missing chain budget")

def validateNode (entry : String × WorkNode) : Except WorkGraphError Unit := do
  let (nodeId, node) := entry
  validateIdentifier nodeId "node_id"
  validateIdentifier node.nodeId "node_id"
  validateIdentifier node.agentId "agent_id"
  validateIdentifier node.capsuleRef "capsule_ref"
  validateBudget node.budget
  validateOptionalRef "task_ref" node.taskRef
  validateOptionalRef "policy_ref" node.policyRef
  validateOptionalRef "expected_outcome_ref" node.expectedOutcomeRef
  validateParentTaskRef node.parentTaskRef
  validateContext g node
  if node.pathClaims.length > maxPathClaims then .error .tooManyPathClaims
  else do
    validatePathClaims node.pathClaims []
    if nodeId ≠ node.nodeId then .error (.invalidGraph "node key mismatch")
    else do
      validateFence blake3 g node
      validateDeliveryAttempt node
      validatePlacement g nodeId node

def validateChildren (entry : String × List String) : Except WorkGraphError Unit := do
  let (parentId, children) := entry
  match g.nodes[parentId]? with
  | none => .error (.invalidGraph "invalid child index")
  | some parent =>
    if children.length > g.maxFanOut ∨ ¬ children.Nodup then
      .error (.invalidGraph "invalid child index")
    else do
      children.forM fun childId =>
        if (g.nodes[childId]?).bind (·.parentNodeId) = some parentId then .ok ()
        else .error (.invalidGraph "dangling child")
      let (tokens, cost) ← g.reservedChildBudget parentId none
      if tokens > parent.budget.tokensRemaining ∨ cost > parent.budget.costRemaining then
        .error (.invalidGraph "child budget over-allocation")
      else .ok ()

def validatePending (entry : String × WorkNodeBudget) : Except WorkGraphError Unit := do
  let (childId, budget) := entry
  validateIdentifier childId "pending_child_id"
  validateBudget budget
  if childId ∈ g.nodes ∨ childId ∉ g.pendingChildParents then
    .error (.invalidGraph "invalid pending budget")
  else .ok ()

def validateStoredReceipt (receipt : ChildExecutionReceipt) : Except WorkGraphError Unit := do
  validateReceipt receipt
  match g.nodes[receipt.nodeId]? with
  | none => .error (.invalidGraph "orphan receipt")
  | some node =>
    if node.parentNodeId.isNone ∨ node.budget.tokensConsumed ≠ receipt.tokensConsumed ∨
        node.budget.costMicrosConsumed ≠ receipt.costMicrosConsumed ∨
        (node.executionFence.isSome ∧ receipt.executionFence ≠ node.executionFence) then
      .error (.invalidGraph "receipt/node mismatch")
    else .ok ()

def validateFailedSpend (entry : String × MeasuredExecutionSpend) : Except WorkGraphError Unit := do
  let (nodeId, spend) := entry
  validateMeasuredSpend blake3 spend
  match g.nodes[nodeId]? with
  | none => .error (.invalidGraph "orphan failed spend")
  | some node =>
    if nodeId ≠ spend.nodeId ∨ node.parentNodeId.isNone ∨ node.status ≠ .stopped ∨
        node.stopReason ≠ some .budgetExhausted ∨ node.executionFence ≠ some spend.executionFence ∨
        (spend.tokensConsumed ≤ node.budget.tokensAllocated ∧
          spend.costMicrosConsumed ≤ node.budget.costMicrosAllocated) ∨
        (g.receipts.toList.any fun p => p.2.nodeId == nodeId) ∨ nodeId ∈ g.acceptedPath then
      .error (.invalidGraph "failed spend/node mismatch")
    else .ok ()

def supportedPath : List ChildExecutionReceipt → OrdSet String → Except WorkGraphError (OrdSet String)
  | [], supported => .ok supported
  | receipt :: receipts, supported =>
    if receipt.outcome = .accepted ∧ receipt.nodeId ∈ g.acceptedPath then do
      let lineage ← g.checkedLineage receipt.nodeId
      supportedPath receipts (lineage.foldl (fun s id => s.insert id) supported)
    else supportedPath receipts supported

def validateAcceptedPath : Except WorkGraphError Unit := do
  g.acceptedPath.toList.forM fun nodeId =>
    if nodeId ∈ g.nodes then .ok () else .error (.invalidGraph "orphan accepted path")
  let supported ← supportedPath g (g.receipts.toList.map (·.2)) ∅
  if supported = g.acceptedPath then .ok ()
  else .error (.invalidGraph "accepted path lacks accepted receipt lineage")

/-- What the accounting loop of one chain sums up. -/
structure ChainTotals where
  allocated : Totals
  consumed : Totals
  unauthorized : Totals
  depth : ℕ

def chainNodeTotals (chainId : String) (acc : ChainTotals) (node : WorkNode) :
    Except WorkGraphError ChainTotals := do
  let lineage ← g.checkedLineage node.nodeId
  if lineage.head? ≠ some chainId then .ok acc
  else do
    let allocated ← addTotals acc.allocated node.budget.tokensAllocated node.budget.costMicrosAllocated
    let consumed ← addTotals acc.consumed node.budget.tokensConsumed node.budget.costMicrosConsumed
    let unauthorized := match g.failedSpend[node.nodeId]? with
      | none => acc.unauthorized
      | some spend =>
        (saturatingAdd acc.unauthorized.1
          (saturatingSub spend.tokensConsumed node.budget.tokensAllocated),
         saturatingAdd acc.unauthorized.2
          (saturatingSub spend.costMicrosConsumed node.budget.costMicrosAllocated))
    .ok ⟨allocated, consumed, unauthorized, max acc.depth node.depth⟩

def chainPendingTotals (chainId : String) (acc : ChainTotals) (entry : String × WorkNodeBudget) :
    Except WorkGraphError ChainTotals :=
  match g.pendingChildParents[entry.1]? with
  | none => .ok acc
  | some parentId => do
    let lineage ← g.checkedLineage parentId
    if lineage.head? ≠ some chainId then .ok acc
    else match g.nodes[parentId]? with
      | none => .error (.nodeNotFound parentId)
      | some parent => do
        let allocated ← addTotals acc.allocated entry.2.tokensAllocated entry.2.costMicrosAllocated
        .ok { acc with allocated, depth := max acc.depth (parent.depth + 1) }

def validateChain (entry : String × ChainBudget) : Except WorkGraphError Unit := do
  let (chainId, chain) := entry
  match (g.nodes[chainId]?).filter (·.parentNodeId.isNone) with
  | none => .error (.invalidGraph "invalid chain root")
  | some root => do
    let totals ← (g.nodes.toList.map (·.2)).foldlM (chainNodeTotals g chainId)
      ⟨(0, 0), (0, 0), (0, 0), 0⟩
    let totals ← g.pendingChildBudgets.toList.foldlM (chainPendingTotals g chainId) totals
    if chain.chainId ≠ chainId ∨ chain.rootBudgetTokens ≠ root.budget.tokensAllocated ∨
        chain.rootBudgetCostMicros ≠ root.budget.costMicrosAllocated ∨
        chain.totalAllocatedTokens ≠ totals.allocated.1 ∨
        chain.totalAllocatedCostMicros ≠ totals.allocated.2 ∨
        chain.totalConsumedTokens ≠ totals.consumed.1 ∨
        chain.totalConsumedCostMicros ≠ totals.consumed.2 ∨
        chain.unauthorizedTokens ≠ totals.unauthorized.1 ∨
        chain.unauthorizedCostMicros ≠ totals.unauthorized.2 ∨
        chain.depth ≠ totals.depth ∨ totals.consumed.1 > chain.rootBudgetTokens ∨
        totals.consumed.2 > chain.rootBudgetCostMicros then
      .error (.invalidGraph "chain accounting mismatch")
    else .ok ()

/-- Every persisted structural and accounting invariant. -/
def validateInvariants : Except WorkGraphError Unit := do
  g.reapedExecutions.toList.forM (validateReaped g)
  validateOptionalRef "graph_id" g.graphId
  validateLimits g
  g.nodes.toList.forM (validateNode blake3 g)
  g.children.toList.forM (validateChildren g)
  g.pendingChildBudgets.toList.forM (validatePending g)
  (g.receipts.toList.map (·.2)).forM (validateStoredReceipt g)
  g.failedSpend.toList.forM (validateFailedSpend blake3 g)
  validateAcceptedPath g
  g.chainBudgets.toList.forM (validateChain g)

end Validate

end LeanCtx.BoundedWorkGraph
