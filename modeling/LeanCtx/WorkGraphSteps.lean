import LeanCtx.WorkGraphTree
import Mathlib.Logic.Relation

/-!
# What one call can do to a work graph

`Change` lists every write of the operations, each with the checks that stand
before it. The theorems `*_outcome` read the operations once: a call that
returns an error leaves the graph alone, a call that returns a value has passed
its checks and made its writes, and on a graph with the tree property no call
panics. Everything proved later about runs is proved about `Change`.
-/

namespace LeanCtx.BoundedWorkGraph

open Relation

/-! ## Checks -/

structure RootAdmitted (g : BoundedWorkGraph) (nodeId agentId capsuleRef : String)
    (budget : WorkNodeBudget) : Prop where
  room : g.nodes.size < maxGraphNodes
  validNode : validateIdentifier nodeId "node_id" = .ok ()
  validAgent : validateIdentifier agentId "agent_id" = .ok ()
  validCapsule : validateIdentifier capsuleRef "capsule_ref" = .ok ()
  validBudget : validateBudget budget = .ok ()
  slot : g.activeCount < g.localConcurrencyLimit
  fresh : nodeId ∉ g.nodes

/-- The amount left to a holder once its own spending and a reservation are taken off. -/
def headroom (allocated consumed reserved : UInt64) : ℕ :=
  allocated.toNat - consumed.toNat - reserved.toNat

structure ChildAdmitted (g : BoundedWorkGraph) (parentId childId agentId capsuleRef : String)
    (budget : WorkNodeBudget) (status : NodeStatus) (parent : WorkNode) (reserved : Totals)
    (chainId : String) : Prop where
  room : g.nodes.size < maxGraphNodes
  validChild : validateIdentifier childId "child_node_id" = .ok ()
  validAgent : validateIdentifier agentId "child_agent_id" = .ok ()
  validCapsule : validateIdentifier capsuleRef "capsule_ref" = .ok ()
  validBudget : validateBudget budget = .ok ()
  fresh : childId ∉ g.nodes
  pending : g.pendingReservationMatches parentId childId = true
  getReserved : g.reservedChildBudget parentId (some childId) = .ok reserved
  getParent : g.nodes[parentId]? = some parent
  active : parent.status = .active
  depth : parent.depth + 1 ≤ g.maxDepth
  withinTokens : budget.tokensAllocated.toNat ≤
    headroom parent.budget.tokensAllocated parent.budget.tokensConsumed reserved.1
  withinCost : budget.costMicrosAllocated.toNat ≤
    headroom parent.budget.costMicrosAllocated parent.budget.costMicrosConsumed reserved.2
  fanOut : (g.childrenOf parentId).length < g.maxFanOut
  slot : status = .active → g.activeCount < g.localConcurrencyLimit
  getChainId : g.chainIdForNode parentId = some chainId
  opened : status = .active ∨ status = .pending

structure ReservationAdmitted (g : BoundedWorkGraph) (parentId childId : String)
    (budget : WorkNodeBudget) (parent : WorkNode) (reserved : Totals) (chainId : String) :
    Prop where
  validChild : validateIdentifier childId "child_node_id" = .ok ()
  fresh : childId ∉ g.nodes
  unreserved : childId ∉ g.pendingChildBudgets
  getParent : g.nodes[parentId]? = some parent
  active : parent.status = .active
  depth : parent.depth + 1 ≤ g.maxDepth
  getReserved : g.reservedChildBudget parentId (some childId) = .ok reserved
  withinTokens : budget.tokensAllocated.toNat ≤
    headroom parent.budget.tokensAllocated parent.budget.tokensConsumed reserved.1
  withinCost : budget.costMicrosAllocated.toNat ≤
    headroom parent.budget.costMicrosAllocated parent.budget.costMicrosConsumed reserved.2
  unspent : budget.tokensConsumed = 0 ∧ budget.costMicrosConsumed = 0
  getChainId : g.chainIdForNode parentId = some chainId

structure Claimable (g : BoundedWorkGraph) (nodeId : String) (node : WorkNode) (attempt : UInt32) :
    Prop where
  slot : g.activeCount < g.localConcurrencyLimit
  getNode : g.nodes[nodeId]? = some node
  child : node.parentNodeId ≠ none
  pending : node.status = .pending
  next : nextAttempt node.claimAttempt = some attempt

/-- No other started node of the graph has used the capsule. -/
def CapsuleFree (g : BoundedWorkGraph) (nodeId : String) (node : WorkNode) : Prop :=
  ∀ other n, g.nodes[other]? = some n → other ≠ nodeId → n.executionStarted = true →
    n.capsuleRef ≠ node.capsuleRef

structure Startable (g : BoundedWorkGraph) (nodeId : String) (node : WorkNode) : Prop where
  getNode : g.nodes[nodeId]? = some node
  child : node.parentNodeId ≠ none
  active : node.status = .active
  fence : node.executionFence ≠ none
  capsule : CapsuleFree g nodeId node

structure Deliverable (g : BoundedWorkGraph) (nodeId : String) (node : WorkNode) (attempt : ℕ) :
    Prop where
  getNode : g.nodes[nodeId]? = some node
  active : node.status = .active
  started : node.executionStarted = true
  fence : node.executionFence ≠ none
  range : 1 ≤ attempt ∧ attempt ≤ maxDeliveryAttempts

/-- A spend of `tokens` and `cost` by an active node, down to its chain record. -/
structure SpendAdmitted (g : BoundedWorkGraph) (nodeId : String) (node : WorkNode)
    (tokens cost : ℕ) (reserved : Totals) (chainId : String) (chain : ChainBudget)
    (nextChainTokens nextChainCost : UInt64) : Prop where
  getNode : g.nodes[nodeId]? = some node
  active : node.status = .active
  getReserved : g.reservedChildBudget nodeId none = .ok reserved
  withinTokens : tokens ≤ headroom node.budget.tokensAllocated node.budget.tokensConsumed reserved.1
  withinCost : cost ≤ headroom node.budget.costMicrosAllocated node.budget.costMicrosConsumed reserved.2
  getChainId : g.chainIdForNode nodeId = some chainId
  getChain : g.chainBudgets[chainId]? = some chain
  chainTokens : nextChainTokens.toNat = chain.totalConsumedTokens.toNat + tokens
  chainCost : nextChainCost.toNat = chain.totalConsumedCostMicros.toNat + cost
  withinChainTokens :
    ¬ saturatingAdd nextChainTokens chain.unauthorizedTokens > chain.rootBudgetTokens
  withinChainCost :
    ¬ saturatingAdd nextChainCost chain.unauthorizedCostMicros > chain.rootBudgetCostMicros

structure ReceiptAdmitted (g : BoundedWorkGraph) (receipt : ChildExecutionReceipt)
    (node : WorkNode) : Prop where
  valid : validateReceipt receipt = .ok ()
  freshId : receipt.receiptId ∉ g.receipts
  freshNode : ∀ (id : String) (r : ChildExecutionReceipt), g.receipts[id]? = some r →
    r.nodeId ≠ receipt.nodeId
  child : node.parentNodeId ≠ none
  fence : node.executionFence ≠ none → receipt.executionFence = node.executionFence
  tokens : node.budget.tokensConsumed.toNat ≤ receipt.tokensConsumed.toNat
  cost : node.budget.costMicrosConsumed.toNat ≤ receipt.costMicrosConsumed.toNat

/-! ## Writes -/

/-- What the end of an incarnation leaves of its node. -/
def ended (node : WorkNode) : WorkNode :=
  if node.executionStarted then node else { node with leaseExpiresEpochMs := none }

def reap (g : BoundedWorkGraph) (nodeId : String) (node : WorkNode) : OrdMap String String :=
  if node.executionStarted then
    match node.executionFence with
    | none => g.reapedExecutions
    | some fence => g.reapedExecutions.insert nodeId fence
  else g.reapedExecutions

/-- Writing a node whose incarnation ends with the write. -/
def endNode (g : BoundedWorkGraph) (nodeId : String) (node : WorkNode) : BoundedWorkGraph :=
  { g with nodes := g.nodes.insert nodeId (ended node), reapedExecutions := g.reap nodeId node }

theorem insert_insert_self {ν : Type} (t : OrdMap String ν) (k : String) (v w : ν) :
    (t.insert k v).insert k w = t.insert k w := by
  apply Std.ExtTreeMap.ext_getElem?
  intro a
  simp only [OrdMap.get_insert]
  split_ifs <;> rfl

theorem setNode_endIncarnation (g : BoundedWorkGraph) (nodeId : String) (node : WorkNode) :
    (g.setNode nodeId node).endIncarnation nodeId = g.endNode nodeId node := by
  have hget : (g.setNode nodeId node).nodes[nodeId]? = some node := by
    simp [setNode]
  simp only [endIncarnation, hget]
  cases hs : node.executionStarted with
  | false => simp [setNode, endNode, ended, reap, hs, insert_insert_self]
  | true =>
    cases hf : node.executionFence with
    | none => simp [setNode, endNode, ended, reap, hs, hf]
    | some fence => simp [setNode, endNode, ended, reap, hs, hf]

def stoppedNode (node : WorkNode) (reason : StopReason) : WorkNode :=
  { node with status := .stopped, stopReason := some reason }

theorem stopNode_eq (g : BoundedWorkGraph) (nodeId : String) (node : WorkNode)
    (reason : StopReason) :
    g.stopNode nodeId node reason = g.endNode nodeId (stoppedNode node reason) :=
  setNode_endIncarnation g nodeId _

def completedNode (node : WorkNode) (outcomeRef : String) : WorkNode :=
  { node with status := .completed, outcomeRef := some outcomeRef, leaseExpiresEpochMs := none }

def receiptedNode (node : WorkNode) (receipt : ChildExecutionReceipt) : WorkNode :=
  { node with
    budget := { node.budget with
      tokensConsumed := receipt.tokensConsumed, costMicrosConsumed := receipt.costMicrosConsumed }
    status := receiptStatus receipt.outcome
    outcomeRef := some receipt.outcomeRef
    leaseExpiresEpochMs := none }

def spentNode (node : WorkNode) (nextTokens nextCost : UInt64) : WorkNode :=
  { node with budget := { node.budget with
      tokensConsumed := nextTokens, costMicrosConsumed := nextCost } }

def spentChain (nextTokens nextCost : UInt64) (chain : ChainBudget) : ChainBudget :=
  { chain with totalConsumedTokens := nextTokens, totalConsumedCostMicros := nextCost }

def addReceipt (g : BoundedWorkGraph) (receipt : ChildExecutionReceipt) : BoundedWorkGraph :=
  { g with receipts := g.receipts.insert receipt.receiptId receipt }

/-- The context written to a child: its own task, its parent's task and policy. -/
def contextNode (node parent : WorkNode) (taskRef expectedOutcomeRef : String) : WorkNode :=
  { node with
    taskRef := taskRef
    parentTaskRef := some parent.taskRef
    policyRef := parent.policyRef
    expectedOutcomeRef := expectedOutcomeRef }

def rootContextNode (node : WorkNode) (taskRef policyRef expectedOutcomeRef : String) : WorkNode :=
  { node with
    taskRef := taskRef
    parentTaskRef := none
    policyRef := policyRef
    expectedOutcomeRef := expectedOutcomeRef }

/-- The graph after a child took the place of its reservation. -/
def childInserted (g : BoundedWorkGraph) (parentId : String) (node : WorkNode) (chainId : String) :
    BoundedWorkGraph :=
  let pendingBudget := (g.pendingChildBudgets[node.nodeId]?).getD .zero
  ((g.linkChild parentId node).takePending node.nodeId).recordChainAllocation chainId
    pendingBudget.tokensAllocated node.budget.tokensAllocated
    pendingBudget.costMicrosAllocated node.budget.costMicrosAllocated node.depth

def reservationAdded (g : BoundedWorkGraph) (parentId childId : String) (budget : WorkNodeBudget)
    (chainId : String) (depth : ℕ) : BoundedWorkGraph :=
  (g.addPending parentId childId budget).recordChainAllocation chainId 0 budget.tokensAllocated 0
    budget.costMicrosAllocated depth

variable (blake3 : String → String)

/-- A write that adds no node and no reservation and leaves the context of every root alone,
with the checks that stand before it. -/
inductive Update (g : BoundedWorkGraph) : BoundedWorkGraph → Prop
  | claim {nodeId : String} {node : WorkNode} {attempt : UInt32} {lease : Option ℕ}
      (h : Claimable g nodeId node attempt) :
      Update g (g.setNode nodeId (claimedNode blake3 g.graphId node attempt lease))
  | stop {nodeId : String} {node : WorkNode} {reason : StopReason}
      (h : g.nodes[nodeId]? = some node) (hs : node.status = .active ∨ node.status = .pending) :
      Update g (g.endNode nodeId (stoppedNode node reason))
  | leaseCleared {nodeId : String} {node : WorkNode} (h : g.nodes[nodeId]? = some node) :
      Update g (g.setNode nodeId { node with leaseExpiresEpochMs := none })
  | paths {nodeId : String} {node : WorkNode} {pathClaims : List String}
      (h : g.nodes[nodeId]? = some node) (hs : node.status = .pending)
      (hlen : pathClaims.length ≤ maxPathClaims) (hnodup : pathClaims.Nodup)
      (hvalid : ∀ claim ∈ pathClaims, validatePathClaim claim = .ok ()) :
      Update g (g.setNode nodeId { node with pathClaims := pathClaims })
  | childContext {nodeId parentId taskRef expectedOutcomeRef : String} {node parent : WorkNode}
      (h : g.nodes[nodeId]? = some node) (hp : node.parentNodeId = some parentId)
      (hparent : g.nodes[parentId]? = some parent) (hs : node.status = .pending)
      (htask : validateIdentifier taskRef "task_ref" = .ok ())
      (hset : parent.taskRef ≠ "")
      (hexpected : validateIdentifier expectedOutcomeRef "expected_outcome_ref" = .ok ()) :
      Update g (g.setNode nodeId (contextNode node parent taskRef expectedOutcomeRef))
  | delivery {nodeId : String} {node : WorkNode} {attempt : ℕ}
      (h : Deliverable g nodeId node attempt) :
      Update g (g.setNode nodeId { node with deliveryAttempt := some attempt })
  | complete {nodeId outcomeRef : String} {node : WorkNode} (h : g.nodes[nodeId]? = some node)
      (hs : node.status = .active) :
      Update g (g.endNode nodeId (completedNode node outcomeRef))
  | receipt {receipt : ChildExecutionReceipt} {node : WorkNode} {tokens cost : ℕ}
      {reserved : Totals} {chainId : String} {chain : ChainBudget}
      {nextChainTokens nextChainCost : UInt64} (h : ReceiptAdmitted g receipt node)
      (hspend : SpendAdmitted g receipt.nodeId node tokens cost reserved chainId chain
        nextChainTokens nextChainCost)
      (htokens : receipt.tokensConsumed.toNat = node.budget.tokensConsumed.toNat + tokens)
      (hcost : receipt.costMicrosConsumed.toNat = node.budget.costMicrosConsumed.toNat + cost) :
      Update g (((g.endNode receipt.nodeId (receiptedNode node receipt)).updateChain chainId
        (spentChain nextChainTokens nextChainCost)).addReceipt receipt)
  | accept {nodeIds : List String} {accepted : OrdSet String}
      (h : g.acceptedLineages nodeIds ∅ = .ok accepted) :
      Update g { g with acceptedPath := accepted }
  | spend {nodeId : String} {node : WorkNode} {tokens cost : ℕ} {reserved : Totals}
      {chainId : String} {chain : ChainBudget} {nextTokens nextCost : UInt64}
      {nextChainTokens nextChainCost : UInt64}
      (hspend : SpendAdmitted g nodeId node tokens cost reserved chainId chain nextChainTokens
        nextChainCost)
      (htokens : nextTokens.toNat = node.budget.tokensConsumed.toNat + tokens)
      (hcost : nextCost.toNat = node.budget.costMicrosConsumed.toNat + cost) :
      Update g ((g.setNode nodeId (spentNode node nextTokens nextCost)).updateChain chainId
        (spentChain nextChainTokens nextChainCost))

/-- One write of an operation that starts no execution, with the checks that stand before it. -/
inductive Change (g : BoundedWorkGraph) : BoundedWorkGraph → Prop
  | root {nodeId agentId capsuleRef : String} {budget : WorkNodeBudget}
      (h : RootAdmitted g nodeId agentId capsuleRef budget) :
      Change g (g.insertRoot (freshNode nodeId agentId none capsuleRef .active budget 0))
  | child {parentId childId agentId capsuleRef chainId : String} {budget : WorkNodeBudget}
      {status : NodeStatus} {parent : WorkNode} {reserved : Totals}
      (h : ChildAdmitted g parentId childId agentId capsuleRef budget status parent reserved
        chainId) :
      Change g (g.childInserted parentId (freshNode childId agentId (some parentId) capsuleRef
        status budget (parent.depth + 1)) chainId)
  | reservation {parentId childId chainId : String} {budget : WorkNodeBudget} {parent : WorkNode}
      {reserved : Totals} (h : ReservationAdmitted g parentId childId budget parent reserved chainId) :
      Change g (g.reservationAdded parentId childId budget chainId (parent.depth + 1))
  | rootContext {nodeId taskRef policyRef expectedOutcomeRef : String} {node : WorkNode}
      (h : g.nodes[nodeId]? = some node) (hp : node.parentNodeId = none)
      (htask : validateIdentifier taskRef "task_ref" = .ok ())
      (hpolicy : validateIdentifier policyRef "policy_ref" = .ok ())
      (hexpected : validateIdentifier expectedOutcomeRef "expected_outcome_ref" = .ok ()) :
      Change g (g.setNode nodeId (rootContextNode node taskRef policyRef expectedOutcomeRef))
  | update {g' : BoundedWorkGraph} (h : Update blake3 g g') : Change g g'

/-- Runs of writes. -/
abbrev Updates := ReflTransGen (Update blake3)

abbrev Changes := ReflTransGen (Change blake3)

/-- The one write that starts an execution. It is kept apart: the store guards it further. -/
inductive Start (g : BoundedWorkGraph) : BoundedWorkGraph → Prop
  | mk {nodeId : String} {node : WorkNode} {lease : ℕ} (h : Startable g nodeId node) :
      Start g (g.setNode nodeId
        { node with leaseExpiresEpochMs := some lease, executionStarted := true })

end LeanCtx.BoundedWorkGraph
