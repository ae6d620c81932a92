import LeanCtx.WorkGraphStore

/-!
# What a write does to the nodes

Every write leaves the nodes alone, adds one fresh node or rewrites one node in
its place. `NodeStep` lists the rewrites. A node that has ended keeps everything
the validator compares with receipts, fences and acknowledgements; a pending
node was pending before; a node that becomes active had a free slot.
-/

namespace LeanCtx.BoundedWorkGraph

variable {g g' : BoundedWorkGraph} {blake3 : String → String}

/-- One node rewritten, with the checks that stood before it. -/
inductive NodeStep (blake3 : String → String) (g : BoundedWorkGraph) (id : String) (n : WorkNode) :
    WorkNode → Prop
  | claim {attempt : UInt32} {lease : Option ℕ} (h : Claimable g id n attempt) :
      NodeStep blake3 g id n (claimedNode blake3 g.graphId n attempt lease)
  | start {lease : ℕ} (h : Startable g id n) : NodeStep blake3 g id n
      { n with leaseExpiresEpochMs := some lease, executionStarted := true }
  | stop {reason : StopReason} (hs : n.status = .active ∨ n.status = .pending) :
      NodeStep blake3 g id n (ended (stoppedNode n reason))
  | leaseCleared : NodeStep blake3 g id n { n with leaseExpiresEpochMs := none }
  | paths {pathClaims : List String} (hs : n.status = .pending)
      (hlen : pathClaims.length ≤ maxPathClaims) (hnodup : pathClaims.Nodup)
      (hvalid : ∀ claim ∈ pathClaims, validatePathClaim claim = .ok ()) :
      NodeStep blake3 g id n { n with pathClaims := pathClaims }
  | rootContext {taskRef policyRef expectedOutcomeRef : String} (hp : n.parentNodeId = none)
      (htask : validateIdentifier taskRef "task_ref" = .ok ())
      (hpolicy : validateIdentifier policyRef "policy_ref" = .ok ())
      (hexpected : validateIdentifier expectedOutcomeRef "expected_outcome_ref" = .ok ()) :
      NodeStep blake3 g id n (rootContextNode n taskRef policyRef expectedOutcomeRef)
  | childContext {parentId taskRef expectedOutcomeRef : String} {parent : WorkNode}
      (hp : n.parentNodeId = some parentId) (hparent : g.nodes[parentId]? = some parent)
      (hs : n.status = .pending) (htask : validateIdentifier taskRef "task_ref" = .ok ())
      (hset : parent.taskRef ≠ "")
      (hexpected : validateIdentifier expectedOutcomeRef "expected_outcome_ref" = .ok ()) :
      NodeStep blake3 g id n (contextNode n parent taskRef expectedOutcomeRef)
  | delivery {attempt : ℕ} (h : Deliverable g id n attempt) :
      NodeStep blake3 g id n { n with deliveryAttempt := some attempt }
  | complete {outcomeRef : String} (hs : n.status = .active) :
      NodeStep blake3 g id n (ended (completedNode n outcomeRef))
  | receipt {receipt : ChildExecutionReceipt} (hs : n.status = .active)
      (ht : receipt.tokensConsumed.toNat ≤ n.budget.tokensAllocated.toNat)
      (hc : receipt.costMicrosConsumed.toNat ≤ n.budget.costMicrosAllocated.toNat) :
      NodeStep blake3 g id n (ended (receiptedNode n receipt))
  | spend {nextTokens nextCost : UInt64} (hs : n.status = .active)
      (ht : nextTokens.toNat ≤ n.budget.tokensAllocated.toNat)
      (hc : nextCost.toNat ≤ n.budget.costMicrosAllocated.toNat) :
      NodeStep blake3 g id n (spentNode n nextTokens nextCost)

/-- What a write does to the map of nodes. -/
inductive NodesChange (blake3 : String → String) (g g' : BoundedWorkGraph) : Prop
  | same (h : g'.nodes = g.nodes)
  | added {id agentId capsuleRef : String} {parentId : Option String} {status : NodeStatus}
      {budget : WorkNodeBudget} {depth : ℕ} (hfresh : id ∉ g.nodes)
      (h : g'.nodes = g.nodes.insert id
        (freshNode id agentId parentId capsuleRef status budget depth))
      (hid : validateIdentifier id "node_id" = .ok ())
      (hagent : validateIdentifier agentId "agent_id" = .ok ())
      (hcapsule : validateIdentifier capsuleRef "capsule_ref" = .ok ())
      (hbudget : validateBudget budget = .ok ()) (hdepth : depth = 0 ∨ depth ≤ g.maxDepth)
      (hroom : g.nodes.size < maxGraphNodes)
      (hslot : status = .active → g.activeCount < g.localConcurrencyLimit)
  | rewritten {id : String} {n n' : WorkNode} (hn : g.nodes[id]? = some n)
      (h : g'.nodes = g.nodes.insert id n') (hstep : NodeStep blake3 g id n n')

theorem headroom_le {a b r : UInt64} {x : ℕ} (hb : b.toNat ≤ a.toNat) (h : x ≤ headroom a b r) :
    b.toNat + x ≤ a.toNat := by
  unfold headroom at h
  omega

/-- A spend within the headroom stays within the allocation, given it was within before. -/
theorem SpendAdmitted.le {id chainId : String} {n : WorkNode} {tokens cost : ℕ} {r : Totals}
    {chain : ChainBudget} {a b : UInt64} (hc : Covered g)
    (h : SpendAdmitted g id n tokens cost r chainId chain a b) :
    n.budget.tokensConsumed.toNat + tokens ≤ n.budget.tokensAllocated.toNat ∧
      n.budget.costMicrosConsumed.toNat + cost ≤ n.budget.costMicrosAllocated.toNat := by
  have htokens := covered_iff.mp hc .tokens id n h.getNode 0
  have hcost := covered_iff.mp hc .cost id n h.getNode 0
  exact ⟨headroom_le (le_trans (Nat.le_add_right _ _) htokens) h.withinTokens,
    headroom_le (le_trans (Nat.le_add_right _ _) hcost) h.withinCost⟩

theorem Write.nodesChange (hc : Covered g) (h : Write blake3 g g') : NodesChange blake3 g g' := by
  cases h with
  | start h =>
    obtain @⟨nodeId, node, lease, h⟩ := h
    exact .rewritten h.getNode rfl (.start h)
  | change h =>
    cases h with
    | root h =>
      exact .added h.fresh rfl h.validNode h.validAgent h.validCapsule h.validBudget (.inl rfl)
        h.room fun _ => h.slot
    | @child parentId childId agentId capsuleRef chainId budget status parent reserved h =>
      exact .added h.fresh (sameButChains_childInserted _ _ _ _).nodes
        (validateIdentifier_eq_ok h.validChild) (validateIdentifier_eq_ok h.validAgent)
        h.validCapsule h.validBudget (.inr h.depth) h.room h.slot
    | reservation h => exact .same (sameButChains_reservationAdded _ _ _ _ _ _).nodes
    | rootContext hn hp htask hpolicy hexpected =>
      exact .rewritten hn rfl (.rootContext hp htask hpolicy hexpected)
    | update h =>
      cases h with
      | claim h => exact .rewritten h.getNode rfl (.claim h)
      | stop hn hs => exact .rewritten hn rfl (.stop hs)
      | leaseCleared hn => exact .rewritten hn rfl .leaseCleared
      | paths hn hs hlen hnodup hvalid => exact .rewritten hn rfl (.paths hs hlen hnodup hvalid)
      | childContext hn hp hparent hs htask hset hexpected =>
        exact .rewritten hn rfl (.childContext hp hparent hs htask hset hexpected)
      | delivery h => exact .rewritten h.getNode rfl (.delivery h)
      | complete hn hs => exact .rewritten hn rfl (.complete hs)
      | @receipt receipt node tokens cost reserved chainId chain nextTokens nextCost h hspend ht hcost =>
        have hnodes := ((sameButChains_updateChain (g.endNode receipt.nodeId
          (receiptedNode node receipt)) chainId (spentChain nextTokens nextCost)).addReceipt
            receipt).nodes
        obtain ⟨hle, hle'⟩ := hspend.le hc
        exact .rewritten hspend.getNode hnodes (.receipt hspend.active (by omega) (by omega))
      | accept h => exact .same rfl
      | @spend nodeId node tokens cost reserved chainId chain nextTokens nextCost nextChainTokens
          nextChainCost hspend ht hcost =>
        have hnodes := (sameButChains_updateChain (g.setNode nodeId (spentNode node nextTokens
          nextCost)) chainId (spentChain nextChainTokens nextChainCost)).nodes
        obtain ⟨hle, hle'⟩ := hspend.le hc
        exact .rewritten hspend.getNode hnodes (.spend hspend.active (by omega) (by omega))

/-! ## Facts about single steps -/

namespace NodeStep

variable {id : String} {n n' : WorkNode}

theorem pending (h : NodeStep blake3 g id n n') (hp : n'.status = .pending) :
    n.status = .pending := by
  cases h with
  | stop hs => rw [status_ended] at hp; cases hp
  | complete hs => rw [status_ended] at hp; cases hp
  | receipt hs => rw [status_ended] at hp; exact absurd hp (receiptStatus_ended _).1
  | claim h => cases hp
  | _ => exact hp

theorem active (h : NodeStep blake3 g id n n') (ha : n'.status = .active) :
    n.status = .active ∨ n.status = .pending ∧ g.activeCount < g.localConcurrencyLimit := by
  cases h with
  | claim h => exact .inr ⟨h.pending, h.slot⟩
  | stop hs => rw [status_ended] at ha; cases ha
  | complete hs => exact .inl hs
  | receipt hs => exact .inl hs
  | _ => exact .inl ha

/-- A node that is neither pending nor active keeps what other records refer to. -/
theorem of_ended (h : NodeStep blake3 g id n n') (ha : n.status ≠ .active)
    (hp : n.status ≠ .pending) : n'.status = n.status ∧ n'.executionStarted = n.executionStarted ∧
      n'.executionFence = n.executionFence ∧ n'.budget = n.budget := by
  cases h with
  | claim h => exact absurd h.pending hp
  | start h => exact absurd h.active ha
  | stop hs => rcases hs with hs | hs <;> contradiction
  | paths hs => exact absurd hs hp
  | childContext _ _ hs => exact absurd hs hp
  | delivery h => exact absurd h.active ha
  | complete hs => exact absurd hs ha
  | receipt hs => exact absurd hs ha
  | spend hs => exact absurd hs ha
  | _ => exact ⟨rfl, rfl, rfl, rfl⟩

theorem placed (h : NodeStep blake3 g id n n') : placement n' = placement n := by
  cases h with
  | stop hs => exact placement_ended (stoppedNode n _)
  | complete hs => exact placement_ended (completedNode n _)
  | receipt hs => exact placement_ended (receiptedNode n _)
  | _ => rfl

theorem parent (h : NodeStep blake3 g id n n') : n'.parentNodeId = n.parentNodeId :=
  (Prod.mk.inj (Prod.mk.inj h.placed).2).1

theorem depth (h : NodeStep blake3 g id n n') : n'.depth = n.depth :=
  (Prod.mk.inj (Prod.mk.inj h.placed).2).2

theorem granted (h : NodeStep blake3 g id n n') (m : Meter) :
    m.granted n'.budget = m.granted n.budget := by
  cases h with
  | stop hs => rw [budget_ended]; rfl
  | complete hs => rw [budget_ended]; rfl
  | receipt hs => rw [budget_ended]; cases m <;> rfl
  | spend hs => cases m <;> rfl
  | _ => rfl

end NodeStep

end LeanCtx.BoundedWorkGraph
