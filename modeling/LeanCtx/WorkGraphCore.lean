import LeanCtx.WorkGraphNodes
import LeanCtx.WorkGraphReserve

/-!
# What every reachable graph shares with its validator

`Core` collects the checks of the validator that no call can break, whatever
its arguments: the fields of the nodes, the limits, the child index, the
acknowledged exits and the receipts. The remaining checks are treated apart.
-/

namespace LeanCtx.BoundedWorkGraph

variable {g g' : BoundedWorkGraph} {blake3 : String → String}

/-! ## Fields of a node -/

structure NodeFields (blake3 : String → String) (graphId : String) (maxDepth : ℕ) (id : String)
    (n : WorkNode) : Prop where
  validId : validateIdentifier id "node_id" = .ok ()
  validAgent : validateIdentifier n.agentId "agent_id" = .ok ()
  validCapsule : validateIdentifier n.capsuleRef "capsule_ref" = .ok ()
  validBudget : validateBudget n.budget = .ok ()
  validTask : validateOptionalRef "task_ref" n.taskRef = .ok ()
  validPolicy : validateOptionalRef "policy_ref" n.policyRef = .ok ()
  validExpected : validateOptionalRef "expected_outcome_ref" n.expectedOutcomeRef = .ok ()
  validParentTask : ∀ t, n.parentTaskRef = some t → validateIdentifier t "parent_task_ref" = .ok ()
  pathCount : n.pathClaims.length ≤ maxPathClaims
  pathNodup : n.pathClaims.Nodup
  pathValid : ∀ claim ∈ n.pathClaims, validatePathClaim claim = .ok ()
  key : n.nodeId = id
  fence : ∀ f, n.executionFence = some f → f = executionFence blake3 graphId n
  delivery : ∀ a, n.deliveryAttempt = some a → (1 ≤ a ∧ a ≤ maxDeliveryAttempts) ∧
    n.executionStarted = true ∧ n.executionFence ≠ none
  depth : n.depth ≤ maxDepth

theorem validateOptionalRef_of_ok {field field' value : String}
    (h : validateIdentifier value field' = .ok ()) : validateOptionalRef field value = .ok () := by
  unfold validateOptionalRef
  split_ifs
  · rfl
  · exact validateIdentifier_eq_ok h

theorem validateIdentifier_of_optional {field field' value : String} (hne : value ≠ "")
    (h : validateOptionalRef field value = .ok ()) : validateIdentifier value field' = .ok () := by
  unfold validateOptionalRef at h
  rw [if_neg (by simpa using hne)] at h
  exact validateIdentifier_eq_ok h

theorem validateOptionalRef_empty (field : String) : validateOptionalRef field "" = .ok () := rfl

variable {graphId : String} {maxDepth : ℕ} {id : String} {n n' : WorkNode}

theorem NodeFields.ended (h : NodeFields blake3 graphId maxDepth id n) :
    NodeFields blake3 graphId maxDepth id (ended n) := by
  unfold BoundedWorkGraph.ended
  split_ifs
  · exact h
  · exact { h with }

theorem nodeFields_fresh {agentId capsuleRef : String} {parentId : Option String}
    {status : NodeStatus} {budget : WorkNodeBudget} {depth : ℕ}
    (hid : validateIdentifier id "node_id" = .ok ())
    (hagent : validateIdentifier agentId "agent_id" = .ok ())
    (hcapsule : validateIdentifier capsuleRef "capsule_ref" = .ok ())
    (hbudget : validateBudget budget = .ok ()) (hdepth : depth ≤ maxDepth) :
    NodeFields blake3 graphId maxDepth id
      (freshNode id agentId parentId capsuleRef status budget depth) where
  validId := hid
  validAgent := hagent
  validCapsule := hcapsule
  validBudget := hbudget
  validTask := rfl
  validPolicy := rfl
  validExpected := rfl
  validParentTask := nofun
  pathCount := Nat.zero_le _
  pathNodup := .nil
  pathValid := nofun
  key := rfl
  fence := nofun
  delivery := nofun
  depth := hdepth

theorem NodeStep.fields (hall : ∀ (x : String) (m : WorkNode), g.nodes[x]? = some m →
      NodeFields blake3 g.graphId g.maxDepth x m) (hn : g.nodes[id]? = some n)
    (h : NodeStep blake3 g id n n') : NodeFields blake3 g.graphId g.maxDepth id n' := by
  have hold := hall id n hn
  cases h with
  | claim h =>
    refine { hold with fence := ?_, delivery := nofun }
    rintro f ⟨⟩
    rfl
  | start h =>
    refine { hold with delivery := ?_ }
    intro a ha
    obtain ⟨hrange, -, hfence⟩ := hold.delivery a ha
    exact ⟨hrange, rfl, hfence⟩
  | @stop reason hs =>
    have hstopped : NodeFields blake3 g.graphId g.maxDepth id (stoppedNode n reason) :=
      { hold with }
    exact hstopped.ended
  | leaseCleared => exact { hold with }
  | paths hs hlen hnodup hvalid =>
    exact { hold with pathCount := hlen, pathNodup := hnodup, pathValid := hvalid }
  | rootContext hp htask hpolicy hexpected =>
    exact { hold with
      validTask := validateOptionalRef_of_ok htask
      validPolicy := validateOptionalRef_of_ok hpolicy
      validExpected := validateOptionalRef_of_ok hexpected
      validParentTask := nofun }
  | @childContext parentId taskRef expectedOutcomeRef parent hp hparent hs htask hset hexpected =>
    have hfields := hall parentId parent hparent
    refine { hold with
      validTask := validateOptionalRef_of_ok htask
      validPolicy := hfields.validPolicy
      validExpected := validateOptionalRef_of_ok hexpected
      validParentTask := ?_ }
    rintro t ⟨⟩
    exact validateIdentifier_of_optional hset hfields.validTask
  | @delivery attempt h =>
    refine { hold with delivery := ?_ }
    rintro a ⟨⟩
    exact ⟨h.range, h.started, h.fence⟩
  | @complete outcomeRef hs =>
    have hdone : NodeFields blake3 g.graphId g.maxDepth id (completedNode n outcomeRef) :=
      { hold with }
    exact hdone.ended
  | @receipt receipt hs ht hc =>
    have hdone : NodeFields blake3 g.graphId g.maxDepth id (receiptedNode n receipt) :=
      { hold with validBudget := validateBudget_eq_ok.mpr ⟨ht, hc⟩ }
    exact hdone.ended
  | spend hs ht hc => exact { hold with validBudget := validateBudget_eq_ok.mpr ⟨ht, hc⟩ }

/-! ## What a write leaves alone -/

structure SameFrame (g g' : BoundedWorkGraph) : Prop where
  graphId : g'.graphId = g.graphId
  maxDepth : g'.maxDepth = g.maxDepth
  maxFanOut : g'.maxFanOut = g.maxFanOut
  concurrency : g'.maxLocalConcurrency = g.maxLocalConcurrency
  failedSpend : g'.failedSpend = g.failedSpend

theorem SameButChains.sameFrame {g₁ : BoundedWorkGraph} (h : SameButChains g₁ g')
    (hframe : SameFrame g g₁) : SameFrame g g' := by
  rw [h.eq]
  exact ⟨hframe.graphId, hframe.maxDepth, hframe.maxFanOut, hframe.concurrency, hframe.failedSpend⟩

theorem Write.sameFrame (h : Write blake3 g g') : SameFrame g g' := by
  cases h with
  | start h =>
    obtain @⟨nodeId, node, lease, h⟩ := h
    exact ⟨rfl, rfl, rfl, rfl, rfl⟩
  | change h =>
    cases h with
    | child h =>
      exact (sameButChains_childInserted _ _ _ _).sameFrame ⟨rfl, rfl, rfl, rfl, rfl⟩
    | reservation h =>
      exact (sameButChains_reservationAdded _ _ _ _ _ _).sameFrame ⟨rfl, rfl, rfl, rfl, rfl⟩
    | update h =>
      cases h with
      | receipt h hspend =>
        exact ((sameButChains_updateChain _ _ _).addReceipt _).sameFrame ⟨rfl, rfl, rfl, rfl, rfl⟩
      | spend hspend =>
        exact (sameButChains_updateChain _ _ _).sameFrame ⟨rfl, rfl, rfl, rfl, rfl⟩
      | _ => exact ⟨rfl, rfl, rfl, rfl, rfl⟩
    | _ => exact ⟨rfl, rfl, rfl, rfl, rfl⟩

/-- What a write does to the child index and the reservations. -/
inductive LinkChange (g g' : BoundedWorkGraph) : Prop
  | same (hchildren : g'.children = g.children)
      (hbudgets : g'.pendingChildBudgets = g.pendingChildBudgets)
      (hparents : g'.pendingChildParents = g.pendingChildParents)
  | child {parentId childId agentId capsuleRef chainId : String} {budget : WorkNodeBudget}
      {status : NodeStatus} {parent : WorkNode} {reserved : Totals}
      (h : ChildAdmitted g parentId childId agentId capsuleRef budget status parent reserved
        chainId)
      (hg' : g' = g.childInserted parentId (freshNode childId agentId (some parentId) capsuleRef
        status budget (parent.depth + 1)) chainId)
  | reservation {parentId childId chainId : String} {budget : WorkNodeBudget} {parent : WorkNode}
      {reserved : Totals} (h : ReservationAdmitted g parentId childId budget parent reserved chainId)
      (hg' : g' = g.reservationAdded parentId childId budget chainId (parent.depth + 1))

theorem Write.linkChange (h : Write blake3 g g') : LinkChange g g' := by
  cases h with
  | start h =>
    obtain @⟨nodeId, node, lease, h⟩ := h
    exact .same rfl rfl rfl
  | change h =>
    cases h with
    | child h => exact .child h rfl
    | reservation h => exact .reservation h rfl
    | update h =>
      cases h with
      | @receipt receipt node _ _ _ chainId _ nextTokens nextCost h hspend =>
        have heq := ((sameButChains_updateChain (g.endNode receipt.nodeId (receiptedNode node receipt))
          chainId (spentChain nextTokens nextCost)).addReceipt receipt).eq
        rw [heq]
        exact .same rfl rfl rfl
      | @spend nodeId node _ _ _ chainId _ nextTokens nextCost nextChainTokens nextChainCost hspend =>
        have heq := (sameButChains_updateChain (g.setNode nodeId (spentNode node nextTokens nextCost))
          chainId (spentChain nextChainTokens nextChainCost)).eq
        rw [heq]
        exact .same rfl rfl rfl
      | _ => exact .same rfl rfl rfl
    | _ => exact .same rfl rfl rfl

/-! ## Slots -/

def activeOne (n : WorkNode) : ℕ := if n.status = .active then 1 else 0

theorem activeCount_eq (g : BoundedWorkGraph) :
    g.activeCount = OrdMap.mapSum (fun _ n => activeOne n) g.nodes := by
  unfold activeCount OrdMap.mapSum
  induction g.nodes.toList with
  | nil => rfl
  | cons p l ih =>
    by_cases hp : p.2.status = .active
    · simp [hp, activeOne, ih, Nat.add_comm]
    · simp [hp, activeOne, ih]

theorem activeCount_insert (h : g'.nodes = g.nodes.insert id n') :
    g'.activeCount + (g.nodes[id]?).elim 0 activeOne = g.activeCount + activeOne n' := by
  rw [activeCount_eq, activeCount_eq, h]
  exact OrdMap.mapSum_insert _ _ _ _

theorem NodesChange.activeCount_le (h : NodesChange blake3 g g')
    (hle : g.activeCount ≤ g.localConcurrencyLimit) :
    g'.activeCount ≤ g.localConcurrencyLimit := by
  cases h with
  | same h =>
    rw [activeCount_eq, h, ← activeCount_eq]
    exact hle
  | @added id agentId capsuleRef parentId status budget depth hfresh h hid hagent hcapsule hbudget
      hdepth hroom hslot =>
    have hcount := activeCount_insert h
    rw [(OrdMap.not_mem_iff _ _).mp hfresh, Option.elim_none] at hcount
    by_cases hs : status = .active
    · have := hslot hs
      have hone : activeOne (freshNode id agentId parentId capsuleRef status budget depth) ≤ 1 := by
        unfold activeOne
        split_ifs <;> omega
      omega
    · have hzero : activeOne (freshNode id agentId parentId capsuleRef status budget depth) = 0 :=
        if_neg hs
      omega
  | @rewritten id n n' hn h hstep =>
    have hcount := activeCount_insert h
    rw [hn, Option.elim_some] at hcount
    by_cases ha : n'.status = .active
    · have hone : activeOne n' = 1 := if_pos ha
      rcases hstep.active ha with hn₀ | ⟨hpending, hslot⟩
      · have : activeOne n = 1 := if_pos hn₀
        omega
      · omega
    · have hzero : activeOne n' = 0 := if_neg ha
      omega

/-! ## The invariant -/

structure Core (blake3 : String → String) (g : BoundedWorkGraph) : Prop where
  fields : ∀ (id : String) (n : WorkNode), g.nodes[id]? = some n →
    NodeFields blake3 g.graphId g.maxDepth id n
  graphId : validateOptionalRef "graph_id" g.graphId = .ok ()
  size : g.nodes.size ≤ maxGraphNodes
  fanOut : 1 ≤ g.maxFanOut ∧ g.maxFanOut ≤ maxFanOutLimit
  depth : 1 ≤ g.maxDepth ∧ g.maxDepth ≤ maxDepthLimit
  concurrency : 1 ≤ g.maxLocalConcurrency ∧ g.maxLocalConcurrency ≤ maxLocalConcurrencyLimit
  active : g.activeCount ≤ g.localConcurrencyLimit
  childKeys : ∀ (p : String) (l : List String), g.children[p]? = some l →
    p ∈ g.nodes ∧ l.length ≤ g.maxFanOut
  idle : ∀ (id : String) (n : WorkNode), g.nodes[id]? = some n → n.status = .pending →
    g.childrenOf id = []
  reaped : ∀ id f : String, g.reapedExecutions[id]? = some f → ∃ n : WorkNode,
    g.nodes[id]? = some n ∧ n.executionStarted = true ∧ n.executionFence = some f ∧
      n.status ≠ .active ∧ n.status ≠ .pending
  pending : ∀ (c : String) (b : WorkNodeBudget), g.pendingChildBudgets[c]? = some b →
    validateIdentifier c "pending_child_id" = .ok () ∧ b.tokensConsumed = 0 ∧
      b.costMicrosConsumed = 0
  receipts : ∀ (r : String) (x : ChildExecutionReceipt), g.receipts[r]? = some x →
    validateReceipt x = .ok () ∧ ∃ n : WorkNode, g.nodes[x.nodeId]? = some n ∧ Finished n ∧
      n.parentNodeId ≠ none ∧ n.budget.tokensConsumed = x.tokensConsumed ∧
      n.budget.costMicrosConsumed = x.costMicrosConsumed ∧
      (n.executionFence ≠ none → x.executionFence = n.executionFence)
  failedSpend : g.failedSpend = ∅

theorem core_new (a b : ℕ) : Core blake3 (new a b) := by
  have hfan : 1 ≤ max 1 (min a maxFanOutLimit) ∧ max 1 (min a maxFanOutLimit) ≤ maxFanOutLimit := by
    unfold maxFanOutLimit
    omega
  have hdepth : 1 ≤ max 1 (min b maxDepthLimit) ∧ max 1 (min b maxDepthLimit) ≤ maxDepthLimit := by
    unfold maxDepthLimit
    omega
  constructor <;> first | exact hfan | exact hdepth | simp [new, activeCount_eq]
  · exact validateOptionalRef_empty _
  · decide

/-! ## Each write keeps it -/

/-- Nodes stay, and one that had ended keeps what other records refer to. -/
theorem NodesChange.of_ended (h : NodesChange blake3 g g') (hn : g.nodes[id]? = some n)
    (ha : n.status ≠ .active) (hp : n.status ≠ .pending) :
    ∃ n' : WorkNode, g'.nodes[id]? = some n' ∧ n'.status = n.status ∧
      n'.executionStarted = n.executionStarted ∧ n'.executionFence = n.executionFence ∧
      n'.budget = n.budget ∧ n'.parentNodeId = n.parentNodeId := by
  cases h with
  | same h => exact ⟨n, by rw [h, hn], rfl, rfl, rfl, rfl, rfl⟩
  | added hfresh h =>
    exact ⟨n, by rw [h, get_of_insert_ne (ne_of_fresh hfresh hn), hn], rfl, rfl, rfl, rfl, rfl⟩
  | @rewritten x m m' hm h hstep =>
    rw [h, OrdMap.get_insert]
    split_ifs with heq
    · subst heq
      obtain rfl := Option.some.inj (hm.symm.trans hn)
      obtain ⟨h1, h2, h3, h4⟩ := hstep.of_ended ha hp
      exact ⟨m', rfl, h1, h2, h3, h4, hstep.parent⟩
    · exact ⟨n, hn, rfl, rfl, rfl, rfl, rfl⟩

theorem NodesChange.mem (h : NodesChange blake3 g g') {x : String} (hx : x ∈ g.nodes) :
    x ∈ g'.nodes := by
  cases h with
  | same h => rwa [h]
  | added hfresh h =>
    rw [h]
    exact mem_nodes_insert hx
  | rewritten hn h =>
    rw [h]
    exact mem_nodes_insert hx

theorem NodesChange.fields (h : NodesChange blake3 g g') (hframe : SameFrame g g')
    (hall : ∀ (x : String) (m : WorkNode), g.nodes[x]? = some m →
      NodeFields blake3 g.graphId g.maxDepth x m) (hn : g'.nodes[id]? = some n') :
    NodeFields blake3 g'.graphId g'.maxDepth id n' := by
  rw [hframe.graphId, hframe.maxDepth]
  cases h with
  | same h => exact hall id n' (h ▸ hn)
  | added hfresh h hid hagent hcapsule hbudget hdepth =>
    rw [h, OrdMap.get_insert] at hn
    split_ifs at hn with heq
    · obtain rfl := Option.some.inj hn
      subst heq
      exact nodeFields_fresh hid hagent hcapsule hbudget (by omega)
    · exact hall id n' hn
  | rewritten hm h hstep =>
    rw [h, OrdMap.get_insert] at hn
    split_ifs at hn with heq
    · obtain rfl := Option.some.inj hn
      subst heq
      exact hstep.fields hall hm
    · exact hall id n' hn

theorem NodesChange.size (h : NodesChange blake3 g g') (hsize : g.nodes.size ≤ maxGraphNodes) :
    g'.nodes.size ≤ maxGraphNodes := by
  cases h with
  | same h => rwa [h]
  | added hfresh h _ _ _ _ _ hroom =>
    rw [h, OrdMap.size_insert_of_not_mem hfresh]
    exact hroom
  | rewritten hn h =>
    rw [h, OrdMap.size_insert_of_mem ((OrdMap.mem_iff _ _).mpr ⟨_, hn⟩)]
    exact hsize

/-- A node that is pending after a write was pending before it, or is new. -/
theorem NodesChange.pending (h : NodesChange blake3 g g') (hn : g'.nodes[id]? = some n')
    (hp : n'.status = .pending) :
    id ∉ g.nodes ∨ ∃ n : WorkNode, g.nodes[id]? = some n ∧ n.status = .pending := by
  cases h with
  | same h => exact .inr ⟨n', h ▸ hn, hp⟩
  | added hfresh h =>
    rw [h, OrdMap.get_insert] at hn
    split_ifs at hn with heq
    · exact .inl (heq ▸ hfresh)
    · exact .inr ⟨n', hn, hp⟩
  | rewritten hm h hstep =>
    rw [h, OrdMap.get_insert] at hn
    split_ifs at hn with heq
    · obtain rfl := Option.some.inj hn
      subst heq
      exact .inr ⟨_, hm, hstep.pending hp⟩
    · exact .inr ⟨n', hn, hp⟩

theorem childInserted_children (g : BoundedWorkGraph) (parentId chainId : String)
    (node : WorkNode) : (g.childInserted parentId node chainId).children =
      g.children.insert parentId (g.childrenOf parentId ++ [node.nodeId]) := by
  rw [(sameButChains_childInserted g parentId chainId node).eq]
  rfl

theorem childInserted_childrenOf (g : BoundedWorkGraph) (parentId chainId p : String)
    (node : WorkNode) : (g.childInserted parentId node chainId).childrenOf p =
      if parentId = p then g.childrenOf parentId ++ [node.nodeId] else g.childrenOf p := by
  rw [(sameButChains_childInserted g parentId chainId node).eq]
  exact childrenOf_linkChild g parentId p node

theorem childInserted_budgets (g : BoundedWorkGraph) (parentId chainId : String)
    (node : WorkNode) : (g.childInserted parentId node chainId).pendingChildBudgets =
      g.pendingChildBudgets.erase node.nodeId := by
  rw [(sameButChains_childInserted g parentId chainId node).eq]
  rfl

theorem reservationAdded_children (g : BoundedWorkGraph) (parentId childId chainId : String)
    (budget : WorkNodeBudget) (depth : ℕ) :
    (g.reservationAdded parentId childId budget chainId depth).children = g.children := by
  rw [(sameButChains_reservationAdded g parentId childId chainId budget depth).eq]
  rfl

theorem reservationAdded_budgets (g : BoundedWorkGraph) (parentId childId chainId : String)
    (budget : WorkNodeBudget) (depth : ℕ) :
    (g.reservationAdded parentId childId budget chainId depth).pendingChildBudgets =
      g.pendingChildBudgets.insert childId budget := by
  rw [(sameButChains_reservationAdded g parentId childId chainId budget depth).eq]
  rfl

theorem childrenOf_congr (h : g'.children = g.children) (p : String) :
    g'.childrenOf p = g.childrenOf p := by
  rw [childrenOf, childrenOf, h]

theorem Core.childKeys_write (hcore : Core blake3 g) (hnodes : NodesChange blake3 g g')
    (hframe : SameFrame g g') (h : LinkChange g g') (p : String) (l : List String)
    (hl : g'.children[p]? = some l) : p ∈ g'.nodes ∧ l.length ≤ g'.maxFanOut := by
  rw [hframe.maxFanOut]
  cases h with
  | same hchildren =>
    rw [hchildren] at hl
    obtain ⟨hp, hlen⟩ := hcore.childKeys p l hl
    exact ⟨hnodes.mem hp, hlen⟩
  | child h hg' =>
    rw [hg', childInserted_children, OrdMap.get_insert] at hl
    split_ifs at hl with heq
    · obtain rfl := Option.some.inj hl
      subst heq
      have := h.fanOut
      exact ⟨hnodes.mem ((OrdMap.mem_iff _ _).mpr ⟨_, h.getParent⟩), by simp; omega⟩
    · obtain ⟨hp, hlen⟩ := hcore.childKeys p l hl
      exact ⟨hnodes.mem hp, hlen⟩
  | reservation h hg' =>
    rw [hg', reservationAdded_children] at hl
    obtain ⟨hp, hlen⟩ := hcore.childKeys p l hl
    exact ⟨hnodes.mem hp, hlen⟩

theorem Core.idle_write (hb : Bookkept g) (hcore : Core blake3 g) (hnodes : NodesChange blake3 g g')
    (h : LinkChange g g') (hn : g'.nodes[id]? = some n') (hp : n'.status = .pending) :
    g'.childrenOf id = [] := by
  have hold : g.childrenOf id = [] := by
    rcases hnodes.pending hn hp with hfresh | ⟨n, hn₀, hp₀⟩
    · exact childrenOf_eq_nil hb.tree hfresh
    · exact hcore.idle id n hn₀ hp₀
  cases h with
  | same hchildren => rw [childrenOf_congr hchildren, hold]
  | child h hg' =>
    rw [hg', childInserted_childrenOf]
    split_ifs with heq
    · -- The parent is active, before and after, so it is not the pending node.
      subst heq
      rcases hnodes.pending hn hp with hfresh | ⟨n, hn₀, hp₀⟩
      · exact absurd ((OrdMap.mem_iff _ _).mpr ⟨_, h.getParent⟩) hfresh
      · obtain rfl := Option.some.inj (h.getParent.symm.trans hn₀)
        rw [h.active] at hp₀
        cases hp₀
    · exact hold
  | reservation h hg' =>
    rw [hg', childrenOf_congr (reservationAdded_children _ _ _ _ _ _), hold]

theorem Core.pending_write (hcore : Core blake3 g) (h : LinkChange g g') (c : String)
    (b : WorkNodeBudget) (hc : g'.pendingChildBudgets[c]? = some b) :
    validateIdentifier c "pending_child_id" = .ok () ∧ b.tokensConsumed = 0 ∧
      b.costMicrosConsumed = 0 := by
  cases h with
  | same _ hbudgets => exact hcore.pending c b (hbudgets ▸ hc)
  | child h hg' =>
    rw [hg', childInserted_budgets, OrdMap.get_erase] at hc
    split_ifs at hc
    exact hcore.pending c b hc
  | reservation h hg' =>
    rw [hg', reservationAdded_budgets, OrdMap.get_insert] at hc
    split_ifs at hc with heq
    · obtain rfl := Option.some.inj hc
      subst heq
      exact ⟨validateIdentifier_eq_ok h.validChild, h.unspent.1, h.unspent.2⟩
    · exact hcore.pending c b hc

/-- Acknowledged exits when the acknowledgements themselves stay. -/
theorem Core.reaped_same (hcore : Core blake3 g) (hnodes : NodesChange blake3 g g') {id f : String}
    (hf : g.reapedExecutions[id]? = some f) : ∃ n : WorkNode, g'.nodes[id]? = some n ∧
      n.executionStarted = true ∧ n.executionFence = some f ∧ n.status ≠ .active ∧
      n.status ≠ .pending := by
  obtain ⟨n, hn, hstarted, hfence, ha, hp⟩ := hcore.reaped id f hf
  obtain ⟨n', hn', h1, h2, h3, -⟩ := hnodes.of_ended hn ha hp
  exact ⟨n', hn', h2.trans hstarted, h3.trans hfence, by rwa [h1], by rwa [h1]⟩

theorem ended_fence (n : WorkNode) : (ended n).executionFence = n.executionFence := by
  unfold ended
  split_ifs <;> rfl

/-- An incarnation that ends acknowledges its own fence. -/
theorem Core.reaped_endNode (hcore : Core blake3 g) (hnodes : NodesChange blake3 g g')
    {nodeId : String} (hget : g'.nodes[nodeId]? = some (ended n'))
    (hreaped : g'.reapedExecutions = g.reap nodeId n') (ha : n'.status ≠ .active)
    (hp : n'.status ≠ .pending) {id f : String} (hf : g'.reapedExecutions[id]? = some f) :
    ∃ n : WorkNode, g'.nodes[id]? = some n ∧ n.executionStarted = true ∧
      n.executionFence = some f ∧ n.status ≠ .active ∧ n.status ≠ .pending := by
  rw [hreaped, reap] at hf
  split_ifs at hf with hstarted
  · cases hfence : n'.executionFence with
    | none =>
      rw [hfence] at hf
      exact hcore.reaped_same hnodes hf
    | some fence =>
      rw [hfence] at hf
      dsimp only at hf
      rw [OrdMap.get_insert] at hf
      split_ifs at hf with heq
      · obtain rfl := Option.some.inj hf
        subst heq
        refine ⟨ended n', hget, (ended_started n').1.trans hstarted, (ended_fence n').trans hfence,
          ?_, ?_⟩
        · rwa [status_ended]
        · rwa [status_ended]
      · exact hcore.reaped_same hnodes hf
  · exact hcore.reaped_same hnodes hf

/-- Receipts when the receipts themselves stay. -/
theorem Core.receipts_same (hcore : Core blake3 g) (hnodes : NodesChange blake3 g g') {r : String}
    {x : ChildExecutionReceipt} (hx : g.receipts[r]? = some x) : validateReceipt x = .ok () ∧
      ∃ n : WorkNode, g'.nodes[x.nodeId]? = some n ∧ Finished n ∧ n.parentNodeId ≠ none ∧
      n.budget.tokensConsumed = x.tokensConsumed ∧
      n.budget.costMicrosConsumed = x.costMicrosConsumed ∧
      (n.executionFence ≠ none → x.executionFence = n.executionFence) := by
  obtain ⟨hvalid, n, hn, hdone, hparent, htokens, hcost, hfence⟩ := hcore.receipts r x hx
  have ha : n.status ≠ .active := fun h => not_finished_of_open (.inl h) hdone
  have hp : n.status ≠ .pending := fun h => not_finished_of_open (.inr h) hdone
  obtain ⟨n', hn', h1, -, h3, h4, h5⟩ := hnodes.of_ended hn ha hp
  refine ⟨hvalid, n', hn', ?_, by rwa [h5], by rw [h4, htokens], by rw [h4, hcost], ?_⟩
  · rw [Finished, h1]
    exact hdone
  · rw [h3]
    exact hfence

/-- What a write does to the acknowledged exits. -/
inductive ReapChange (g g' : BoundedWorkGraph) : Prop
  | same (h : g'.reapedExecutions = g.reapedExecutions)
  | ended {id : String} {n' : WorkNode} (hget : g'.nodes[id]? = some (ended n'))
      (h : g'.reapedExecutions = g.reap id n') (ha : n'.status ≠ .active) (hp : n'.status ≠ .pending)

/-- What a write does to the receipts. -/
inductive ReceiptChange (g g' : BoundedWorkGraph) : Prop
  | same (h : g'.receipts = g.receipts)
  | added {receipt : ChildExecutionReceipt} {n : WorkNode} (hallowed : ReceiptAdmitted g receipt n)
      (hn : g.nodes[receipt.nodeId]? = some n) (ha : n.status = .active)
      (hget : g'.nodes[receipt.nodeId]? = some (ended (receiptedNode n receipt)))
      (h : g'.receipts = g.receipts.insert receipt.receiptId receipt)

theorem Write.reapChange (h : Write blake3 g g') : ReapChange g g' := by
  cases h with
  | start h =>
    obtain @⟨nodeId, node, lease, h⟩ := h
    exact .same rfl
  | change h =>
    cases h with
    | child h =>
      rw [(sameButChains_childInserted _ _ _ _).eq]
      exact .same rfl
    | reservation h =>
      rw [(sameButChains_reservationAdded _ _ _ _ _ _).eq]
      exact .same rfl
    | update h =>
      cases h with
      | stop hn hs => exact .ended (Std.ExtTreeMap.getElem?_insert_self) rfl nofun nofun
      | complete hn hs => exact .ended (Std.ExtTreeMap.getElem?_insert_self) rfl nofun nofun
      | @receipt receipt node _ _ _ chainId _ nextTokens nextCost h hspend =>
        rw [((sameButChains_updateChain (g.endNode receipt.nodeId (receiptedNode node receipt))
          chainId (spentChain nextTokens nextCost)).addReceipt receipt).eq]
        obtain ⟨ha, hp⟩ := receiptStatus_ended receipt.outcome
        exact .ended (Std.ExtTreeMap.getElem?_insert_self) rfl hp ha
      | @spend nodeId node _ _ _ chainId _ nextTokens nextCost nextChainTokens nextChainCost hspend =>
        rw [(sameButChains_updateChain (g.setNode nodeId (spentNode node nextTokens nextCost))
          chainId (spentChain nextChainTokens nextChainCost)).eq]
        exact .same rfl
      | _ => exact .same rfl
    | _ => exact .same rfl

theorem Write.receiptChange (h : Write blake3 g g') : ReceiptChange g g' := by
  cases h with
  | start h =>
    obtain @⟨nodeId, node, lease, h⟩ := h
    exact .same rfl
  | change h =>
    cases h with
    | child h =>
      rw [(sameButChains_childInserted _ _ _ _).eq]
      exact .same rfl
    | reservation h =>
      rw [(sameButChains_reservationAdded _ _ _ _ _ _).eq]
      exact .same rfl
    | update h =>
      cases h with
      | @receipt receipt node _ _ _ chainId _ nextTokens nextCost h hspend =>
        rw [((sameButChains_updateChain (g.endNode receipt.nodeId (receiptedNode node receipt))
          chainId (spentChain nextTokens nextCost)).addReceipt receipt).eq]
        exact .added h hspend.getNode hspend.active (Std.ExtTreeMap.getElem?_insert_self) rfl
      | @spend nodeId node _ _ _ chainId _ nextTokens nextCost nextChainTokens nextChainCost hspend =>
        rw [(sameButChains_updateChain (g.setNode nodeId (spentNode node nextTokens nextCost))
          chainId (spentChain nextChainTokens nextChainCost)).eq]
        exact .same rfl
      | _ => exact .same rfl
    | _ => exact .same rfl

theorem Core.receipts_write (hcore : Core blake3 g) (hnodes : NodesChange blake3 g g')
    (h : ReceiptChange g g') (r : String) (x : ChildExecutionReceipt)
    (hx : g'.receipts[r]? = some x) : validateReceipt x = .ok () ∧
      ∃ n : WorkNode, g'.nodes[x.nodeId]? = some n ∧ Finished n ∧ n.parentNodeId ≠ none ∧
      n.budget.tokensConsumed = x.tokensConsumed ∧
      n.budget.costMicrosConsumed = x.costMicrosConsumed ∧
      (n.executionFence ≠ none → x.executionFence = n.executionFence) := by
  cases h with
  | same h => exact hcore.receipts_same hnodes (h ▸ hx)
  | @added receipt n hallowed hn ha hget h =>
    rw [h, OrdMap.get_insert] at hx
    split_ifs at hx with heq
    · obtain rfl := Option.some.inj hx
      have hplace := placement_ended (receiptedNode n receipt)
      refine ⟨hallowed.valid, _, hget, finished_receiptStatus n receipt, ?_, ?_, ?_, ?_⟩
      · rw [(Prod.mk.inj (Prod.mk.inj hplace).2).1]
        exact hallowed.child
      · rw [budget_ended]
        rfl
      · rw [budget_ended]
        rfl
      · rw [ended_fence]
        exact hallowed.fence
    · exact hcore.receipts_same hnodes hx

theorem localConcurrencyLimit_congr (h : SameFrame g g') :
    g'.localConcurrencyLimit = g.localConcurrencyLimit := by
  rw [localConcurrencyLimit, localConcurrencyLimit, h.concurrency]

theorem Core.write (hb : Bookkept g) (hc : Covered g) (hcore : Core blake3 g)
    (h : Write blake3 g g') : Core blake3 g' := by
  have hnodes := h.nodesChange hc
  have hframe := h.sameFrame
  have hlinks := h.linkChange
  constructor
  · exact fun id n hn => hnodes.fields hframe hcore.fields hn
  · rw [hframe.graphId]
    exact hcore.graphId
  · exact hnodes.size hcore.size
  · rw [hframe.maxFanOut]
    exact hcore.fanOut
  · rw [hframe.maxDepth]
    exact hcore.depth
  · rw [hframe.concurrency]
    exact hcore.concurrency
  · rw [localConcurrencyLimit_congr hframe]
    exact hnodes.activeCount_le hcore.active
  · exact hcore.childKeys_write hnodes hframe hlinks
  · exact fun id n hn hp => hcore.idle_write hb hnodes hlinks hn hp
  · intro id f hf
    rcases h.reapChange with hsame | ⟨hget, hreap, ha, hp⟩
    · exact hcore.reaped_same hnodes (hsame ▸ hf)
    · exact hcore.reaped_endNode hnodes hget hreap ha hp hf
  · exact hcore.pending_write hlinks
  · exact hcore.receipts_write hnodes h.receiptChange
  · rw [hframe.failedSpend]
    exact hcore.failedSpend

end LeanCtx.BoundedWorkGraph
