import LeanCtx.WorkGraphOutcomes

/-!
# What holds in every reachable work graph

`Bookkept g` collects the structure every operation relies on: the tree, the
two pending maps with the same keys and with parents that exist, and receipts
only for nodes that have ended. It holds of a new graph and each write keeps
it, so it holds after any run of calls, successful or failed, and no call of
such a run panics.
-/

namespace LeanCtx

open Relation

variable {g g' : BoundedWorkGraph} {blake3 : String → String}

namespace BoundedWorkGraph

/-! ## Fields a write leaves alone -/

/-- Only the chain records differ, and none is lost. -/
structure SameButChains (g g' : BoundedWorkGraph) : Prop where
  eq : g' = { g with chainBudgets := g'.chainBudgets }
  chains : ∀ id ∈ g.chainBudgets, id ∈ g'.chainBudgets

theorem SameButChains.trans {g'' : BoundedWorkGraph} (h : SameButChains g g')
    (h' : SameButChains g' g'') : SameButChains g g'' := by
  refine ⟨?_, fun id hid => h'.chains id (h.chains id hid)⟩
  rw [h'.eq, h.eq]

theorem SameButChains.addReceipt (h : SameButChains g g') (receipt : ChildExecutionReceipt) :
    SameButChains (g.addReceipt receipt) (g'.addReceipt receipt) := by
  refine ⟨?_, h.chains⟩
  rw [h.eq]
  rfl

section Frames

variable (g) (chainId : String) (f : ChainBudget → ChainBudget)

theorem updateChain_cases : g.updateChain chainId f = g ∨
    ∃ chain, g.chainBudgets[chainId]? = some chain ∧ g.updateChain chainId f =
      { g with chainBudgets := g.chainBudgets.insert chainId (f chain) } := by
  unfold updateChain
  cases h : g.chainBudgets[chainId]? with
  | none => exact .inl rfl
  | some chain => exact .inr ⟨chain, rfl, rfl⟩

theorem sameButChains_updateChain : SameButChains g (g.updateChain chainId f) := by
  rcases updateChain_cases g chainId f with h | ⟨chain, -, h⟩
  · rw [h]
    exact ⟨rfl, fun _ hid => hid⟩
  · rw [h]
    exact ⟨rfl, fun _ hid => Std.ExtTreeMap.mem_insert.mpr (.inr hid)⟩

theorem sameButChains_ensureChainBudget : SameButChains g (g.ensureChainBudget chainId) := by
  unfold ensureChainBudget
  split_ifs
  · exact ⟨rfl, fun _ hid => hid⟩
  · exact ⟨rfl, fun _ hid => Std.ExtTreeMap.mem_insert.mpr (.inr hid)⟩

theorem sameButChains_recordChainAllocation (a b c d : UInt64) (depth : ℕ) :
    SameButChains g (g.recordChainAllocation chainId a b c d depth) :=
  (sameButChains_ensureChainBudget g chainId).trans (sameButChains_updateChain _ _ _)

end Frames

/-- The child and its place in the tree, without the chain record. -/
theorem sameButChains_childInserted (g : BoundedWorkGraph) (parentId chainId : String)
    (node : WorkNode) : SameButChains ((g.linkChild parentId node).takePending node.nodeId)
      (g.childInserted parentId node chainId) :=
  sameButChains_recordChainAllocation _ _ _ _ _ _ _

theorem sameButChains_reservationAdded (g : BoundedWorkGraph) (parentId childId chainId : String)
    (budget : WorkNodeBudget) (depth : ℕ) : SameButChains (g.addPending parentId childId budget)
      (g.reservationAdded parentId childId budget chainId depth) :=
  sameButChains_recordChainAllocation _ _ _ _ _ _ _

theorem SameButChains.sameTree (h : SameButChains g g') : SameTree g g' := by
  rw [h.eq]
  exact ⟨fun _ => rfl, rfl, rfl, h.chains⟩

/-! ## New nodes keep the tree -/

theorem get_of_insert_ne {id x : String} {n : WorkNode} {t : OrdMap String WorkNode}
    (h : id ≠ x) : (t.insert id n)[x]? = t[x]? := by
  rw [OrdMap.get_insert, if_neg h]

theorem ne_of_fresh {id x : String} {n : WorkNode} (hfresh : id ∉ g.nodes)
    (hx : g.nodes[x]? = some n) : id ≠ x := by
  rintro rfl
  exact hfresh ((OrdMap.mem_iff _ _).mpr ⟨n, hx⟩)

theorem Tree.insertRoot (ht : Tree g) {node : WorkNode} (hfresh : node.nodeId ∉ g.nodes)
    (hparent : node.parentNodeId = none) (hdepth : node.depth = 0) : Tree (g.insertRoot node) := by
  have hnodes (x : String) : (g.insertRoot node).nodes[x]? =
      if node.nodeId = x then some node else g.nodes[x]? := OrdMap.get_insert _ _ _ _
  have hsize : (g.insertRoot node).nodes.size = g.nodes.size + 1 :=
    OrdMap.size_insert_of_not_mem hfresh
  constructor
  · intro id n hn
    rw [hnodes] at hn
    split_ifs at hn with heq
    · obtain rfl := Option.some.inj hn
      exact heq
    · exact ht.key hn
  · intro id n hn hp
    rw [hnodes] at hn
    split_ifs at hn with heq
    · obtain rfl := Option.some.inj hn
      exact hdepth
    · exact ht.root hn hp
  · intro id p n hn hp
    rw [hnodes] at hn
    split_ifs at hn with heq
    · obtain rfl := Option.some.inj hn
      rw [hparent] at hp
      cases hp
    · obtain ⟨q, hq, hd⟩ := ht.parent hn hp
      exact ⟨q, by rw [hnodes, if_neg (ne_of_fresh hfresh hq), hq], hd⟩
  · intro id n hn
    rw [hnodes] at hn
    rw [hsize]
    split_ifs at hn with heq
    · obtain rfl := Option.some.inj hn
      omega
    · exact (ht.depth_lt hn).trans (Nat.lt_succ_self _)
  · intro p c hc
    obtain ⟨n, hn, hp⟩ := ht.child_mem (g := g) hc
    exact ⟨n, by rw [hnodes, if_neg (ne_of_fresh hfresh hn), hn], hp⟩
  · intro c p n hn hp
    rw [hnodes] at hn
    split_ifs at hn with heq
    · obtain rfl := Option.some.inj hn
      rw [hparent] at hp
      cases hp
    · exact ht.mem_child hn hp
  · exact ht.nodup
  · intro id n hn hp
    rw [hnodes] at hn
    refine Std.ExtTreeMap.mem_insert.mpr ?_
    split_ifs at hn with heq
    · exact .inl (Std.compare_eq_iff_eq.mpr heq)
    · exact .inr (ht.chain hn hp)

theorem childrenOf_linkChild (g : BoundedWorkGraph) (parentId p : String) (node : WorkNode) :
    (g.linkChild parentId node).childrenOf p =
      if parentId = p then g.childrenOf parentId ++ [node.nodeId] else g.childrenOf p := by
  simp only [childrenOf, linkChild, OrdMap.get_insert]
  split_ifs with h
  · rfl
  · rfl

theorem Tree.linkChild (ht : Tree g) {parentId : String} {node parent : WorkNode}
    (hget : g.nodes[parentId]? = some parent) (hfresh : node.nodeId ∉ g.nodes)
    (hparent : node.parentNodeId = some parentId) (hdepth : node.depth = parent.depth + 1) :
    Tree (g.linkChild parentId node) := by
  have hnodes (x : String) : (g.linkChild parentId node).nodes[x]? =
      if node.nodeId = x then some node else g.nodes[x]? := OrdMap.get_insert _ _ _ _
  have hold {x : String} {n : WorkNode} (hx : g.nodes[x]? = some n) :
      (g.linkChild parentId node).nodes[x]? = some n := by
    rw [hnodes, if_neg (ne_of_fresh hfresh hx), hx]
  have hsize : (g.linkChild parentId node).nodes.size = g.nodes.size + 1 :=
    OrdMap.size_insert_of_not_mem hfresh
  have hnot : ∀ p, node.nodeId ∉ g.childrenOf p := by
    intro p hc
    obtain ⟨n, hn, -⟩ := ht.child_mem hc
    exact ne_of_fresh hfresh hn rfl
  constructor
  · intro id n hn
    rw [hnodes] at hn
    split_ifs at hn with heq
    · obtain rfl := Option.some.inj hn
      exact heq
    · exact ht.key hn
  · intro id n hn hp
    rw [hnodes] at hn
    split_ifs at hn with heq
    · obtain rfl := Option.some.inj hn
      rw [hparent] at hp
      cases hp
    · exact ht.root hn hp
  · intro id p n hn hp
    rw [hnodes] at hn
    split_ifs at hn with heq
    · obtain rfl := Option.some.inj hn
      rw [hparent, Option.some.injEq] at hp
      subst hp
      exact ⟨parent, hold hget, hdepth⟩
    · obtain ⟨q, hq, hd⟩ := ht.parent hn hp
      exact ⟨q, hold hq, hd⟩
  · intro id n hn
    rw [hnodes] at hn
    rw [hsize]
    split_ifs at hn with heq
    · obtain rfl := Option.some.inj hn
      have := ht.depth_lt hget
      omega
    · exact (ht.depth_lt hn).trans (Nat.lt_succ_self _)
  · intro p c hc
    rw [childrenOf_linkChild] at hc
    split_ifs at hc with heq
    · rcases List.mem_append.mp hc with hc | hc
      · obtain ⟨n, hn, hp⟩ := ht.child_mem hc
        exact ⟨n, hold hn, heq ▸ hp⟩
      · obtain rfl := List.mem_singleton.mp hc
        exact ⟨node, by rw [hnodes, if_pos rfl], heq ▸ hparent⟩
    · obtain ⟨n, hn, hp⟩ := ht.child_mem hc
      exact ⟨n, hold hn, hp⟩
  · intro c p n hn hp
    rw [hnodes] at hn
    rw [childrenOf_linkChild]
    split_ifs at hn with heq
    · obtain rfl := Option.some.inj hn
      rw [hparent, Option.some.injEq] at hp
      rw [if_pos hp, heq]
      simp
    · have hmem := ht.mem_child hn hp
      split_ifs with hpp
      · exact List.mem_append_left _ (hpp ▸ hmem)
      · exact hmem
  · intro p
    rw [childrenOf_linkChild]
    split_ifs with hpp
    · rw [List.nodup_append]
      refine ⟨ht.nodup parentId, by simp, ?_⟩
      rintro x hx y hy rfl
      obtain rfl := List.mem_singleton.mp hy
      exact hnot parentId hx
    · exact ht.nodup p
  · intro id n hn hp
    rw [hnodes] at hn
    split_ifs at hn with heq
    · obtain rfl := Option.some.inj hn
      rw [hparent] at hp
      cases hp
    · exact ht.chain (g := g) hn hp

theorem sameTree_takePending (g : BoundedWorkGraph) (childId : String) :
    SameTree g (g.takePending childId) := .of_eq rfl rfl rfl

theorem Tree.setNode (ht : Tree g) {id : String} {n n' : WorkNode} (hn : g.nodes[id]? = some n)
    (hplace : placement n' = placement n) : Tree (g.setNode id n') := by
  have hsame : SameTree g (g.setNode id n') := .of_insert hn hplace rfl rfl fun _ h => h
  exact hsame.tree ht

theorem Tree.endNode (ht : Tree g) {id : String} {n n' : WorkNode} (hn : g.nodes[id]? = some n)
    (hplace : placement n' = placement n) : Tree (g.endNode id n') := by
  have hsame : SameTree g (g.endNode id n') :=
    .of_insert hn ((placement_ended n').trans hplace) rfl rfl fun _ h => h
  exact hsame.tree ht

theorem Tree.change (ht : Tree g) (h : Change blake3 g g') : Tree g' := by
  cases h with
  | root h => exact ht.insertRoot h.fresh rfl rfl
  | @child parentId childId agentId capsuleRef chainId budget status parent reserved h =>
    have htree : Tree (g.linkChild parentId (freshNode childId agentId (some parentId) capsuleRef
      status budget (parent.depth + 1))) := ht.linkChild h.getParent h.fresh rfl rfl
    exact (sameButChains_childInserted _ _ _ _).sameTree.tree
      ((sameTree_takePending _ childId).tree htree)
  | @reservation parentId childId chainId budget parent reserved h =>
    have hsame : SameTree g (g.addPending parentId childId budget) := .of_eq rfl rfl rfl
    exact (sameButChains_reservationAdded _ _ _ _ _ _).sameTree.tree (hsame.tree ht)
  | rootContext hn hp => exact ht.setNode hn rfl
  | update h =>
    cases h with
    | claim h => exact ht.setNode h.getNode rfl
    | stop hn hs => exact ht.endNode hn rfl
    | leaseCleared hn => exact ht.setNode hn rfl
    | paths hn hs => exact ht.setNode hn rfl
    | childContext hn hp => exact ht.setNode hn rfl
    | delivery h => exact ht.setNode h.getNode rfl
    | complete hn hs => exact ht.endNode hn rfl
    | @receipt receipt node _ _ _ chainId chain nextTokens nextCost h hspend =>
      have hsame : SameTree (g.endNode receipt.nodeId (receiptedNode node receipt))
        ((g.endNode receipt.nodeId (receiptedNode node receipt)).addReceipt receipt) :=
          .of_eq rfl rfl rfl
      exact ((sameButChains_updateChain _ _ _).addReceipt receipt).sameTree.tree
        (hsame.tree (ht.endNode hspend.getNode rfl))
    | @accept nodeIds accepted h =>
      have hsame : SameTree g { g with acceptedPath := accepted } := .of_eq rfl rfl rfl
      exact hsame.tree ht
    | @spend nodeId node _ _ _ _ _ nextTokens nextCost _ _ hspend =>
      have hplace : placement (spentNode node nextTokens nextCost) = placement node := rfl
      exact (sameButChains_updateChain _ _ _).sameTree.tree (ht.setNode hspend.getNode hplace)

theorem Tree.write (ht : Tree g) (h : Write blake3 g g') : Tree g' := by
  cases h with
  | change h => exact ht.change h
  | start h =>
    obtain @⟨nodeId, node, lease, h⟩ := h
    exact ht.setNode h.getNode rfl

/-! ## The invariant -/

/-- The work of the node has ended with a result. -/
def Finished (node : WorkNode) : Prop := node.status = .completed ∨ node.status = .failed

structure Bookkept (g : BoundedWorkGraph) : Prop where
  tree : Tree g
  pendingParent : ∀ {c p : String}, g.pendingChildParents[c]? = some p → p ∈ g.nodes
  pendingKeys : ∀ c : String, c ∈ g.pendingChildBudgets ↔ c ∈ g.pendingChildParents
  receipted : ∀ {id : String} {receipt : ChildExecutionReceipt}, g.receipts[id]? = some receipt →
    ∃ node : WorkNode, g.nodes[receipt.nodeId]? = some node ∧ Finished node

theorem bookkept_new (maxFanOut maxDepth : ℕ) : Bookkept (new maxFanOut maxDepth) := by
  have hnodes : (new maxFanOut maxDepth).nodes = ∅ := rfl
  have hchildren : (new maxFanOut maxDepth).children = ∅ := rfl
  have hparents : (new maxFanOut maxDepth).pendingChildParents = ∅ := rfl
  have hbudgets : (new maxFanOut maxDepth).pendingChildBudgets = ∅ := rfl
  have hreceipts : (new maxFanOut maxDepth).receipts = ∅ := rfl
  constructor
  · constructor <;> simp [hnodes, childrenOf, hchildren]
  · simp [hparents]
  · simp [hparents, hbudgets]
  · simp [hreceipts]

/-- The chain records play no part. -/
theorem Bookkept.of_sameButChains (h : SameButChains g g') (hg : Bookkept g) : Bookkept g' := by
  have ht := h.sameTree.tree hg.tree
  rw [h.eq] at ht ⊢
  exact ⟨ht, hg.pendingParent, hg.pendingKeys, hg.receipted⟩

/-- Rewriting one node in its place. A finished node stays finished, and a receipt that
comes with the write is for this node, which it finishes. -/
theorem Bookkept.rewrite (hg : Bookkept g) (htree : Tree g') {id : String} {n n' : WorkNode}
    (hn : g.nodes[id]? = some n) (hnodes : g'.nodes = g.nodes.insert id n')
    (hparents : g'.pendingChildParents = g.pendingChildParents)
    (hbudgets : g'.pendingChildBudgets = g.pendingChildBudgets)
    (hreceipts : ∀ (r : String) (x : ChildExecutionReceipt), g'.receipts[r]? = some x →
      g.receipts[r]? = some x ∨ x.nodeId = id ∧ Finished n')
    (hfinished : Finished n → Finished n') : Bookkept g' := by
  have hget (x : String) : g'.nodes[x]? = if id = x then some n' else g.nodes[x]? := by
    rw [hnodes, OrdMap.get_insert]
  refine ⟨htree, ?_, ?_, ?_⟩
  · intro c p hp
    rw [hparents] at hp
    rw [hnodes]
    exact Std.ExtTreeMap.mem_insert.mpr (.inr (hg.pendingParent hp))
  · intro c
    rw [hparents, hbudgets]
    exact hg.pendingKeys c
  · intro r x hx
    rcases hreceipts r x hx with hx | ⟨rfl, hdone⟩
    · obtain ⟨m, hm, hdone⟩ := hg.receipted hx
      rw [hget]
      split_ifs with heq
      · subst heq
        rw [hn, Option.some.injEq] at hm
        subst hm
        exact ⟨n', rfl, hfinished hdone⟩
      · exact ⟨m, hm, hdone⟩
    · exact ⟨n', by rw [hget, if_pos rfl], hdone⟩

theorem not_finished_of_open {node : WorkNode}
    (h : node.status = .active ∨ node.status = .pending) : ¬ Finished node := by
  rintro (hf | hf) <;> rcases h with h | h <;> rw [h] at hf <;> cases hf

theorem status_ended (node : WorkNode) : (ended node).status = node.status := by
  unfold ended
  split_ifs <;> rfl

theorem finished_receiptStatus (node : WorkNode) (receipt : ChildExecutionReceipt) :
    Finished (ended (receiptedNode node receipt)) := by
  rw [Finished, status_ended]
  change receiptStatus receipt.outcome = _ ∨ receiptStatus receipt.outcome = _
  cases receipt.outcome <;> simp [receiptStatus]

theorem mem_nodes_insert {x id : String} {n : WorkNode} (h : x ∈ g.nodes) :
    x ∈ g.nodes.insert id n := Std.ExtTreeMap.mem_insert.mpr (.inr h)

/-- A receipt stays attached to its node when another node is added. -/
theorem Bookkept.receipted_insert (hg : Bookkept g) {id : String} {n : WorkNode}
    (hfresh : id ∉ g.nodes) {r : String} {receipt : ChildExecutionReceipt}
    (hr : g.receipts[r]? = some receipt) :
    ∃ node : WorkNode, (g.nodes.insert id n)[receipt.nodeId]? = some node ∧ Finished node := by
  obtain ⟨node, hnode, hdone⟩ := hg.receipted hr
  exact ⟨node, by rw [get_of_insert_ne (ne_of_fresh hfresh hnode), hnode], hdone⟩

theorem Bookkept.change (hg : Bookkept g) (h : Change blake3 g g') : Bookkept g' := by
  have htree := hg.tree.change h
  cases h with
  | root h =>
    refine ⟨htree, ?_, hg.pendingKeys, hg.receipted_insert h.fresh⟩
    exact fun hp => mem_nodes_insert (hg.pendingParent hp)
  | @child parentId childId agentId capsuleRef chainId budget status parent reserved h =>
    refine Bookkept.of_sameButChains (sameButChains_childInserted _ _ _ _) ?_
    have hlinked : Tree (g.linkChild parentId (freshNode childId agentId (some parentId) capsuleRef
      status budget (parent.depth + 1))) := hg.tree.linkChild h.getParent h.fresh rfl rfl
    refine ⟨(sameTree_takePending _ childId).tree hlinked, ?_, ?_, hg.receipted_insert h.fresh⟩
    · intro c p hp
      change (g.pendingChildParents.erase childId)[c]? = some p at hp
      rw [OrdMap.get_erase] at hp
      split_ifs at hp
      exact mem_nodes_insert (hg.pendingParent hp)
    · intro c
      change c ∈ g.pendingChildBudgets.erase childId ↔ c ∈ g.pendingChildParents.erase childId
      rw [Std.ExtTreeMap.mem_erase, Std.ExtTreeMap.mem_erase, hg.pendingKeys]
  | @reservation parentId childId chainId budget parent reserved h =>
    refine Bookkept.of_sameButChains (sameButChains_reservationAdded _ _ _ _ _ _) ?_
    have hsame : SameTree g (g.addPending parentId childId budget) := .of_eq rfl rfl rfl
    refine ⟨hsame.tree hg.tree, ?_, ?_, hg.receipted⟩
    · intro c p hp
      change (g.pendingChildParents.insert childId parentId)[c]? = some p at hp
      rw [OrdMap.get_insert] at hp
      split_ifs at hp
      · obtain rfl := Option.some.inj hp
        exact (OrdMap.mem_iff _ _).mpr ⟨parent, h.getParent⟩
      · exact hg.pendingParent hp
    · intro c
      change c ∈ g.pendingChildBudgets.insert childId budget ↔
        c ∈ g.pendingChildParents.insert childId parentId
      rw [Std.ExtTreeMap.mem_insert, Std.ExtTreeMap.mem_insert, hg.pendingKeys]
  | rootContext hn hp => exact hg.rewrite htree hn rfl rfl rfl (fun _ _ hr => .inl hr) id
  | update h =>
    cases h with
    | claim h =>
      exact hg.rewrite htree h.getNode rfl rfl rfl (fun _ _ hr => .inl hr)
        fun hf => absurd hf (not_finished_of_open (.inr h.pending))
    | stop hn hs =>
      exact hg.rewrite htree hn rfl rfl rfl (fun _ _ hr => .inl hr)
        fun hf => absurd hf (not_finished_of_open hs)
    | leaseCleared hn => exact hg.rewrite htree hn rfl rfl rfl (fun _ _ hr => .inl hr) id
    | paths hn hs => exact hg.rewrite htree hn rfl rfl rfl (fun _ _ hr => .inl hr) id
    | childContext hn hp => exact hg.rewrite htree hn rfl rfl rfl (fun _ _ hr => .inl hr) id
    | delivery h => exact hg.rewrite htree h.getNode rfl rfl rfl (fun _ _ hr => .inl hr) id
    | complete hn hs =>
      exact hg.rewrite htree hn rfl rfl rfl (fun _ _ hr => .inl hr)
        fun hf => absurd hf (not_finished_of_open (.inl hs))
    | @receipt receipt node _ _ _ chainId chain nextTokens nextCost h hspend =>
      have hsame : SameTree (g.endNode receipt.nodeId (receiptedNode node receipt))
        ((g.endNode receipt.nodeId (receiptedNode node receipt)).addReceipt receipt) :=
          .of_eq rfl rfl rfl
      have hbase : Bookkept ((g.endNode receipt.nodeId (receiptedNode node receipt)).addReceipt
          receipt) := by
        refine hg.rewrite (hsame.tree (hg.tree.endNode hspend.getNode rfl)) hspend.getNode rfl rfl
          rfl ?_ fun _ => finished_receiptStatus node receipt
        intro r x hx
        change (g.receipts.insert receipt.receiptId receipt)[r]? = some x at hx
        rw [OrdMap.get_insert] at hx
        split_ifs at hx
        · obtain rfl := Option.some.inj hx
          exact .inr ⟨rfl, finished_receiptStatus node receipt⟩
        · exact .inl hx
      exact hbase.of_sameButChains ((sameButChains_updateChain _ _ _).addReceipt receipt)
    | accept h => exact ⟨htree, hg.pendingParent, hg.pendingKeys, hg.receipted⟩
    | @spend nodeId node _ _ _ _ _ nextTokens nextCost _ _ hspend =>
      have hplace : placement (spentNode node nextTokens nextCost) = placement node := rfl
      have hbase : Bookkept (g.setNode nodeId (spentNode node nextTokens nextCost)) :=
        hg.rewrite (hg.tree.setNode hspend.getNode hplace) hspend.getNode rfl rfl rfl
          (fun _ _ hr => .inl hr) id
      exact hbase.of_sameButChains (sameButChains_updateChain _ _ _)

theorem Bookkept.write (hg : Bookkept g) (h : Write blake3 g g') : Bookkept g' := by
  have htree := hg.tree.write h
  cases h with
  | change h => exact hg.change h
  | start h =>
    obtain @⟨nodeId, node, lease, h⟩ := h
    exact hg.rewrite htree h.getNode rfl rfl rfl (fun _ _ hr => .inl hr) id

/-! ## Runs -/

/-- The graphs reached from a new one by any calls, whatever each of them returned. -/
inductive Reachable (blake3 : String → String) : BoundedWorkGraph → Prop
  | new (maxFanOut maxDepth : ℕ) : Reachable blake3 (new maxFanOut maxDepth)
  | call {g : BoundedWorkGraph} (h : Reachable blake3 g) (op : GraphOp) :
      Reachable blake3 (finalState (op.run blake3) g)

/-- The graph after a list of calls, whatever each of them returned. -/
def afterCalls (blake3 : String → String) (calls : List GraphOp) (g : BoundedWorkGraph) :
    BoundedWorkGraph :=
  calls.foldl (fun g op => finalState (op.run blake3) g) g

theorem Reachable.afterCalls (h : Reachable blake3 g) (calls : List GraphOp) :
    Reachable blake3 (afterCalls blake3 calls g) := by
  induction calls generalizing g with
  | nil => exact h
  | cons op calls ih => exact ih (h.call op)

/-- Each call is a run of writes on the graph it started from. -/
theorem finalState_writes (ht : Tree g) (op : GraphOp) :
    ReflTransGen (Write blake3) g (finalState (op.run blake3) g) := by
  refine wp.finalState ((run_writes blake3 ht op).imp ?_)
  rintro (⟨e | message⟩ | _) g' h
  · rw [h]
  · exact h.elim
  · exact h

theorem Tree.finalState (ht : Tree g) (op : GraphOp) :
    Tree (LeanCtx.finalState (op.run blake3) g) := by
  have hrun : ReflTransGen (Write blake3) g (LeanCtx.finalState (op.run blake3) g) :=
    finalState_writes ht op
  generalize LeanCtx.finalState (op.run blake3) g = g' at hrun
  induction hrun with
  | refl => exact ht
  | tail _ hstep ih => exact ih.write hstep

/-- What each write keeps, together with the bookkeeping, every reachable graph has. -/
theorem Reachable.induction {P : BoundedWorkGraph → Prop}
    (hnew : ∀ a b, P (BoundedWorkGraph.new a b))
    (hwrite : ∀ g g', Bookkept g → P g → Write blake3 g g' → P g') (h : Reachable blake3 g) :
    Bookkept g ∧ P g := by
  induction h with
  | new a b => exact ⟨bookkept_new a b, hnew a b⟩
  | @call g _ op ih =>
    have hrun : ReflTransGen (Write blake3) g (finalState (op.run blake3) g) :=
      finalState_writes ih.1.tree op
    generalize finalState (op.run blake3) g = g' at hrun
    induction hrun with
    | refl => exact ih
    | tail _ hstep ih' => exact ⟨ih'.1.write hstep, hwrite _ _ ih'.1 ih'.2 hstep⟩

theorem Reachable.bookkept (h : Reachable blake3 g) : Bookkept g :=
  (Reachable.induction (P := fun _ => True) (fun _ _ => trivial) (fun _ _ _ _ _ => trivial) h).1

/-- No call on a reachable graph panics. -/
theorem Reachable.run_ne_panic (h : Reachable blake3 g) (op : GraphOp) (message : String)
    (g' : BoundedWorkGraph) : op.run blake3 g ≠ .error (.panic message) g' :=
  fun hrun => (run_writes blake3 h.bookkept.tree op).of_error hrun

end BoundedWorkGraph

end LeanCtx
