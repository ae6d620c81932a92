import LeanCtx.WorkGraphChains

/-!
# Operations that keep a graph valid

`Sound` adds to the core the four relations a call can break: exact chain
records, reservations for ids that are not nodes yet, contexts inherited from
the parent, and the accepted path. Every update keeps them. A new root keeps
them when no reservation holds its id, a grant when the chain's total still
fits, a root context when the children already carry it. A sound graph passes
the validator.
-/

namespace LeanCtx.BoundedWorkGraph

open Relation

variable {g g' : BoundedWorkGraph} {blake3 : String → String} {id : String} {n n' : WorkNode}

/-! ## Contexts -/

/-- A child whose context is set carries its parent's task and policy. -/
def Inherits (g : BoundedWorkGraph) (n : WorkNode) : Prop :=
  ∀ p, n.parentNodeId = some p → n.taskRef ≠ "" → ∃ parent : WorkNode, g.nodes[p]? = some parent ∧
    n.parentTaskRef = some parent.taskRef ∧ n.policyRef = parent.policyRef

def ContextsInherited (g : BoundedWorkGraph) : Prop :=
  ∀ (id : String) (n : WorkNode), g.nodes[id]? = some n → Inherits g n

def context (n : WorkNode) : String × Option String × String :=
  (n.taskRef, n.parentTaskRef, n.policyRef)

theorem context_ended (n : WorkNode) : context (ended n) = context n := by
  unfold ended
  split_ifs <;> rfl

/-- Only the two configuring operations write a context. -/
theorem NodeStep.context (h : NodeStep blake3 g id n n') :
    context n' = BoundedWorkGraph.context n ∨ n.parentNodeId = none ∨
      n.status = .pending ∧ ∃ (p : String) (parent : WorkNode), n.parentNodeId = some p ∧
        g.nodes[p]? = some parent ∧ n'.parentTaskRef = some parent.taskRef ∧
        n'.policyRef = parent.policyRef := by
  cases h with
  | stop hs => exact .inl (context_ended (stoppedNode n _))
  | complete hs => exact .inl (context_ended (completedNode n _))
  | receipt hs => exact .inl (context_ended (receiptedNode n _))
  | rootContext hp => exact .inr (.inl hp)
  | childContext hp hparent hs => exact .inr (.inr ⟨hs, _, _, hp, hparent, rfl, rfl⟩)
  | _ => exact .inl rfl

theorem Inherits.congr (h : Inherits g n) (hparent : n'.parentNodeId = n.parentNodeId)
    (hcontext : context n' = context n) : Inherits g n' := by
  obtain ⟨htask, hrest⟩ := Prod.mk.inj hcontext
  obtain ⟨htaskRef, hpolicy⟩ := Prod.mk.inj hrest
  intro p hp hset
  rw [hparent] at hp
  rw [htask] at hset
  rw [htaskRef, hpolicy]
  exact h p hp hset

/-- A parent that keeps its task and policy keeps its children's contexts right. -/
theorem Inherits.parents (h : Inherits g n) (hkept : ∀ (p : String) (parent : WorkNode),
    n.parentNodeId = some p → g.nodes[p]? = some parent → ∃ parent' : WorkNode,
      g'.nodes[p]? = some parent' ∧ parent'.taskRef = parent.taskRef ∧
        parent'.policyRef = parent.policyRef) : Inherits g' n := by
  intro p hp hset
  obtain ⟨parent, hparent, htask, hpolicy⟩ := h p hp hset
  obtain ⟨parent', hparent', htask', hpolicy'⟩ := hkept p parent hp hparent
  exact ⟨parent', hparent', by rw [htask, htask'], by rw [hpolicy, hpolicy']⟩

theorem ContextsInherited.added (h : ContextsInherited g) (hfresh : id ∉ g.nodes)
    (hnodes : g'.nodes = g.nodes.insert id n') (hunset : n'.taskRef = "") :
    ContextsInherited g' := by
  intro x n hn
  rw [hnodes, OrdMap.get_insert] at hn
  split_ifs at hn with hx
  · obtain rfl := Option.some.inj hn
    exact fun p _ hset => absurd hunset hset
  · refine (h x n hn).parents fun p parent _ hparent => ?_
    exact ⟨parent, by rw [hnodes, get_of_insert_ne (ne_of_fresh hfresh hparent), hparent], rfl, rfl⟩

theorem ContextsInherited.congr (h : ContextsInherited g) (hnodes : g'.nodes = g.nodes) :
    ContextsInherited g' := by
  intro x n hn p hp hset
  rw [hnodes] at hn ⊢
  exact h x n hn p hp hset

/-- A node is rewritten, and each of its children with a context still agrees with it. -/
theorem ContextsInherited.rewritten (h : ContextsInherited g) (hnodes : g'.nodes = g.nodes.insert id n')
    (hself : Inherits g' n') (hchildren : ∀ (x : String) (m : WorkNode), x ≠ id →
      g.nodes[x]? = some m → m.parentNodeId = some id → m.taskRef ≠ "" →
      m.parentTaskRef = some n'.taskRef ∧ m.policyRef = n'.policyRef) : ContextsInherited g' := by
  intro x m hm
  rw [hnodes, OrdMap.get_insert] at hm
  split_ifs at hm with hx
  · obtain rfl := Option.some.inj hm
    exact hself
  · intro p hp hset
    rw [hnodes, OrdMap.get_insert]
    split_ifs with hpid
    · subst hpid
      exact ⟨n', rfl, hchildren x m (Ne.symm hx) hm hp hset⟩
    · exact h x m hm p hp hset

theorem Tree.parent_ne (ht : Tree g) {p : String} (hn : g.nodes[id]? = some n)
    (hp : n.parentNodeId = some p) : p ≠ id := by
  rintro rfl
  obtain ⟨q, hq, hd⟩ := ht.parent hn hp
  obtain rfl := Option.some.inj (hn.symm.trans hq)
  omega

/-- Whatever a write does to the nodes, the contexts agree as long as the roots keep theirs. -/
theorem ContextsInherited.write (h : ContextsInherited g) (hb : Bookkept g)
    (hcore : Core blake3 g) (hchange : NodesChange blake3 g g')
    (hroots : ∀ (x : String) (m m' : WorkNode), g.nodes[x]? = some m → g'.nodes[x]? = some m' →
      m.parentNodeId = none → context m' = context m) : ContextsInherited g' := by
  cases hchange with
  | same hnodes => exact h.congr hnodes
  | added hfresh hnodes => exact h.added hfresh hnodes rfl
  | @rewritten id n n' hn hnodes hstep =>
    have hget : g'.nodes[id]? = some n' := by rw [hnodes, OrdMap.get_insert, if_pos rfl]
    have hkeep (hsame : context n' = context n) : ContextsInherited g' := by
      obtain ⟨htask, hrest⟩ := Prod.mk.inj hsame
      obtain ⟨-, hpolicy⟩ := Prod.mk.inj hrest
      refine h.rewritten hnodes ?_ ?_
      · have hself : Inherits g n' := (h id n hn).congr hstep.parent hsame
        refine hself.parents fun p parent _ hparent => ?_
        rw [hnodes, OrdMap.get_insert]
        split_ifs with hp
        · subst hp
          obtain rfl := Option.some.inj (hn.symm.trans hparent)
          exact ⟨n', rfl, htask, hpolicy⟩
        · exact ⟨parent, hparent, rfl, rfl⟩
      · intro x m _ hm hp hset
        obtain ⟨parent, hparent, h1, h2⟩ := h x m hm id hp hset
        obtain rfl := Option.some.inj (hn.symm.trans hparent)
        rw [htask, hpolicy]
        exact ⟨h1, h2⟩
    rcases hstep.context with hsame | hroot | ⟨hpending, p, parent, hp, hparent, htask, hpolicy⟩
    · exact hkeep hsame
    · exact hkeep (hroots id n n' hn hget hroot)
    · refine h.rewritten hnodes ?_ ?_
      · intro q hq _
        rw [hstep.parent] at hq
        obtain rfl := Option.some.inj (hp.symm.trans hq)
        exact ⟨parent, by rw [hnodes, get_of_insert_ne (hb.tree.parent_ne hn hp).symm, hparent],
          htask, hpolicy⟩
      · -- A pending node has no children yet.
        intro x m _ hm hx
        have hmem := hb.tree.mem_child hm hx
        rw [hcore.idle id n hn hpending] at hmem
        cases hmem

/-! ## Reservations -/

/-- No reservation is held for an id that is a node. -/
def PendingFresh (g : BoundedWorkGraph) : Prop :=
  ∀ c ∈ g.pendingChildBudgets, c ∉ g.nodes

/-! ## Updates -/

structure SamePending (g g' : BoundedWorkGraph) : Prop where
  budgets : g'.pendingChildBudgets = g.pendingChildBudgets
  parents : g'.pendingChildParents = g.pendingChildParents

/-- What an update does to nodes, chain records and reservations. -/
inductive UpdateShape (g g' : BoundedWorkGraph) : Prop
  | same (hnodes : g'.nodes = g.nodes) (hchains : g'.chainBudgets = g.chainBudgets)
      (hpending : SamePending g g')
  | kept {id : String} {n n' : WorkNode} (hn : g.nodes[id]? = some n)
      (hnodes : g'.nodes = g.nodes.insert id n') (hcontext : n.parentNodeId = none →
        context n' = context n) (hbudget : n'.budget = n.budget)
      (hchains : g'.chainBudgets = g.chainBudgets) (hpending : SamePending g g')
  | spent {id chainId : String} {n n' : WorkNode} {tokens cost : ℕ} {r : Totals}
      {chain : ChainBudget} {a b : UInt64}
      (hspend : SpendAdmitted g id n tokens cost r chainId chain a b)
      (hnodes : g'.nodes = g.nodes.insert id n') (hcontext : context n' = context n)
      (hgranted : ∀ m : Meter, m.granted n'.budget = m.granted n.budget)
      (hspent : ∀ m : Meter, m.spent n'.budget = m.spent n.budget + amount m tokens cost)
      (hchains : g'.chainBudgets = g.chainBudgets.insert chainId (spentChain a b chain))
      (hpending : SamePending g g')

theorem Update.shape (h : Update blake3 g g') : UpdateShape g g' := by
  cases h with
  | @claim nodeId node attempt lease h =>
    have hcontext : context (claimedNode blake3 g.graphId node attempt lease) = context node := rfl
    exact .kept h.getNode rfl (fun _ => hcontext) rfl rfl ⟨rfl, rfl⟩
  | stop hn hs =>
    exact .kept hn rfl (fun _ => context_ended (stoppedNode _ _)) (budget_ended _) rfl ⟨rfl, rfl⟩
  | leaseCleared hn => exact .kept hn rfl (fun _ => rfl) rfl rfl ⟨rfl, rfl⟩
  | paths hn hs => exact .kept hn rfl (fun _ => rfl) rfl rfl ⟨rfl, rfl⟩
  | childContext hn hp =>
    refine .kept hn rfl (fun hroot => ?_) rfl rfl ⟨rfl, rfl⟩
    rw [hp] at hroot
    cases hroot
  | delivery h => exact .kept h.getNode rfl (fun _ => rfl) rfl rfl ⟨rfl, rfl⟩
  | complete hn hs =>
    exact .kept hn rfl (fun _ => context_ended (completedNode _ _)) (budget_ended _) rfl ⟨rfl, rfl⟩
  | @receipt receipt node tokens cost _ chainId chain a b h hspend htokens hcost =>
    rw [updateChain_eq (g := g.endNode receipt.nodeId (receiptedNode node receipt)) hspend.getChain]
    refine .spent hspend rfl (context_ended (receiptedNode _ _)) (fun m => ?_) (fun m => ?_) rfl
      ⟨rfl, rfl⟩
    · rw [budget_ended]
      cases m <;> rfl
    · rw [budget_ended]
      cases m
      · exact htokens
      · exact hcost
  | accept h => exact .same rfl rfl ⟨rfl, rfl⟩
  | @spend nodeId node tokens cost _ chainId chain nextTokens nextCost _ _ hspend htokens hcost =>
    rw [updateChain_eq (g := g.setNode nodeId (spentNode node nextTokens nextCost)) hspend.getChain]
    have hcontext : context (spentNode node nextTokens nextCost) = context node := rfl
    refine .spent hspend rfl hcontext (fun m => ?_) (fun m => ?_) rfl ⟨rfl, rfl⟩
    · cases m <;> rfl
    · cases m
      · exact htokens
      · exact hcost

theorem Start.shape (h : Start g g') : UpdateShape g g' := by
  obtain @⟨nodeId, node, lease, h⟩ := h
  exact .kept h.getNode rfl (fun _ => rfl) rfl rfl ⟨rfl, rfl⟩

theorem context_of_insert {x : String} {m m' : WorkNode} (hm : g.nodes[x]? = some m)
    (hnodes : g'.nodes = g.nodes.insert x m') (hsame : m.parentNodeId = none → context m' = context m)
    (hn : g.nodes[id]? = some n) (hn' : g'.nodes[id]? = some n') (hp : n.parentNodeId = none) :
    context n' = context n := by
  rw [hnodes, OrdMap.get_insert] at hn'
  split_ifs at hn' with hx
  · obtain rfl := Option.some.inj hn'
    subst hx
    obtain rfl := Option.some.inj (hm.symm.trans hn)
    exact hsame hp
  · rw [Option.some.inj (hn.symm.trans hn')]

theorem mem_of_mem_insert {x y : String} {m m' : WorkNode} (hm : g.nodes[y]? = some m)
    (hx : x ∈ g.nodes.insert y m') : x ∈ g.nodes := by
  rw [Std.ExtTreeMap.mem_insert, Std.compare_eq_iff_eq] at hx
  rcases hx with rfl | hx
  · exact (OrdMap.mem_iff _ _).mpr ⟨m, hm⟩
  · exact hx

namespace UpdateShape

theorem context (h : UpdateShape g g') (hn : g.nodes[id]? = some n)
    (hn' : g'.nodes[id]? = some n') (hp : n.parentNodeId = none) :
    context n' = BoundedWorkGraph.context n := by
  cases h with
  | same hnodes =>
    rw [hnodes] at hn'
    rw [Option.some.inj (hn.symm.trans hn')]
  | kept hm hnodes hcontext => exact context_of_insert hm hnodes hcontext hn hn' hp
  | spent hspend hnodes hcontext =>
    exact context_of_insert hspend.getNode hnodes (fun _ => hcontext) hn hn' hp

theorem pendingFresh (h : UpdateShape g g') (hfresh : PendingFresh g) : PendingFresh g' := by
  intro c hc hmem
  cases h with
  | same hnodes _ hpending =>
    rw [hnodes] at hmem
    exact hfresh c (hpending.budgets ▸ hc) hmem
  | kept hm hnodes _ _ _ hpending =>
    rw [hnodes] at hmem
    exact hfresh c (hpending.budgets ▸ hc) (mem_of_mem_insert hm hmem)
  | spent hspend hnodes _ _ _ _ hpending =>
    rw [hnodes] at hmem
    exact hfresh c (hpending.budgets ▸ hc) (mem_of_mem_insert hspend.getNode hmem)

theorem exact (h : UpdateShape g g') (hb : Bookkept g) (ht' : Tree g') (hgrow : Grows g g')
    (hexact : ChainsExact g) : ChainsExact g' := by
  cases h with
  | same hnodes hchains hpending =>
    intro c chain hc
    rw [hchains] at hc
    have hold := hexact c chain hc
    have hdepths : chainDepths g' c = chainDepths g c :=
      chainDepths_same hb ht' hgrow (fun x hx => hnodes ▸ hx) hpending.parents c
    refine ⟨hold.chainId, by rw [hnodes]; exact hold.root, fun m => ?_, fun m => ?_, hold.within,
      hold.authorized, by rw [hdepths]; exact hold.depth⟩
    · rw [chainSum_congr _ hnodes, chainPending_same m hb ht' hgrow hpending.budgets
        hpending.parents, hold.allocated]
    · rw [chainSum_congr _ hnodes, hold.consumed]
  | kept hn hnodes _ hbudget hchains hpending =>
    exact hexact.kept hb ht' hgrow hn hnodes hpending.budgets hpending.parents hbudget hchains
  | spent hspend hnodes _ hgranted hspent hchains hpending =>
    exact hexact.spent hb ht' hgrow hspend hnodes hpending.budgets hpending.parents hgranted hspent
      hchains

end UpdateShape

/-! ## The accepted path -/

/-- The accepted path is a union of lineages of nodes with an accepted receipt. -/
structure AcceptedPath (g : BoundedWorkGraph) : Prop where
  supported : ∀ x ∈ g.acceptedPath, ∃ (r : String) (receipt : ChildExecutionReceipt)
    (l : List String), g.receipts[r]? = some receipt ∧ receipt.outcome = .accepted ∧
      receipt.nodeId ∈ g.acceptedPath ∧ Lineage g receipt.nodeId l ∧ x ∈ l
  closed : ∀ x ∈ g.acceptedPath, ∀ l, Lineage g x l → ∀ y ∈ l, y ∈ g.acceptedPath

theorem AcceptedPath.mem_nodes (h : AcceptedPath g) {x : String} (hx : x ∈ g.acceptedPath) :
    x ∈ g.nodes := by
  obtain ⟨r, receipt, l, -, -, -, hl, hmem⟩ := h.supported x hx
  exact hl.mem_nodes x hmem

/-- The path stays when receipts are only added and nodes keep their places. -/
theorem AcceptedPath.kept (h : AcceptedPath g) (ht : Tree g) (hgrow : Grows g g')
    (hpath : g'.acceptedPath = g.acceptedPath)
    (hreceipts : ∀ (r : String) (x : ChildExecutionReceipt), g.receipts[r]? = some x →
      g'.receipts[r]? = some x) : AcceptedPath g' := by
  constructor
  · intro x hx
    rw [hpath] at hx
    obtain ⟨r, receipt, l, hr, haccepted, hmem, hl, hxl⟩ := h.supported x hx
    exact ⟨r, receipt, l, hreceipts r receipt hr, haccepted, hpath ▸ hmem, hgrow.lineage hl, hxl⟩
  · intro x hx l hl y hy
    rw [hpath] at hx ⊢
    obtain ⟨n, hn⟩ := (OrdMap.mem_iff _ _).mp (h.mem_nodes hx)
    obtain ⟨l₀, hl₀, -⟩ := ht.exists_lineage hn
    rw [hl.unique (hgrow.lineage hl₀)] at hy
    exact h.closed x hx l₀ hl₀ y hy

theorem mem_foldl_insert {l : List String} {t : OrdSet String} {x : String} :
    x ∈ l.foldl (fun s id => s.insert id) t ↔ x ∈ t ∨ x ∈ l := by
  induction l generalizing t with
  | nil => simp
  | cons a l ih =>
    rw [List.foldl_cons, ih, Std.ExtTreeSet.mem_insert, Std.compare_eq_iff_eq, List.mem_cons,
      eq_comm]
    tauto

/-- What `mark_accepted_path` collects: the lineages of nodes with an accepted receipt. -/
theorem acceptedLineages_mem (hb : Bookkept g) {nodeIds : List String} {t accepted : OrdSet String}
    (h : g.acceptedLineages nodeIds t = .ok accepted) (x : String) :
    x ∈ accepted ↔ x ∈ t ∨ ∃ id ∈ nodeIds, ∃ l, Lineage g id l ∧ x ∈ l := by
  induction nodeIds generalizing t with
  | nil =>
    obtain rfl := Except.ok.inj h
    simp
  | cons id rest ih =>
    rw [acceptedLineages, except_bind_eq_ok] at h
    obtain ⟨-, -, h⟩ := h
    cases hfind : (g.receipts.toList.map (·.2)).find? (fun receipt => receipt.nodeId == id) with
    | none => simp [hfind] at h
    | some receipt =>
      simp only [hfind] at h
      split_ifs at h
      have hnode := List.find?_some hfind
      rw [beq_iff_eq] at hnode
      obtain ⟨entry, hentry, hreceipt⟩ := List.mem_map.mp (List.mem_of_find?_eq_some hfind)
      have hget : g.receipts[entry.1]? = some receipt := by
        rw [← hreceipt]
        exact Std.ExtTreeMap.mem_toList_iff_getElem?_eq_some.mp hentry
      obtain ⟨n, hn, -⟩ := hb.receipted hget
      rw [hnode] at hn
      obtain ⟨l, hl, -, -, hlineage, -⟩ := hb.tree.walks hn
      rw [ih h, mem_foldl_insert, hlineage, or_assoc]
      refine or_congr_right ⟨?_, ?_⟩
      · rintro (hx | ⟨y, hy, ly, hly, hx⟩)
        · exact ⟨id, by simp, l, hl, hx⟩
        · exact ⟨y, by simp [hy], ly, hly, hx⟩
      · rintro ⟨y, hy, ly, hly, hx⟩
        rcases List.mem_cons.mp hy with rfl | hy
        · exact .inl (hl.unique hly ▸ hx)
        · exact .inr ⟨y, hy, ly, hly, hx⟩

theorem acceptedLineages_receipt {nodeIds : List String} {t accepted : OrdSet String}
    (h : g.acceptedLineages nodeIds t = .ok accepted) (hid : id ∈ nodeIds) :
    ∃ (r : String) (receipt : ChildExecutionReceipt), g.receipts[r]? = some receipt ∧
      receipt.nodeId = id ∧ receipt.outcome = .accepted := by
  induction nodeIds generalizing t with
  | nil => cases hid
  | cons x rest ih =>
    rw [acceptedLineages, except_bind_eq_ok] at h
    obtain ⟨-, -, h⟩ := h
    cases hfind : (g.receipts.toList.map (·.2)).find? (fun receipt => receipt.nodeId == x) with
    | none => simp [hfind] at h
    | some receipt =>
      simp only [hfind] at h
      split_ifs at h with haccepted
      rcases List.mem_cons.mp hid with rfl | hid
      · have hnode := List.find?_some hfind
        rw [beq_iff_eq] at hnode
        obtain ⟨entry, hentry, hreceipt⟩ := List.mem_map.mp (List.mem_of_find?_eq_some hfind)
        refine ⟨entry.1, receipt, ?_, hnode, not_not.mp haccepted⟩
        rw [← hreceipt]
        exact Std.ExtTreeMap.mem_toList_iff_getElem?_eq_some.mp hentry
      · exact ih h hid

theorem AcceptedPath.marked (hb : Bookkept g) {nodeIds : List String} {accepted : OrdSet String}
    (h : g.acceptedLineages nodeIds ∅ = .ok accepted) :
    AcceptedPath { g with acceptedPath := accepted } := by
  have hmem (x : String) := acceptedLineages_mem hb h x
  have hsame : Grows g { g with acceptedPath := accepted } := fun _ n hn => ⟨n, hn, rfl, rfl⟩
  have hback : Grows { g with acceptedPath := accepted } g := fun _ n hn => ⟨n, hn, rfl, rfl⟩
  constructor
  · intro x hx
    rcases (hmem x).mp hx with hempty | ⟨id, hid, l, hl, hxl⟩
    · simp at hempty
    · obtain ⟨r, receipt, hr, rfl, haccepted⟩ := acceptedLineages_receipt h hid
      refine ⟨r, receipt, l, hr, haccepted, ?_, hsame.lineage hl, hxl⟩
      exact (hmem _).mpr (.inr ⟨_, hid, l, hl, hl.self_mem⟩)
  · intro x hx l hl y hy
    rcases (hmem x).mp hx with hempty | ⟨id, hid, ln, hln, hxl⟩
    · simp at hempty
    · obtain ⟨lx, hlx, hpre⟩ := hln.of_mem hxl
      rw [(hback.lineage hl).unique hlx] at hy
      exact (hmem y).mpr (.inr ⟨id, hid, ln, hln, hpre.subset hy⟩)

theorem Write.accepted (h : Write blake3 g g') :
    g'.acceptedPath = g.acceptedPath ∨ ∃ (nodeIds : List String) (accepted : OrdSet String),
      g.acceptedLineages nodeIds ∅ = .ok accepted ∧ g' = { g with acceptedPath := accepted } := by
  cases h with
  | start h =>
    obtain @⟨nodeId, node, lease, h⟩ := h
    exact .inl rfl
  | change h =>
    cases h with
    | child h =>
      rw [(sameButChains_childInserted _ _ _ _).eq]
      exact .inl rfl
    | reservation h =>
      rw [(sameButChains_reservationAdded _ _ _ _ _ _).eq]
      exact .inl rfl
    | update h =>
      cases h with
      | @receipt receipt node _ _ _ chainId _ a b h hspend =>
        rw [((sameButChains_updateChain (g.endNode receipt.nodeId (receiptedNode node receipt))
          chainId (spentChain a b)).addReceipt receipt).eq]
        exact .inl rfl
      | @spend nodeId node _ _ _ chainId _ a b a' b' hspend =>
        rw [(sameButChains_updateChain (g.setNode nodeId (spentNode node a b)) chainId
          (spentChain a' b')).eq]
        exact .inl rfl
      | accept h => exact .inr ⟨_, _, h, rfl⟩
      | _ => exact .inl rfl
    | _ => exact .inl rfl

theorem ReceiptChange.kept (h : ReceiptChange g g') {r : String} {x : ChildExecutionReceipt}
    (hx : g.receipts[r]? = some x) : g'.receipts[r]? = some x := by
  cases h with
  | same h => rw [h, hx]
  | added hallowed _ _ _ h =>
    rw [h, OrdMap.get_insert, if_neg, hx]
    rintro rfl
    exact hallowed.freshId ((OrdMap.mem_iff _ _).mpr ⟨x, hx⟩)

theorem AcceptedPath.write (ha : AcceptedPath g) (hb : Bookkept g) (hgrow : Grows g g')
    (h : Write blake3 g g') : AcceptedPath g' := by
  rcases h.accepted with hpath | ⟨nodeIds, accepted, hok, rfl⟩
  · exact ha.kept hb.tree hgrow hpath fun r x hx => h.receiptChange.kept hx
  · exact .marked hb hok

end LeanCtx.BoundedWorkGraph
