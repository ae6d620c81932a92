import LeanCtx.WorkGraphCore
import Mathlib.Order.Bounds.Basic

/-!
# The chain records

A chain record keeps running totals of what the nodes of one tree were granted
and have spent. `ChainExact` says that the totals are the sums the validator
computes. Spending keeps them exact unconditionally; a grant keeps them exact
when the total still fits 64 bits, since the record saturates where the
validator's sum overflows.
-/

namespace LeanCtx

namespace Meter

def chainAllocated : Meter → ChainBudget → ℕ
  | tokens, c => c.totalAllocatedTokens.toNat
  | cost, c => c.totalAllocatedCostMicros.toNat

def chainConsumed : Meter → ChainBudget → ℕ
  | tokens, c => c.totalConsumedTokens.toNat
  | cost, c => c.totalConsumedCostMicros.toNat

def chainRoot : Meter → ChainBudget → ℕ
  | tokens, c => c.rootBudgetTokens.toNat
  | cost, c => c.rootBudgetCostMicros.toNat

end Meter

namespace BoundedWorkGraph

variable {g g' : BoundedWorkGraph} {blake3 : String → String} {id c : String} {n n' : WorkNode}

/-! ## Chains of kept nodes -/

/-- Every node stays in its place; nodes may be added. -/
def Grows (g g' : BoundedWorkGraph) : Prop :=
  ∀ (id : String) (n : WorkNode), g.nodes[id]? = some n → ∃ n' : WorkNode,
    g'.nodes[id]? = some n' ∧ n'.parentNodeId = n.parentNodeId ∧ n'.depth = n.depth

theorem NodesChange.grows (h : NodesChange blake3 g g') : Grows g g' := by
  intro id n hn
  cases h with
  | same h => exact ⟨n, by rw [h, hn], rfl, rfl⟩
  | added hfresh h =>
    exact ⟨n, by rw [h, get_of_insert_ne (ne_of_fresh hfresh hn), hn], rfl, rfl⟩
  | @rewritten x m m' hm h hstep =>
    rw [h, OrdMap.get_insert]
    split_ifs with heq
    · subst heq
      obtain rfl := Option.some.inj (hm.symm.trans hn)
      exact ⟨m', rfl, hstep.parent, hstep.depth⟩
    · exact ⟨n, hn, rfl, rfl⟩

theorem Grows.lineage (h : Grows g g') {l : List String} (hl : Lineage g id l) :
    Lineage g' id l := by
  induction hl with
  | root hn hp =>
    obtain ⟨n', hn', hparent, -⟩ := h _ _ hn
    exact .root hn' (hparent.trans hp)
  | child hn hp _ ih =>
    obtain ⟨n', hn', hparent, -⟩ := h _ _ hn
    exact .child hn' (hparent.trans hp) ih

theorem Tree.chainId_of_lineage (ht : Tree g) {l : List String} (hl : Lineage g id l) :
    g.chainIdForNode id = l.head? := by
  obtain ⟨n, hn⟩ := (OrdMap.mem_iff _ _).mp (hl.mem_nodes id hl.self_mem)
  obtain ⟨l', hl', -, -, -, hchain⟩ := ht.walks hn
  rw [hchain, hl.unique hl']

theorem Grows.chainId (h : Grows g g') (ht : Tree g) (ht' : Tree g') (hid : id ∈ g.nodes) :
    g'.chainIdForNode id = g.chainIdForNode id := by
  obtain ⟨n, hn⟩ := (OrdMap.mem_iff _ _).mp hid
  obtain ⟨l, hl, -, -, -, hchain⟩ := ht.walks hn
  rw [hchain, ht'.chainId_of_lineage (h.lineage hl)]

theorem Tree.chainId_root (ht : Tree g) (hn : g.nodes[id]? = some n) (hp : n.parentNodeId = none) :
    g.chainIdForNode id = some id := ht.chainId_of_lineage (.root hn hp)

theorem Tree.chainId_child (ht : Tree g) {p : String} (hn : g.nodes[id]? = some n)
    (hp : n.parentNodeId = some p) : g.chainIdForNode id = g.chainIdForNode p := by
  obtain ⟨parent, hparent, -⟩ := ht.parent hn hp
  obtain ⟨l, hl, -, -, -, hchain⟩ := ht.walks hparent
  obtain ⟨r, rest, -, rfl, -, -⟩ := hl.head
  rw [hchain, ht.chainId_of_lineage (.child hn hp hl)]
  rfl

/-- A chain is named after a root of the graph. -/
theorem Tree.chain_mem (ht : Tree g) (hid : id ∈ g.nodes) (hc : g.chainIdForNode id = some c) :
    c ∈ g.nodes := by
  obtain ⟨n, hn⟩ := (OrdMap.mem_iff _ _).mp hid
  obtain ⟨r, root, hr, hroot, -⟩ := ht.chainId hn
  obtain rfl := Option.some.inj (hc.symm.trans hr)
  exact (OrdMap.mem_iff _ _).mpr ⟨root, hroot⟩

/-! ## Sums over a chain -/

/-- Sum of `f` over the nodes of a chain. -/
def chainSum (f : WorkNode → ℕ) (g : BoundedWorkGraph) (c : String) : ℕ :=
  OrdMap.mapSum (fun id n => if g.chainIdForNode id = some c then f n else 0) g.nodes

/-- The chain a reservation belongs to: that of the parent it is made for. -/
def pendingChain (g : BoundedWorkGraph) (id : String) : Option String :=
  (g.pendingChildParents[id]?).bind g.chainIdForNode

/-- Sum of the reservations of a chain. -/
def chainPending (m : Meter) (g : BoundedWorkGraph) (c : String) : ℕ :=
  OrdMap.mapSum (fun id b => if g.pendingChain id = some c then m.granted b else 0)
    g.pendingChildBudgets

/-- The depths a chain reaches, reserved children included. -/
def chainDepths (g : BoundedWorkGraph) (c : String) : Set ℕ :=
  { d | ∃ (id : String) (n : WorkNode), g.nodes[id]? = some n ∧ g.chainIdForNode id = some c ∧
      ((d = n.depth) ∨ (d = n.depth + 1 ∧ ∃ x : String, g.pendingChildParents[x]? = some id)) }

theorem chainSum_rewritten (f : WorkNode → ℕ) (ht : Tree g) (ht' : Tree g') (hgrow : Grows g g')
    (hn : g.nodes[id]? = some n) (h : g'.nodes = g.nodes.insert id n') (c : String) :
    chainSum f g' c + (if g.chainIdForNode id = some c then f n else 0) =
      chainSum f g c + (if g.chainIdForNode id = some c then f n' else 0) := by
  have hmem : id ∈ g.nodes := (OrdMap.mem_iff _ _).mpr ⟨n, hn⟩
  have hsame : chainSum f g' c = OrdMap.mapSum (fun x m =>
      if g.chainIdForNode x = some c then f m else 0) (g.nodes.insert id n') := by
    unfold chainSum
    rw [h]
    refine OrdMap.mapSum_congr fun x => ?_
    by_cases hx : x ∈ g.nodes
    · rw [hgrow.chainId ht ht' hx]
    · have hne : id ≠ x := by
        rintro rfl
        exact hx hmem
      rw [get_of_insert_ne hne, (OrdMap.not_mem_iff _ _).mp hx]
      rfl
  have hsum := OrdMap.mapSum_insert (fun x m =>
    if g.chainIdForNode x = some c then f m else 0) g.nodes id n'
  rw [hn, Option.elim_some] at hsum
  rw [hsame, hsum, chainSum]

theorem chainSum_added (f : WorkNode → ℕ) (ht : Tree g) (ht' : Tree g') (hgrow : Grows g g')
    (hfresh : id ∉ g.nodes) (h : g'.nodes = g.nodes.insert id n') (c : String) :
    chainSum f g' c = chainSum f g c + (if g'.chainIdForNode id = some c then f n' else 0) := by
  have hsame : chainSum f g c = OrdMap.mapSum (fun x m =>
      if g'.chainIdForNode x = some c then f m else 0) g.nodes := by
    unfold chainSum
    refine OrdMap.mapSum_congr fun x => ?_
    by_cases hx : x ∈ g.nodes
    · rw [hgrow.chainId ht ht' hx]
    · rw [(OrdMap.not_mem_iff _ _).mp hx]
      rfl
  have hsum := OrdMap.mapSum_insert (fun x m =>
      if g'.chainIdForNode x = some c then f m else 0) g.nodes id n'
  rw [(OrdMap.not_mem_iff _ _).mp hfresh, Option.elim_none, Nat.add_zero] at hsum
  rw [chainSum, h, hsum, hsame]

theorem chainIdForNode_congr (h : g'.nodes = g.nodes) (id : String) :
    g'.chainIdForNode id = g.chainIdForNode id := by
  have hloop (fuel : ℕ) : ∀ id, chainIdLoop g' fuel id = chainIdLoop g fuel id := by
    induction fuel with
    | zero => exact fun _ => rfl
    | succ fuel ih =>
      intro id
      simp only [chainIdLoop, h, ih]
  rw [chainIdForNode, chainIdForNode, h, hloop]

theorem chainSum_congr (f : WorkNode → ℕ) (h : g'.nodes = g.nodes) (c : String) :
    chainSum f g' c = chainSum f g c := by
  simp only [chainSum, h, chainIdForNode_congr h]

theorem Bookkept.pendingChain_eq (hb : Bookkept g) (ht' : Tree g') (hgrow : Grows g g')
    (hparents : g'.pendingChildParents[id]? = g.pendingChildParents[id]?) :
    g'.pendingChain id = g.pendingChain id := by
  unfold pendingChain
  rw [hparents]
  cases hp : g.pendingChildParents[id]? with
  | none => rfl
  | some p => exact hgrow.chainId hb.tree ht' (hb.pendingParent hp)

theorem chainPending_same (m : Meter) (hb : Bookkept g) (ht' : Tree g') (hgrow : Grows g g')
    (hbudgets : g'.pendingChildBudgets = g.pendingChildBudgets)
    (hparents : g'.pendingChildParents = g.pendingChildParents) (c : String) :
    chainPending m g' c = chainPending m g c := by
  unfold chainPending
  rw [hbudgets]
  refine OrdMap.mapSum_congr fun x => ?_
  rw [hb.pendingChain_eq ht' hgrow (by rw [hparents])]

/-! ## Exact records -/

structure ChainExact (g : BoundedWorkGraph) (c : String) (chain : ChainBudget) : Prop where
  chainId : chain.chainId = c
  root : ∃ r : WorkNode, g.nodes[c]? = some r ∧ r.parentNodeId = none ∧
    ∀ m : Meter, m.granted r.budget = m.chainRoot chain
  allocated : ∀ m : Meter, m.chainAllocated chain =
    chainSum (fun n => m.granted n.budget) g c + chainPending m g c
  consumed : ∀ m : Meter, m.chainConsumed chain = chainSum (fun n => m.spent n.budget) g c
  within : ∀ m : Meter, m.chainConsumed chain ≤ m.chainRoot chain
  authorized : chain.unauthorizedTokens = 0 ∧ chain.unauthorizedCostMicros = 0
  depth : IsGreatest (chainDepths g c) chain.depth

def ChainsExact (g : BoundedWorkGraph) : Prop :=
  ∀ (c : String) (chain : ChainBudget), g.chainBudgets[c]? = some chain → ChainExact g c chain

theorem chainsExact_new (a b : ℕ) : ChainsExact (new a b) := by
  intro c chain hc
  simp [new] at hc

/-! ## Writes that grant nothing -/

theorem chainDepths_same (hb : Bookkept g) (ht' : Tree g') (hgrow : Grows g g')
    (hback : ∀ x ∈ g'.nodes, x ∈ g.nodes)
    (hparents : g'.pendingChildParents = g.pendingChildParents) (c : String) :
    chainDepths g' c = chainDepths g c := by
  ext d
  constructor
  · rintro ⟨id, n', hn', hchain, hd⟩
    have hid := hback id ((OrdMap.mem_iff _ _).mpr ⟨n', hn'⟩)
    obtain ⟨n, hn⟩ := (OrdMap.mem_iff _ _).mp hid
    obtain ⟨n'', hn'', -, hdepth⟩ := hgrow id n hn
    obtain rfl := Option.some.inj (hn'.symm.trans hn'')
    rw [hgrow.chainId hb.tree ht' hid] at hchain
    rw [hdepth, hparents] at hd
    exact ⟨id, n, hn, hchain, hd⟩
  · rintro ⟨id, n, hn, hchain, hd⟩
    obtain ⟨n', hn', -, hdepth⟩ := hgrow id n hn
    refine ⟨id, n', hn', ?_, ?_⟩
    · rw [hgrow.chainId hb.tree ht' ((OrdMap.mem_iff _ _).mpr ⟨n, hn⟩), hchain]
    · rw [hdepth, hparents]
      exact hd

/-- A node is rewritten without a new grant: the records follow its spending. -/
theorem ChainExact.rewritten {chain chain' : ChainBudget} (h : ChainExact g c chain)
    (hb : Bookkept g) (ht' : Tree g') (hgrow : Grows g g') (hn : g.nodes[id]? = some n)
    (hnodes : g'.nodes = g.nodes.insert id n')
    (hbudgets : g'.pendingChildBudgets = g.pendingChildBudgets)
    (hparents : g'.pendingChildParents = g.pendingChildParents)
    (hgranted : ∀ m : Meter, m.granted n'.budget = m.granted n.budget)
    (hrecord : chain' = { chain with
      totalConsumedTokens := chain'.totalConsumedTokens
      totalConsumedCostMicros := chain'.totalConsumedCostMicros })
    (hconsumed : ∀ m : Meter, m.chainConsumed chain' +
      (if g.chainIdForNode id = some c then m.spent n.budget else 0) = m.chainConsumed chain +
      (if g.chainIdForNode id = some c then m.spent n'.budget else 0))
    (hwithin : ∀ m : Meter, m.chainConsumed chain' ≤ m.chainRoot chain) :
    ChainExact g' c chain' := by
  have hmem : id ∈ g.nodes := (OrdMap.mem_iff _ _).mpr ⟨n, hn⟩
  have hback : ∀ x ∈ g'.nodes, x ∈ g.nodes := by
    intro x hx
    rw [hnodes, Std.ExtTreeMap.mem_insert, Std.compare_eq_iff_eq] at hx
    rcases hx with rfl | hx
    · exact hmem
    · exact hx
  have hroots (m : Meter) : m.chainRoot chain' = m.chainRoot chain := by
    rw [hrecord]
    cases m <;> rfl
  have halloc (m : Meter) : m.chainAllocated chain' = m.chainAllocated chain := by
    rw [hrecord]
    cases m <;> rfl
  constructor
  · rw [hrecord]
    exact h.chainId
  · obtain ⟨r, hr, hrp, hbudget⟩ := h.root
    obtain ⟨r', hr', hparent, -⟩ := hgrow c r hr
    refine ⟨r', hr', hparent.trans hrp, fun m => ?_⟩
    rw [hroots, ← hbudget]
    rw [hnodes, OrdMap.get_insert] at hr'
    split_ifs at hr' with heq
    · obtain rfl := Option.some.inj hr'
      subst heq
      obtain rfl := Option.some.inj (hn.symm.trans hr)
      exact hgranted m
    · rw [Option.some.inj (hr.symm.trans hr')]
  · intro m
    have hsum := chainSum_rewritten (fun n => m.granted n.budget) hb.tree ht' hgrow hn hnodes c
    simp only [hgranted m] at hsum
    rw [halloc, h.allocated m, chainPending_same m hb ht' hgrow hbudgets hparents]
    omega
  · intro m
    have hsum := chainSum_rewritten (fun n => m.spent n.budget) hb.tree ht' hgrow hn hnodes c
    have := hconsumed m
    rw [h.consumed m] at this
    omega
  · intro m
    rw [hroots]
    exact hwithin m
  · rw [hrecord]
    exact h.authorized
  · rw [hrecord, chainDepths_same hb ht' hgrow hback hparents]
    exact h.depth

theorem chainConsumed_spentChain (m : Meter) (chain : ChainBudget) (a b : UInt64) :
    m.chainConsumed (spentChain a b chain) = m.total (a, b) := by
  cases m <;> rfl

/-- A spend adds the same amount to a node and to the record of its chain. -/
theorem ChainsExact.spent (h : ChainsExact g) (hb : Bookkept g) (ht' : Tree g')
    (hgrow : Grows g g') {chainId : String} {tokens cost : ℕ} {r : Totals} {chain : ChainBudget}
    {a b : UInt64} (hspend : SpendAdmitted g id n tokens cost r chainId chain a b)
    (hnodes : g'.nodes = g.nodes.insert id n')
    (hbudgets : g'.pendingChildBudgets = g.pendingChildBudgets)
    (hparents : g'.pendingChildParents = g.pendingChildParents)
    (hgranted : ∀ m : Meter, m.granted n'.budget = m.granted n.budget)
    (hspent : ∀ m : Meter, m.spent n'.budget = m.spent n.budget + amount m tokens cost)
    (hchains : g'.chainBudgets = g.chainBudgets.insert chainId (spentChain a b chain)) :
    ChainsExact g' := by
  intro c chain' hc
  rw [hchains, OrdMap.get_insert] at hc
  split_ifs at hc with heq
  · obtain rfl := Option.some.inj hc
    subst heq
    have hexact := h chainId chain hspend.getChain
    obtain ⟨hzero, hzero'⟩ := hexact.authorized
    refine hexact.rewritten hb ht' hgrow hspend.getNode hnodes hbudgets hparents hgranted rfl ?_ ?_
    · intro m
      rw [if_pos hspend.getChainId, if_pos hspend.getChainId, hspent, chainConsumed_spentChain]
      cases m
      · have := hspend.chainTokens
        change a.toNat + _ = chain.totalConsumedTokens.toNat + (_ + tokens)
        omega
      · have := hspend.chainCost
        change b.toNat + _ = chain.totalConsumedCostMicros.toNat + (_ + cost)
        omega
    · have htokens := hspend.withinChainTokens
      have hcost := hspend.withinChainCost
      rw [hzero, gt_iff_lt, UInt64.lt_iff_toNat_lt, toNat_saturatingAdd] at htokens
      rw [hzero', gt_iff_lt, UInt64.lt_iff_toNat_lt, toNat_saturatingAdd] at hcost
      have ha := toNat_le_u64Max a
      have hb := toNat_le_u64Max b
      intro m
      rw [chainConsumed_spentChain]
      cases m
      · change a.toNat ≤ chain.rootBudgetTokens.toNat
        simp only [UInt64.toNat_zero] at htokens
        omega
      · change b.toNat ≤ chain.rootBudgetCostMicros.toNat
        simp only [UInt64.toNat_zero] at hcost
        omega
  · have hexact := h c chain' hc
    have hother : ¬ g.chainIdForNode id = some c := by
      rw [hspend.getChainId, Option.some.injEq]
      exact heq
    refine hexact.rewritten hb ht' hgrow hspend.getNode hnodes hbudgets hparents hgranted rfl ?_
      hexact.within
    intro m
    rw [if_neg hother, if_neg hother]

/-- A node is rewritten and keeps its budget. -/
theorem ChainsExact.kept (h : ChainsExact g) (hb : Bookkept g) (ht' : Tree g')
    (hgrow : Grows g g') (hn : g.nodes[id]? = some n) (hnodes : g'.nodes = g.nodes.insert id n')
    (hbudgets : g'.pendingChildBudgets = g.pendingChildBudgets)
    (hparents : g'.pendingChildParents = g.pendingChildParents) (hbudget : n'.budget = n.budget)
    (hchains : g'.chainBudgets = g.chainBudgets) : ChainsExact g' := by
  intro c chain hc
  rw [hchains] at hc
  have hexact := h c chain hc
  refine hexact.rewritten hb ht' hgrow hn hnodes hbudgets hparents (fun m => by rw [hbudget]) rfl
    (fun m => by rw [hbudget]) hexact.within

/-! ## Grants -/

/-- The record after a grant that takes the place of an earlier one. -/
def grantedChain (chain : ChainBudget) (previous budget : WorkNodeBudget) (depth : ℕ) :
    ChainBudget :=
  { chain with
    totalAllocatedTokens := saturatingAdd
      (saturatingSub chain.totalAllocatedTokens previous.tokensAllocated) budget.tokensAllocated
    totalAllocatedCostMicros := saturatingAdd
      (saturatingSub chain.totalAllocatedCostMicros previous.costMicrosAllocated)
      budget.costMicrosAllocated
    depth := max chain.depth depth }

theorem recordChainAllocation_chains {chainId : String} {chain : ChainBudget}
    (h : g.chainBudgets[chainId]? = some chain) (previous budget : WorkNodeBudget) (depth : ℕ) :
    (g.recordChainAllocation chainId previous.tokensAllocated budget.tokensAllocated
      previous.costMicrosAllocated budget.costMicrosAllocated depth).chainBudgets =
      g.chainBudgets.insert chainId (grantedChain chain previous budget depth) := by
  have hmem : chainId ∈ g.chainBudgets := (OrdMap.mem_iff _ _).mpr ⟨chain, h⟩
  rw [recordChainAllocation, ensureChainBudget_of_mem hmem, updateChain_eq h]
  rfl

theorem chainAllocated_granted (m : Meter) (chain : ChainBudget) (previous budget : WorkNodeBudget)
    (depth : ℕ) : m.chainAllocated (grantedChain chain previous budget depth) =
      min (m.chainAllocated chain - m.granted previous + m.granted budget) u64Max := by
  cases m <;> simp [Meter.chainAllocated, Meter.granted, grantedChain]

/-- A grant to one chain, as its sums see it. -/
structure Grant (g g' : BoundedWorkGraph) (chainId : String) (previous budget : WorkNodeBudget)
    (depth : ℕ) : Prop where
  roots : ∀ (x : String) (r : WorkNode), g.nodes[x]? = some r → g'.nodes[x]? = some r
  held : ∀ m : Meter, m.granted previous ≤ chainPending m g chainId
  granted : ∀ (m : Meter) (c : String), chainSum (fun n => m.granted n.budget) g' c +
    chainPending m g' c + (if c = chainId then m.granted previous else 0) =
      chainSum (fun n => m.granted n.budget) g c + chainPending m g c +
        (if c = chainId then m.granted budget else 0)
  spent : ∀ (m : Meter) (c : String), chainSum (fun n => m.spent n.budget) g' c =
    chainSum (fun n => m.spent n.budget) g c
  depths : ∀ (c : String) (d : ℕ), d ∈ chainDepths g' c ↔
    d ∈ chainDepths g c ∨ c = chainId ∧ d = depth

theorem Grant.exact {chainId : String} {previous budget : WorkNodeBudget} {depth : ℕ}
    {chain : ChainBudget} (hgrant : Grant g g' chainId previous budget depth) (h : ChainsExact g)
    (hchain : g.chainBudgets[chainId]? = some chain)
    (hchains : g'.chainBudgets =
      g.chainBudgets.insert chainId (grantedChain chain previous budget depth))
    (hfits : ∀ m : Meter,
      m.chainAllocated chain - m.granted previous + m.granted budget ≤ u64Max) :
    ChainsExact g' := by
  intro c chain' hc
  rw [hchains, OrdMap.get_insert] at hc
  split_ifs at hc with heq
  · obtain rfl := Option.some.inj hc
    subst heq
    have hexact := h chainId chain hchain
    obtain ⟨r, hr, hrp, hbudget⟩ := hexact.root
    refine ⟨hexact.chainId, ⟨r, hgrant.roots _ _ hr, hrp, ?_⟩, ?_, ?_, ?_, hexact.authorized, ?_⟩
    · intro m
      rw [hbudget]
      cases m <;> rfl
    · intro m
      have hsum := hgrant.granted m chainId
      have hheld := hgrant.held m
      have hold := hexact.allocated m
      have := hfits m
      simp only [if_true] at hsum
      rw [chainAllocated_granted, min_eq_left this]
      omega
    · intro m
      rw [hgrant.spent, ← hexact.consumed]
      cases m <;> rfl
    · intro m
      have := hexact.within m
      cases m <;> exact this
    · have hset : chainDepths g' chainId = insert depth (chainDepths g chainId) := by
        ext d
        rw [hgrant.depths, Set.mem_insert_iff, or_comm]
        simp
      rw [hset]
      change IsGreatest _ (max chain.depth depth)
      rw [max_comm]
      exact hexact.depth.insert depth
  · have hexact := h c chain' hc
    have hne : c ≠ chainId := fun h => heq h.symm
    obtain ⟨r, hr, hrp, hbudget⟩ := hexact.root
    refine ⟨hexact.chainId, ⟨r, hgrant.roots _ _ hr, hrp, hbudget⟩, ?_, ?_, hexact.within,
      hexact.authorized, ?_⟩
    · intro m
      have hsum := hgrant.granted m c
      rw [if_neg hne, if_neg hne] at hsum
      rw [hexact.allocated m]
      omega
    · intro m
      rw [hgrant.spent, hexact.consumed]
    · have hset : chainDepths g' c = chainDepths g c := by
        ext d
        rw [hgrant.depths]
        simp [hne]
      rw [hset]
      exact hexact.depth

/-- What a reservation made for `childId` holds back. -/
def reservedFor (g : BoundedWorkGraph) (childId : String) : WorkNodeBudget :=
  (g.pendingChildBudgets[childId]?).getD .zero

theorem granted_zero (m : Meter) : m.granted .zero = 0 := by cases m <;> rfl

theorem pendingChain_of_parent {p : String} (h : g.pendingChildParents[id]? = some p) :
    g.pendingChain id = g.chainIdForNode p := by
  rw [pendingChain, h]
  rfl

/-- A reservation that matches the parent belongs to the chain of that parent. -/
theorem pendingMatches_cases {parentId childId : String}
    (h : g.pendingReservationMatches parentId childId = true) :
    (g.pendingChildBudgets[childId]? = none ∧ g.pendingChildParents[childId]? = none) ∨
      ∃ b, g.pendingChildBudgets[childId]? = some b ∧
        g.pendingChildParents[childId]? = some parentId := by
  unfold pendingReservationMatches at h
  cases hb : g.pendingChildBudgets[childId]? with
  | none =>
    cases hp : g.pendingChildParents[childId]? with
    | none => exact .inl ⟨rfl, rfl⟩
    | some p => simp [hb, hp] at h
  | some b =>
    cases hp : g.pendingChildParents[childId]? with
    | none => simp [hb, hp] at h
    | some p =>
      simp only [hb, hp, beq_iff_eq] at h
      exact .inr ⟨b, rfl, by rw [h]⟩

theorem childInserted_nodes (g : BoundedWorkGraph) (parentId chainId : String) (node : WorkNode) :
    (g.childInserted parentId node chainId).nodes = g.nodes.insert node.nodeId node :=
  (sameButChains_childInserted g parentId chainId node).nodes

theorem childInserted_parents (g : BoundedWorkGraph) (parentId chainId : String)
    (node : WorkNode) : (g.childInserted parentId node chainId).pendingChildParents =
      g.pendingChildParents.erase node.nodeId := by
  rw [(sameButChains_childInserted g parentId chainId node).eq]
  rfl

theorem reservationAdded_nodes (g : BoundedWorkGraph) (parentId childId chainId : String)
    (budget : WorkNodeBudget) (depth : ℕ) :
    (g.reservationAdded parentId childId budget chainId depth).nodes = g.nodes :=
  (sameButChains_reservationAdded g parentId childId chainId budget depth).nodes

theorem reservationAdded_parents (g : BoundedWorkGraph) (parentId childId chainId : String)
    (budget : WorkNodeBudget) (depth : ℕ) :
    (g.reservationAdded parentId childId budget chainId depth).pendingChildParents =
      g.pendingChildParents.insert childId parentId := by
  rw [(sameButChains_reservationAdded g parentId childId chainId budget depth).eq]
  rfl

theorem grows_added (hfresh : id ∉ g.nodes) (h : g'.nodes = g.nodes.insert id n') : Grows g g' := by
  intro x n hn
  exact ⟨n, by rw [h, get_of_insert_ne (ne_of_fresh hfresh hn), hn], rfl, rfl⟩

/-- Erasing the reservation of a child takes it out of the sum of its chain only. -/
theorem chainPending_erase (m : Meter) (hb : Bookkept g) (ht' : Tree g') (hgrow : Grows g g')
    {parentId childId chainId : String} (hmatch : g.pendingReservationMatches parentId childId = true)
    (hchain : g.chainIdForNode parentId = some chainId)
    (hbudgets : g'.pendingChildBudgets = g.pendingChildBudgets.erase childId)
    (hparents : g'.pendingChildParents = g.pendingChildParents.erase childId) (c : String) :
    chainPending m g' c + (if c = chainId then m.granted (g.reservedFor childId) else 0) =
      chainPending m g c := by
  have hsame : chainPending m g' c = OrdMap.mapSum (fun x b =>
      if g.pendingChain x = some c then m.granted b else 0) (g.pendingChildBudgets.erase childId) := by
    unfold chainPending
    rw [hbudgets]
    refine OrdMap.mapSum_congr fun x => ?_
    by_cases hx : childId = x
    · rw [OrdMap.get_erase, if_pos hx]
      rfl
    · rw [hb.pendingChain_eq ht' hgrow (by rw [hparents, OrdMap.get_erase, if_neg hx])]
  have hsum := OrdMap.mapSum_erase (fun x b =>
    if g.pendingChain x = some c then m.granted b else 0) g.pendingChildBudgets childId
  rw [hsame, chainPending, ← hsum]
  congr 1
  rcases pendingMatches_cases hmatch with ⟨hnone, -⟩ | ⟨b, hsome, hparent⟩
  · rw [reservedFor, hnone, Option.getD_none, granted_zero, ite_self]
    rfl
  · rw [reservedFor, hsome, Option.getD_some, Option.elim_some, pendingChain_of_parent hparent,
      hchain]
    by_cases hc : c = chainId
    · rw [if_pos hc, if_pos (by rw [hc])]
    · rw [if_neg hc, if_neg fun h => hc (Option.some.inj h).symm]

theorem ChildAdmitted.grant {parentId childId agentId capsuleRef chainId : String}
    {budget : WorkNodeBudget} {status : NodeStatus} {parent : WorkNode} {reserved : Totals}
    (hb : Bookkept g)
    (h : ChildAdmitted g parentId childId agentId capsuleRef budget status parent reserved chainId)
    (hunspent : ∀ m : Meter, m.spent budget = 0) :
    Grant g (g.childInserted parentId (freshNode childId agentId (some parentId) capsuleRef status
      budget (parent.depth + 1)) chainId) chainId (g.reservedFor childId) budget
      (parent.depth + 1) := by
  set node := freshNode childId agentId (some parentId) capsuleRef status budget (parent.depth + 1)
    with hnode
  set g' := g.childInserted parentId node chainId with hg'
  have hnodes : g'.nodes = g.nodes.insert childId node := childInserted_nodes g parentId chainId node
  have hparents : g'.pendingChildParents = g.pendingChildParents.erase childId :=
    childInserted_parents g parentId chainId node
  have hbudgets : g'.pendingChildBudgets = g.pendingChildBudgets.erase childId :=
    childInserted_budgets g parentId chainId node
  have hchange : Change (fun s => s) g g' := .child h
  have ht' : Tree g' := hb.tree.change hchange
  have hgrow : Grows g g' := grows_added h.fresh hnodes
  have hget : g'.nodes[childId]? = some node := by
    rw [hnodes, OrdMap.get_insert, if_pos rfl]
  have hmem : parentId ∈ g.nodes := (OrdMap.mem_iff _ _).mpr ⟨_, h.getParent⟩
  have hchild : g'.chainIdForNode childId = some chainId := by
    rw [ht'.chainId_child hget rfl, hgrow.chainId hb.tree ht' hmem, h.getChainId]
  have hpending (m : Meter) := chainPending_erase m hb ht' hgrow h.pending h.getChainId hbudgets
    hparents
  have hkept (x : String) (r : WorkNode) (hr : g.nodes[x]? = some r) : g'.nodes[x]? = some r := by
    rw [hnodes, get_of_insert_ne (ne_of_fresh h.fresh hr), hr]
  have heq (c : String) : g'.chainIdForNode childId = some c ↔ c = chainId := by
    rw [hchild, Option.some.injEq, eq_comm]
  refine ⟨hkept, ?_, ?_, ?_, ?_⟩
  · intro m
    have := hpending m chainId
    rw [if_pos rfl] at this
    omega
  · intro m c
    have hsum := chainSum_added (fun n => m.granted n.budget) hb.tree ht' hgrow h.fresh hnodes c
    have := hpending m c
    simp only [heq] at hsum
    change _ = _ + (if c = chainId then m.granted budget else 0) at hsum
    omega
  · intro m c
    rw [chainSum_added (fun n => m.spent n.budget) hb.tree ht' hgrow h.fresh hnodes c]
    change _ + (if g'.chainIdForNode childId = some c then m.spent budget else 0) = _
    rw [hunspent, ite_self, Nat.add_zero]
  · intro c d
    constructor
    · rintro ⟨x, n, hn, hchain, hd⟩
      rw [hnodes, OrdMap.get_insert] at hn
      split_ifs at hn with hx
      · obtain rfl := Option.some.inj hn
        subst hx
        rcases hd with rfl | ⟨-, y, hy⟩
        · exact .inr ⟨(heq c).mp hchain, rfl⟩
        · -- Nothing was reserved under a child that did not exist.
          rw [hparents, OrdMap.get_erase] at hy
          split_ifs at hy
          exact absurd (hb.pendingParent hy) h.fresh
      · refine .inl ⟨x, n, hn, ?_, ?_⟩
        · rwa [hgrow.chainId hb.tree ht' ((OrdMap.mem_iff _ _).mpr ⟨n, hn⟩)] at hchain
        · rcases hd with hd | ⟨hd, y, hy⟩
          · exact .inl hd
          · rw [hparents, OrdMap.get_erase] at hy
            split_ifs at hy
            exact .inr ⟨hd, y, hy⟩
    · rintro (⟨x, n, hn, hchain, hd⟩ | ⟨rfl, rfl⟩)
      · have hchain' : g'.chainIdForNode x = some c := by
          rw [hgrow.chainId hb.tree ht' ((OrdMap.mem_iff _ _).mpr ⟨n, hn⟩), hchain]
        rcases hd with hd | ⟨hd, y, hy⟩
        · exact ⟨x, n, hkept x n hn, hchain', .inl hd⟩
        · by_cases hyc : childId = y
          · -- The reservation the child replaces: the child itself now reaches that depth.
            subst hyc
            rcases pendingMatches_cases h.pending with ⟨-, hnone⟩ | ⟨b, -, hsome⟩
            · rw [hnone] at hy
              cases hy
            · obtain rfl := Option.some.inj (hsome.symm.trans hy)
              obtain rfl := Option.some.inj (h.getParent.symm.trans hn)
              rw [h.getChainId, ← hchild] at hchain
              exact ⟨childId, node, hget, hchain, .inl hd⟩
          · refine ⟨x, n, hkept x n hn, hchain', .inr ⟨hd, y, ?_⟩⟩
            rw [hparents, OrdMap.get_erase, if_neg hyc, hy]
      · exact ⟨childId, node, hget, hchild, .inl rfl⟩

theorem ReservationAdmitted.grant {parentId childId chainId : String} {budget : WorkNodeBudget}
    {parent : WorkNode} {reserved : Totals} (hb : Bookkept g)
    (h : ReservationAdmitted g parentId childId budget parent reserved chainId) :
    Grant g (g.reservationAdded parentId childId budget chainId (parent.depth + 1)) chainId
      (g.reservedFor childId) budget (parent.depth + 1) := by
  set g' := g.reservationAdded parentId childId budget chainId (parent.depth + 1) with hg'
  have hnodes : g'.nodes = g.nodes := reservationAdded_nodes _ _ _ _ _ _
  have hparents : g'.pendingChildParents = g.pendingChildParents.insert childId parentId :=
    reservationAdded_parents _ _ _ _ _ _
  have hbudgets : g'.pendingChildBudgets = g.pendingChildBudgets.insert childId budget :=
    reservationAdded_budgets _ _ _ _ _ _
  have hids := chainIdForNode_congr hnodes
  have hnone : g.pendingChildBudgets[childId]? = none := (OrdMap.not_mem_iff _ _).mp h.unreserved
  have hnew (x : String) (p : String) (hx : g.pendingChildParents[x]? = some p) : childId ≠ x := by
    rintro rfl
    exact h.unreserved ((hb.pendingKeys childId).mpr ((OrdMap.mem_iff _ _).mpr ⟨p, hx⟩))
  have hreserved : g.reservedFor childId = .zero := by rw [reservedFor, hnone]; rfl
  have hown : g'.pendingChain childId = some chainId := by
    have hp : g'.pendingChildParents[childId]? = some parentId := by
      rw [hparents, OrdMap.get_insert, if_pos rfl]
    rw [pendingChain_of_parent hp, hids, h.getChainId]
  refine ⟨fun x r hr => by rw [hnodes, hr], ?_, ?_, ?_, ?_⟩
  · intro m
    rw [hreserved, granted_zero]
    exact Nat.zero_le _
  · intro m c
    have hrest : chainPending m g c = OrdMap.mapSum (fun x b =>
        if g'.pendingChain x = some c then m.granted b else 0) g.pendingChildBudgets := by
      refine OrdMap.mapSum_congr fun x => ?_
      by_cases hx : childId = x
      · rw [← hx, hnone]
        rfl
      · have hsame : g'.pendingChain x = g.pendingChain x := by
          unfold pendingChain
          rw [hparents, OrdMap.get_insert, if_neg hx]
          cases g.pendingChildParents[x]? with
          | none => rfl
          | some p => exact hids p
        rw [hsame]
    have hsum := OrdMap.mapSum_insert (fun x b =>
      if g'.pendingChain x = some c then m.granted b else 0) g.pendingChildBudgets childId budget
    rw [hnone, Option.elim_none, Nat.add_zero, ← hrest, hown] at hsum
    rw [chainSum_congr _ hnodes, hreserved, granted_zero, ite_self, Nat.add_zero, chainPending,
      hbudgets, hsum, ← Nat.add_assoc]
    congr 1
    simp only [Option.some.injEq, eq_comm]
  · intro m c
    exact chainSum_congr _ hnodes c
  · intro c d
    constructor
    · rintro ⟨x, n, hn, hchain, hd⟩
      rw [hnodes] at hn
      rw [hids] at hchain
      rcases hd with hd | ⟨hd, y, hy⟩
      · exact .inl ⟨x, n, hn, hchain, .inl hd⟩
      · rw [hparents, OrdMap.get_insert] at hy
        split_ifs at hy
        · obtain rfl := Option.some.inj hy
          obtain rfl := Option.some.inj (h.getParent.symm.trans hn)
          exact .inr ⟨Option.some.inj (hchain.symm.trans h.getChainId), hd⟩
        · exact .inl ⟨x, n, hn, hchain, .inr ⟨hd, y, hy⟩⟩
    · rintro (⟨x, n, hn, hchain, hd⟩ | ⟨rfl, rfl⟩)
      · refine ⟨x, n, by rw [hnodes, hn], by rw [hids, hchain], ?_⟩
        rcases hd with hd | ⟨hd, y, hy⟩
        · exact .inl hd
        · exact .inr ⟨hd, y, by rw [hparents, OrdMap.get_insert, if_neg (hnew y x hy), hy]⟩
      · refine ⟨parentId, parent, by rw [hnodes, h.getParent], by rw [hids, h.getChainId],
          .inr ⟨rfl, childId, ?_⟩⟩
        rw [hparents, OrdMap.get_insert, if_pos rfl]

theorem ChildAdmitted.exact {parentId childId agentId capsuleRef chainId : String}
    {budget : WorkNodeBudget} {status : NodeStatus} {parent : WorkNode} {reserved : Totals}
    (hb : Bookkept g) (hexact : ChainsExact g)
    (h : ChildAdmitted g parentId childId agentId capsuleRef budget status parent reserved chainId)
    (hunspent : ∀ m : Meter, m.spent budget = 0) {chain : ChainBudget}
    (hchain : g.chainBudgets[chainId]? = some chain) (hfits : ∀ m : Meter,
      m.chainAllocated chain - m.granted (g.reservedFor childId) + m.granted budget ≤ u64Max) :
    ChainsExact (g.childInserted parentId (freshNode childId agentId (some parentId) capsuleRef
      status budget (parent.depth + 1)) chainId) := by
  refine (h.grant hb hunspent).exact hexact hchain ?_ hfits
  exact recordChainAllocation_chains (g := (g.linkChild parentId (freshNode childId agentId
    (some parentId) capsuleRef status budget (parent.depth + 1))).takePending childId) hchain _ _ _

theorem ReservationAdmitted.exact {parentId childId chainId : String} {budget : WorkNodeBudget}
    {parent : WorkNode} {reserved : Totals} (hb : Bookkept g) (hexact : ChainsExact g)
    (h : ReservationAdmitted g parentId childId budget parent reserved chainId)
    {chain : ChainBudget} (hchain : g.chainBudgets[chainId]? = some chain) (hfits : ∀ m : Meter,
      m.chainAllocated chain - m.granted (g.reservedFor childId) + m.granted budget ≤ u64Max) :
    ChainsExact (g.reservationAdded parentId childId budget chainId (parent.depth + 1)) := by
  refine (h.grant hb).exact hexact hchain ?_ hfits
  have hzero : g.reservedFor childId = .zero := by
    rw [reservedFor, (OrdMap.not_mem_iff _ _).mp h.unreserved]
    rfl
  rw [hzero]
  exact recordChainAllocation_chains (g := g.addPending parentId childId budget) hchain .zero _ _

/-- A new root opens a record of its own and touches no other chain. -/
theorem RootAdmitted.exact {nodeId agentId capsuleRef : String} {budget : WorkNodeBudget}
    (hb : Bookkept g) (hexact : ChainsExact g)
    (h : RootAdmitted g nodeId agentId capsuleRef budget)
    (hunspent : ∀ m : Meter, m.spent budget = 0) :
    ChainsExact (g.insertRoot (freshNode nodeId agentId none capsuleRef .active budget 0)) := by
  set node := freshNode nodeId agentId none capsuleRef .active budget 0 with hnode
  set g' := g.insertRoot node with hg'
  have hnodes : g'.nodes = g.nodes.insert nodeId node := rfl
  have ht' : Tree g' := hb.tree.insertRoot h.fresh rfl rfl
  have hgrow : Grows g g' := grows_added h.fresh hnodes
  have hget : g'.nodes[nodeId]? = some node := by rw [hnodes, OrdMap.get_insert, if_pos rfl]
  have hself : g'.chainIdForNode nodeId = some nodeId := ht'.chainId_root hget rfl
  have hother {x : String} (hx : x ∈ g.nodes) : g'.chainIdForNode x ≠ some nodeId := by
    rw [hgrow.chainId hb.tree ht' hx]
    exact fun hc => h.fresh (hb.tree.chain_mem hx hc)
  have hpending (m : Meter) (c : String) : chainPending m g' c = chainPending m g c :=
    chainPending_same m hb ht' hgrow rfl rfl c
  have hnone (x : String) : g'.pendingChildParents[x]? ≠ some nodeId :=
    fun hx => h.fresh (hb.pendingParent hx)
  -- Nothing of the old graph belongs to the new chain.
  have hempty (f : WorkNode → ℕ) : chainSum f g nodeId = 0 := by
    have hzero : chainSum f g nodeId = OrdMap.mapSum (fun _ _ => 0) (∅ : OrdMap String ℕ) := by
      refine OrdMap.mapSum_congr fun x => ?_
      cases hx : g.nodes[x]? with
      | none => simp
      | some n =>
        have hmem : x ∈ g.nodes := (OrdMap.mem_iff _ _).mpr ⟨n, hx⟩
        have := hother hmem
        rw [hgrow.chainId hb.tree ht' hmem] at this
        simp [this]
    rw [hzero, OrdMap.mapSum_empty]
  have hemptyPending (m : Meter) : chainPending m g nodeId = 0 := by
    have hzero : chainPending m g nodeId = OrdMap.mapSum (fun _ _ => 0) (∅ : OrdMap String ℕ) := by
      refine OrdMap.mapSum_congr fun x => ?_
      have hne : g.pendingChain x ≠ some nodeId := by
        intro hc
        obtain ⟨p, hp, hpc⟩ := Option.bind_eq_some_iff.mp hc
        exact h.fresh (hb.tree.chain_mem (hb.pendingParent hp) hpc)
      cases g.pendingChildBudgets[x]? <;> simp [hne]
    rw [hzero, OrdMap.mapSum_empty]
  intro c chain hc
  change (g.chainBudgets.insert nodeId (freshChain nodeId budget))[c]? = some chain at hc
  rw [OrdMap.get_insert] at hc
  split_ifs at hc with heq
  · obtain rfl := Option.some.inj hc
    subst heq
    refine ⟨rfl, ⟨node, hget, rfl, fun m => by cases m <;> rfl⟩, ?_, ?_, ?_, ⟨rfl, rfl⟩, ?_⟩
    · intro m
      rw [chainSum_added _ hb.tree ht' hgrow h.fresh hnodes, if_pos hself, hpending, hempty,
        hemptyPending, Nat.zero_add, Nat.add_zero]
      cases m <;> rfl
    · intro m
      rw [chainSum_added _ hb.tree ht' hgrow h.fresh hnodes, if_pos hself, hempty, Nat.zero_add]
      have := hunspent m
      change _ = m.spent budget
      rw [this]
      cases m <;> rfl
    · intro m
      cases m <;> exact Nat.zero_le _
    · refine ⟨⟨nodeId, node, hget, hself, .inl rfl⟩, ?_⟩
      rintro d ⟨x, n, hn, hchain, hd⟩
      rw [hnodes, OrdMap.get_insert] at hn
      split_ifs at hn with hx
      · obtain rfl := Option.some.inj hn
        subst hx
        rcases hd with rfl | ⟨-, y, hy⟩
        · exact le_rfl
        · exact absurd hy (hnone y)
      · exact absurd hchain (hother ((OrdMap.mem_iff _ _).mpr ⟨n, hn⟩))
  · have hold := hexact c chain hc
    have hne : g'.chainIdForNode nodeId ≠ some c := by
      rw [hself]
      exact fun h => heq (Option.some.inj h)
    obtain ⟨r, hr, hrp, hbudget⟩ := hold.root
    have hkept {x : String} {n : WorkNode} (hx : g.nodes[x]? = some n) :
        g'.nodes[x]? = some n := by
      rw [hnodes, get_of_insert_ne (ne_of_fresh h.fresh hx), hx]
    refine ⟨hold.chainId, ⟨r, hkept hr, hrp, hbudget⟩, ?_, ?_, hold.within, hold.authorized, ?_⟩
    · intro m
      rw [chainSum_added _ hb.tree ht' hgrow h.fresh hnodes, if_neg hne, hpending, hold.allocated,
        Nat.add_zero]
    · intro m
      rw [chainSum_added _ hb.tree ht' hgrow h.fresh hnodes, if_neg hne, hold.consumed, Nat.add_zero]
    · have hset : chainDepths g' c = chainDepths g c := by
        ext d
        constructor
        · rintro ⟨x, n, hn, hchain, hd⟩
          rw [hnodes, OrdMap.get_insert] at hn
          split_ifs at hn with hx
          · exact absurd (hx ▸ hchain) hne
          · rw [hgrow.chainId hb.tree ht' ((OrdMap.mem_iff _ _).mpr ⟨n, hn⟩)] at hchain
            exact ⟨x, n, hn, hchain, hd⟩
        · rintro ⟨x, n, hn, hchain, hd⟩
          refine ⟨x, n, hkept hn, ?_, hd⟩
          rw [hgrow.chainId hb.tree ht' ((OrdMap.mem_iff _ _).mpr ⟨n, hn⟩), hchain]
      rw [hset]
      exact hold.depth

end BoundedWorkGraph

end LeanCtx
