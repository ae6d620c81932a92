import LeanCtx.WorkGraphOps

/-!
# The tree of a work graph

`Tree g` is what the parent links, depths, child index and chain records of a
graph have to say to each other. On such a graph every upward walk ends at a
root within `nodes.size` links, so the walks of the source return a lineage and
a chain, and the recursive stop returns.
-/

namespace LeanCtx.BoundedWorkGraph

structure Tree (g : BoundedWorkGraph) : Prop where
  key : ∀ {id : String} {node : WorkNode}, g.nodes[id]? = some node → node.nodeId = id
  root : ∀ {id : String} {node : WorkNode}, g.nodes[id]? = some node →
    node.parentNodeId = none → node.depth = 0
  parent : ∀ {id p : String} {node : WorkNode}, g.nodes[id]? = some node →
    node.parentNodeId = some p → ∃ q : WorkNode, g.nodes[p]? = some q ∧ node.depth = q.depth + 1
  depth_lt : ∀ {id : String} {node : WorkNode}, g.nodes[id]? = some node →
    node.depth < g.nodes.size
  child_mem : ∀ {p c : String}, c ∈ g.childrenOf p →
    ∃ node : WorkNode, g.nodes[c]? = some node ∧ node.parentNodeId = some p
  mem_child : ∀ {c p : String} {node : WorkNode}, g.nodes[c]? = some node →
    node.parentNodeId = some p → c ∈ g.childrenOf p
  nodup : ∀ p, (g.childrenOf p).Nodup
  chain : ∀ {id : String} {node : WorkNode}, g.nodes[id]? = some node →
    node.parentNodeId = none → id ∈ g.chainBudgets

variable {g : BoundedWorkGraph}

theorem childrenOf_eq_nil (ht : Tree g) {p : String} (h : p ∉ g.nodes) : g.childrenOf p = [] := by
  apply List.eq_nil_iff_forall_not_mem.mpr
  intro c hc
  obtain ⟨node, hnode, hp⟩ := ht.child_mem hc
  obtain ⟨q, hq, -⟩ := ht.parent hnode hp
  exact h ((OrdMap.mem_iff _ _).mpr ⟨q, hq⟩)

/-! ## Upward walks -/

/-- `ids` is the chain of parent links from a root down to `id`. -/
inductive Lineage (g : BoundedWorkGraph) : String → List String → Prop
  | root {id : String} {node : WorkNode} (h : g.nodes[id]? = some node) (hp : node.parentNodeId = none) :
      Lineage g id [id]
  | child {id p : String} {node : WorkNode} {ids : List String} (h : g.nodes[id]? = some node) (hp : node.parentNodeId = some p)
      (hl : Lineage g p ids) : Lineage g id (ids ++ [id])

theorem Lineage.unique {id : String} {l l' : List String} (h : Lineage g id l)
    (h' : Lineage g id l') : l = l' := by
  induction h generalizing l' with
  | root hn hp =>
    cases h' with
    | root => rfl
    | child hn' hp' => rw [hn] at hn'; simp_all
  | child hn hp hl ih =>
    cases h' with
    | root hn' hp' => rw [hn] at hn'; simp_all
    | child hn' hp' hl' =>
      rw [hn, Option.some.injEq] at hn'
      subst hn'
      rw [hp, Option.some.injEq] at hp'
      subst hp'
      rw [ih hl']

theorem Tree.exists_lineage (ht : Tree g) {id : String} {node : WorkNode}
    (h : g.nodes[id]? = some node) : ∃ l, Lineage g id l ∧ l.length = node.depth + 1 := by
  induction hd : node.depth generalizing id node with
  | zero =>
    cases hp : node.parentNodeId with
    | none => exact ⟨[id], .root h hp, rfl⟩
    | some p =>
      obtain ⟨q, -, hq⟩ := ht.parent h hp
      omega
  | succ d ih =>
    cases hp : node.parentNodeId with
    | none =>
      have := ht.root h hp
      omega
    | some p =>
      obtain ⟨q, hq, hdq⟩ := ht.parent h hp
      obtain ⟨l, hl, hlen⟩ := ih hq (by omega)
      exact ⟨l ++ [id], .child h hp hl, by simp [hlen]⟩

theorem Lineage.mem_nodes {id : String} {l : List String} (h : Lineage g id l) :
    ∀ x ∈ l, x ∈ g.nodes := by
  induction h with
  | root hn hp => simpa using (OrdMap.mem_iff _ _).mpr ⟨_, hn⟩
  | child hn hp hl ih =>
    intro x hx
    rcases List.mem_append.mp hx with hx | hx
    · exact ih x hx
    · obtain rfl := List.mem_singleton.mp hx
      exact (OrdMap.mem_iff _ _).mpr ⟨_, hn⟩

theorem Lineage.self_mem {id : String} {l : List String} (h : Lineage g id l) : id ∈ l := by
  cases h <;> simp

/-- The part of a lineage above one of its members is that member's lineage. -/
theorem Lineage.of_mem {id x : String} {l : List String} (h : Lineage g id l) (hx : x ∈ l) :
    ∃ l', Lineage g x l' ∧ l' <+: l := by
  induction h with
  | root hn hp =>
    obtain rfl := List.mem_singleton.mp hx
    exact ⟨_, .root hn hp, List.prefix_rfl⟩
  | child hn hp hl ih =>
    rcases List.mem_append.mp hx with hx | hx
    · obtain ⟨l', hl', hpre⟩ := ih hx
      exact ⟨l', hl', hpre.trans (List.prefix_append _ _)⟩
    · obtain rfl := List.mem_singleton.mp hx
      exact ⟨_, .child hn hp hl, List.prefix_rfl⟩

/-- The first id of a lineage is a root. -/
theorem Lineage.head {id : String} {l : List String} (h : Lineage g id l) :
    ∃ (r : String) (rest : List String) (node : WorkNode), l = r :: rest ∧
      g.nodes[r]? = some node ∧ node.parentNodeId = none := by
  induction h with
  | root hn hp => exact ⟨_, [], _, rfl, hn, hp⟩
  | child hn hp hl ih =>
    obtain ⟨r, rest, node, rfl, hr, hrp⟩ := ih
    exact ⟨r, _, node, rfl, hr, hrp⟩

theorem Lineage.depth_le (ht : Tree g) {id : String} {l : List String} (h : Lineage g id l)
    {x : String} {nx node : WorkNode} (hn : g.nodes[id]? = some node)
    (hx : x ∈ l) (hnx : g.nodes[x]? = some nx) : nx.depth ≤ node.depth := by
  induction h generalizing node with
  | root hr hp =>
    obtain rfl := List.mem_singleton.mp hx
    rw [hn, Option.some.injEq] at hnx
    rw [hnx]
  | child hc hp hl ih =>
    rcases List.mem_append.mp hx with hx | hx
    · rw [hc, Option.some.injEq] at hn
      subst hn
      obtain ⟨q, hq, hdq⟩ := ht.parent hc hp
      have := ih hq hx
      omega
    · obtain rfl := List.mem_singleton.mp hx
      rw [hn, Option.some.injEq] at hnx
      rw [hnx]

/-- No id repeats: depths grow along the lineage. -/
theorem Lineage.nodup (ht : Tree g) {id : String} {l : List String} (h : Lineage g id l) :
    l.Nodup := by
  induction h with
  | root => simp
  | child hn hp hl ih =>
    rw [List.nodup_append]
    refine ⟨ih, by simp, ?_⟩
    rintro x hx y hy rfl
    obtain rfl := List.mem_singleton.mp hy
    obtain ⟨q, hq, hdq⟩ := ht.parent hn hp
    have := hl.depth_le ht hq hx hn
    omega

theorem checkedLineageLoop_eq (ht : Tree g) {id : String} {l : List String} (h : Lineage g id l)
    (fuel : ℕ) (acc : List String) (hfuel : l.length ≤ fuel) (hacc : ∀ x ∈ l, x ∉ acc) :
    checkedLineageLoop g fuel acc id = .ok (l ++ acc) := by
  induction h generalizing fuel acc with
  | root hn hp =>
    obtain ⟨fuel, rfl⟩ := Nat.exists_eq_add_of_le' hfuel
    simp at hacc
    simp [checkedLineageLoop, hacc, hn, hp]
  | @child id node p ids hn hp hl ih =>
    rw [List.length_append, List.length_singleton] at hfuel
    obtain ⟨fuel, rfl⟩ := Nat.exists_eq_add_of_le' (Nat.le_of_add_left_le hfuel)
    have hnodup := (Lineage.child hn hp hl).nodup ht
    have hid : id ∉ acc := hacc id (by simp)
    simp only [checkedLineageLoop, hid, if_false, hn, hp]
    rw [ih fuel (id :: acc) (by omega)]
    · simp
    · intro x hx hxa
      rcases List.mem_cons.mp hxa with rfl | hxa
      · exact (List.nodup_append.mp hnodup).2.2 x hx x (by simp) rfl
      · exact hacc x (by simp [hx]) hxa

theorem chainIdLoop_eq {id : String} {l : List String} (h : Lineage g id l) (fuel : ℕ)
    (hfuel : l.length ≤ fuel) : chainIdLoop g fuel id = l.head? := by
  induction h generalizing fuel with
  | root hn hp =>
    obtain ⟨fuel, rfl⟩ := Nat.exists_eq_add_of_le' hfuel
    simp [chainIdLoop, hn, hp]
  | child hn hp hl ih =>
    rw [List.length_append, List.length_singleton] at hfuel
    obtain ⟨fuel, rfl⟩ := Nat.exists_eq_add_of_le' (Nat.le_of_add_left_le hfuel)
    obtain ⟨r, rest, -, rfl, -, -⟩ := hl.head
    simp only [chainIdLoop, hn, hp]
    rw [ih fuel (by omega)]
    simp

theorem nodeLineageLoop_eq {id : String} {l : List String} (h : Lineage g id l) (fuel : ℕ)
    (acc : List String) (hfuel : l.length ≤ fuel) :
    nodeLineageLoop g fuel acc id = l ++ acc := by
  induction h generalizing fuel acc with
  | root hn hp =>
    obtain ⟨fuel, rfl⟩ := Nat.exists_eq_add_of_le' hfuel
    simp [nodeLineageLoop, hn, hp]
  | child hn hp hl ih =>
    rw [List.length_append, List.length_singleton] at hfuel
    obtain ⟨fuel, rfl⟩ := Nat.exists_eq_add_of_le' (Nat.le_of_add_left_le hfuel)
    simp only [nodeLineageLoop, hn, hp]
    rw [ih fuel _ (by omega)]
    simp

/-- All three walks of the source agree with the lineage. -/
theorem Tree.walks (ht : Tree g) {id : String} {node : WorkNode} (h : g.nodes[id]? = some node) :
    ∃ l, Lineage g id l ∧ l.length = node.depth + 1 ∧ g.checkedLineage id = .ok l ∧
      g.nodeLineage id = l ∧ g.chainIdForNode id = l.head? := by
  obtain ⟨l, hl, hlen⟩ := ht.exists_lineage h
  have hdepth := ht.depth_lt h
  have hfuel : l.length ≤ g.nodes.size + 1 := by omega
  refine ⟨l, hl, hlen, ?_, ?_, chainIdLoop_eq hl _ hfuel⟩
  · simpa [checkedLineage] using checkedLineageLoop_eq ht hl _ [] hfuel (by simp)
  · simpa [nodeLineage] using nodeLineageLoop_eq hl _ [] hfuel

/-- The chain of a node is a root that has a chain record. -/
theorem Tree.chainId (ht : Tree g) {id : String} {node : WorkNode} (h : g.nodes[id]? = some node) :
    ∃ (r : String) (root : WorkNode), g.chainIdForNode id = some r ∧ g.nodes[r]? = some root ∧
      root.parentNodeId = none ∧ r ∈ g.chainBudgets := by
  obtain ⟨l, hl, -, -, -, hc⟩ := ht.walks h
  obtain ⟨r, rest, root, rfl, hr, hrp⟩ := hl.head
  exact ⟨r, root, hc, hr, hrp, ht.chain hr hrp⟩

theorem ensureChainBudget_of_mem {chainId : String} (h : chainId ∈ g.chainBudgets) :
    g.ensureChainBudget chainId = g := if_pos h

/-! ## Writes that keep the tree -/

/-- The part of a node that places it in the tree. -/
def placement (node : WorkNode) : String × Option String × ℕ :=
  (node.nodeId, node.parentNodeId, node.depth)

/-- Two graphs with the same nodes in the same places. -/
structure SameTree (g g' : BoundedWorkGraph) : Prop where
  nodes : ∀ id : String, (g'.nodes[id]?).map placement = (g.nodes[id]?).map placement
  size : g'.nodes.size = g.nodes.size
  children : g'.children = g.children
  chains : ∀ id ∈ g.chainBudgets, id ∈ g'.chainBudgets

namespace SameTree

variable {g' g'' : BoundedWorkGraph}

theorem refl (g : BoundedWorkGraph) : SameTree g g := ⟨fun _ => rfl, rfl, rfl, fun _ h => h⟩

theorem trans (h : SameTree g g') (h' : SameTree g' g'') : SameTree g g'' :=
  ⟨fun id => (h'.nodes id).trans (h.nodes id), h'.size.trans h.size, h'.children.trans h.children,
    fun id hid => h'.chains id (h.chains id hid)⟩

theorem childrenOf (h : SameTree g g') (p : String) : g'.childrenOf p = g.childrenOf p := by
  rw [BoundedWorkGraph.childrenOf, BoundedWorkGraph.childrenOf, h.children]

/-- Every node has a counterpart in the same place. -/
theorem node (h : SameTree g g') {id : String} {n' : WorkNode} (hn' : g'.nodes[id]? = some n') :
    ∃ n : WorkNode, g.nodes[id]? = some n ∧ n'.nodeId = n.nodeId ∧
      n'.parentNodeId = n.parentNodeId ∧ n'.depth = n.depth := by
  have hmap := h.nodes id
  rw [hn', Option.map_some] at hmap
  obtain ⟨n, hn, hplace⟩ := Option.map_eq_some_iff.mp hmap.symm
  simp only [placement, Prod.mk.injEq] at hplace
  exact ⟨n, hn, hplace.1.symm, hplace.2.1.symm, hplace.2.2.symm⟩

theorem node' (h : SameTree g g') {id : String} {n : WorkNode} (hn : g.nodes[id]? = some n) :
    ∃ n' : WorkNode, g'.nodes[id]? = some n' ∧ n'.nodeId = n.nodeId ∧
      n'.parentNodeId = n.parentNodeId ∧ n'.depth = n.depth := by
  have hmap := h.nodes id
  rw [hn, Option.map_some] at hmap
  obtain ⟨n', hn', hplace⟩ := Option.map_eq_some_iff.mp hmap
  simp only [placement, Prod.mk.injEq] at hplace
  exact ⟨n', hn', hplace.1, hplace.2.1, hplace.2.2⟩

theorem tree (h : SameTree g g') (ht : Tree g) : Tree g' where
  key hn' := by
    obtain ⟨n, hn, hkey, -⟩ := h.node hn'
    exact hkey.trans (ht.key hn)
  root hn' hp := by
    obtain ⟨n, hn, -, hparent, hdepth⟩ := h.node hn'
    exact hdepth.trans (ht.root hn (hparent.symm.trans hp))
  parent hn' hp := by
    obtain ⟨n, hn, -, hparent, hdepth⟩ := h.node hn'
    obtain ⟨q, hq, hd⟩ := ht.parent hn (hparent.symm.trans hp)
    obtain ⟨q', hq', -, -, hdq⟩ := h.node' hq
    exact ⟨q', hq', by omega⟩
  depth_lt hn' := by
    obtain ⟨n, hn, -, -, hdepth⟩ := h.node hn'
    rw [hdepth, h.size]
    exact ht.depth_lt hn
  child_mem hc := by
    rw [h.childrenOf] at hc
    obtain ⟨n, hn, hp⟩ := ht.child_mem hc
    obtain ⟨n', hn', -, hparent, -⟩ := h.node' hn
    exact ⟨n', hn', hparent.trans hp⟩
  mem_child hn' hp := by
    obtain ⟨n, hn, -, hparent, -⟩ := h.node hn'
    rw [h.childrenOf]
    exact ht.mem_child hn (hparent.symm.trans hp)
  nodup p := by
    rw [h.childrenOf]
    exact ht.nodup p
  chain hn' hp := by
    obtain ⟨n, hn, -, hparent, -⟩ := h.node hn'
    exact h.chains _ (ht.chain hn (hparent.symm.trans hp))

theorem lineage (h : SameTree g g') {id : String} {l : List String} (hl : Lineage g id l) :
    Lineage g' id l := by
  induction hl with
  | root hn hp =>
    obtain ⟨n', hn', -, hparent, -⟩ := h.node' hn
    exact .root hn' (hparent.trans hp)
  | child hn hp _ ih =>
    obtain ⟨n', hn', -, hparent, -⟩ := h.node' hn
    exact .child hn' (hparent.trans hp) ih

theorem of_eq (hnodes : g'.nodes = g.nodes) (hchildren : g'.children = g.children)
    (hchains : g'.chainBudgets = g.chainBudgets) : SameTree g g' :=
  ⟨fun _ => by rw [hnodes], by rw [hnodes], hchildren, fun _ hid => by rwa [hchains]⟩

/-- Rewriting a node in its place keeps the tree. -/
theorem of_insert {id : String} {n n' : WorkNode} (hn : g.nodes[id]? = some n)
    (hplace : placement n' = placement n) (hnodes : g'.nodes = g.nodes.insert id n')
    (hchildren : g'.children = g.children) (hchains : ∀ id ∈ g.chainBudgets, id ∈ g'.chainBudgets) :
    SameTree g g' where
  nodes x := by
    rw [hnodes, OrdMap.get_insert]
    split_ifs with hx
    · subst hx
      rw [hn, Option.map_some, Option.map_some, hplace]
    · rfl
  size := by
    rw [hnodes]
    exact OrdMap.size_insert_of_mem ((OrdMap.mem_iff _ _).mpr ⟨n, hn⟩)
  children := hchildren
  chains := hchains

end SameTree

end LeanCtx.BoundedWorkGraph
