import LeanCtx.WorkGraphBudget

/-!
# What the validator of a work graph checks

`validateInvariants` is a sequence of loops over the maps of a graph. `Validated`
states what it means for it to succeed, entry by entry, and `NodeValid` what one
node has to satisfy. A graph that passes has the tree property, so on it no
operation panics and an operation that returns an error has changed nothing.
-/

namespace LeanCtx.BoundedWorkGraph

variable {g g' : BoundedWorkGraph} {blake3 : String → String}

theorem forM_entries_eq_ok {ν : Type} {t : OrdMap String ν}
    {f : String × ν → Except WorkGraphError Unit} :
    t.toList.forM f = .ok () ↔ ∀ (k : String) (v : ν), t[k]? = some v → f (k, v) = .ok () := by
  simp only [forM_except_eq_ok, Prod.forall, Std.ExtTreeMap.mem_toList_iff_getElem?_eq_some]

theorem forM_values_eq_ok {ν : Type} {t : OrdMap String ν} {f : ν → Except WorkGraphError Unit} :
    (t.toList.map (·.2)).forM f = .ok () ↔
      ∀ (k : String) (v : ν), t[k]? = some v → f v = .ok () := by
  simp only [forM_except_eq_ok, List.mem_map, Prod.exists, exists_eq_right,
    Std.ExtTreeMap.mem_toList_iff_getElem?_eq_some]
  constructor
  · intro h k v hv
    exact h v ⟨k, hv⟩
  · rintro h v ⟨k, hv⟩
    exact h k v hv

/-- The checks of the validator, one field for each of its loops. -/
structure Validated (blake3 : String → String) (g : BoundedWorkGraph) : Prop where
  reaped : ∀ id fence : String, g.reapedExecutions[id]? = some fence →
    validateReaped g (id, fence) = .ok ()
  graphId : validateOptionalRef "graph_id" g.graphId = .ok ()
  limits : validateLimits g = .ok ()
  nodes : ∀ (id : String) (node : WorkNode), g.nodes[id]? = some node →
    validateNode blake3 g (id, node) = .ok ()
  children : ∀ (p : String) (l : List String), g.children[p]? = some l →
    validateChildren g (p, l) = .ok ()
  pending : ∀ (c : String) (b : WorkNodeBudget), g.pendingChildBudgets[c]? = some b →
    validatePending g (c, b) = .ok ()
  receipts : ∀ (r : String) (x : ChildExecutionReceipt), g.receipts[r]? = some x →
    validateStoredReceipt g x = .ok ()
  failedSpend : ∀ (id : String) (x : MeasuredExecutionSpend), g.failedSpend[id]? = some x →
    validateFailedSpend blake3 g (id, x) = .ok ()
  acceptedPath : validateAcceptedPath g = .ok ()
  chains : ∀ (id : String) (chain : ChainBudget), g.chainBudgets[id]? = some chain →
    validateChain g (id, chain) = .ok ()

theorem except_seq_eq_ok {ε : Type} {x : Except ε Unit} {y : Except ε Unit} :
    (x >>= fun _ => y) = .ok () ↔ x = .ok () ∧ y = .ok () := by
  rw [except_bind_eq_ok]
  exact ⟨fun ⟨_, hx, hy⟩ => ⟨hx, hy⟩, fun ⟨hx, hy⟩ => ⟨(), hx, hy⟩⟩

theorem validateInvariants_iff : validateInvariants blake3 g = .ok () ↔ Validated blake3 g := by
  unfold validateInvariants
  simp only [except_seq_eq_ok, forM_entries_eq_ok, forM_values_eq_ok]
  constructor
  · rintro ⟨h1, h2, h3, h4, h5, h6, h7, h8, h9, h10⟩
    exact ⟨h1, h2, h3, h4, h5, h6, h7, h8, h9, h10⟩
  · rintro ⟨h1, h2, h3, h4, h5, h6, h7, h8, h9, h10⟩
    exact ⟨h1, h2, h3, h4, h5, h6, h7, h8, h9, h10⟩

/-- The checks of one node. -/
structure NodeValid (blake3 : String → String) (g : BoundedWorkGraph) (id : String)
    (node : WorkNode) : Prop where
  validId : validateIdentifier id "node_id" = .ok ()
  validAgent : validateIdentifier node.agentId "agent_id" = .ok ()
  validCapsule : validateIdentifier node.capsuleRef "capsule_ref" = .ok ()
  validBudget : validateBudget node.budget = .ok ()
  validTask : validateOptionalRef "task_ref" node.taskRef = .ok ()
  validPolicy : validateOptionalRef "policy_ref" node.policyRef = .ok ()
  validExpected : validateOptionalRef "expected_outcome_ref" node.expectedOutcomeRef = .ok ()
  validParentTask : ∀ t, node.parentTaskRef = some t →
    validateIdentifier t "parent_task_ref" = .ok ()
  context : validateContext g node = .ok ()
  pathCount : node.pathClaims.length ≤ maxPathClaims
  paths : validatePathClaims node.pathClaims [] = .ok ()
  key : node.nodeId = id
  fence : validateFence blake3 g node = .ok ()
  delivery : validateDeliveryAttempt node = .ok ()
  placed : validatePlacement g id node = .ok ()

theorem validateNode_iff {id : String} {node : WorkNode} :
    validateNode blake3 g (id, node) = .ok () ↔ NodeValid blake3 g id node := by
  have hparent : validateParentTaskRef node.parentTaskRef = .ok () ↔
      ∀ t, node.parentTaskRef = some t → validateIdentifier t "parent_task_ref" = .ok () := by
    cases node.parentTaskRef <;> simp [validateParentTaskRef]
  unfold validateNode
  simp only [except_seq_eq_ok]
  constructor
  · rintro ⟨h1, h2, h3, h4, h5, h6, h7, h8, h9, h10, h11⟩
    split_ifs at h11 with hlen hkey
    · obtain ⟨-, h12⟩ := except_seq_eq_ok.mp h11
      cases h12
    · simp only [except_seq_eq_ok] at h11
      obtain ⟨hpaths, hfence, hdelivery, hplaced⟩ := h11
      exact ⟨h1, h3, h4, h5, h6, h7, h8, hparent.mp h9, h10, by omega, hpaths,
        (not_not.mp hkey).symm, hfence, hdelivery, hplaced⟩
  · rintro ⟨h1, h3, h4, h5, h6, h7, h8, h9, h10, hlen, hpaths, hkey, hfence, hdelivery, hplaced⟩
    refine ⟨h1, hkey ▸ h1, h3, h4, h5, h6, h7, h8, hparent.mpr h9, h10, ?_⟩
    rw [if_neg (by omega), except_seq_eq_ok, if_neg (by simp [hkey])]
    simp only [except_seq_eq_ok]
    exact ⟨hpaths, hfence, hdelivery, hplaced⟩

/-- What the lineage walk returns when it succeeds. -/
theorem checkedLineageLoop_eq_ok (fuel : ℕ) {acc l : List String} {id : String}
    (h : checkedLineageLoop g fuel acc id = .ok l) :
    ∃ l₀, l = l₀ ++ acc ∧ Lineage g id l₀ ∧ l₀.Nodup ∧ ∀ x ∈ l₀, x ∉ acc := by
  induction fuel generalizing acc id with
  | zero => cases h
  | succ fuel ih =>
    rw [checkedLineageLoop] at h
    split_ifs at h with hseen
    cases hn : g.nodes[id]? with
    | none => simp [hn] at h
    | some node =>
      simp only [hn] at h
      cases hp : node.parentNodeId with
      | none =>
        simp only [hp] at h
        obtain rfl := Except.ok.inj h
        exact ⟨[id], rfl, .root hn hp, by simp, by simpa using hseen⟩
      | some p =>
        simp only [hp] at h
        obtain ⟨l₀, rfl, hl₀, hnodup, hnew⟩ := ih h
        have hid : id ∉ l₀ := fun hmem => hnew id hmem (by simp)
        refine ⟨l₀ ++ [id], by simp, .child hn hp hl₀, ?_, ?_⟩
        · rw [List.nodup_append]
          refine ⟨hnodup, by simp, ?_⟩
          rintro x hx y hy rfl
          obtain rfl := List.mem_singleton.mp hy
          exact hid hx
        · intro x hx hacc
          rcases List.mem_append.mp hx with hx | hx
          · exact hnew x hx (List.mem_cons_of_mem _ hacc)
          · obtain rfl := List.mem_singleton.mp hx
            exact hseen hacc

theorem validatePlacement_iff {id : String} {node : WorkNode} :
    validatePlacement g id node = .ok () ↔ ∃ l, g.checkedLineage id = .ok l ∧
      l.length = node.depth + 1 ∧ node.depth ≤ g.maxDepth ∧
      (∀ p, node.parentNodeId = some p → ∃ l, g.children[p]? = some l ∧ id ∈ l) ∧
      (node.parentNodeId = none → id ∈ g.chainBudgets) := by
  unfold validatePlacement
  rw [except_bind_eq_ok]
  refine exists_congr fun l => and_congr_right fun _ => ?_
  by_cases hdepth : node.depth + 1 ≠ l.length ∨ node.depth > g.maxDepth
  · rw [if_pos hdepth]
    simp only [reduceCtorEq, false_iff]
    rintro ⟨h1, h2, -⟩
    rcases hdepth with h | h <;> omega
  · rw [if_neg hdepth]
    obtain ⟨h1, h2⟩ := not_or.mp hdepth
    have hlen : l.length = node.depth + 1 := by omega
    have hle : node.depth ≤ g.maxDepth := by omega
    cases hp : node.parentNodeId with
    | none => simp [hlen, hle]
    | some p => simp [hlen, hle, Option.any_eq_true]

theorem validateChildren_iff {p : String} {l : List String} :
    validateChildren g (p, l) = .ok () ↔ ∃ parent, g.nodes[p]? = some parent ∧
      l.length ≤ g.maxFanOut ∧ l.Nodup ∧
      (∀ c ∈ l, ∃ child, g.nodes[c]? = some child ∧ child.parentNodeId = some p) ∧
      ∃ r, g.reservedChildBudget p none = .ok r ∧ r.1 ≤ parent.budget.tokensRemaining ∧
        r.2 ≤ parent.budget.costRemaining := by
  cases hp : g.nodes[p]? with
  | none => simp [validateChildren, hp]
  | some parent =>
    simp only [validateChildren, hp]
    by_cases hl : l.length > g.maxFanOut ∨ ¬ l.Nodup
    · rw [if_pos hl]
      simp only [reduceCtorEq, Option.some.injEq, exists_eq_left', false_iff]
      rintro ⟨h1, h2, -⟩
      rcases hl with h | h
      · omega
      · exact h h2
    · obtain ⟨h1, h2⟩ := not_or.mp hl
      have hlen : l.length ≤ g.maxFanOut := by omega
      have hnodup := not_not.mp h2
      have hchild (c : String) : (if (g.nodes[c]?).bind (·.parentNodeId) = some p
          then Except.ok () else Except.error (WorkGraphError.invalidGraph "dangling child")) =
            .ok () ↔ ∃ child, g.nodes[c]? = some child ∧ child.parentNodeId = some p := by
        rw [← Option.bind_eq_some_iff]
        split_ifs with h <;> simp [h]
      rw [if_neg hl, except_seq_eq_ok]
      simp only [Option.some.injEq, exists_eq_left', hlen, hnodup, true_and, forM_except_eq_ok,
        hchild]
      refine and_congr_right fun _ => ?_
      rw [except_bind_eq_ok]
      refine exists_congr fun r => and_congr_right fun _ => ?_
      split_ifs with hover
      · simp only [false_iff, not_and]
        intro h3 h4
        rcases hover with h | h
        · exact UInt64.not_lt.mpr h3 h
        · exact UInt64.not_lt.mpr h4 h
      · obtain ⟨h3, h4⟩ := not_or.mp hover
        simpa using ⟨UInt64.not_lt.mp h3, UInt64.not_lt.mp h4⟩

/-! ## A validated graph is a tree -/

theorem length_le_size_of_nodup {ν : Type} {t : OrdMap String ν} {l : List String}
    (hnodup : l.Nodup) (hmem : ∀ x ∈ l, x ∈ t) : l.length ≤ t.size := by
  rw [← Std.ExtTreeMap.length_keys]
  exact (hnodup.subperm fun x hx => Std.ExtTreeMap.mem_keys.mpr (hmem x hx)).length_le

/-- A node that passed lies at the end of a lineage of its depth. -/
theorem Validated.lineage (h : Validated blake3 g) {id : String} {node : WorkNode}
    (hn : g.nodes[id]? = some node) :
    ∃ l, Lineage g id l ∧ l.Nodup ∧ l.length = node.depth + 1 := by
  obtain ⟨l, hl, hlen, -⟩ := validatePlacement_iff.mp (validateNode_iff.mp (h.nodes id node hn)).placed
  obtain ⟨l₀, rfl, hl₀, hnodup, -⟩ := checkedLineageLoop_eq_ok _ hl
  rw [List.append_nil] at hlen
  exact ⟨l₀, hl₀, hnodup, hlen⟩

theorem childrenOf_mem {p c : String} (h : c ∈ g.childrenOf p) :
    ∃ l, g.children[p]? = some l ∧ c ∈ l := by
  unfold childrenOf at h
  cases hp : g.children[p]? with
  | none => simp [hp] at h
  | some l => exact ⟨l, rfl, by simpa [hp] using h⟩

theorem Validated.tree (h : Validated blake3 g) : Tree g where
  key hn := (validateNode_iff.mp (h.nodes _ _ hn)).key
  root hn hp := by
    obtain ⟨l, hl, -, hlen⟩ := h.lineage hn
    rw [hl.unique (.root hn hp)] at hlen
    simpa using hlen.symm
  parent := by
    intro id p node hn hp
    obtain ⟨l, hl, -, hlen⟩ := h.lineage hn
    cases hl with
    | root hn' hp' =>
      obtain rfl := Option.some.inj (hn.symm.trans hn')
      rw [hp] at hp'
      cases hp'
    | child hn' hp' hl' =>
      obtain rfl := Option.some.inj (hn.symm.trans hn')
      obtain rfl := Option.some.inj (hp.symm.trans hp')
      obtain ⟨q, hq⟩ := (OrdMap.mem_iff _ _).mp (hl'.mem_nodes p hl'.self_mem)
      obtain ⟨lq, hlq, -, hlenq⟩ := h.lineage hq
      rw [hlq.unique hl'] at hlenq
      rw [List.length_append, List.length_singleton] at hlen
      exact ⟨q, hq, by omega⟩
  depth_lt hn := by
    obtain ⟨l, hl, hnodup, hlen⟩ := h.lineage hn
    have := length_le_size_of_nodup hnodup hl.mem_nodes
    omega
  child_mem hc := by
    obtain ⟨l, hl, hmem⟩ := childrenOf_mem hc
    obtain ⟨-, -, -, -, hchild, -⟩ := validateChildren_iff.mp (h.children _ _ hl)
    exact hchild _ hmem
  mem_child hn hp := by
    obtain ⟨-, -, -, -, hchild, -⟩ :=
      validatePlacement_iff.mp (validateNode_iff.mp (h.nodes _ _ hn)).placed
    obtain ⟨l, hl, hmem⟩ := hchild _ hp
    rw [childrenOf, hl]
    exact hmem
  nodup p := by
    unfold childrenOf
    cases hl : g.children[p]? with
    | none => simp
    | some l =>
      obtain ⟨-, -, -, hnodup, -⟩ := validateChildren_iff.mp (h.children _ _ hl)
      exact hnodup
  chain hn hp := by
    obtain ⟨-, -, -, -, -, hchain⟩ :=
      validatePlacement_iff.mp (validateNode_iff.mp (h.nodes _ _ hn)).placed
    exact hchain hp

/-- Operations are atomic on error: on a graph that passes its validator, a call that
fails returns an error, never a panic, and leaves the graph exactly as it was. -/
theorem failed_call_leaves_graph (blake3 : String → String) {g g' : BoundedWorkGraph}
    (hvalid : validateInvariants blake3 g = .ok ()) (op : GraphOp) {fault : Fault}
    (hfail : op.run blake3 g = .error fault g') : (∃ e, fault = .err e) ∧ g' = g := by
  have houtcome := (run_writes blake3 (validateInvariants_iff.mp hvalid).tree op).of_error hfail
  cases fault with
  | err e => exact ⟨⟨e, rfl⟩, houtcome⟩
  | panic message => exact houtcome.elim

/-- A receipt for more tokens than its child was delegated. -/
def oversizedReceipt : GraphOp :=
  .recordChildReceipt ⟨"receipt:1", "child", "outcome:1", .accepted, 50, 10, none, [], .measured⟩

def failed {α : Type} : EStateM.Result Fault BoundedWorkGraph α → Bool
  | .ok _ _ => false
  | .error _ _ => true

theorem failed_call_leaves_graph_receipt :
    ∃ e, oversizedReceipt.run id (afterCalls id delegatedCalls (new 2 2)) =
      .error (.err e) (afterCalls id delegatedCalls (new 2 2)) := by
  have hvalid : validateInvariants id (afterCalls id delegatedCalls (new 2 2)) = .ok () := by
    decide +kernel
  have hfailed : failed (oversizedReceipt.run id (afterCalls id delegatedCalls (new 2 2))) = true := by
    decide +kernel
  cases hrun : oversizedReceipt.run id (afterCalls id delegatedCalls (new 2 2)) with
  | ok a g' =>
    rw [hrun] at hfailed
    cases hfailed
  | error fault g' =>
    obtain ⟨⟨e, rfl⟩, hg⟩ := failed_call_leaves_graph id hvalid oversizedReceipt hrun
    exact ⟨e, by rw [hg]⟩

end LeanCtx.BoundedWorkGraph
