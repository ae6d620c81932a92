import LeanCtx.WorkGraphSteps

/-!
# The operations read as changes

One theorem for each operation. Its proof follows the source line by line: an
early return hands back the graph unchanged, a passed check becomes a
hypothesis, and the last line is the write.
-/

namespace LeanCtx

open Relation

variable {g : BoundedWorkGraph} {α β : Type}

namespace BoundedWorkGraph

/-- A call returns a value and satisfies `P`, or returns an error and changes nothing. -/
def Outcome (g : BoundedWorkGraph) (P : α → BoundedWorkGraph → Prop) :
    Except Fault α → BoundedWorkGraph → Prop
  | .ok a, g' => P a g'
  | .error (.err _), g' => g' = g
  | .error (.panic _), _ => False

theorem wp_check_bind {x : Except WorkGraphError α} {k : α → GraphM β}
    {P : β → BoundedWorkGraph → Prop} (h : ∀ a, x = .ok a → wp (k a) (Outcome g P) g) :
    wp (check x >>= k) (Outcome g P) g :=
  wp_ofExcept_bind (fun _ => rfl) h

theorem wp_guard_bind {c : Prop} [Decidable c] {e : WorkGraphError} {k : Unit → GraphM β}
    {P : β → BoundedWorkGraph → Prop} (h : ¬ c → wp (k ()) (Outcome g P) g) :
    wp (rejectIf c (.err e) >>= k) (Outcome g P) g :=
  wp_rejectIf_bind rfl h

theorem wp_found_bind {x : Option α} {e : WorkGraphError} {k : α → GraphM β}
    {P : β → BoundedWorkGraph → Prop} (h : ∀ a, x = some a → wp (k a) (Outcome g P) g) :
    wp (ofOption (.err e) x >>= k) (Outcome g P) g :=
  wp_ofOption_bind rfl h

theorem wp_expect_bind {x : Option α} {message : String} {k : α → GraphM β}
    {Q : Except Fault β → BoundedWorkGraph → Prop} {a : α} (hx : x = some a)
    (h : wp (k a) Q g) : wp (ofOption (.panic message) x >>= k) Q g := by
  subst hx
  exact h

theorem addRoot_outcome (nodeId agentId capsuleRef : String) (budget : WorkNodeBudget) :
    wp (addRoot nodeId agentId capsuleRef budget) (Outcome g fun _ g' =>
      RootAdmitted g nodeId agentId capsuleRef budget ∧
        g' = g.insertRoot (freshNode nodeId agentId none capsuleRef .active budget 0)) g := by
  refine wp_get_bind ?_
  refine wp_guard_bind fun hroom => ?_
  refine wp_check_bind fun _ hnode => ?_
  refine wp_check_bind fun _ hagent => ?_
  refine wp_check_bind fun _ hcapsule => ?_
  refine wp_check_bind fun _ hbudget => ?_
  refine wp_guard_bind fun hslot => ?_
  refine wp_guard_bind fun hfresh => ?_
  exact ⟨⟨by omega, hnode, hagent, hcapsule, hbudget, by omega, hfresh⟩, rfl⟩

theorem not_lt_saturatingSub_iff {x a b c : UInt64} :
    ¬ x > saturatingSub (saturatingSub a b) c ↔ x.toNat ≤ headroom a b c := by
  rw [gt_iff_lt, UInt64.lt_iff_toNat_lt, toNat_saturatingSub, toNat_saturatingSub, not_lt]
  rfl

/-- Adding a node that was not there leaves every lineage as it was. -/
theorem Lineage.insert {g' : BoundedWorkGraph} {nodeId id : String} {node : WorkNode}
    {l : List String} (hnodes : g'.nodes = g.nodes.insert nodeId node) (hfresh : nodeId ∉ g.nodes)
    (h : Lineage g id l) : Lineage g' id l := by
  have hold {x : String} {n : WorkNode} (hx : g.nodes[x]? = some n) : g'.nodes[x]? = some n := by
    have hne : nodeId ≠ x := by
      rintro rfl
      exact hfresh ((OrdMap.mem_iff _ _).mpr ⟨n, hx⟩)
    rw [hnodes, OrdMap.get_insert, if_neg hne, hx]
  induction h with
  | root hn hp => exact .root (hold hn) hp
  | child hn hp _ ih => exact .child (hold hn) hp ih

theorem chainIdForNode_linkChild (ht : Tree g) {parentId : String} {parent node : WorkNode}
    (hparent : g.nodes[parentId]? = some parent) (hfresh : node.nodeId ∉ g.nodes)
    (hlink : node.parentNodeId = some parentId) :
    (g.linkChild parentId node).chainIdForNode node.nodeId = g.chainIdForNode parentId := by
  obtain ⟨l, hl, hlen, -, -, hchain⟩ := ht.walks hparent
  have hnodes : (g.linkChild parentId node).nodes = g.nodes.insert node.nodeId node := rfl
  have hlineage : Lineage (g.linkChild parentId node) node.nodeId (l ++ [node.nodeId]) :=
    .child (by simp [hnodes]) hlink (hl.insert hnodes hfresh)
  have hsize : (g.linkChild parentId node).nodes.size = g.nodes.size + 1 :=
    OrdMap.size_insert_of_not_mem hfresh
  have hdepth := ht.depth_lt hparent
  obtain ⟨r, rest, -, rfl, -, -⟩ := hl.head
  rw [chainIdForNode, chainIdLoop_eq hlineage _ (by simp at hlen ⊢; omega), hchain]
  rfl

theorem insertChild_outcome (ht : Tree g) (parentId childId agentId capsuleRef : String)
    (budget : WorkNodeBudget) (status : NodeStatus) (hstatus : status = .active ∨ status = .pending) :
    wp (insertChild parentId childId agentId capsuleRef budget status) (Outcome g fun _ g' =>
      ∃ parent reserved chainId,
        ChildAdmitted g parentId childId agentId capsuleRef budget status parent reserved chainId ∧
        g' = g.childInserted parentId (freshNode childId agentId (some parentId) capsuleRef status
          budget (parent.depth + 1)) chainId) g := by
  refine wp_get_bind ?_
  refine wp_guard_bind fun hroom => ?_
  refine wp_check_bind fun _ _ => ?_
  refine wp_check_bind fun _ hchild => ?_
  refine wp_check_bind fun _ hagent => ?_
  refine wp_check_bind fun _ hcapsule => ?_
  refine wp_check_bind fun _ hbudget => ?_
  refine wp_guard_bind fun hfresh => ?_
  refine wp_guard_bind fun hpending => ?_
  refine wp_check_bind fun reserved hreserved => ?_
  refine wp_found_bind fun parent hparent => ?_
  refine wp_guard_bind fun hactive => ?_
  refine wp_guard_bind fun hdepth => ?_
  refine wp_guard_bind fun htokens => ?_
  refine wp_guard_bind fun hcost => ?_
  refine wp_guard_bind fun hfan => ?_
  refine wp_guard_bind fun hslot => ?_
  refine wp_set_bind ?_
  refine wp_get_bind ?_
  obtain ⟨chainId, _, hchain, -⟩ := ht.chainId hparent
  refine wp_expect_bind (a := chainId) ?_ ?_
  · rw [← hchain]
    exact chainIdForNode_linkChild ht hparent hfresh rfl
  refine ⟨parent, reserved, chainId, ⟨by omega, hchild, hagent, hcapsule, hbudget, hfresh,
    by simpa using hpending, hreserved, hparent, by simpa using hactive, by omega,
    not_lt_saturatingSub_iff.mp htokens, not_lt_saturatingSub_iff.mp hcost, by omega, ?_,
    hchain, hstatus⟩, rfl⟩
  intro h
  by_contra hfull
  exact hslot ⟨h, by omega⟩

/-- What `allocate_child_budget` grants out of the part of a parent's budget that is neither
spent nor reserved. -/
def reservationBudget (parent : WorkNode) (reserved : Totals) (fraction : UInt64 → UInt64) :
    WorkNodeBudget :=
  let tokensLeft := saturatingSub parent.budget.tokensRemaining reserved.1
  let costLeft := saturatingSub parent.budget.costRemaining reserved.2
  ⟨min (max (fraction parent.budget.tokensRemaining) 0) tokensLeft, 0,
    if costLeft = 0 then 0 else min (max (fraction costLeft) 1) costLeft, 0⟩

theorem allocateChildBudget_outcome (ht : Tree g) (parentId childId : String)
    (fraction : UInt64 → UInt64) :
    wp (allocateChildBudget parentId childId fraction) (Outcome g fun budget g' =>
      ∃ parent reserved chainId, budget = reservationBudget parent reserved fraction ∧
        ReservationAdmitted g parentId childId budget parent reserved chainId ∧
        g' = g.reservationAdded parentId childId budget chainId (parent.depth + 1)) g := by
  refine wp_get_bind ?_
  refine wp_check_bind fun _ _ => ?_
  refine wp_check_bind fun _ hchild => ?_
  refine wp_guard_bind fun hfresh => ?_
  refine wp_found_bind fun parent hparent => ?_
  refine wp_guard_bind fun hactive => ?_
  refine wp_guard_bind fun hdepth => ?_
  refine wp_check_bind fun reserved hreserved => ?_
  refine wp_guard_bind fun hzero => ?_
  refine wp_check_bind fun _ _ => ?_
  refine wp_guard_bind fun htokens => ?_
  obtain ⟨chainId, _, hchain, -⟩ := ht.chainId hparent
  refine wp_expect_bind hchain ?_
  obtain ⟨hnode, hpending⟩ := not_or.mp hfresh
  refine ⟨parent, reserved, chainId, rfl, ⟨hchild, hnode, hpending, hparent, by simpa using hactive,
    by omega, hreserved, not_lt_saturatingSub_iff.mp htokens, ?_, ⟨rfl, rfl⟩, hchain⟩, rfl⟩
  rw [← not_lt_saturatingSub_iff]
  dsimp only
  split_ifs with hcost
  · simp [UInt64.lt_iff_toNat_lt]
  · exact UInt64.not_lt.mpr (UInt64.le_iff_toNat_le.mpr (toNat_min_le_right _ _))

/-! ## Claims -/

section Hashed

variable (blake3 : String → String)

theorem claimAndActivateUntil_outcome (nodeId : String) (lease : Option ℕ) :
    wp (claimAndActivateUntil blake3 nodeId lease) (Outcome g fun claimed g' =>
      ∃ node attempt, Claimable g nodeId node attempt ∧
        claimed = claimedNode blake3 g.graphId node attempt lease ∧
        g' = g.setNode nodeId claimed) g := by
  refine wp_get_bind ?_
  refine wp_check_bind fun _ _ => ?_
  refine wp_guard_bind fun hslot => ?_
  refine wp_found_bind fun node hnode => ?_
  refine wp_found_bind fun parentId hparent => ?_
  refine wp_guard_bind fun _ => ?_
  refine wp_guard_bind fun hpending => ?_
  refine wp_found_bind fun attempt hattempt => ?_
  exact ⟨node, attempt, ⟨by omega, hnode, by simp [hparent], by simpa using hpending, hattempt⟩,
    rfl, rfl⟩

theorem capsuleFree_of_not_any {nodeId : String} {node : WorkNode}
    (h : ¬ (g.nodes.toList.any fun p =>
      p.1 != nodeId && p.2.executionStarted && p.2.capsuleRef == node.capsuleRef) = true) :
    CapsuleFree g nodeId node := by
  intro other n hn hne hstarted hcapsule
  exact h (OrdMap.any_toList_iff.mpr ⟨other, n, hn, by simp [hne, hstarted, hcapsule]⟩)

/-- A claim that starts an execution is an optional claim followed by the start. -/
theorem claimOrResumeActiveUntil_outcome (nodeId : String) (lease : ℕ) :
    wp (claimOrResumeActiveUntil blake3 nodeId lease) (Outcome g fun started g' =>
      ∃ mid before node, g.nodes[nodeId]? = some before ∧ before.status ≠ .stopped ∧
        node.pathClaims = before.pathClaims ∧ (mid = g ∨ Update blake3 g mid) ∧
        Startable mid nodeId node ∧ started = { node with leaseExpiresEpochMs := some lease, executionStarted := true } ∧
        g' = mid.setNode nodeId started) g := by
  refine wp_get_bind ?_
  refine wp_found_bind fun node hnode => ?_
  refine wp_guard_bind fun hcapsule => ?_
  have hfree := capsuleFree_of_not_any hcapsule
  cases hstatus : node.status with
  | pending =>
    refine wp_bind_of (claimAndActivateUntil_outcome blake3 nodeId (some lease)) ?_ ?_
    · rintro (e | message) g' h
      · exact h
      · exact h.elim
    · rintro claimed g' ⟨node', attempt, hclaim, rfl, rfl⟩
      obtain rfl : node' = node := Option.some.inj (hclaim.getNode.symm.trans hnode)
      refine ⟨_, node', claimedNode blake3 g.graphId node' attempt (some lease), hnode,
        by simp [hstatus], rfl, .inr (.claim hclaim), ⟨by simp [setNode], hclaim.child, rfl, by simp [claimedNode], ?_⟩, rfl, rfl⟩
      intro other n hn hne hstarted
      rw [setNode, OrdMap.get_insert, if_neg hne.symm] at hn
      exact hfree other n hn hne hstarted
  | active =>
    refine wp_guard_bind fun h => ?_
    simp only [not_or, Option.isNone_iff_eq_none] at h
    exact ⟨g, node, node, hnode, by simp [hstatus], rfl, .inl rfl, ⟨hnode, h.1, hstatus, h.2.1, hfree⟩,
      by simp [hstatus], rfl⟩
  | completed => exact rfl
  | stopped => exact rfl
  | failed => exact rfl

end Hashed

/-! ## Stops -/

inductive StopStep (g : BoundedWorkGraph) : BoundedWorkGraph → Prop
  | mk {nodeId : String} {node : WorkNode} {reason : StopReason}
      (h : g.nodes[nodeId]? = some node) (hs : node.status = .active ∨ node.status = .pending) :
      StopStep g (g.endNode nodeId (stoppedNode node reason))

abbrev StopRun := ReflTransGen StopStep

theorem placement_ended (node : WorkNode) : placement (ended node) = placement node := by
  unfold ended
  split_ifs <;> rfl

theorem StopStep.sameTree {g' : BoundedWorkGraph} (h : StopStep g g') : SameTree g g' := by
  obtain @⟨nodeId, node, reason, hn, -⟩ := h
  exact .of_insert hn (placement_ended (stoppedNode node reason)) rfl rfl fun _ hid => hid

theorem StopRun.sameTree {g' : BoundedWorkGraph} (h : StopRun g g') : SameTree g g' := by
  induction h with
  | refl => exact .refl g
  | tail _ hstep ih => exact ih.trans hstep.sameTree

theorem StopRun.updates (blake3 : String → String) {g' : BoundedWorkGraph} (h : StopRun g g') :
    Updates blake3 g g' := by
  refine ReflTransGen.mono ?_ _ _ h
  rintro a b ⟨hn, hs⟩
  exact .stop hn hs

theorem Updates.changes {blake3 : String → String} {g' : BoundedWorkGraph}
    (h : Updates blake3 g g') : Changes blake3 g g' :=
  ReflTransGen.mono (fun _ _ hu => .update hu) _ _ h

/-- The cascade returns: each level goes one link deeper, and depths stay below `nodes.size`. -/
theorem stopRecursive_returns (fuel : ℕ) (ht : Tree g) (nodeId : String) (reason : StopReason)
    (stopped : List String) (hpos : 0 < fuel)
    (hfuel : ∀ node, g.nodes[nodeId]? = some node → g.nodes.size + 1 ≤ fuel + node.depth) :
    wp (stopRecursive fuel nodeId reason stopped)
      (fun r g' => (∃ l, r = .ok l) ∧ StopRun g g') g := by
  induction fuel generalizing g nodeId reason stopped with
  | zero => omega
  | succ fuel ih =>
    have hchildren : ∀ (stopped : List String) (g₁ : BoundedWorkGraph), StopRun g g₁ →
        wp ((g₁.childrenOf nodeId).foldlM (fun stopped childId =>
          stopRecursive fuel childId .parentStopped stopped) stopped)
          (fun r g' => (∃ l, r = .ok l) ∧ StopRun g g') g₁ := by
      intro stopped g₁ hrun
      rw [hrun.sameTree.childrenOf]
      refine wp_foldlM (I := StopRun g) ?_ stopped hrun
      intro acc c hc s hs
      have hsame := StopRun.sameTree hs
      obtain ⟨child, hchild, hp⟩ := ht.child_mem hc
      obtain ⟨node, hnode, hdepth⟩ := ht.parent hchild hp
      have hroom := hfuel node hnode
      have hlt := ht.depth_lt hchild
      refine (ih (hsame.tree ht) c .parentStopped acc (by omega) ?_).imp ?_
      · intro child' hchild'
        obtain ⟨child₀, hchild₀, -, -, hd⟩ := hsame.node hchild'
        rw [hchild, Option.some.injEq] at hchild₀
        subst hchild₀
        rw [hsame.size, hd]
        omega
      · rintro r s' ⟨hr, hrun'⟩
        exact ⟨hr, hs.trans hrun'⟩
    refine wp_get_bind ?_
    cases hn : g.nodes[nodeId]? with
    | none => exact hchildren stopped g .refl
    | some node =>
      by_cases hs : node.status = .active ∨ node.status = .pending
      · simp only [hs, if_true]
        refine wp_set_bind (hchildren _ _ (.single ?_))
        rw [stopNode_eq]
        exact .mk hn hs
      · simp only [hs, if_false]
        exact hchildren stopped g .refl

theorem stopCascade_returns (ht : Tree g) (nodeId : String) (reason : StopReason) :
    wp (stopCascade nodeId reason) (fun r g' => (∃ l, r = .ok l) ∧ StopRun g g') g := by
  refine wp_get_bind ?_
  exact stopRecursive_returns _ ht nodeId reason [] (by omega) fun node _ => by omega

theorem stopCascade_bind (ht : Tree g) (nodeId : String) (reason : StopReason)
    {k : List String → GraphM β} {Q : Except Fault β → BoundedWorkGraph → Prop}
    (h : ∀ l g', StopRun g g' → wp (k l) Q g') : wp (stopCascade nodeId reason >>= k) Q g := by
  refine wp_bind_of (stopCascade_returns ht nodeId reason) ?_ ?_
  · rintro e g' ⟨⟨l, hl⟩, -⟩
    cases hl
  · rintro l g' ⟨-, hrun⟩
    exact h l g' hrun

theorem stop_outcome (ht : Tree g) (nodeId : String) (reason : StopReason) :
    wp (stop nodeId reason) (Outcome g fun _ g' => nodeId ∈ g.nodes ∧ StopRun g g') g := by
  refine wp_get_bind ?_
  refine wp_guard_bind fun hmem => ?_
  refine (stopCascade_returns ht nodeId reason).imp ?_
  rintro r g' ⟨⟨l, rfl⟩, hrun⟩
  exact ⟨not_not.mp hmem, hrun⟩

theorem stopUnlaunched_outcome (blake3 : String → String) (ht : Tree g) (nodeId : String)
    (reason : StopReason) :
    wp (stopUnlaunched nodeId reason) (Outcome g fun _ g' => Updates blake3 g g') g := by
  refine wp_bind_of (stop_outcome ht nodeId reason) ?_ ?_
  · rintro (e | message) g' h
    · exact h
    · exact h.elim
  · rintro l g' ⟨-, hrun⟩
    refine wp_modify_bind ?_
    change Updates blake3 g (g'.clearLease nodeId)
    unfold clearLease
    cases hn : g'.nodes[nodeId]? with
    | none => exact hrun.updates blake3
    | some node => exact (hrun.updates blake3).tail (.leaseCleared hn)

theorem recoverExpiredExecution_outcome (ht : Tree g) (nodeId : String) (now : ℕ) :
    wp (recoverExpiredExecution nodeId now) (Outcome g fun _ g' => StopRun g g') g := by
  refine wp_get_bind ?_
  refine wp_found_bind fun node hnode => ?_
  split_ifs with hexpired
  · refine (stop_outcome ht nodeId .leaseLost).imp ?_
    rintro (⟨e | message⟩ | l) g' h
    · exact h
    · exact h.elim
    · exact h.2
  · exact ReflTransGen.refl

theorem enforceStopConditions_outcome (ht : Tree g) :
    wp enforceStopConditions (Outcome g fun _ g' => StopRun g g') g := by
  refine wp_get_bind ?_
  refine (wp_foldlM (I := StopRun g) ?_ _ .refl).imp ?_
  · intro acc c _ s hs
    refine stopCascade_bind ((StopRun.sameTree hs).tree ht) c _ fun l g' hrun => ?_
    exact ⟨⟨_, rfl⟩, hs.trans hrun⟩
  · rintro r g' ⟨⟨l, rfl⟩, hrun⟩
    exact hrun

/-! ## Context, paths and delivery -/

theorem pairwise_lt_of_isChain_ne {l : List String} (hle : l.Pairwise (· ≤ ·))
    (hne : l.IsChain (· ≠ ·)) : l.Pairwise (· < ·) := by
  induction l with
  | nil => exact .nil
  | cons a l ih =>
    obtain ⟨ha, hl⟩ := List.pairwise_cons.mp hle
    have hlt := ih hl hne.tail
    refine List.pairwise_cons.mpr ⟨?_, hlt⟩
    intro b hb
    cases l with
    | nil => cases hb
    | cons c l =>
      have hac : a < c := lt_of_le_of_ne (ha c (by simp)) (List.isChain_cons_cons.mp hne).1
      rcases List.mem_cons.mp hb with rfl | hb
      · exact hac
      · exact hac.trans ((List.pairwise_cons.mp hlt).1 b hb)

/-- Sorting and dropping equal neighbours leaves no duplicate. -/
theorem nodup_destutter_insertionSort (l : List String) :
    ((l.insertionSort (· ≤ ·)).destutter (· ≠ ·)).Nodup := by
  have hsorted : ((l.insertionSort (· ≤ ·)).destutter (· ≠ ·)).Pairwise (· ≤ ·) :=
    (List.pairwise_insertionSort (· ≤ ·) l).sublist (List.destutter_sublist _ _)
  have hchain : ((l.insertionSort (· ≤ ·)).destutter (· ≠ ·)).IsChain (· ≠ ·) :=
    List.isChain_destutter _ _
  exact (pairwise_lt_of_isChain_ne hsorted hchain).imp fun h => h.ne

theorem length_destutter_insertionSort_le (l : List String) :
    ((l.insertionSort (· ≤ ·)).destutter (· ≠ ·)).length ≤ l.length := by
  simpa using (List.destutter_sublist (· ≠ ·) (l.insertionSort (· ≤ ·))).length_le

theorem setPathClaims_outcome (blake3 : String → String) (nodeId : String)
    (pathClaims : List String) :
    wp (setPathClaims nodeId pathClaims) (Outcome g fun _ g' => Update blake3 g g') g := by
  refine wp_guard_bind fun hlen => ?_
  refine wp_check_bind fun _ hvalid => ?_
  refine wp_get_bind ?_
  refine wp_found_bind fun node hnode => ?_
  refine wp_guard_bind fun hpending => ?_
  have hle := length_destutter_insertionSort_le pathClaims
  exact .paths hnode (by simpa using hpending) (by omega) (nodup_destutter_insertionSort _)
    (forM_except_eq_ok.mp hvalid)

theorem configureRootContext_outcome (nodeId taskRef policyRef expectedOutcomeRef : String) :
    wp (configureRootContext nodeId taskRef policyRef expectedOutcomeRef) (Outcome g fun _ g' =>
      validateIdentifier taskRef "task_ref" = .ok () ∧
      validateIdentifier policyRef "policy_ref" = .ok () ∧
      validateIdentifier expectedOutcomeRef "expected_outcome_ref" = .ok () ∧
      ∃ node, g.nodes[nodeId]? = some node ∧ node.parentNodeId = none ∧
        g' = g.setNode nodeId (rootContextNode node taskRef policyRef expectedOutcomeRef)) g := by
  refine wp_check_bind fun _ htask => ?_
  refine wp_check_bind fun _ hpolicy => ?_
  refine wp_check_bind fun _ hexpected => ?_
  refine wp_get_bind ?_
  refine wp_found_bind fun node hnode => ?_
  refine wp_guard_bind fun hroot => ?_
  exact ⟨htask, hpolicy, hexpected, node, hnode, by simpa using hroot, rfl⟩

theorem configureChildContext_outcome (blake3 : String → String)
    (nodeId taskRef expectedOutcomeRef : String) :
    wp (configureChildContext nodeId taskRef expectedOutcomeRef)
      (Outcome g fun _ g' => Update blake3 g g') g := by
  refine wp_check_bind fun _ htask => ?_
  refine wp_check_bind fun _ hexpected => ?_
  refine wp_get_bind ?_
  refine wp_found_bind fun parentId hparentId => ?_
  refine wp_found_bind fun parent hparent => ?_
  refine wp_guard_bind fun hset => ?_
  refine wp_found_bind fun node hnode => ?_
  refine wp_guard_bind fun hpending => ?_
  rw [hnode, Option.bind_some] at hparentId
  have hne : parent.taskRef ≠ "" := by
    rintro h
    exact hset (.inl (by simp [h]))
  exact .childContext hnode hparentId hparent (by simpa using hpending) htask hne hexpected

theorem beginDeliveryAttempt_outcome (blake3 : String → String) (nodeId fence : String)
    (attempt : ℕ) :
    wp (beginDeliveryAttempt nodeId fence attempt) (Outcome g fun _ g' => Update blake3 g g') g := by
  refine wp_get_bind ?_
  refine wp_found_bind fun node hnode => ?_
  refine wp_guard_bind fun h => ?_
  simp only [not_or, not_not] at h
  obtain ⟨hactive, hstarted, hfence, hrange, -⟩ := h
  exact .delivery ⟨hnode, hactive, by simpa using hstarted, by simp [hfence], hrange⟩

/-! ## Completion, receipts and spend -/

theorem complete_outcome (blake3 : String → String) (nodeId outcomeRef : String) :
    wp (complete nodeId outcomeRef) (Outcome g fun _ g' => Update blake3 g g') g := by
  refine wp_check_bind fun _ _ => ?_
  refine wp_get_bind ?_
  refine wp_found_bind fun node hnode => ?_
  refine wp_guard_bind fun hactive => ?_
  change Update blake3 g ((g.setNode nodeId (completedNode node outcomeRef)).endIncarnation nodeId)
  rw [setNode_endIncarnation]
  exact .complete hnode (by simpa using hactive)

theorem updateChain_eq {chainId : String} {chain : ChainBudget} {f : ChainBudget → ChainBudget}
    (h : g.chainBudgets[chainId]? = some chain) :
    g.updateChain chainId f = { g with chainBudgets := g.chainBudgets.insert chainId (f chain) } := by
  simp [updateChain, h]

theorem recordChildReceipt_outcome (blake3 : String → String) (ht : Tree g)
    (receipt : ChildExecutionReceipt) :
    wp (recordChildReceipt receipt) (Outcome g fun _ g' => Update blake3 g g') g := by
  refine wp_check_bind fun _ hvalid => ?_
  refine wp_get_bind ?_
  refine wp_guard_bind fun hfresh => ?_
  refine wp_found_bind fun node hnode => ?_
  refine wp_guard_bind fun hopen => ?_
  refine wp_guard_bind fun hfence => ?_
  refine wp_guard_bind fun hbounds => ?_
  refine wp_check_bind fun reserved hreserved => ?_
  refine wp_guard_bind fun hdelta => ?_
  obtain ⟨chainId, root, hchainId, hroot, hrootParent, hmem⟩ := ht.chainId hnode
  refine wp_expect_bind hchainId ?_
  refine wp_set_bind ?_
  rw [ensureChainBudget_of_mem hmem]
  refine wp_get_bind ?_
  obtain ⟨chain, hchain⟩ := (OrdMap.mem_iff _ _).mp hmem
  refine wp_expect_bind hchain ?_
  refine wp_found_bind fun chainConsumed hconsumed => ?_
  refine wp_found_bind fun chainCost hchainCost => ?_
  refine wp_guard_bind fun hwithin => ?_
  rw [checkedAdd_eq_some] at hconsumed hchainCost
  simp only [not_or, not_lt, UInt64.lt_iff_toNat_lt, gt_iff_lt] at hbounds
  obtain ⟨-, -, htokens, hcost⟩ := hbounds
  obtain ⟨htokenDelta, hcostDelta⟩ := not_or.mp hdelta
  obtain ⟨hfreshId, hfreshNode⟩ := not_or.mp hfresh
  obtain ⟨hchild, hactive⟩ := not_or.mp hopen
  have hsubTokens : (receipt.tokensConsumed - node.budget.tokensConsumed).toNat =
      receipt.tokensConsumed.toNat - node.budget.tokensConsumed.toNat :=
    UInt64.toNat_sub_of_le _ _ (UInt64.le_iff_toNat_le.mpr htokens)
  have hsubCost : (receipt.costMicrosConsumed - node.budget.costMicrosConsumed).toNat =
      receipt.costMicrosConsumed.toNat - node.budget.costMicrosConsumed.toNat :=
    UInt64.toNat_sub_of_le _ _ (UInt64.le_iff_toNat_le.mpr hcost)
  change Update blake3 g ((((g.setNode receipt.nodeId (receiptedNode node receipt)).endIncarnation
    receipt.nodeId).updateChain chainId (spentChain chainConsumed chainCost)).addReceipt receipt)
  rw [setNode_endIncarnation]
  have hspend : SpendAdmitted g receipt.nodeId node
      (receipt.tokensConsumed - node.budget.tokensConsumed).toNat
      (receipt.costMicrosConsumed - node.budget.costMicrosConsumed).toNat reserved chainId chain
      chainConsumed chainCost :=
    ⟨hnode, by simpa using hactive, hreserved, not_lt_saturatingSub_iff.mp htokenDelta,
      not_lt_saturatingSub_iff.mp hcostDelta, hchainId, hchain, hconsumed, hchainCost,
      fun h => hwithin (.inl h), fun h => hwithin (.inr h)⟩
  refine .receipt ⟨hvalid, hfreshId, ?_, by simpa using hchild, ?_, htokens, hcost⟩ hspend
    (by omega) (by omega)
  · intro id r hr heq
    exact hfreshNode (OrdMap.any_toList_iff.mpr ⟨id, r, hr, by simp [heq]⟩)
  · intro hsome
    by_contra hne
    exact hfence ⟨Option.isSome_iff_ne_none.mpr hsome, hne⟩

theorem markAcceptedPath_outcome (blake3 : String → String) (nodeIds : List String) :
    wp (markAcceptedPath nodeIds) (Outcome g fun _ g' => Update blake3 g g') g := by
  refine wp_get_bind ?_
  refine wp_check_bind fun accepted haccepted => ?_
  exact .accept haccepted

theorem consumeBudget_outcome (blake3 : String → String) (ht : Tree g) (nodeId : String)
    (tokens costMicros : UInt64) :
    wp (consumeBudget nodeId tokens costMicros) (Outcome g fun _ g' => Updates blake3 g g') g := by
  refine wp_get_bind ?_
  refine wp_found_bind fun node hnode => ?_
  refine wp_guard_bind fun hactive => ?_
  refine wp_found_bind fun nextTokens hnextTokens => ?_
  refine wp_found_bind fun nextCost hnextCost => ?_
  refine wp_guard_bind fun _ => ?_
  refine wp_check_bind fun reserved hreserved => ?_
  refine wp_guard_bind fun hdelta => ?_
  obtain ⟨chainId, root, hchainId, hroot, hrootParent, hmem⟩ := ht.chainId hnode
  refine wp_expect_bind hchainId ?_
  refine wp_found_bind fun chain hchain => ?_
  refine wp_found_bind fun nextChainTokens hchainTokens => ?_
  refine wp_found_bind fun nextChainCost hchainCost => ?_
  refine wp_guard_bind fun hwithin => ?_
  rw [checkedAdd_eq_some] at hnextTokens hnextCost hchainTokens hchainCost
  obtain ⟨htokenDelta, hcostDelta⟩ := not_or.mp hdelta
  have hspend : Update blake3 g
      (g.commitSpend nodeId node nextTokens nextCost chainId nextChainTokens nextChainCost) :=
    .spend ⟨hnode, by simpa using hactive, hreserved, not_lt_saturatingSub_iff.mp htokenDelta,
      not_lt_saturatingSub_iff.mp hcostDelta, hchainId, hchain, hchainTokens, hchainCost,
      fun h => hwithin (.inl h), fun h => hwithin (.inr h)⟩
      hnextTokens hnextCost
  have hcommit : g.commitSpend nodeId node nextTokens nextCost chainId nextChainTokens
      nextChainCost = { g.setNode nodeId (spentNode node nextTokens nextCost) with
        chainBudgets := g.chainBudgets.insert chainId
          (spentChain nextChainTokens nextChainCost chain) } := updateChain_eq hchain
  have hsame : SameTree g
      (g.commitSpend nodeId node nextTokens nextCost chainId nextChainTokens nextChainCost) := by
    rw [hcommit]
    have hplace : placement (spentNode node nextTokens nextCost) = placement node := rfl
    refine .of_insert hnode hplace rfl rfl ?_
    intro id hid
    exact Std.ExtTreeMap.mem_insert.mpr (.inr hid)
  refine wp_set_bind ?_
  split_ifs with hchainExhausted hexhausted
  · refine stopCascade_bind (hsame.tree ht) chainId _ fun l g' hrun => ?_
    exact ReflTransGen.head hspend (hrun.updates blake3)
  · refine wp_get_bind ?_
    have hspent : (g.commitSpend nodeId node nextTokens nextCost chainId nextChainTokens
        nextChainCost).nodes[nodeId]? = some (spentNode node nextTokens nextCost) := by
      rw [hcommit]
      simp [setNode]
    refine wp_expect_bind hspent ?_
    refine wp_set_bind ?_
    rw [stopNode_eq]
    exact ReflTransGen.head hspend (.single (.stop hspent (.inl (not_not.mp hactive))))
  · exact .single hspend

end BoundedWorkGraph

/-! ## All operations -/

/-- A call of one of the mutating operations, with its arguments. -/
inductive GraphOp
  | addRoot (nodeId agentId capsuleRef : String) (budget : WorkNodeBudget)
  | delegate (parentId childId agentId capsuleRef : String) (budget : WorkNodeBudget)
  | queueChild (parentId childId agentId capsuleRef : String) (budget : WorkNodeBudget)
  | allocateChildBudget (parentId childId : String) (fraction : UInt64 → UInt64)
  | claimAndActivateUntil (nodeId : String) (lease : Option ℕ)
  | claimOrResumeActiveUntil (nodeId : String) (lease : ℕ)
  | recoverExpiredExecution (nodeId : String) (now : ℕ)
  | setPathClaims (nodeId : String) (pathClaims : List String)
  | configureRootContext (nodeId taskRef policyRef expectedOutcomeRef : String)
  | configureChildContext (nodeId taskRef expectedOutcomeRef : String)
  | complete (nodeId outcomeRef : String)
  | recordChildReceipt (receipt : ChildExecutionReceipt)
  | markAcceptedPath (nodeIds : List String)
  | consumeBudget (nodeId : String) (tokens costMicros : UInt64)
  | beginDeliveryAttempt (nodeId fence : String) (attempt : ℕ)
  | stop (nodeId : String) (reason : StopReason)
  | stopUnlaunched (nodeId : String) (reason : StopReason)
  | enforceStopConditions

namespace GraphOp

variable (blake3 : String → String)

/-- The call, with its result thrown away. -/
def run : GraphOp → GraphM Unit
  | addRoot nodeId agentId capsuleRef budget =>
    Functor.discard (BoundedWorkGraph.addRoot nodeId agentId capsuleRef budget)
  | delegate parentId childId agentId capsuleRef budget =>
    Functor.discard (BoundedWorkGraph.delegate parentId childId agentId capsuleRef budget)
  | queueChild parentId childId agentId capsuleRef budget =>
    Functor.discard (BoundedWorkGraph.queueChild parentId childId agentId capsuleRef budget)
  | allocateChildBudget parentId childId fraction =>
    Functor.discard (BoundedWorkGraph.allocateChildBudget parentId childId fraction)
  | claimAndActivateUntil nodeId lease =>
    Functor.discard (BoundedWorkGraph.claimAndActivateUntil blake3 nodeId lease)
  | claimOrResumeActiveUntil nodeId lease =>
    Functor.discard (BoundedWorkGraph.claimOrResumeActiveUntil blake3 nodeId lease)
  | recoverExpiredExecution nodeId now =>
    Functor.discard (BoundedWorkGraph.recoverExpiredExecution nodeId now)
  | setPathClaims nodeId pathClaims => BoundedWorkGraph.setPathClaims nodeId pathClaims
  | configureRootContext nodeId taskRef policyRef expectedOutcomeRef =>
    BoundedWorkGraph.configureRootContext nodeId taskRef policyRef expectedOutcomeRef
  | configureChildContext nodeId taskRef expectedOutcomeRef =>
    BoundedWorkGraph.configureChildContext nodeId taskRef expectedOutcomeRef
  | complete nodeId outcomeRef => BoundedWorkGraph.complete nodeId outcomeRef
  | recordChildReceipt receipt => BoundedWorkGraph.recordChildReceipt receipt
  | markAcceptedPath nodeIds => BoundedWorkGraph.markAcceptedPath nodeIds
  | consumeBudget nodeId tokens costMicros =>
    Functor.discard (BoundedWorkGraph.consumeBudget nodeId tokens costMicros)
  | beginDeliveryAttempt nodeId fence attempt =>
    BoundedWorkGraph.beginDeliveryAttempt nodeId fence attempt
  | stop nodeId reason => Functor.discard (BoundedWorkGraph.stop nodeId reason)
  | stopUnlaunched nodeId reason => Functor.discard (BoundedWorkGraph.stopUnlaunched nodeId reason)
  | enforceStopConditions => Functor.discard BoundedWorkGraph.enforceStopConditions

/-- The calls that add a node or a reservation or set the context of a root. -/
def reshapes : GraphOp → Prop
  | addRoot .. | delegate .. | queueChild .. | allocateChildBudget .. | configureRootContext .. =>
    True
  | _ => False

/-- The calls that can start an execution. -/
def starts : GraphOp → Prop
  | claimOrResumeActiveUntil _ _ => True
  | _ => False

end GraphOp

namespace BoundedWorkGraph

variable (blake3 : String → String)

theorem outcome_discard {m : GraphM α} {P : α → BoundedWorkGraph → Prop}
    {R : Unit → BoundedWorkGraph → Prop} (h : wp m (Outcome g P) g)
    (hPR : ∀ a g', P a g' → R () g') : wp (Functor.discard m) (Outcome g R) g := by
  change wp (m >>= fun _ => pure ()) (Outcome g R) g
  refine wp_bind_of h ?_ ?_
  · rintro (e | message) g' h'
    · exact h'
    · exact h'.elim
  · intro a g' hP
    exact hPR a g' hP

theorem outcome_imp {m : GraphM α} {P R : α → BoundedWorkGraph → Prop} (h : wp m (Outcome g P) g)
    (hPR : ∀ a g', P a g' → R a g') : wp m (Outcome g R) g := by
  refine h.imp ?_
  rintro (⟨e | message⟩ | a) g' h'
  · exact h'
  · exact h'.elim
  · exact hPR a g' h'

/-- Every call that neither reshapes the graph nor starts an execution is a run of updates. -/
theorem run_updates (ht : Tree g) (op : GraphOp) (hshape : ¬ op.reshapes) (hop : ¬ op.starts) :
    wp (op.run blake3) (Outcome g fun _ g' => Updates blake3 g g') g := by
  cases op with
  | claimAndActivateUntil nodeId lease =>
    refine outcome_discard (claimAndActivateUntil_outcome blake3 nodeId lease) ?_
    rintro _ g' ⟨node, attempt, h, rfl, rfl⟩
    exact .single (.claim h)
  | claimOrResumeActiveUntil nodeId lease => exact absurd trivial hop
  | recoverExpiredExecution nodeId now =>
    exact outcome_discard (recoverExpiredExecution_outcome ht nodeId now)
      fun _ _ h => StopRun.updates blake3 h
  | setPathClaims nodeId pathClaims =>
    exact outcome_imp (setPathClaims_outcome blake3 nodeId pathClaims) fun _ _ h => .single h
  | configureChildContext nodeId taskRef expectedOutcomeRef =>
    exact outcome_imp (configureChildContext_outcome blake3 nodeId taskRef expectedOutcomeRef)
      fun _ _ h => .single h
  | complete nodeId outcomeRef =>
    exact outcome_imp (complete_outcome blake3 nodeId outcomeRef) fun _ _ h => .single h
  | recordChildReceipt receipt =>
    exact outcome_imp (recordChildReceipt_outcome blake3 ht receipt) fun _ _ h => .single h
  | markAcceptedPath nodeIds =>
    exact outcome_imp (markAcceptedPath_outcome blake3 nodeIds) fun _ _ h => .single h
  | consumeBudget nodeId tokens costMicros =>
    exact outcome_discard (consumeBudget_outcome blake3 ht nodeId tokens costMicros)
      fun _ _ h => h
  | beginDeliveryAttempt nodeId fence attempt =>
    exact outcome_imp (beginDeliveryAttempt_outcome blake3 nodeId fence attempt)
      fun _ _ h => .single h
  | stop nodeId reason =>
    exact outcome_discard (stop_outcome ht nodeId reason) fun _ _ h => StopRun.updates blake3 h.2
  | stopUnlaunched nodeId reason =>
    exact outcome_discard (stopUnlaunched_outcome blake3 ht nodeId reason) fun _ _ h => h
  | enforceStopConditions =>
    exact outcome_discard (enforceStopConditions_outcome ht) fun _ _ h => StopRun.updates blake3 h
  | _ => exact absurd trivial hshape

/-- Every call that starts no execution is a run of changes or an error without effect. -/
theorem run_outcome (ht : Tree g) (op : GraphOp) (hop : ¬ op.starts) :
    wp (op.run blake3) (Outcome g fun _ g' => Changes blake3 g g') g := by
  by_cases hshape : op.reshapes
  · cases op with
    | addRoot nodeId agentId capsuleRef budget =>
      refine outcome_discard (addRoot_outcome nodeId agentId capsuleRef budget) ?_
      rintro _ g' ⟨h, rfl⟩
      exact .single (.root h)
    | delegate parentId childId agentId capsuleRef budget =>
      refine outcome_discard (insertChild_outcome ht parentId childId agentId capsuleRef budget
        .active (.inl rfl)) ?_
      rintro _ g' ⟨parent, reserved, chainId, h, rfl⟩
      exact .single (.child h)
    | queueChild parentId childId agentId capsuleRef budget =>
      refine outcome_discard (insertChild_outcome ht parentId childId agentId capsuleRef budget
        .pending (.inr rfl)) ?_
      rintro _ g' ⟨parent, reserved, chainId, h, rfl⟩
      exact .single (.child h)
    | allocateChildBudget parentId childId fraction =>
      refine outcome_discard (allocateChildBudget_outcome ht parentId childId fraction) ?_
      rintro _ g' ⟨parent, reserved, chainId, -, h, rfl⟩
      exact .single (.reservation h)
    | configureRootContext nodeId taskRef policyRef expectedOutcomeRef =>
      refine outcome_imp
        (configureRootContext_outcome nodeId taskRef policyRef expectedOutcomeRef) ?_
      rintro _ g' ⟨htask, hpolicy, hexpected, node, hnode, hroot, rfl⟩
      exact .single (.rootContext hnode hroot htask hpolicy hexpected)
    | _ => exact hshape.elim
  · exact outcome_imp (run_updates blake3 ht op hshape hop) fun _ _ h => Updates.changes h

/-- One write of any operation. -/
inductive Write (g : BoundedWorkGraph) : BoundedWorkGraph → Prop
  | change {g' : BoundedWorkGraph} (h : Change blake3 g g') : Write g g'
  | start {g' : BoundedWorkGraph} (h : Start g g') : Write g g'

theorem run_writes (ht : Tree g) (op : GraphOp) :
    wp (op.run blake3) (Outcome g fun _ g' => ReflTransGen (Write blake3) g g') g := by
  by_cases hop : op.starts
  · cases op with
    | claimOrResumeActiveUntil nodeId lease =>
      refine outcome_discard (claimOrResumeActiveUntil_outcome blake3 nodeId lease) ?_
      rintro _ g' ⟨mid, before, node, -, -, -, hmid, hstart, rfl, rfl⟩
      have hlast : Write blake3 mid (mid.setNode nodeId
          { node with leaseExpiresEpochMs := some lease, executionStarted := true }) :=
        .start (.mk hstart)
      rcases hmid with rfl | hclaim
      · exact .single hlast
      · exact .head (.change (.update hclaim)) (.single hlast)
    | _ => exact hop.elim
  · exact outcome_imp (run_outcome blake3 ht op hop)
      fun _ _ h => ReflTransGen.mono (fun _ _ hc => .change hc) _ _ h

end BoundedWorkGraph

end LeanCtx
