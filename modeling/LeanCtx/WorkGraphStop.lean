import LeanCtx.WorkGraphStore

/-!
# What a stop stops

`Cascade g mark l g'` says that every open node which `mark` covers was stopped
for the reason it gives, that `l` lists these nodes, and that nothing else of
the graph changed. A recursive stop is the cascade over the subtree of its
node: the node for the caller's reason, what lies below it because its parent
stopped. Subtrees of two children of one node do not meet, so the cascades of
the children add up.
-/

namespace LeanCtx.BoundedWorkGraph

open Relation

variable {g g' g'' : BoundedWorkGraph} {blake3 : String → String}

/-- A node that can still be claimed or run. -/
def Open (node : WorkNode) : Prop := node.status = .active ∨ node.status = .pending

instance (node : WorkNode) : Decidable (Open node) := inferInstanceAs (Decidable (_ ∨ _))

/-- `top` and its descendants. -/
def Subtree (g : BoundedWorkGraph) (top id : String) : Prop :=
  ReflTransGen (fun child parent => g.parentOf child = some parent) id top

theorem subtree_iff {top id : String} : Subtree g top id ↔ id = top ∨ Descendant g top id := by
  rw [Subtree, reflTransGen_iff_eq_or_transGen, eq_comm]
  exact Iff.rfl

theorem SameTree.parentOf (h : SameTree g g') (id : String) : g'.parentOf id = g.parentOf id := by
  have hmap : ∀ o : Option WorkNode, o.bind (·.parentNodeId) =
      (o.map placement).bind fun p => p.2.1 := by
    rintro (_ | node) <;> rfl
  rw [BoundedWorkGraph.parentOf, BoundedWorkGraph.parentOf, hmap, hmap, h.nodes]

theorem SameTree.subtree (h : SameTree g g') {top id : String} :
    Subtree g' top id ↔ Subtree g top id := by
  unfold Subtree
  simp only [h.parentOf]

/-- Below its top a subtree is the union of its children's subtrees. -/
theorem Tree.subtree_iff_child (ht : Tree g) {top id : String} :
    Subtree g top id ↔ id = top ∨ ∃ c ∈ g.childrenOf top, Subtree g c id := by
  constructor
  · intro h
    rcases ReflTransGen.cases_tail h with heq | ⟨c, hc, hparent⟩
    · exact .inl heq.symm
    · obtain ⟨node, hnode, hp⟩ := parentOf_eq_some hparent
      exact .inr ⟨c, ht.mem_child hnode hp, hc⟩
  · rintro (rfl | ⟨c, hc, h⟩)
    · exact .refl
    · obtain ⟨node, hnode, hp⟩ := ht.child_mem hc
      refine ReflTransGen.tail h ?_
      rw [parentOf, hnode]
      exact hp

theorem Tree.depth_of_subtree (ht : Tree g) {top id : String} (h : Subtree g top id) {t n : WorkNode}
    (htop : g.nodes[top]? = some t) (hn : g.nodes[id]? = some n) :
    id = top ∨ t.depth < n.depth := by
  rcases subtree_iff.mp h with rfl | hbelow
  · exact .inl rfl
  · exact .inr (hbelow.depth_lt ht hn htop)

/-- The subtrees of two children of one node do not meet: both are ancestors at one depth. -/
theorem Tree.subtree_disjoint (ht : Tree g) {top c d id : String} (hc : c ∈ g.childrenOf top)
    (hd : d ∈ g.childrenOf top) (hcid : Subtree g c id) (hdid : Subtree g d id) : c = d := by
  obtain ⟨nc, hnc, hpc⟩ := ht.child_mem hc
  obtain ⟨nd, hnd, hpd⟩ := ht.child_mem hd
  obtain ⟨t, htop, hdc⟩ := ht.parent hnc hpc
  obtain ⟨t', htop', hdd⟩ := ht.parent hnd hpd
  obtain rfl := Option.some.inj (htop.symm.trans htop')
  have hunique : Relator.RightUnique fun child parent => g.parentOf child = some parent := by
    intro a b b' hb hb'
    exact Option.some.inj (hb.symm.trans hb')
  rcases ReflTransGen.total_of_right_unique hunique hcid hdid with h | h
  · rcases ht.depth_of_subtree h hnd hnc with heq | hlt
    · exact heq
    · omega
  · rcases ht.depth_of_subtree h hnc hnd with heq | hlt
    · exact heq.symm
    · omega

/-! ## Cascades -/

/-- The reasons for which a cascade stops what it covers. -/
abbrev Mark := String → Option StopReason

/-- A node as the cascade leaves it. -/
def marked (reason : Option StopReason) (node : WorkNode) : WorkNode :=
  match reason with
  | none => node
  | some reason => if Open node then ended (stoppedNode node reason) else node

structure Cascade (g : BoundedWorkGraph) (mark : Mark) (l : List String) (g' : BoundedWorkGraph) :
    Prop where
  nodup : l.Nodup
  mem : ∀ id, id ∈ l ↔ mark id ≠ none ∧ ∃ node, g.nodes[id]? = some node ∧ Open node
  nodes : ∀ id : String, g'.nodes[id]? = (g.nodes[id]?).map (marked (mark id))
  rest : g' = { g with nodes := g'.nodes, reapedExecutions := g'.reapedExecutions }

theorem ended_status (node : WorkNode) : (ended node).status = node.status := by
  unfold ended
  split_ifs <;> rfl

theorem ended_stopReason (node : WorkNode) : (ended node).stopReason = node.stopReason := by
  unfold ended
  split_ifs <;> rfl

theorem placement_marked (reason : Option StopReason) (node : WorkNode) :
    placement (marked reason node) = placement node := by
  unfold marked
  cases reason with
  | none => rfl
  | some reason =>
    dsimp only
    split_ifs
    · exact placement_ended (stoppedNode node reason)
    · rfl

theorem not_open_stopped (node : WorkNode) (reason : StopReason) :
    ¬ Open (ended (stoppedNode node reason)) := by
  rw [Open, ended_status]
  simp [stoppedNode]

theorem marked_of_not_open {node : WorkNode} (h : ¬ Open node) (reason : Option StopReason) :
    marked reason node = node := by
  cases reason with
  | none => rfl
  | some reason => exact if_neg h

theorem marked_open {reason : Option StopReason} {node : WorkNode} (h : Open (marked reason node)) :
    reason = none ∧ Open node := by
  cases reason with
  | none => exact ⟨rfl, h⟩
  | some reason =>
    by_cases ho : Open node
    · rw [marked, if_pos ho] at h
      exact absurd h (not_open_stopped node reason)
    · rw [marked, if_neg ho] at h
      exact absurd h ho

namespace Cascade

variable {mark mark' : Mark} {l l' : List String}

theorem nil (h : ∀ id, mark id ≠ none → ∀ node, g.nodes[id]? = some node → ¬ Open node) :
    Cascade g mark [] g where
  nodup := List.nodup_nil
  mem id := by
    simp only [List.not_mem_nil, false_iff]
    rintro ⟨hm, node, hn, ho⟩
    exact h id hm node hn ho
  nodes id := by
    cases hn : g.nodes[id]? with
    | none => rfl
    | some node =>
      rw [Option.map_some]
      by_cases hm : mark id = none
      · rw [hm]
        rfl
      · rw [marked_of_not_open (h id hm node hn)]
  rest := rfl

theorem sameTree (h : Cascade g mark l g') : SameTree g g' where
  nodes id := by
    rw [h.nodes, Option.map_map]
    cases g.nodes[id]? with
    | none => rfl
    | some node =>
      rw [Option.map_some, Option.map_some, Function.comp_apply, placement_marked]
  size := by
    have hkeys : ∀ id, id ∈ g'.nodes ↔ id ∈ g.nodes := by
      intro id
      rw [← not_iff_not, OrdMap.not_mem_iff, OrdMap.not_mem_iff, h.nodes, Option.map_eq_none_iff]
    rw [← Std.ExtTreeMap.length_keys, ← Std.ExtTreeMap.length_keys]
    apply le_antisymm
    · exact (Std.ExtTreeMap.nodup_keys.subperm fun id hid =>
        Std.ExtTreeMap.mem_keys.mpr ((hkeys id).mp (Std.ExtTreeMap.mem_keys.mp hid))).length_le
    · exact (Std.ExtTreeMap.nodup_keys.subperm fun id hid =>
        Std.ExtTreeMap.mem_keys.mpr ((hkeys id).mpr (Std.ExtTreeMap.mem_keys.mp hid))).length_le
  children := by rw [h.rest]
  chains _ hid := by
    rw [h.rest]
    exact hid

/-- One open node is stopped. -/
theorem single {id : String} {node : WorkNode} {reason : StopReason}
    (hn : g.nodes[id]? = some node) (ho : Open node) :
    Cascade g (fun x => if x = id then some reason else none) [id]
      (g.endNode id (stoppedNode node reason)) where
  nodup := List.nodup_singleton id
  mem x := by
    rw [List.mem_singleton]
    constructor
    · rintro rfl
      exact ⟨by simp, node, hn, ho⟩
    · rintro ⟨hm, -⟩
      by_contra hx
      simp [hx] at hm
  nodes x := by
    rw [endNode, OrdMap.get_insert]
    by_cases hx : id = x
    · subst hx
      rw [if_pos rfl, if_pos rfl, hn, Option.map_some, marked, if_pos ho]
    · rw [if_neg hx, if_neg (Ne.symm hx)]
      cases g.nodes[x]? <;> rfl
  rest := rfl

/-- Two cascades that do not meet add up. -/
theorem append (h : Cascade g mark l g') (h' : Cascade g' mark' l' g'')
    (hdisj : ∀ id, mark id ≠ none → mark' id = none) :
    Cascade g (fun id => mark id <|> mark' id) (l ++ l') g'' := by
  have hmem' : ∀ id, id ∈ l' ↔ mark' id ≠ none ∧ ∃ node, g.nodes[id]? = some node ∧ Open node := by
    intro id
    rw [h'.mem]
    refine and_congr_right fun hm' => ?_
    have hm : mark id = none := by
      by_contra hm
      exact hm' (hdisj id hm)
    rw [h.nodes, hm]
    cases g.nodes[id]? <;> simp [marked]
  refine ⟨?_, ?_, ?_, ?_⟩
  · refine List.nodup_append.mpr ⟨h.nodup, h'.nodup, ?_⟩
    rintro id hid _ hid' rfl
    exact ((hmem' id).mp hid').1 (hdisj id ((h.mem id).mp hid).1)
  · intro id
    rw [List.mem_append, h.mem, hmem']
    cases hm : mark id with
    | none => simp
    | some reason => simp [hdisj id (by simp [hm])]
  · intro id
    rw [h'.nodes, h.nodes, Option.map_map]
    cases hm : mark id with
    | none =>
      have hid : (none <|> mark' id) = mark' id := by cases mark' id <;> rfl
      rw [hid]
      cases g.nodes[id]? <;> rfl
    | some reason =>
      rw [hdisj id (by simp [hm])]
      cases g.nodes[id]? <;> rfl
  · rw [h'.rest, h.rest]

theorem congr (h : Cascade g mark l g') (hm : ∀ id, mark' id = mark id) : Cascade g mark' l g' := by
  rwa [funext hm]

end Cascade

/-! ## The recursive stop -/

open scoped Classical in
/-- The node for the caller's reason, what is below it because its parent stopped. -/
noncomputable def stopMark (g : BoundedWorkGraph) (top : String) (reason : StopReason) : Mark :=
  fun id => if id = top then some reason else if Subtree g top id then some .parentStopped else none

open scoped Classical in
/-- The subtrees of some children of a stopped node. -/
noncomputable def childMark (g : BoundedWorkGraph) (children : List String) : Mark :=
  fun id => if ∃ c ∈ children, Subtree g c id then some .parentStopped else none

theorem stopMark_ne_none {top id : String} {reason : StopReason} :
    stopMark g top reason id ≠ none ↔ Subtree g top id := by
  unfold stopMark
  by_cases htop : id = top
  · subst htop
    rw [if_pos rfl]
    exact ⟨fun _ => .refl, fun _ => Option.some_ne_none _⟩
  · rw [if_neg htop]
    by_cases hs : Subtree g top id <;> simp [hs]

theorem childMark_pos {cs : List String} {c id : String} (hc : c ∈ cs) (h : Subtree g c id) :
    childMark g cs id = some .parentStopped := if_pos ⟨c, hc, h⟩

theorem childMark_neg {cs : List String} {id : String} (h : ∀ c ∈ cs, ¬ Subtree g c id) :
    childMark g cs id = none := if_neg fun ⟨c, hc, hs⟩ => h c hc hs

theorem stopMark_parentStopped (g : BoundedWorkGraph) (top id : String) :
    stopMark g top .parentStopped id = childMark g [top] id := by
  by_cases hs : Subtree g top id
  · rw [childMark_pos (List.mem_singleton_self top) hs, stopMark, if_pos hs, ite_self]
  · have htop : id ≠ top := by
      rintro rfl
      exact hs .refl
    rw [childMark_neg (by simpa using hs), stopMark, if_neg htop, if_neg hs]

theorem childMark_cons (g : BoundedWorkGraph) (c : String) (cs : List String) (id : String) :
    childMark g (c :: cs) id = (childMark g [c] id <|> childMark g cs id) := by
  by_cases hc : Subtree g c id
  · rw [childMark_pos (List.mem_cons_self ..) hc, childMark_pos (List.mem_singleton_self c) hc]
    rfl
  · have hnone : childMark g [c] id = none := childMark_neg (by simpa using hc)
    rw [hnone]
    by_cases hs : ∃ d ∈ cs, Subtree g d id
    · obtain ⟨d, hd, hs⟩ := hs
      rw [childMark_pos hd hs, childMark_pos (List.mem_cons_of_mem c hd) hs]
      rfl
    · have hs : ∀ d ∈ cs, ¬ Subtree g d id := fun d hd hsub => hs ⟨d, hd, hsub⟩
      rw [childMark_neg hs, childMark_neg (List.forall_mem_cons.mpr ⟨hc, hs⟩)]
      rfl

theorem childMark_sameTree (h : SameTree g g') (cs : List String) (id : String) :
    childMark g' cs id = childMark g cs id := by
  by_cases hs : ∃ c ∈ cs, Subtree g c id
  · obtain ⟨c, hc, hs⟩ := hs
    rw [childMark_pos hc hs, childMark_pos hc (h.subtree.mpr hs)]
  · have hs : ∀ c ∈ cs, ¬ Subtree g c id := fun c hc hsub => hs ⟨c, hc, hsub⟩
    rw [childMark_neg hs, childMark_neg fun c hc hsub => hs c hc (h.subtree.mp hsub)]

/-- The children of a node, one after the other. -/
theorem stopChildren (ht : Tree g) {top : String} {fuel : ℕ} {cs : List String}
    (hstop : ∀ c ∈ cs, ∀ (s : BoundedWorkGraph) (stopped : List String), SameTree g s →
      wp (stopRecursive fuel c .parentStopped stopped) (fun r s' => ∃ l, r = .ok (stopped ++ l) ∧
        Cascade s (stopMark s c .parentStopped) l s') s)
    (hcs : ∀ c ∈ cs, c ∈ g.childrenOf top) (hnodup : cs.Nodup) (stopped : List String)
    {s : BoundedWorkGraph} (hs : SameTree g s) :
    wp (cs.foldlM (fun stopped c => stopRecursive fuel c .parentStopped stopped) stopped)
      (fun r s' => ∃ l, r = .ok (stopped ++ l) ∧ Cascade s (childMark g cs) l s') s := by
  induction cs generalizing stopped s with
  | nil =>
    exact ⟨[], by simp, .nil fun id hm => absurd (childMark_neg (List.forall_mem_nil _)) hm⟩
  | cons c cs ih =>
    rw [List.foldlM_cons]
    obtain ⟨hc, hnodup⟩ := List.nodup_cons.mp hnodup
    refine wp_bind_of (hstop c (by simp) s stopped hs) ?_ ?_
    · rintro e s' ⟨l, hl, -⟩
      cases hl
    · rintro b s₁ ⟨l, hl, hcascade⟩
      obtain rfl := Except.ok.inj hl
      have hs₁ : SameTree g s₁ := hs.trans hcascade.sameTree
      refine (ih (fun d hd => hstop d (List.mem_cons_of_mem _ hd))
        (fun d hd => hcs d (List.mem_cons_of_mem _ hd)) hnodup (stopped ++ l) hs₁).imp ?_
      rintro r s₂ ⟨l', rfl, hcascade'⟩
      have hfirst : Cascade s (childMark g [c]) l s₁ := hcascade.congr fun id => by
        rw [stopMark_parentStopped, childMark_sameTree hs]
      refine ⟨l ++ l', by rw [List.append_assoc], (hfirst.append hcascade' ?_).congr
        (childMark_cons g c cs)⟩
      intro id hid
      have hcid : Subtree g c id := by
        by_contra hcid
        exact hid (childMark_neg (by simpa using hcid))
      refine childMark_neg fun d hd hdid => ?_
      obtain rfl := ht.subtree_disjoint (hcs c (by simp)) (hcs d (List.mem_cons_of_mem _ hd)) hcid hdid
      exact hc hd

/-- A recursive stop is the cascade over the subtree; depths stay below `nodes.size`, so it
returns. -/
theorem stopRecursive_cascade (fuel : ℕ) (ht : Tree g) (nodeId : String) (reason : StopReason)
    (stopped : List String) (hpos : 0 < fuel)
    (hfuel : ∀ node, g.nodes[nodeId]? = some node → g.nodes.size + 1 ≤ fuel + node.depth) :
    wp (stopRecursive fuel nodeId reason stopped) (fun r g' => ∃ l, r = .ok (stopped ++ l) ∧
      Cascade g (stopMark g nodeId reason) l g') g := by
  induction fuel generalizing g nodeId reason stopped with
  | zero => omega
  | succ fuel ih =>
    have hchildren : ∀ (stopped : List String) (s : BoundedWorkGraph), SameTree g s →
        wp ((s.childrenOf nodeId).foldlM (fun stopped childId =>
          stopRecursive fuel childId .parentStopped stopped) stopped)
          (fun r s' => ∃ l, r = .ok (stopped ++ l) ∧
            Cascade s (childMark g (g.childrenOf nodeId)) l s') s := by
      intro stopped s hs
      rw [hs.childrenOf]
      refine stopChildren ht ?_ (fun c hc => hc) (ht.nodup nodeId) stopped hs
      intro c hc s₁ acc hs₁
      obtain ⟨child, hchild, hp⟩ := ht.child_mem hc
      obtain ⟨node, hnode, hdepth⟩ := ht.parent hchild hp
      have hroom := hfuel node hnode
      have hlt := ht.depth_lt hchild
      refine ih (hs₁.tree ht) c .parentStopped acc (by omega) ?_
      intro child' hchild'
      obtain ⟨child₀, hchild₀, -, -, hd⟩ := hs₁.node hchild'
      obtain rfl := Option.some.inj (hchild.symm.trans hchild₀)
      rw [hs₁.size, hd]
      omega
    -- The mark of the subtree is that of its top and those of the children.
    have hmark : ∀ id, stopMark g nodeId reason id =
        ((if id = nodeId then some reason else none) <|>
          childMark g (g.childrenOf nodeId) id) := by
      intro id
      by_cases htop : id = nodeId
      · rw [stopMark, if_pos htop, if_pos htop]
        rfl
      · rw [stopMark, if_neg htop, if_neg htop]
        by_cases hs : Subtree g nodeId id
        · obtain ⟨c, hc, hsub⟩ := (ht.subtree_iff_child.mp hs).resolve_left htop
          rw [if_pos hs, childMark_pos hc hsub]
          rfl
        · rw [if_neg hs, childMark_neg fun c hc hsub =>
            hs (ht.subtree_iff_child.mpr (.inr ⟨c, hc, hsub⟩))]
          rfl
    have hbelow : ∀ id, (if id = nodeId then some reason else none) ≠ none →
        childMark g (g.childrenOf nodeId) id = none := by
      intro id hid
      have htop : id = nodeId := by
        by_contra htop
        simp [htop] at hid
      subst htop
      refine childMark_neg fun c hc hsub => ?_
      obtain ⟨child, hchild, hp⟩ := ht.child_mem hc
      obtain ⟨node, hnode, hdepth⟩ := ht.parent hchild hp
      rcases ht.depth_of_subtree hsub hchild hnode with heq | hlt
      · subst heq
        obtain rfl := Option.some.inj (hchild.symm.trans hnode)
        omega
      · omega
    -- A node that is not open, or not there, stops nothing itself.
    have hclosed : (∀ node, g.nodes[nodeId]? = some node → ¬ Open node) →
        wp ((g.childrenOf nodeId).foldlM (fun stopped childId =>
          stopRecursive fuel childId .parentStopped stopped) stopped)
          (fun r g' => ∃ l, r = .ok (stopped ++ l) ∧ Cascade g (stopMark g nodeId reason) l g') g := by
      intro hnot
      refine (hchildren stopped g (.refl g)).imp ?_
      rintro r g' ⟨l, rfl, hcascade⟩
      have hself : Cascade g (fun id => if id = nodeId then some reason else none) [] g := by
        refine .nil fun id hid node hn => ?_
        have htop : id = nodeId := by
          by_contra htop
          simp [htop] at hid
        exact hnot node (htop ▸ hn)
      exact ⟨l, rfl, (hself.append hcascade hbelow).congr hmark⟩
    refine wp_get_bind ?_
    cases hn : g.nodes[nodeId]? with
    | none => exact hclosed fun node hnode => by simp [hn] at hnode
    | some node =>
      by_cases ho : Open node
      · have hsingle : Cascade g (fun x => if x = nodeId then some reason else none) [nodeId]
            (g.stopNode nodeId node reason) := by
          rw [stopNode_eq]
          exact .single hn ho
        have hrun := (hchildren (stopped ++ [nodeId]) _ hsingle.sameTree).imp
          (R := fun r g' => ∃ l, r = .ok (stopped ++ l) ∧
            Cascade g (stopMark g nodeId reason) l g') ?_
        · simp only [show (node.status = .active ∨ node.status = .pending) from ho, if_true]
          exact wp_set_bind hrun
        rintro r g' ⟨l, rfl, hcascade⟩
        exact ⟨[nodeId] ++ l, by rw [List.append_assoc],
          (hsingle.append hcascade hbelow).congr hmark⟩
      · simp only [show ¬ (node.status = .active ∨ node.status = .pending) from ho, if_false]
        refine hclosed fun node' hn' => ?_
        rwa [← Option.some.inj (hn.symm.trans hn')]

theorem stop_cascade (ht : Tree g) {nodeId : String} (hmem : nodeId ∈ g.nodes)
    (reason : StopReason) :
    ∃ stopped g', stop nodeId reason g = .ok stopped g' ∧
      Cascade g (stopMark g nodeId reason) stopped g' := by
  have hwp : wp (stop nodeId reason) (fun r g' => ∃ l, r = .ok l ∧
      Cascade g (stopMark g nodeId reason) l g') g := by
    refine wp_get_bind ?_
    rw [wp_bind, wp_rejectIf]
    refine ⟨fun hnot => absurd hmem hnot, fun _ => ?_⟩
    exact stopRecursive_cascade _ ht nodeId reason [] (by omega) fun node _ => by omega
  cases hrun : stop nodeId reason g with
  | ok stopped g' =>
    obtain ⟨l, hl, hcascade⟩ := hwp.of_ok hrun
    obtain rfl := Except.ok.inj hl
    exact ⟨stopped, g', rfl, hcascade⟩
  | error e g' =>
    obtain ⟨l, hl, -⟩ := hwp.of_error hrun
    cases hl

/-! ## A node that is not open stays so -/

/-- The node is there and neither pending nor active. -/
def Closed (g : BoundedWorkGraph) (id : String) : Prop :=
  ∃ node, g.nodes[id]? = some node ∧ ¬ Open node

theorem Closed.of_nodes {id : String} (h : Closed g id) (hnodes : g'.nodes = g.nodes) :
    Closed g' id := by
  obtain ⟨node, hn, hc⟩ := h
  exact ⟨node, by rw [hnodes, hn], hc⟩

/-- Writing a node that is new, or open before, or not open after, opens no closed node. -/
theorem Closed.of_insert {id x : String} {m : WorkNode} (h : Closed g id)
    (hnodes : g'.nodes = g.nodes.insert x m)
    (hm : ∀ node, g.nodes[x]? = some node → ¬ Open node → ¬ Open m) : Closed g' id := by
  obtain ⟨node, hn, hc⟩ := h
  by_cases hx : x = id
  · subst hx
    exact ⟨m, by rw [hnodes, OrdMap.get_insert, if_pos rfl], hm node hn hc⟩
  · exact ⟨node, by rw [hnodes, OrdMap.get_insert, if_neg hx, hn], hc⟩

theorem closed_of_fresh {x : String} {m : WorkNode} (hfresh : x ∉ g.nodes) :
    ∀ node, g.nodes[x]? = some node → ¬ Open node → ¬ Open m :=
  fun node hn => absurd ((OrdMap.mem_iff _ _).mpr ⟨node, hn⟩) hfresh

theorem closed_of_open {x : String} {n m : WorkNode} (hn : g.nodes[x]? = some n) (ho : Open n) :
    ∀ node, g.nodes[x]? = some node → ¬ Open node → ¬ Open m := by
  intro node hnode hc
  obtain rfl := Option.some.inj (hn.symm.trans hnode)
  exact absurd ho hc

theorem closed_of_status {x : String} {n m : WorkNode} (hn : g.nodes[x]? = some n)
    (hs : m.status = n.status) : ∀ node, g.nodes[x]? = some node → ¬ Open node → ¬ Open m := by
  intro node hnode hc
  obtain rfl := Option.some.inj (hn.symm.trans hnode)
  unfold Open at hc ⊢
  rwa [hs]

theorem Closed.write {id : String} (h : Closed g id) (hw : Write blake3 g g') : Closed g' id := by
  cases hw with
  | start hs =>
    obtain ⟨hs⟩ := hs
    exact h.of_insert rfl (closed_of_open hs.getNode (.inl hs.active))
  | change hc =>
    cases hc with
    | root hr => exact h.of_insert rfl (closed_of_fresh hr.fresh)
    | child hr =>
      exact h.of_insert (sameButChains_childInserted _ _ _ _).nodes (closed_of_fresh hr.fresh)
    | reservation hr => exact h.of_nodes (sameButChains_reservationAdded _ _ _ _ _ _).nodes
    | rootContext hn => exact h.of_insert rfl (closed_of_status hn rfl)
    | update hu =>
      cases hu with
      | claim hr => exact h.of_insert rfl (closed_of_open hr.getNode (.inr hr.pending))
      | stop hn hs => exact h.of_insert rfl (closed_of_open hn hs)
      | leaseCleared hn => exact h.of_insert rfl (closed_of_status hn rfl)
      | paths hn hs => exact h.of_insert rfl (closed_of_open hn (.inr hs))
      | childContext hn _ _ hs => exact h.of_insert rfl (closed_of_open hn (.inr hs))
      | delivery hr => exact h.of_insert rfl (closed_of_open hr.getNode (.inl hr.active))
      | complete hn hs => exact h.of_insert rfl (closed_of_open hn (.inl hs))
      | @receipt receipt node _ _ _ chainId _ nextTokens nextCost _ hspend =>
        exact h.of_insert ((sameButChains_updateChain (g.endNode receipt.nodeId
          (receiptedNode node receipt)) chainId (spentChain nextTokens nextCost)).addReceipt
            receipt).nodes (closed_of_open hspend.getNode (.inl hspend.active))
      | accept => exact h.of_nodes rfl
      | @spend nodeId node _ _ _ chainId _ nextTokens nextCost nextChainTokens nextChainCost
          hspend =>
        exact h.of_insert (sameButChains_updateChain (g.setNode nodeId (spentNode node nextTokens
          nextCost)) chainId (spentChain nextChainTokens nextChainCost)).nodes
            (closed_of_open hspend.getNode (.inl hspend.active))

theorem Closed.afterCalls {id : String} (ht : Tree g) (h : Closed g id) (calls : List GraphOp) :
    Closed (afterCalls blake3 calls g) id := by
  induction calls generalizing g with
  | nil => exact h
  | cons op calls ih =>
    have hrun : ReflTransGen (Write blake3) g (finalState (op.run blake3) g) :=
      finalState_writes ht op
    have hclosed : Closed (finalState (op.run blake3) g) id := by
      generalize finalState (op.run blake3) g = g' at hrun
      induction hrun with
      | refl => exact h
      | tail _ hstep ih' => exact ih'.write hstep
    exact ih (ht.finalState op) hclosed

/-! ## Claims and spends on a closed node -/

/-- The call returns an error and leaves the graph as it was. -/
def Refused {α : Type} (m : GraphM α) (g : BoundedWorkGraph) : Prop := ∃ e, m g = .error (.err e) g

theorem refused_of_outcome {α : Type} {m : GraphM α} (h : wp m (Outcome g fun _ _ => False) g) :
    Refused m g := by
  cases hm : m g with
  | ok a g' => exact (h.of_ok hm).elim
  | error e g' =>
    cases e with
    | err e =>
      obtain rfl := h.of_error hm
      exact ⟨e, hm⟩
    | panic message => exact (h.of_error hm).elim

theorem Closed.claim_refused {id : String} (h : Closed g id) (lease : Option ℕ) :
    Refused (claimAndActivateUntil blake3 id lease) g := by
  obtain ⟨node, hn, hc⟩ := h
  refine refused_of_outcome (outcome_imp (claimAndActivateUntil_outcome blake3 id lease) ?_)
  rintro _ _ ⟨node', attempt, hclaim, -, -⟩
  obtain rfl := Option.some.inj (hn.symm.trans hclaim.getNode)
  exact hc (.inr hclaim.pending)

theorem Closed.start_refused {id : String} (h : Closed g id) (lease : ℕ) :
    Refused (claimOrResumeActiveUntil blake3 id lease) g := by
  obtain ⟨node, hn, hc⟩ := h
  refine refused_of_outcome ?_
  refine wp_get_bind ?_
  refine wp_found_bind fun node' hn' => ?_
  obtain rfl := Option.some.inj (hn.symm.trans hn')
  refine wp_guard_bind fun _ => ?_
  cases hs : node.status with
  | pending => exact absurd (.inr hs) hc
  | active => exact absurd (.inl hs) hc
  | completed | stopped | failed => exact rfl

theorem Closed.consume_refused {id : String} (h : Closed g id) (tokens costMicros : UInt64) :
    Refused (consumeBudget id tokens costMicros) g := by
  obtain ⟨node, hn, hc⟩ := h
  refine refused_of_outcome ?_
  refine wp_get_bind ?_
  refine wp_found_bind fun node' hn' => ?_
  obtain rfl := Option.some.inj (hn.symm.trans hn')
  refine wp_guard_bind fun hactive => ?_
  exact absurd (.inl (not_not.mp hactive)) hc

/-- A stop on a validated graph returns, once each, the open nodes of the subtree, stops them
and changes no other node, receipt or chain; what is then in the subtree can neither be claimed
nor spend again, whatever is called later. -/
theorem stop_exact (blake3 : String → String) (hvalid : validateInvariants blake3 g = .ok ())
    {nodeId : String} (hmem : nodeId ∈ g.nodes) (reason : StopReason) :
    ∃ stopped g', stop nodeId reason g = .ok stopped g' ∧ stopped.Nodup ∧
      (∀ id, id ∈ stopped ↔ Subtree g nodeId id ∧ ∃ node, g.nodes[id]? = some node ∧ Open node) ∧
      (∀ id ∈ stopped, ∃ node node', g.nodes[id]? = some node ∧ g'.nodes[id]? = some node' ∧
        node'.status = .stopped ∧ node'.budget = node.budget ∧
        node'.stopReason = some (if id = nodeId then reason else .parentStopped)) ∧
      (∀ id ∉ stopped, g'.nodes[id]? = g.nodes[id]?) ∧
      g'.receipts = g.receipts ∧ g'.chainBudgets = g.chainBudgets ∧
      (∀ id node', Subtree g' nodeId id → g'.nodes[id]? = some node' → ¬ Open node') ∧
      ∀ (calls : List GraphOp) (id : String), Subtree g' nodeId id →
        (∀ lease, Refused (claimAndActivateUntil blake3 id lease) (afterCalls blake3 calls g')) ∧
        (∀ lease, Refused (claimOrResumeActiveUntil blake3 id lease) (afterCalls blake3 calls g')) ∧
        ∀ tokens costMicros, Refused (consumeBudget id tokens costMicros)
          (afterCalls blake3 calls g') := by
  have ht := (validateInvariants_iff.mp hvalid).tree
  obtain ⟨stopped, g', hrun, hcascade⟩ := stop_cascade ht hmem reason
  have hsame := hcascade.sameTree
  have hstopped : ∀ id, id ∈ stopped ↔ Subtree g nodeId id ∧
      ∃ node, g.nodes[id]? = some node ∧ Open node := by
    intro id
    rw [hcascade.mem, stopMark_ne_none]
  have hopen : ∀ id node', Subtree g' nodeId id → g'.nodes[id]? = some node' → ¬ Open node' := by
    intro id node' hsub hn' ho
    rw [hcascade.nodes] at hn'
    obtain ⟨node, -, rfl⟩ := Option.map_eq_some_iff.mp hn'
    exact stopMark_ne_none.mpr (hsame.subtree.mp hsub) (marked_open ho).1
  have hclosed : ∀ id, Subtree g' nodeId id → Closed g' id := by
    intro id hsub
    have hid : id ∈ g'.nodes := by
      rcases ReflTransGen.cases_head hsub with rfl | ⟨p, hp, -⟩
      · obtain ⟨node, hn⟩ := (OrdMap.mem_iff _ _).mp hmem
        obtain ⟨node', hn', -⟩ := hsame.node' hn
        exact (OrdMap.mem_iff _ _).mpr ⟨node', hn'⟩
      · obtain ⟨node', hn', -⟩ := parentOf_eq_some hp
        exact (OrdMap.mem_iff _ _).mpr ⟨node', hn'⟩
    obtain ⟨node', hn'⟩ := (OrdMap.mem_iff _ _).mp hid
    exact ⟨node', hn', hopen id node' hsub hn'⟩
  refine ⟨stopped, g', hrun, hcascade.nodup, hstopped, ?_, ?_, by rw [hcascade.rest],
    by rw [hcascade.rest], hopen, ?_⟩
  · intro id hid
    obtain ⟨hsub, node, hn, ho⟩ := (hstopped id).mp hid
    have hmark : stopMark g nodeId reason id =
        some (if id = nodeId then reason else .parentStopped) := by
      by_cases htop : id = nodeId
      · rw [stopMark, if_pos htop, if_pos htop]
      · rw [stopMark, if_neg htop, if_pos hsub, if_neg htop]
    refine ⟨node, ended (stoppedNode node (if id = nodeId then reason else .parentStopped)), hn,
      ?_, ?_, ?_, ?_⟩
    · rw [hcascade.nodes, hn, Option.map_some, hmark, marked, if_pos ho]
    · rw [ended_status]
      rfl
    · rw [budget_ended]
      rfl
    · rw [ended_stopReason]
      rfl
  · intro id hid
    rw [hcascade.nodes]
    cases hn : g.nodes[id]? with
    | none => rfl
    | some node =>
      rw [Option.map_some]
      by_cases ho : Open node
      · have hmark : stopMark g nodeId reason id = none := by
          by_contra hm
          exact hid ((hcascade.mem id).mpr ⟨hm, node, hn, ho⟩)
        rw [hmark]
        rfl
      · rw [marked_of_not_open ho]
  · intro calls id hsub
    have hlater : Closed (afterCalls blake3 calls g') id :=
      (hclosed id hsub).afterCalls (hsame.tree ht) calls
    exact ⟨fun lease => hlater.claim_refused lease, fun lease => hlater.start_refused lease,
      fun tokens costMicros => hlater.consume_refused tokens costMicros⟩

/-- Stopping the root of the two nodes that delegation built stops both. -/
theorem stop_exact_delegated :
    ∃ stopped g', stop "root" .manualStop (afterCalls id delegatedCalls (new 2 2)) =
        .ok stopped g' ∧ "root" ∈ stopped ∧
      Refused (consumeBudget "root" 1 1) (afterCalls id delegatedCalls g') := by
  have hvalid : validateInvariants id (afterCalls id delegatedCalls (new 2 2)) = .ok () := by
    decide +kernel
  have hroot : ((afterCalls id delegatedCalls (new 2 2)).nodes["root"]?).any
      (fun node => decide (Open node)) = true := by decide +kernel
  obtain ⟨node, hn, ho⟩ := (Option.any_eq_true _ _).mp hroot
  obtain ⟨stopped, g', hrun, -, hstopped, -, -, -, -, -, hlater⟩ := stop_exact id hvalid
    ((OrdMap.mem_iff _ _).mpr ⟨node, hn⟩) .manualStop
  exact ⟨stopped, g', hrun, (hstopped "root").mpr ⟨.refl, node, hn, of_decide_eq_true ho⟩,
    (hlater delegatedCalls "root" .refl).2.2 1 1⟩

end LeanCtx.BoundedWorkGraph
