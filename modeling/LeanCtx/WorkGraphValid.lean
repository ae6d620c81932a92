import LeanCtx.WorkGraphSound

/-!
# The validator as an invariant

A sound graph passes `validateInvariants`, and every call whose arguments meet
`GraphOp.Safe` leaves a sound graph sound, so a run of such calls never meets a
graph its own validator rejects. The calls outside `Safe` show three ways to
make a successful operation produce a graph that does not validate.
-/

namespace LeanCtx

namespace BoundedWorkGraph

open Relation

variable {g g' : BoundedWorkGraph} {blake3 : String → String} {id : String} {n n' : WorkNode}

structure Sound (blake3 : String → String) (g : BoundedWorkGraph) : Prop where
  bookkept : Bookkept g
  covered : Covered g
  core : Core blake3 g
  chains : ChainsExact g
  accepted : AcceptedPath g
  pendingFresh : PendingFresh g
  contexts : ContextsInherited g

/-! ## A sound graph validates -/

theorem validatePathClaims_of {claims seen : List String} (hvalid : ∀ c ∈ claims,
    validatePathClaim c = .ok ()) (hnodup : claims.Nodup) (hnew : ∀ c ∈ claims, c ∉ seen) :
    validatePathClaims claims seen = .ok () := by
  induction claims generalizing seen with
  | nil => rfl
  | cons a claims ih =>
    obtain ⟨ha, hnodup'⟩ := List.nodup_cons.mp hnodup
    rw [validatePathClaims, except_seq_eq_ok]
    refine ⟨hvalid a (by simp), ?_⟩
    rw [if_neg (hnew a (by simp))]
    refine ih (fun c hc => hvalid c (by simp [hc])) hnodup' fun c hc hmem => ?_
    rcases List.mem_cons.mp hmem with rfl | hmem
    · exact ha hc
    · exact hnew c (by simp [hc]) hmem

theorem validateContext_of (h : Inherits g n) : validateContext g n = .ok () := by
  unfold validateContext
  cases hp : n.parentNodeId with
  | none => rfl
  | some p =>
    dsimp only
    split_ifs with hempty
    · rfl
    · obtain ⟨parent, hparent, htask, hpolicy⟩ := h p hp fun heq => hempty (by simp [heq])
      simp [hparent, htask, hpolicy]

theorem Sound.placement (h : Sound blake3 g) (hn : g.nodes[id]? = some n) :
    validatePlacement g id n = .ok () := by
  have ht := h.bookkept.tree
  obtain ⟨l, hl, hlen, hchecked, -⟩ := ht.walks hn
  refine validatePlacement_iff.mpr ⟨l, hchecked, hlen, (h.core.fields id n hn).depth, ?_, ht.chain hn⟩
  intro p hp
  exact childrenOf_mem (ht.mem_child hn hp)

theorem Sound.nodeValid (h : Sound blake3 g) (hn : g.nodes[id]? = some n) :
    NodeValid blake3 g id n := by
  have hf := h.core.fields id n hn
  refine ⟨hf.validId, hf.validAgent, hf.validCapsule, hf.validBudget, hf.validTask, hf.validPolicy,
    hf.validExpected, hf.validParentTask, validateContext_of (h.contexts id n hn), hf.pathCount,
    validatePathClaims_of hf.pathValid hf.pathNodup (by simp), hf.key, ?_, ?_, h.placement hn⟩
  · unfold validateFence
    rw [if_neg]
    cases hfence : n.executionFence with
    | none => simp
    | some f => simp [hf.fence f hfence]
  · unfold validateDeliveryAttempt
    rw [if_neg]
    cases hattempt : n.deliveryAttempt with
    | none => simp
    | some a =>
      obtain ⟨⟨hlow, hhigh⟩, hstarted, hfence⟩ := hf.delivery a hattempt
      simp [hlow, hhigh, hstarted, hfence]

theorem Sound.children (h : Sound blake3 g) {p : String} {l : List String}
    (hl : g.children[p]? = some l) : validateChildren g (p, l) = .ok () := by
  have ht := h.bookkept.tree
  obtain ⟨hmem, hlen⟩ := h.core.childKeys p l hl
  obtain ⟨parent, hparent⟩ := (OrdMap.mem_iff _ _).mp hmem
  have hchildren : g.childrenOf p = l := by rw [childrenOf, hl, Option.getD_some]
  obtain ⟨r, hr, hbound⟩ := reservedChildBudget_exists ht h.covered hparent
  refine validateChildren_iff.mpr ⟨parent, hparent, hlen, hchildren ▸ ht.nodup p, ?_, r, hr, ?_, ?_⟩
  · intro c hc
    exact ht.child_mem (hchildren ▸ hc)
  · rw [UInt64.le_iff_toNat_le, WorkNodeBudget.toNat_tokensRemaining]
    exact hbound .tokens
  · rw [UInt64.le_iff_toNat_le, WorkNodeBudget.toNat_costRemaining]
    exact hbound .cost

theorem Sound.pending (h : Sound blake3 g) {c : String} {b : WorkNodeBudget}
    (hb : g.pendingChildBudgets[c]? = some b) : validatePending g (c, b) = .ok () := by
  obtain ⟨hid, htokens, hcost⟩ := h.core.pending c b hb
  have hmem : c ∈ g.pendingChildBudgets := (OrdMap.mem_iff _ _).mpr ⟨b, hb⟩
  unfold validatePending
  simp only [except_seq_eq_ok]
  refine ⟨hid, validateBudget_eq_ok.mpr (by simp [htokens, hcost]), ?_⟩
  rw [if_neg]
  rintro (hnode | hparent)
  · exact h.pendingFresh c hmem hnode
  · exact hparent ((h.bookkept.pendingKeys c).mp hmem)

theorem Sound.receipt (h : Sound blake3 g) {r : String} {x : ChildExecutionReceipt}
    (hx : g.receipts[r]? = some x) : validateStoredReceipt g x = .ok () := by
  obtain ⟨hvalid, n, hn, -, hparent, htokens, hcost, hfence⟩ := h.core.receipts r x hx
  unfold validateStoredReceipt
  rw [except_seq_eq_ok]
  refine ⟨hvalid, ?_⟩
  simp only [hn]
  rw [if_neg]
  rintro (hroot | hne | hne | ⟨hsome, hne⟩)
  · exact hparent (Option.isNone_iff_eq_none.mp hroot)
  · exact hne htokens
  · exact hne hcost
  · exact hne (hfence (Option.isSome_iff_ne_none.mp hsome))

theorem Sound.limits (h : Sound blake3 g) : validateLimits g = .ok () := by
  have hc := h.core
  have hfan := hc.fanOut
  have hdepth := hc.depth
  have hconcurrency := hc.concurrency
  have hactive := hc.active
  have hsize := hc.size
  unfold validateLimits
  rw [if_neg (by omega)]

theorem supportedPath_of (hb : Bookkept g) {receipts : List ChildExecutionReceipt}
    (hreceipts : ∀ x ∈ receipts, ∃ r : String, g.receipts[r]? = some x) (t : OrdSet String) :
    ∃ s, supportedPath g receipts t = .ok s ∧ ∀ y, y ∈ s ↔ y ∈ t ∨ ∃ x ∈ receipts,
      x.outcome = .accepted ∧ x.nodeId ∈ g.acceptedPath ∧ ∃ l, Lineage g x.nodeId l ∧ y ∈ l := by
  induction receipts generalizing t with
  | nil => exact ⟨t, rfl, by simp⟩
  | cons x rest ih =>
    have hrest := fun z hz => hreceipts z (List.mem_cons_of_mem _ hz)
    rw [supportedPath]
    split_ifs with hx
    · obtain ⟨r, hr⟩ := hreceipts x (by simp)
      obtain ⟨n, hn, -⟩ := hb.receipted hr
      obtain ⟨l, hl, -, hchecked, -⟩ := hb.tree.walks hn
      obtain ⟨s, hs, hmem⟩ := ih hrest (l.foldl (fun s id => s.insert id) t)
      refine ⟨s, by rw [hchecked]; exact hs, fun y => ?_⟩
      rw [hmem, mem_foldl_insert, or_assoc]
      refine or_congr_right ⟨?_, ?_⟩
      · rintro (hy | ⟨z, hz, h⟩)
        · exact ⟨x, by simp, hx.1, hx.2, l, hl, hy⟩
        · exact ⟨z, by simp [hz], h⟩
      · rintro ⟨z, hz, h1, h2, lz, hlz, hy⟩
        rcases List.mem_cons.mp hz with rfl | hz
        · exact .inl (hl.unique hlz ▸ hy)
        · exact .inr ⟨z, hz, h1, h2, lz, hlz, hy⟩
    · obtain ⟨s, hs, hmem⟩ := ih hrest t
      refine ⟨s, hs, fun y => ?_⟩
      rw [hmem]
      refine or_congr_right ⟨?_, ?_⟩
      · rintro ⟨z, hz, h⟩
        exact ⟨z, by simp [hz], h⟩
      · rintro ⟨z, hz, h1, h2, h⟩
        rcases List.mem_cons.mp hz with rfl | hz
        · exact absurd ⟨h1, h2⟩ hx
        · exact ⟨z, hz, h1, h2, h⟩

theorem Sound.acceptedPath (h : Sound blake3 g) : validateAcceptedPath g = .ok () := by
  have hreceipts : ∀ x ∈ g.receipts.toList.map (·.2), ∃ r : String, g.receipts[r]? = some x := by
    intro x hx
    obtain ⟨entry, hentry, rfl⟩ := List.mem_map.mp hx
    exact ⟨entry.1, Std.ExtTreeMap.mem_toList_iff_getElem?_eq_some.mp hentry⟩
  obtain ⟨s, hs, hmem⟩ := supportedPath_of h.bookkept hreceipts ∅
  have heq : s = g.acceptedPath := by
    refine Std.ExtTreeSet.ext_mem fun y => ?_
    rw [hmem]
    constructor
    · rintro (hempty | ⟨x, -, -, hpath, l, hl, hy⟩)
      · simp at hempty
      · exact h.accepted.closed x.nodeId hpath l hl y hy
    · intro hy
      obtain ⟨r, x, l, hr, hok, hpath, hl, hyl⟩ := h.accepted.supported y hy
      refine .inr ⟨x, ?_, hok, hpath, l, hl, hyl⟩
      exact List.mem_map.mpr ⟨(r, x), Std.ExtTreeMap.mem_toList_iff_getElem?_eq_some.mpr hr, rfl⟩
  unfold validateAcceptedPath
  rw [except_seq_eq_ok, forM_except_eq_ok]
  constructor
  · intro x hx
    rw [if_pos (h.accepted.mem_nodes (Std.ExtTreeSet.mem_toList.mp hx))]
  · rw [hs]
    exact if_pos heq

/-! ## Chain sums -/

/-- What the validator's loop adds to its totals. -/
structure SumsTo (acc t : ChainTotals) (granted spent : Meter → ℕ) (depths : ℕ → Prop) : Prop where
  allocated : ∀ m : Meter, m.total t.allocated = m.total acc.allocated + granted m
  consumed : ∀ m : Meter, m.total t.consumed = m.total acc.consumed + spent m
  unauthorized : t.unauthorized = acc.unauthorized
  depth : ∀ b, t.depth ≤ b ↔ acc.depth ≤ b ∧ ∀ d, depths d → d ≤ b

/-- There is room for what a step adds. -/
def Room (acc : ChainTotals) (granted spent : Meter → ℕ) : Prop :=
  ∀ m : Meter, m.total acc.allocated + granted m ≤ u64Max ∧ m.total acc.consumed + spent m ≤ u64Max

theorem sumsTo_foldlM {α : Type} {f : ChainTotals → α → Except WorkGraphError ChainTotals}
    {granted spent : Meter → α → ℕ} {depths : α → ℕ → Prop} (l : List α)
    (hstep : ∀ a ∈ l, ∀ acc, Room acc (fun m => granted m a) (fun m => spent m a) →
      ∃ t, f acc a = .ok t ∧ SumsTo acc t (fun m => granted m a) (fun m => spent m a) (depths a))
    (acc : ChainTotals)
    (hroom : Room acc (fun m => (l.map (granted m)).sum) (fun m => (l.map (spent m)).sum)) :
    ∃ t, l.foldlM f acc = .ok t ∧ SumsTo acc t (fun m => (l.map (granted m)).sum)
      (fun m => (l.map (spent m)).sum) (fun d => ∃ a ∈ l, depths a d) := by
  induction l generalizing acc with
  | nil => exact ⟨acc, rfl, fun _ => rfl, fun _ => rfl, rfl, by simp⟩
  | cons a l ih =>
    simp only [List.map_cons, List.sum_cons] at hroom ⊢
    have hfirst : Room acc (fun m => granted m a) (fun m => spent m a) := fun m => by
      have := hroom m
      dsimp only at this ⊢
      omega
    obtain ⟨t, ht, hsum⟩ := hstep a (by simp) acc hfirst
    have hrest : Room t (fun m => (l.map (granted m)).sum) (fun m => (l.map (spent m)).sum) :=
      fun m => by
        have := hroom m
        rw [hsum.allocated, hsum.consumed]
        dsimp only at this ⊢
        omega
    obtain ⟨t', ht', hsum'⟩ := ih (fun x hx => hstep x (List.mem_cons_of_mem _ hx)) t hrest
    refine ⟨t', ?_, ?_, ?_, hsum'.unauthorized.trans hsum.unauthorized, ?_⟩
    · rw [List.foldlM_cons, ht]
      exact ht'
    · intro m
      rw [hsum'.allocated, hsum.allocated, Nat.add_assoc]
    · intro m
      rw [hsum'.consumed, hsum.consumed, Nat.add_assoc]
    · intro b
      rw [hsum'.depth, hsum.depth]
      constructor
      · rintro ⟨⟨hacc, ha⟩, hl⟩
        refine ⟨hacc, ?_⟩
        rintro d ⟨x, hx, hd⟩
        rcases List.mem_cons.mp hx with rfl | hx
        · exact ha d hd
        · exact hl d ⟨x, hx, hd⟩
      · rintro ⟨hacc, hall⟩
        exact ⟨⟨hacc, fun d hd => hall d ⟨a, by simp, hd⟩⟩,
          fun d ⟨x, hx, hd⟩ => hall d ⟨x, List.mem_cons_of_mem _ hx, hd⟩⟩

/-- An entry of another chain adds nothing. -/
theorem sumsTo_refl {acc : ChainTotals} {granted spent : Meter → ℕ} {depths : ℕ → Prop}
    (hgranted : ∀ m, granted m = 0) (hspent : ∀ m, spent m = 0) (hdepths : ∀ d, ¬ depths d) :
    SumsTo acc acc granted spent depths :=
  ⟨fun m => by rw [hgranted, Nat.add_zero], fun m => by rw [hspent, Nat.add_zero], rfl,
    fun b => ⟨fun h => ⟨h, fun d hd => absurd hd (hdepths d)⟩, fun h => h.1⟩⟩

theorem chainNodeTotals_sumsTo (ht : Tree g) (hfailed : g.failedSpend = ∅) (c : String)
    (hn : g.nodes[id]? = some n) (acc : ChainTotals) (hroom : Room acc
      (fun m => if g.chainIdForNode id = some c then m.granted n.budget else 0)
      (fun m => if g.chainIdForNode id = some c then m.spent n.budget else 0)) :
    ∃ t, chainNodeTotals g c acc n = .ok t ∧ SumsTo acc t
      (fun m => if g.chainIdForNode id = some c then m.granted n.budget else 0)
      (fun m => if g.chainIdForNode id = some c then m.spent n.budget else 0)
      (fun d => g.chainIdForNode id = some c ∧ d = n.depth) := by
  obtain ⟨lineage, -, -, hchecked, -, hchain⟩ := ht.walks hn
  have hkey := ht.key hn
  by_cases hc : g.chainIdForNode id = some c
  · have hhead : ¬ lineage.head? ≠ some c := by simpa [hchain] using hc
    simp only [if_pos hc] at hroom ⊢
    obtain ⟨allocated, hallocated⟩ := addTotals_granted_exists fun m => (hroom m).1
    obtain ⟨consumed, hconsumed⟩ := addTotals_spent_exists fun m => (hroom m).2
    refine ⟨⟨allocated, consumed, acc.unauthorized, max acc.depth n.depth⟩, ?_,
      fun m => addTotals_granted hallocated, fun m => addTotals_spent hconsumed, rfl, ?_⟩
    · simp [chainNodeTotals, hkey, hchecked, hhead, hallocated, hconsumed, hfailed, bind,
        Except.bind]
    · simp [hc]
  · have hhead : lineage.head? ≠ some c := by simpa [hchain] using hc
    refine ⟨acc, ?_, sumsTo_refl (fun _ => if_neg hc) (fun _ => if_neg hc) fun d hd => hc hd.1⟩
    simp [chainNodeTotals, hkey, hchecked, hhead, bind, Except.bind]

theorem chainPendingTotals_sumsTo (hb : Bookkept g) (c x : String) (b : WorkNodeBudget)
    (acc : ChainTotals) (hroom : Room acc
      (fun m => if g.pendingChain x = some c then m.granted b else 0) (fun _ => 0)) :
    ∃ t, chainPendingTotals g c acc (x, b) = .ok t ∧ SumsTo acc t
      (fun m => if g.pendingChain x = some c then m.granted b else 0) (fun _ => 0)
      (fun d => ∃ (p : String) (parent : WorkNode), g.pendingChildParents[x]? = some p ∧
        g.nodes[p]? = some parent ∧ g.chainIdForNode p = some c ∧ d = parent.depth + 1) := by
  cases hp : g.pendingChildParents[x]? with
  | none =>
    have hc : ¬ g.pendingChain x = some c := by simp [pendingChain, hp]
    refine ⟨acc, by simp [chainPendingTotals, hp], sumsTo_refl (fun _ => if_neg hc)
      (fun _ => rfl) ?_⟩
    rintro d ⟨p, parent, hparent, -⟩
    cases hparent
  | some p =>
    obtain ⟨parent, hparent⟩ := (OrdMap.mem_iff _ _).mp (hb.pendingParent hp)
    obtain ⟨lineage, -, -, hchecked, -, hchain⟩ := hb.tree.walks hparent
    have hown : g.pendingChain x = g.chainIdForNode p := pendingChain_of_parent hp
    rw [hown] at hroom ⊢
    by_cases hc : g.chainIdForNode p = some c
    · have hhead : ¬ lineage.head? ≠ some c := by simpa [hchain] using hc
      simp only [if_pos hc] at hroom ⊢
      obtain ⟨allocated, hallocated⟩ := addTotals_granted_exists fun m => (hroom m).1
      refine ⟨{ acc with allocated, depth := max acc.depth (parent.depth + 1) }, ?_,
        fun m => addTotals_granted hallocated, fun m => rfl, rfl, ?_⟩
      · simp [chainPendingTotals, hp, hchecked, hhead, hparent, hallocated, bind, Except.bind]
      · intro b
        dsimp only
        rw [max_le_iff]
        refine and_congr_right fun _ => ⟨?_, fun h => h _ ⟨p, parent, rfl, hparent, hc, rfl⟩⟩
        rintro hle d ⟨q, parent', hq, hparent', -, rfl⟩
        obtain rfl := Option.some.inj hq
        obtain rfl := Option.some.inj (hparent.symm.trans hparent')
        exact hle
    · have hhead : lineage.head? ≠ some c := by simpa [hchain] using hc
      refine ⟨acc, ?_, sumsTo_refl (fun _ => if_neg hc) (fun _ => rfl) ?_⟩
      · simp [chainPendingTotals, hp, hchecked, hhead, bind, Except.bind]
      · rintro d ⟨q, parent', hq, -, hchain', -⟩
        obtain rfl := Option.some.inj hq
        exact hc hchain'

theorem chainAllocated_le (m : Meter) (chain : ChainBudget) : m.chainAllocated chain ≤ u64Max := by
  cases m <;> exact toNat_le_u64Max _

theorem chainConsumed_le (m : Meter) (chain : ChainBudget) : m.chainConsumed chain ≤ u64Max := by
  cases m <;> exact toNat_le_u64Max _

/-- Both loops of the validator over one chain, with what they sum up. -/
theorem ChainExact.totals {c : String} {chain : ChainBudget} (h : ChainExact g c chain)
    (hb : Bookkept g) (hfailed : g.failedSpend = ∅) :
    ∃ t t', (g.nodes.toList.map (·.2)).foldlM (chainNodeTotals g c) ⟨(0, 0), (0, 0), (0, 0), 0⟩ =
        .ok t ∧ g.pendingChildBudgets.toList.foldlM (chainPendingTotals g c) t = .ok t' ∧
      (∀ m : Meter, m.total t'.allocated = m.chainAllocated chain) ∧
      (∀ m : Meter, m.total t'.consumed = m.chainConsumed chain) ∧ t'.unauthorized = (0, 0) ∧
      t'.depth = chain.depth := by
  have hzero (m : Meter) : m.total (0, 0) = 0 := by cases m <;> rfl
  have hroom : Room ⟨(0, 0), (0, 0), (0, 0), 0⟩
      (fun m => chainSum (fun n => m.granted n.budget) g c)
      (fun m => chainSum (fun n => m.spent n.budget) g c) := fun m => by
    have hallocated := chainAllocated_le m chain
    have hconsumed := chainConsumed_le m chain
    rw [h.allocated m] at hallocated
    rw [h.consumed m] at hconsumed
    dsimp only
    rw [hzero]
    omega
  obtain ⟨t, ht, hsum⟩ := sumsTo_foldlM (f := fun acc p => chainNodeTotals g c acc p.2)
    g.nodes.toList (fun p hp acc => chainNodeTotals_sumsTo hb.tree hfailed c
      (Std.ExtTreeMap.mem_toList_iff_getElem?_eq_some.mp hp) acc) _ hroom
  have hroom' : Room t (fun m => chainPending m g c)
      (fun _ => (g.pendingChildBudgets.toList.map fun _ => 0).sum) := fun m => by
    have hallocated := chainAllocated_le m chain
    have hconsumed := chainConsumed_le m chain
    rw [h.allocated m] at hallocated
    rw [h.consumed m] at hconsumed
    rw [hsum.allocated m, hsum.consumed m]
    dsimp only
    rw [hzero, List.sum_map_zero]
    exact ⟨by rw [Nat.zero_add]; exact hallocated, by rw [Nat.zero_add]; exact hconsumed⟩
  obtain ⟨t', ht', hsum'⟩ := sumsTo_foldlM g.pendingChildBudgets.toList
    (fun p _ acc => chainPendingTotals_sumsTo hb c p.1 p.2 acc) t hroom'
  refine ⟨t, t', ?_, ht', ?_, ?_, ?_, ?_⟩
  · rw [List.foldlM_map]
    exact ht
  · intro m
    rw [hsum'.allocated, hsum.allocated, h.allocated, hzero, Nat.zero_add]
    rfl
  · intro m
    rw [hsum'.consumed, hsum.consumed, h.consumed, hzero, Nat.zero_add, List.sum_map_zero]
    rfl
  · rw [hsum'.unauthorized, hsum.unauthorized]
  · obtain ⟨⟨x, nx, hx, hchain, hd⟩, hupper⟩ := h.depth
    refine le_antisymm ?_ ?_
    · rw [hsum'.depth, hsum.depth]
      refine ⟨⟨Nat.zero_le _, ?_⟩, ?_⟩
      · rintro d ⟨p, hp, hc, rfl⟩
        exact hupper ⟨p.1, p.2, Std.ExtTreeMap.mem_toList_iff_getElem?_eq_some.mp hp, hc, .inl rfl⟩
      · rintro d ⟨p, -, q, parent, hq, hparent, hc, rfl⟩
        exact hupper ⟨q, parent, hparent, hc, .inr ⟨rfl, p.1, hq⟩⟩
    · obtain ⟨hle, hpending⟩ := (hsum'.depth _).mp le_rfl
      obtain ⟨-, hnodes⟩ := (hsum.depth _).mp hle
      rcases hd with hd | ⟨hd, y, hy⟩
      · rw [hd]
        exact hnodes _ ⟨(x, nx), Std.ExtTreeMap.mem_toList_iff_getElem?_eq_some.mpr hx, hchain, rfl⟩
      · rw [hd]
        obtain ⟨b, hbudget⟩ := (OrdMap.mem_iff _ _).mp
          ((hb.pendingKeys y).mpr ((OrdMap.mem_iff _ _).mpr ⟨x, hy⟩))
        exact hpending _ ⟨(y, b), Std.ExtTreeMap.mem_toList_iff_getElem?_eq_some.mpr hbudget, x, nx,
          hy, hx, hchain, rfl⟩

theorem Sound.chain (h : Sound blake3 g) {c : String} {chain : ChainBudget}
    (hc : g.chainBudgets[c]? = some chain) : validateChain g (c, chain) = .ok () := by
  have hexact := h.chains c chain hc
  obtain ⟨r, hr, hrp, hroot⟩ := hexact.root
  obtain ⟨t, t', ht, ht', hallocated, hconsumed, hunauthorized, hdepth⟩ :=
    hexact.totals h.bookkept h.core.failedSpend
  obtain ⟨hzero, hzero'⟩ := hexact.authorized
  have hwithin := hexact.within
  unfold validateChain
  simp only [hr, Option.filter_some, hrp, Option.isNone_none, if_true, ht, ht', bind, Except.bind]
  rw [if_neg]
  have htokens : t'.consumed.1 ≤ chain.rootBudgetTokens :=
    UInt64.le_iff_toNat_le.mpr ((hconsumed .tokens).trans_le (hwithin .tokens))
  have hcost : t'.consumed.2 ≤ chain.rootBudgetCostMicros :=
    UInt64.le_iff_toNat_le.mpr ((hconsumed .cost).trans_le (hwithin .cost))
  have hrootTokens : r.budget.tokensAllocated = chain.rootBudgetTokens :=
    UInt64.toNat_inj.mp (hroot .tokens)
  have hrootCost : r.budget.costMicrosAllocated = chain.rootBudgetCostMicros :=
    UInt64.toNat_inj.mp (hroot .cost)
  have hallocatedTokens : t'.allocated.1 = chain.totalAllocatedTokens :=
    UInt64.toNat_inj.mp (hallocated .tokens)
  have hallocatedCost : t'.allocated.2 = chain.totalAllocatedCostMicros :=
    UInt64.toNat_inj.mp (hallocated .cost)
  have hconsumedTokens : t'.consumed.1 = chain.totalConsumedTokens :=
    UInt64.toNat_inj.mp (hconsumed .tokens)
  have hconsumedCost : t'.consumed.2 = chain.totalConsumedCostMicros :=
    UInt64.toNat_inj.mp (hconsumed .cost)
  have hover : ¬ t'.consumed.1 > chain.rootBudgetTokens := UInt64.not_lt.mpr htokens
  have hover' : ¬ t'.consumed.2 > chain.rootBudgetCostMicros := UInt64.not_lt.mpr hcost
  rintro (h | h | h | h | h | h | h | h | h | h | h | h)
  · exact h hexact.chainId
  · exact h hrootTokens.symm
  · exact h hrootCost.symm
  · exact h hallocatedTokens.symm
  · exact h hallocatedCost.symm
  · exact h hconsumedTokens.symm
  · exact h hconsumedCost.symm
  · exact h (by rw [hunauthorized, hzero])
  · exact h (by rw [hunauthorized, hzero'])
  · exact h hdepth.symm
  · exact hover h
  · exact hover' h

theorem Sound.validated (h : Sound blake3 g) : Validated blake3 g where
  reaped id f hf := by
    obtain ⟨n, hn, hstarted, hfence, -⟩ := h.core.reaped id f hf
    simp [validateReaped, hn, hstarted, hfence]
  graphId := h.core.graphId
  limits := h.limits
  nodes id n hn := validateNode_iff.mpr (h.nodeValid hn)
  children p l hl := h.children hl
  pending c b hb := h.pending hb
  receipts r x hx := h.receipt hx
  failedSpend id x hx := by simp [h.core.failedSpend] at hx
  acceptedPath := h.acceptedPath
  chains c chain hc := h.chain hc

/-! ## Writes -/

theorem sound_new (a b : ℕ) : Sound blake3 (new a b) := by
  refine ⟨bookkept_new a b, covered_new a b, core_new a b, chainsExact_new a b, ⟨?_, ?_⟩, ?_, ?_⟩
  · intro x hx
    simp [new] at hx
  · intro x hx
    simp [new] at hx
  · intro c hc
    simp [new] at hc
  · intro x n hn
    simp [new] at hn

/-- The parts of soundness that every write keeps. -/
theorem Sound.write (h : Sound blake3 g) (hwrite : Write blake3 g g') (hchains : ChainsExact g')
    (hfresh : PendingFresh g') (hcontexts : ContextsInherited g') : Sound blake3 g' where
  bookkept := h.bookkept.write hwrite
  covered := by
    cases hwrite with
    | change hc => exact h.covered.change h.bookkept hc
    | start hs => exact h.covered.start h.bookkept hs
  core := h.core.write h.bookkept h.covered hwrite
  chains := hchains
  accepted := h.accepted.write h.bookkept (hwrite.nodesChange h.covered).grows hwrite
  pendingFresh := hfresh
  contexts := hcontexts

theorem Sound.shaped (h : Sound blake3 g) (hwrite : Write blake3 g g') (hshape : UpdateShape g g') :
    Sound blake3 g' := by
  have hnodes := hwrite.nodesChange h.covered
  refine h.write hwrite ?_ (hshape.pendingFresh h.pendingFresh) ?_
  · exact hshape.exact h.bookkept (h.bookkept.tree.write hwrite) hnodes.grows h.chains
  · exact h.contexts.write h.bookkept h.core hnodes fun x m m' hm hm' hp => hshape.context hm hm' hp

theorem Sound.update (h : Sound blake3 g) (hu : Update blake3 g g') : Sound blake3 g' :=
  h.shaped (.change (.update hu)) hu.shape

theorem Sound.start (h : Sound blake3 g) (hs : Start g g') : Sound blake3 g' :=
  h.shaped (.start hs) hs.shape

theorem Sound.updates (h : Sound blake3 g) (hu : Updates blake3 g g') : Sound blake3 g' := by
  induction hu with
  | refl => exact h
  | tail _ hstep ih => exact ih.update hstep

def Unspent (b : WorkNodeBudget) : Prop := b.tokensConsumed = 0 ∧ b.costMicrosConsumed = 0

theorem Unspent.spent {b : WorkNodeBudget} (h : Unspent b) (m : Meter) : m.spent b = 0 := by
  cases m
  · simp [Meter.spent, h.1]
  · simp [Meter.spent, h.2]

/-- A new grant, in the place of what was reserved for the child, still fits the record of
the parent's chain. -/
def AllocationFits (g : BoundedWorkGraph) (parentId childId : String) (budget : WorkNodeBudget) :
    Prop :=
  ∀ (chainId : String) (chain : ChainBudget), g.chainIdForNode parentId = some chainId →
    g.chainBudgets[chainId]? = some chain → ∀ m : Meter,
      m.chainAllocated chain - m.granted (g.reservedFor childId) + m.granted budget ≤ u64Max

/-- The children of a node that have a context carry this task and policy. -/
def ContextAgrees (g : BoundedWorkGraph) (nodeId taskRef policyRef : String) : Prop :=
  ∀ (x : String) (child : WorkNode), g.nodes[x]? = some child →
    child.parentNodeId = some nodeId → child.taskRef ≠ "" →
    child.parentTaskRef = some taskRef ∧ child.policyRef = policyRef

theorem Sound.root (h : Sound blake3 g) {nodeId agentId capsuleRef : String}
    {budget : WorkNodeBudget} (hallowed : RootAdmitted g nodeId agentId capsuleRef budget)
    (hunspent : Unspent budget) (hsafe : nodeId ∉ g.pendingChildBudgets) :
    Sound blake3 (g.insertRoot (freshNode nodeId agentId none capsuleRef .active budget 0)) := by
  refine h.write (.change (.root hallowed)) (hallowed.exact h.bookkept h.chains hunspent.spent) ?_ ?_
  · intro c hc hmem
    rcases Std.ExtTreeMap.mem_insert.mp hmem with heq | hmem
    · rw [Std.compare_eq_iff_eq] at heq
      exact hsafe (by rw [show nodeId = c from heq]; exact hc)
    · exact h.pendingFresh c hc hmem
  · exact h.contexts.added hallowed.fresh rfl rfl

theorem Sound.child (h : Sound blake3 g) {parentId childId agentId capsuleRef chainId : String}
    {budget : WorkNodeBudget} {status : NodeStatus} {parent : WorkNode} {reserved : Totals}
    (hallowed : ChildAdmitted g parentId childId agentId capsuleRef budget status parent reserved
      chainId) (hunspent : Unspent budget) (hsafe : AllocationFits g parentId childId budget) :
    Sound blake3 (g.childInserted parentId (freshNode childId agentId (some parentId) capsuleRef
      status budget (parent.depth + 1)) chainId) := by
  obtain ⟨r, root, hr, -, -, hmem⟩ := h.bookkept.tree.chainId hallowed.getParent
  obtain rfl := Option.some.inj (hallowed.getChainId.symm.trans hr)
  obtain ⟨chain, hchain⟩ := (OrdMap.mem_iff _ _).mp hmem
  refine h.write (.change (.child hallowed)) (hallowed.exact h.bookkept h.chains hunspent.spent hchain
    (hsafe _ chain hr hchain)) ?_ ?_
  · intro c hc hnode
    rw [childInserted_budgets, Std.ExtTreeMap.mem_erase] at hc
    rw [childInserted_nodes, Std.ExtTreeMap.mem_insert, Std.compare_eq_iff_eq] at hnode
    obtain ⟨hne, hc⟩ := hc
    rcases hnode with heq | hnode
    · exact hne (Std.compare_eq_iff_eq.mpr heq)
    · exact h.pendingFresh c hc hnode
  · exact h.contexts.added hallowed.fresh (childInserted_nodes _ _ _ _) rfl

theorem Sound.reservation (h : Sound blake3 g) {parentId childId chainId : String}
    {budget : WorkNodeBudget} {parent : WorkNode} {reserved : Totals}
    (hallowed : ReservationAdmitted g parentId childId budget parent reserved chainId)
    (hsafe : AllocationFits g parentId childId budget) :
    Sound blake3 (g.reservationAdded parentId childId budget chainId (parent.depth + 1)) := by
  obtain ⟨r, root, hr, -, -, hmem⟩ := h.bookkept.tree.chainId hallowed.getParent
  obtain rfl := Option.some.inj (hallowed.getChainId.symm.trans hr)
  obtain ⟨chain, hchain⟩ := (OrdMap.mem_iff _ _).mp hmem
  refine h.write (.change (.reservation hallowed)) (hallowed.exact h.bookkept h.chains hchain
    (hsafe _ chain hr hchain)) ?_ (h.contexts.congr (reservationAdded_nodes _ _ _ _ _ _))
  intro c hc hnode
  rw [reservationAdded_budgets, Std.ExtTreeMap.mem_insert, Std.compare_eq_iff_eq] at hc
  rw [reservationAdded_nodes] at hnode
  rcases hc with rfl | hc
  · exact hallowed.fresh hnode
  · exact h.pendingFresh c hc hnode

theorem Sound.rootContext (h : Sound blake3 g)
    {nodeId taskRef policyRef expectedOutcomeRef : String} {node : WorkNode}
    (hn : g.nodes[nodeId]? = some node) (hp : node.parentNodeId = none)
    (htask : validateIdentifier taskRef "task_ref" = .ok ())
    (hpolicy : validateIdentifier policyRef "policy_ref" = .ok ())
    (hexpected : validateIdentifier expectedOutcomeRef "expected_outcome_ref" = .ok ())
    (hsafe : ContextAgrees g nodeId taskRef policyRef) :
    Sound blake3 (g.setNode nodeId (rootContextNode node taskRef policyRef expectedOutcomeRef)) := by
  have hwrite : Write blake3 g
      (g.setNode nodeId (rootContextNode node taskRef policyRef expectedOutcomeRef)) :=
    .change (.rootContext hn hp htask hpolicy hexpected)
  have hgrow := (hwrite.nodesChange h.covered).grows
  have hbudget : (rootContextNode node taskRef policyRef expectedOutcomeRef).budget =
    node.budget := rfl
  refine h.write hwrite ?_ ?_ ?_
  · exact h.chains.kept h.bookkept (h.bookkept.tree.write hwrite) hgrow hn rfl rfl rfl hbudget rfl
  · intro c hc hmem
    exact h.pendingFresh c hc (mem_of_mem_insert hn hmem)
  · refine h.contexts.rewritten rfl ?_ fun x m _ hm hparent hset => hsafe x m hm hparent hset
    intro p hparent
    change node.parentNodeId = some p at hparent
    rw [hp] at hparent
    cases hparent

end BoundedWorkGraph

/-! ## Calls -/

namespace GraphOp

open BoundedWorkGraph

/-- Every budget passed in is unspent. -/
def Unspent : GraphOp → Prop
  | addRoot _ _ _ budget | delegate _ _ _ _ budget | queueChild _ _ _ _ budget =>
    BoundedWorkGraph.Unspent budget
  | _ => True

/-- When a successful call keeps the validator satisfied. -/
def Safe (g : BoundedWorkGraph) : GraphOp → Prop
  | addRoot nodeId _ _ _ => nodeId ∉ g.pendingChildBudgets
  | delegate parentId childId _ _ budget | queueChild parentId childId _ _ budget =>
    AllocationFits g parentId childId budget
  | allocateChildBudget parentId childId fraction => ∀ (parent : WorkNode) (reserved : Totals),
    g.nodes[parentId]? = some parent → g.reservedChildBudget parentId (some childId) = .ok reserved →
      AllocationFits g parentId childId (reservationBudget parent reserved fraction)
  | configureRootContext nodeId taskRef policyRef _ => ContextAgrees g nodeId taskRef policyRef
  | _ => True

end GraphOp

namespace BoundedWorkGraph

variable {g g' : BoundedWorkGraph} {blake3 : String → String}

theorem discard_ok {α : Type} {m : GraphM α} (h : Functor.discard m g = .ok () g') :
    ∃ a, m g = .ok a g' := by
  change (m >>= fun _ => pure ()) g = .ok () g' at h
  simp only [bind, EStateM.bind] at h
  cases hm : m g with
  | ok a s =>
    simp only [hm, pure, EStateM.pure] at h
    cases h
    exact ⟨a, rfl⟩
  | error e s =>
    simp only [hm] at h
    cases h

theorem Sound.call (h : Sound blake3 g) (op : GraphOp) (hunspent : op.Unspent)
    (hrun : op.run blake3 g = .ok () g') (hsafe : op.Safe g) : Sound blake3 g' := by
  have ht := h.bookkept.tree
  by_cases hstarts : op.starts
  · cases op with
    | claimOrResumeActiveUntil nodeId lease =>
      obtain ⟨a, hrun⟩ := discard_ok hrun
      obtain ⟨mid, before, node, -, -, -, hmid, hstart, rfl, rfl⟩ :=
        (claimOrResumeActiveUntil_outcome blake3 nodeId lease).of_ok hrun
      have hmidSound : Sound blake3 mid := by
        rcases hmid with rfl | hclaim
        · exact h
        · exact h.update hclaim
      exact hmidSound.start (.mk hstart)
    | _ => exact hstarts.elim
  · by_cases hshape : op.reshapes
    · cases op with
      | addRoot nodeId agentId capsuleRef budget =>
        obtain ⟨a, hrun⟩ := discard_ok hrun
        obtain ⟨hallowed, rfl⟩ := (addRoot_outcome nodeId agentId capsuleRef budget).of_ok hrun
        exact h.root hallowed hunspent hsafe
      | delegate parentId childId agentId capsuleRef budget =>
        obtain ⟨a, hrun⟩ := discard_ok hrun
        obtain ⟨parent, reserved, chainId, hallowed, rfl⟩ := (insertChild_outcome ht parentId childId
          agentId capsuleRef budget .active (.inl rfl)).of_ok hrun
        exact h.child hallowed hunspent hsafe
      | queueChild parentId childId agentId capsuleRef budget =>
        obtain ⟨a, hrun⟩ := discard_ok hrun
        obtain ⟨parent, reserved, chainId, hallowed, rfl⟩ := (insertChild_outcome ht parentId childId
          agentId capsuleRef budget .pending (.inr rfl)).of_ok hrun
        exact h.child hallowed hunspent hsafe
      | allocateChildBudget parentId childId fraction =>
        obtain ⟨a, hrun⟩ := discard_ok hrun
        obtain ⟨parent, reserved, chainId, rfl, hallowed, rfl⟩ :=
          (allocateChildBudget_outcome ht parentId childId fraction).of_ok hrun
        exact h.reservation hallowed (hsafe parent reserved hallowed.getParent hallowed.getReserved)
      | configureRootContext nodeId taskRef policyRef expectedOutcomeRef =>
        obtain ⟨htask, hpolicy, hexpected, node, hn, hp, rfl⟩ :=
          (configureRootContext_outcome nodeId taskRef policyRef expectedOutcomeRef).of_ok hrun
        exact h.rootContext hn hp htask hpolicy hexpected hsafe
      | _ => exact hshape.elim
    · exact h.updates ((run_updates blake3 ht op hshape hstarts).of_ok hrun)

/-- The graphs reached from a new one by calls with unspent budgets, each of which fails or
is safe where it is made. -/
inductive SafeRun (blake3 : String → String) : BoundedWorkGraph → Prop
  | new (maxFanOut maxDepth : ℕ) : SafeRun blake3 (new maxFanOut maxDepth)
  | call {g : BoundedWorkGraph} (h : SafeRun blake3 g) (op : GraphOp) (hunspent : op.Unspent)
      (hsafe : ∀ g', op.run blake3 g = .ok () g' → op.Safe g) :
      SafeRun blake3 (finalState (op.run blake3) g)

theorem SafeRun.sound (h : SafeRun blake3 g) : Sound blake3 g := by
  induction h with
  | new a b => exact sound_new a b
  | @call g _ op hunspent hsafe ih =>
    cases hrun : op.run blake3 g with
    | ok a g' =>
      rw [show finalState (op.run blake3) g = g' by rw [finalState, hrun]]
      exact ih.call op hunspent hrun (hsafe g' hrun)
    | error e g' =>
      have houtcome := (run_writes blake3 ih.bookkept.tree op).of_error hrun
      rw [show finalState (op.run blake3) g = g' by rw [finalState, hrun]]
      cases e with
      | err e =>
        rw [show g' = g from houtcome]
        exact ih
      | panic message => exact houtcome.elim

/-- The validator is an invariant of safe calls: in every run whose calls are safe where they
are made, every graph reached passes it. -/
theorem safe_run_validates (blake3 : String → String) {g : BoundedWorkGraph}
    (h : SafeRun blake3 g) : validateInvariants blake3 g = .ok () :=
  validateInvariants_iff.mpr h.sound.validated

/-- A root and one child that takes forty of its hundred. -/
def delegationCalls : List GraphOp :=
  [.addRoot "root" "lead" "capsule:1" ⟨100, 0, 100, 0⟩,
    .delegate "root" "child" "worker" "capsule:2" ⟨40, 0, 40, 0⟩]

theorem safe_run_validates_delegation :
    validateInvariants id (afterCalls id delegationCalls (new 2 2)) = .ok () := by
  have hroot : SafeRun id (afterCalls id (delegationCalls.take 1) (new 2 2)) := by
    refine .call (.new 2 2) (.addRoot "root" "lead" "capsule:1" ⟨100, 0, 100, 0⟩) ⟨rfl, rfl⟩
      fun _ _ => ?_
    change "root" ∉ (new 2 2).pendingChildBudgets
    simp [new]
  have hchain : (afterCalls id (delegationCalls.take 1) (new 2 2)).chainIdForNode "root" =
      some "root" := by decide +kernel
  have hrecord : (afterCalls id (delegationCalls.take 1) (new 2 2)).chainBudgets["root"]? =
      some (freshChain "root" ⟨100, 0, 100, 0⟩) := by decide +kernel
  have hfits : AllocationFits (afterCalls id (delegationCalls.take 1) (new 2 2)) "root" "child"
      ⟨40, 0, 40, 0⟩ := by
    intro chainId chain hid hget m
    obtain rfl := Option.some.inj (hchain.symm.trans hid)
    obtain rfl := Option.some.inj (hrecord.symm.trans hget)
    cases m <;> decide +kernel
  exact safe_run_validates id (.call hroot (.delegate "root" "child" "worker" "capsule:2"
    ⟨40, 0, 40, 0⟩) ⟨rfl, rfl⟩ fun _ _ => hfits)

/-! ## Calls outside the condition -/

/-- A valid graph on which a call succeeds and leaves an invalid one. -/
structure Breaks (calls : List GraphOp) (op : GraphOp) : Prop where
  unspent : ∀ call ∈ op :: calls, call.Unspent
  valid : validateInvariants id (afterCalls id calls (new 2 2)) = .ok ()
  invalid : ∃ g', op.run id (afterCalls id calls (new 2 2)) = .ok () g' ∧
    validateInvariants id g' ≠ .ok ()

def returnsInvalid : EStateM.Result Fault BoundedWorkGraph Unit → Bool
  | .ok _ g => decide (validateInvariants id g ≠ .ok ())
  | .error _ _ => false

theorem exists_of_returnsInvalid {r : EStateM.Result Fault BoundedWorkGraph Unit}
    (h : returnsInvalid r = true) : ∃ g', r = .ok () g' ∧ validateInvariants id g' ≠ .ok () := by
  cases r with
  | ok a g => exact ⟨g, rfl, of_decide_eq_true h⟩
  | error e g => cases h

/-- A reservation for `x`. -/
def reservingCalls : List GraphOp :=
  [.addRoot "root" "lead" "capsule:1" ⟨100, 0, 100, 0⟩,
    .allocateChildBudget "root" "x" fun remaining => remaining / 2]

/-- A child that inherited the context of its root. -/
def inheritingCalls : List GraphOp :=
  [.addRoot "root" "lead" "capsule:1" ⟨100, 0, 100, 0⟩,
    .configureRootContext "root" "task:1" "policy:1" "outcome:1",
    .queueChild "root" "child" "worker" "capsule:2" ⟨40, 0, 40, 0⟩,
    .configureChildContext "child" "task:2" "outcome:2"]

/-- A root with everything 64 bits can hold. -/
def unlimitedCalls : List GraphOp :=
  [.addRoot "root" "lead" "capsule:1" ⟨18446744073709551615, 0, 100, 0⟩]

/-- The reserved id becomes a root; the root changes its task under a configured child; the
chain's total saturates. Each call succeeds, and the validator rejects what it leaves. -/
theorem validator_broken_by_successful_calls :
    Breaks reservingCalls (.addRoot "x" "lead" "capsule:2" ⟨10, 0, 10, 0⟩) ∧
      Breaks inheritingCalls (.configureRootContext "root" "task:3" "policy:1" "outcome:1") ∧
      Breaks unlimitedCalls (.delegate "root" "child" "worker" "capsule:2" ⟨40, 0, 40, 0⟩) := by
  refine ⟨⟨?_, by decide +kernel, exists_of_returnsInvalid (by decide +kernel)⟩,
    ⟨?_, by decide +kernel, exists_of_returnsInvalid (by decide +kernel)⟩,
    ⟨?_, by decide +kernel, exists_of_returnsInvalid (by decide +kernel)⟩⟩
  · simp [reservingCalls, GraphOp.Unspent, Unspent]
  · simp [inheritingCalls, GraphOp.Unspent, Unspent]
  · simp [unlimitedCalls, GraphOp.Unspent, Unspent]

end BoundedWorkGraph

end LeanCtx
