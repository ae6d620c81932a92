import LeanCtx.WorkGraphInvariant
import LeanCtx.Ledger

/-!
# Budget conservation in a work graph

A graph is a ledger for tokens and a ledger for cost. The reservation traversal
of the source computes the commitments of the ledger, whatever depth they are
cut off at, and every write keeps the ledger covered: at each node, spending
and commitments stay within the allocation. Conservation along the tree is then
the conservation theorem of ledgers.
-/

namespace LeanCtx

variable {g g' : BoundedWorkGraph} {blake3 : String → String}

/-- The two resources a budget accounts for. -/
inductive Meter
  | tokens | cost
  deriving DecidableEq, Repr

namespace Meter

def granted : Meter → WorkNodeBudget → ℕ
  | tokens, b => b.tokensAllocated.toNat
  | cost, b => b.costMicrosAllocated.toNat

def spent : Meter → WorkNodeBudget → ℕ
  | tokens, b => b.tokensConsumed.toNat
  | cost, b => b.costMicrosConsumed.toNat

def total : Meter → BoundedWorkGraph.Totals → ℕ
  | tokens, t => t.1.toNat
  | cost, t => t.2.toNat

end Meter

namespace BoundedWorkGraph

variable {m : Meter}

/-- The total reserved for children whose parent is `p`, one child left out. -/
def heldExcept (m : Meter) (g : BoundedWorkGraph) (ex : Option String) (p : String) : ℕ :=
  OrdMap.mapSum (fun c b =>
    if some c = ex ∨ g.pendingChildParents[c]? ≠ some p then 0 else m.granted b)
    g.pendingChildBudgets

/-- The graph as a ledger: a settled child is closed. -/
def ledger (m : Meter) (g : BoundedWorkGraph) : Ledger String where
  children := g.childrenOf
  closed id := ∃ node, g.nodes[id]? = some node ∧ g.settled id node = true
  spent id := (g.nodes[id]?).elim 0 fun node => m.spent node.budget
  granted id := (g.nodes[id]?).elim 0 fun node => m.granted node.budget
  held := heldExcept m g none

/-- In every node spending and commitments stay within the allocation. -/
def Covered (g : BoundedWorkGraph) : Prop :=
  ∀ m, (ledger m g).Covered fun id => id ∈ g.nodes

theorem ledger_spent {id : String} {node : WorkNode} (h : g.nodes[id]? = some node) :
    (ledger m g).spent id = m.spent node.budget := by simp [ledger, h]

theorem ledger_granted {id : String} {node : WorkNode} (h : g.nodes[id]? = some node) :
    (ledger m g).granted id = m.granted node.budget := by simp [ledger, h]

theorem ledger_closed {id : String} {node : WorkNode} (h : g.nodes[id]? = some node) :
    (ledger m g).closed id ↔ g.settled id node = true := by simp [ledger, h]

theorem covered_iff : Covered g ↔ ∀ m id node, g.nodes[id]? = some node →
    ∀ k, m.spent node.budget + (ledger m g).commit k id ≤ m.granted node.budget := by
  constructor
  · intro h m id node hn k
    have := h m id ((OrdMap.mem_iff _ _).mpr ⟨node, hn⟩) k
    rwa [ledger_spent hn, ledger_granted hn] at this
  · intro h m id hid k
    obtain ⟨node, hn⟩ := (OrdMap.mem_iff _ _).mp hid
    rw [ledger_spent hn, ledger_granted hn]
    exact h m id node hn k

/-! ## The reservation traversal -/

theorem addTotals_granted {acc acc' : Totals} {b : WorkNodeBudget}
    (h : addTotals acc b.tokensAllocated b.costMicrosAllocated = .ok acc') :
    m.total acc' = m.total acc + m.granted b := by
  unfold addTotals at h
  split at h
  · rename_i t c ht hc
    obtain rfl := Except.ok.inj h
    cases m
    · exact checkedAdd_eq_some.mp ht
    · exact checkedAdd_eq_some.mp hc
  · cases h

theorem addTotals_spent {acc acc' : Totals} {b : WorkNodeBudget}
    (h : addTotals acc b.tokensConsumed b.costMicrosConsumed = .ok acc') :
    m.total acc' = m.total acc + m.spent b := by
  unfold addTotals at h
  split at h
  · rename_i t c ht hc
    obtain rfl := Except.ok.inj h
    cases m
    · exact checkedAdd_eq_some.mp ht
    · exact checkedAdd_eq_some.mp hc
  · cases h

open scoped Classical in
/-- A child's charge without the commitments behind a settled child. -/
noncomputable def ownCharge (m : Meter) (g : BoundedWorkGraph) (c : String) : ℕ :=
  if (ledger m g).closed c then (ledger m g).spent c else (ledger m g).granted c

open scoped Classical in
theorem sum_charge (m : Meter) (g : BoundedWorkGraph) (k : ℕ) (l : List String) :
    (l.map ((ledger m g).charge k)).sum = (l.map (ownCharge m g)).sum +
      ((l.filter fun c => (ledger m g).closed c).map ((ledger m g).commit k)).sum := by
  induction l with
  | nil => rfl
  | cons c l ih =>
    by_cases hc : (ledger m g).closed c
    · simp only [List.map_cons, List.sum_cons, ih, Ledger.charge_of_closed hc, ownCharge, hc,
        if_true, decide_true, List.filter_cons_of_pos]
      omega
    · simp only [List.map_cons, List.sum_cons, ih, Ledger.charge_of_open hc, ownCharge, hc,
        if_false, decide_false, Bool.false_eq_true, not_false_eq_true, List.filter_cons_of_neg]
      omega

/-- The children the loop looks at: one may be left out under the starting parent. -/
def kept (p : String) (ex : Option String) (cur : String) (l : List String) : List String :=
  l.filter fun c => decide ¬ (cur = p ∧ some c = ex)

theorem kept_of_ne {p cur : String} (h : cur ≠ p) (ex : Option String) (l : List String) :
    kept p ex cur l = l := by simp [kept, h]

open scoped Classical in
/-- One round over the children of a parent: what is added, pushed and marked. -/
theorem chargeChildren_spec {p cur : String} {ex : Option String} {l : List String}
    {st st' : ReserveState} (h : chargeChildren g p ex cur l st = .ok st') :
    m.total st'.totals = m.total st.totals + ((kept p ex cur l).map (ownCharge m g)).sum ∧
    st'.pendingParents = ((kept p ex cur l).filter fun c => (ledger m g).closed c).reverse ++
      st.pendingParents ∧
    st'.visited = (kept p ex cur l).reverse ++ st.visited ∧
    ∀ c ∈ kept p ex cur l, c ∉ st.visited := by
  induction l generalizing st with
  | nil =>
    obtain rfl := Except.ok.inj h
    simp [kept]
  | cons c l ih =>
    rw [chargeChildren] at h
    split_ifs at h with hex hvisited
    · have hkept : kept p ex cur (c :: l) = kept p ex cur l := by simp [kept, hex.1, hex.2]
      rw [hkept]
      exact ih h
    · have hkept : kept p ex cur (c :: l) = c :: kept p ex cur l := by
        simp only [kept, List.filter_cons, decide_eq_true hex, if_true]
      cases hn : g.nodes[c]? with
      | none => simp [hn] at h
      | some node =>
        simp only [hn] at h
        by_cases hsettled : g.settled c node = true
        · rw [if_pos hsettled] at h
          obtain ⟨totals, htotals, hrest⟩ := except_bind_eq_ok.mp h
          obtain ⟨hsum, hpush, hmark, hnew⟩ := ih hrest
          have hclosed : (ledger m g).closed c := (ledger_closed hn).mpr hsettled
          refine ⟨?_, ?_, ?_, ?_⟩
          · rw [hsum, addTotals_spent htotals, hkept, List.map_cons, List.sum_cons, ownCharge,
              if_pos hclosed, ledger_spent hn]
            omega
          · rw [hpush, hkept, List.filter_cons_of_pos (by simpa using hclosed)]
            simp
          · rw [hmark, hkept]
            simp
          · rw [hkept]
            intro x hx
            rcases List.mem_cons.mp hx with rfl | hx
            · exact hvisited
            · exact fun hv => hnew x hx (List.mem_cons_of_mem _ hv)
        · rw [if_neg hsettled] at h
          obtain ⟨totals, htotals, hrest⟩ := except_bind_eq_ok.mp h
          obtain ⟨hsum, hpush, hmark, hnew⟩ := ih hrest
          have hopen : ¬ (ledger m g).closed c := fun hc => hsettled ((ledger_closed hn).mp hc)
          refine ⟨?_, ?_, ?_, ?_⟩
          · rw [hsum, addTotals_granted htotals, hkept, List.map_cons, List.sum_cons, ownCharge,
              if_neg hopen, ledger_granted hn]
            omega
          · rw [hpush, hkept, List.filter_cons_of_neg (by simpa using hopen)]
          · rw [hmark, hkept]
            simp
          · rw [hkept]
            intro x hx
            rcases List.mem_cons.mp hx with rfl | hx
            · exact hvisited
            · exact fun hv => hnew x hx (List.mem_cons_of_mem _ hv)

/-- The exclusion in force while a parent is looked at. -/
def exclusion (p : String) (ex : Option String) (cur : String) : Option String :=
  if cur = p then ex else none

theorem chargePending_spec {p cur : String} {ex : Option String} {l : List (String × WorkNodeBudget)}
    {acc acc' : Totals} (h : chargePending g p ex cur l acc = .ok acc') :
    m.total acc' = m.total acc + (l.map fun e =>
      if some e.1 = exclusion p ex cur ∨ g.pendingChildParents[e.1]? ≠ some cur then 0
      else m.granted e.2).sum := by
  induction l generalizing acc with
  | nil =>
    obtain rfl := Except.ok.inj h
    simp
  | cons e l ih =>
    obtain ⟨c, b⟩ := e
    have hiff : (cur = p ∧ some c = ex) ↔ some c = exclusion p ex cur := by
      unfold exclusion
      split_ifs with hcur <;> simp [hcur]
    simp only [chargePending, hiff] at h
    split_ifs at h with hskip
    · rw [ih h, List.map_cons, List.sum_cons, if_pos hskip, Nat.zero_add]
    · obtain ⟨acc₁, hacc, hrest⟩ := except_bind_eq_ok.mp h
      rw [ih hrest, addTotals_granted hacc, List.map_cons, List.sum_cons, if_neg hskip]
      dsimp only
      omega

theorem chargePending_total {p cur : String} {ex : Option String} {acc acc' : Totals}
    (h : chargePending g p ex cur g.pendingChildBudgets.toList acc = .ok acc') :
    m.total acc' = m.total acc + heldExcept m g (exclusion p ex cur) cur :=
  chargePending_spec h

open scoped Classical in
/-- One round of the traversal moves the commitments of a parent into the total and
those of its settled children onto the stack. -/
theorem reserveRound {p cur : String} {ex : Option String} {rest : List String}
    {st st' : ReserveState} {totals : Totals}
    (hchildren : chargeChildren g p ex cur (g.childrenOf cur) { st with pendingParents := rest } =
      .ok st')
    (hpending : chargePending g p ex cur g.pendingChildBudgets.toList st'.totals = .ok totals)
    (k : ℕ) :
    m.total totals + (st'.pendingParents.map ((ledger m g).commit k)).sum =
      m.total st.totals + (((kept p ex cur (g.childrenOf cur)).map ((ledger m g).charge k)).sum +
        heldExcept m g (exclusion p ex cur) cur) + (rest.map ((ledger m g).commit k)).sum := by
  obtain ⟨hsum, hpush, -, -⟩ := chargeChildren_spec (m := m) hchildren
  rw [chargePending_total hpending, hsum, hpush, List.map_append, List.sum_append, List.map_reverse,
    List.sum_reverse, sum_charge]
  dsimp only
  omega

/-- From a stack without the starting parent, the traversal adds exactly the commitments
of the stack: at least those to any depth, and no more than those its fuel reaches. -/
theorem reserveLoop_bounds {p : String} {ex : Option String} (fuel : ℕ) {st : ReserveState}
    {r : Totals} (hstack : p ∉ st.pendingParents) (hvisited : p ∈ st.visited)
    (h : reserveLoop g p ex fuel st = .ok r) :
    (∀ k, m.total st.totals + (st.pendingParents.map ((ledger m g).commit k)).sum ≤ m.total r) ∧
    m.total r ≤ m.total st.totals + (st.pendingParents.map ((ledger m g).commit fuel)).sum := by
  induction fuel generalizing st with
  | zero => cases h
  | succ fuel ih =>
    rw [reserveLoop] at h
    cases hst : st.pendingParents with
    | nil =>
      simp only [hst] at h
      obtain rfl := Except.ok.inj h
      simp
    | cons cur rest =>
      simp only [hst] at h
      rw [hst, List.mem_cons, not_or] at hstack
      obtain ⟨hcur, hrest⟩ := hstack
      obtain ⟨st', hchildren, h⟩ := except_bind_eq_ok.mp h
      obtain ⟨totals, hpending, h⟩ := except_bind_eq_ok.mp h
      obtain ⟨-, hpush, hmark, hnew⟩ := chargeChildren_spec (m := m) hchildren
      have hround (k : ℕ) : m.total totals + (st'.pendingParents.map ((ledger m g).commit k)).sum =
          m.total st.totals + (ledger m g).commit (k + 1) cur +
            (rest.map ((ledger m g).commit k)).sum := by
        rw [reserveRound hchildren hpending, kept_of_ne (Ne.symm hcur), exclusion,
          if_neg (Ne.symm hcur)]
        rfl
      have hstack' : p ∉ ({ st' with totals } : ReserveState).pendingParents := by
        rw [hpush]
        intro hp
        rcases List.mem_append.mp hp with hp | hp
        · exact hnew p (List.mem_filter.mp (List.mem_reverse.mp hp)).1 hvisited
        · exact hrest hp
      have hvisited' : p ∈ st'.visited := by
        rw [hmark]
        exact List.mem_append_right _ hvisited
      obtain ⟨hlow, hhigh⟩ := ih hstack' hvisited' h
      dsimp only at hlow hhigh
      simp only [List.map_cons, List.sum_cons]
      refine ⟨?_, ?_⟩
      · intro k
        have hbound := hlow k
        rw [hround] at hbound
        have hcut := (ledger m g).commit_le_succ k cur
        omega
      · have hmono : (rest.map ((ledger m g).commit fuel)).sum ≤
            (rest.map ((ledger m g).commit (fuel + 1))).sum :=
          Ledger.sum_map_le_sum_map fun q _ => (ledger m g).commit_le_succ fuel q
        rw [hround] at hhigh
        omega

/-- The reservation is the commitment of its parent, the child left out apart. -/
theorem reservedChildBudget_bounds {p : String} {ex : Option String} {r : Totals}
    (h : g.reservedChildBudget p ex = .ok r) :
    (∀ k, (((g.childrenOf p).filter fun c => decide ¬ some c = ex).map
      ((ledger m g).charge k)).sum + heldExcept m g ex p ≤ m.total r) ∧
    m.total r ≤ (((g.childrenOf p).filter fun c => decide ¬ some c = ex).map
      ((ledger m g).charge (g.nodes.size + 1))).sum + heldExcept m g ex p := by
  rw [reservedChildBudget, reserveLoop] at h
  obtain ⟨st', hchildren, h⟩ := except_bind_eq_ok.mp h
  obtain ⟨totals, hpending, h⟩ := except_bind_eq_ok.mp h
  obtain ⟨-, hpush, hmark, hnew⟩ := chargeChildren_spec (m := m) hchildren
  have hkept : kept p ex p (g.childrenOf p) =
      (g.childrenOf p).filter fun c => decide ¬ some c = ex := by simp [kept]
  have hround (k : ℕ) : m.total totals + (st'.pendingParents.map ((ledger m g).commit k)).sum =
      (((g.childrenOf p).filter fun c => decide ¬ some c = ex).map ((ledger m g).charge k)).sum +
        heldExcept m g ex p := by
    have hzero : m.total (0, 0) = 0 := by cases m <;> rfl
    have hround := reserveRound (m := m) hchildren hpending k
    rw [hkept, exclusion, if_pos rfl] at hround
    simpa [hzero] using hround
  have hstack : p ∉ ({ st' with totals } : ReserveState).pendingParents := by
    rw [hpush, List.append_nil]
    intro hp
    exact hnew p (List.mem_filter.mp (List.mem_reverse.mp hp)).1 (by simp)
  have hvisited : p ∈ st'.visited := by
    rw [hmark]
    simp
  obtain ⟨hlow, hhigh⟩ := reserveLoop_bounds (m := m) _ hstack hvisited h
  dsimp only at hlow hhigh
  refine ⟨?_, ?_⟩
  · intro k
    rw [← hround]
    exact hlow k
  · rw [← hround]
    exact hhigh

theorem commit_le_reserved {p : String} {r : Totals} (h : g.reservedChildBudget p none = .ok r)
    (k : ℕ) : (ledger m g).commit k p ≤ m.total r := by
  have hcut := (ledger m g).commit_le_succ k p
  have hlow := (reservedChildBudget_bounds (m := m) h).1 k
  rw [Ledger.commit_succ] at hcut
  refine hcut.trans (le_trans (le_of_eq ?_) hlow)
  simp [ledger]

/-! ## Settlement -/

theorem settled_of_not_finished {id : String} {node : WorkNode} (h : ¬ Finished node) :
    g.settled id node = false := by
  have hstatus : (node.status == .completed || node.status == .failed) = false := by
    simpa [Finished] using h
  simp [settled, hstatus]

theorem settled_of_no_receipt {id : String} {node : WorkNode}
    (h : ∀ (r : String) (x : ChildExecutionReceipt), g.receipts[r]? = some x → x.nodeId ≠ id) :
    g.settled id node = false := by
  have hany : (g.receipts.toList.any fun p => p.2.nodeId == id && p.2.usageSource == .measured &&
      p.2.tokensConsumed == node.budget.tokensConsumed &&
      p.2.costMicrosConsumed == node.budget.costMicrosConsumed &&
      p.2.executionFence == node.executionFence) = false := by
    rw [Bool.eq_false_iff]
    intro hany
    obtain ⟨r, x, hx, hmatch⟩ := OrdMap.any_toList_iff.mp hany
    have hid : x.nodeId = id := by
      simp only [Bool.and_eq_true, beq_iff_eq] at hmatch
      exact hmatch.1.1.1.1
    exact h r x hx hid
  simp only [settled, hany, Bool.and_false]

theorem Bookkept.no_receipt (hg : Bookkept g) {id : String} {node : WorkNode}
    (hn : g.nodes[id]? = some node) (hopen : ¬ Finished node) (r : String)
    (x : ChildExecutionReceipt) (hx : g.receipts[r]? = some x) : x.nodeId ≠ id := by
  rintro rfl
  obtain ⟨n, hn', hdone⟩ := hg.receipted hx
  rw [hn, Option.some.injEq] at hn'
  exact hopen (hn' ▸ hdone)

/-- A receipt for one node settles no other node. -/
theorem settled_addReceipt {id : String} {node : WorkNode} {receipt : ChildExecutionReceipt}
    (hfresh : receipt.receiptId ∉ g.receipts) (hid : receipt.nodeId ≠ id)
    (hreceipts : g'.receipts = g.receipts.insert receipt.receiptId receipt) :
    g'.settled id node = g.settled id node := by
  unfold settled
  congr 1
  rw [Bool.eq_iff_iff, OrdMap.any_toList_iff, OrdMap.any_toList_iff]
  constructor
  · rintro ⟨r, x, hx, hmatch⟩
    rw [hreceipts, OrdMap.get_insert] at hx
    split_ifs at hx
    · obtain rfl := Option.some.inj hx
      simp [hid] at hmatch
    · exact ⟨r, x, hx, hmatch⟩
  · rintro ⟨r, x, hx, hmatch⟩
    refine ⟨r, x, ?_, hmatch⟩
    have hne : receipt.receiptId ≠ r := by
      rintro rfl
      exact hfresh ((OrdMap.mem_iff _ _).mpr ⟨x, hx⟩)
    rw [hreceipts, OrdMap.get_insert, if_neg hne, hx]

/-! ## Each write keeps the ledger covered -/

theorem settled_congr {id : String} {n n' : WorkNode} (hreceipts : g'.receipts = g.receipts)
    (hstatus : n'.status = n.status) (hfence : n'.executionFence = n.executionFence)
    (hbudget : n'.budget = n.budget) : g'.settled id n' = g.settled id n := by
  unfold settled
  rw [hreceipts, hstatus, hfence, hbudget]

theorem ledger_closed_iff {id : String} : (ledger m g).closed id ↔
    ∃ node, g.nodes[id]? = some node ∧ g.settled id node = true := Iff.rfl

theorem heldExcept_congr {p : String} {ex : Option String}
    (hparents : g'.pendingChildParents = g.pendingChildParents)
    (hbudgets : g'.pendingChildBudgets = g.pendingChildBudgets) :
    heldExcept m g' ex p = heldExcept m g ex p := by
  rw [heldExcept, heldExcept, hparents, hbudgets]

/-- The commitments of a node are raised by no write that leaves children and
reservations alone and charges no other node more. -/
theorem commit_le_of_rewrite (hg : Bookkept g) {id : String} {n n' : WorkNode}
    (hn : g.nodes[id]? = some n) (hnodes : g'.nodes = g.nodes.insert id n')
    (hchildren : g'.children = g.children)
    (hparents : g'.pendingChildParents = g.pendingChildParents)
    (hbudgets : g'.pendingChildBudgets = g.pendingChildBudgets)
    (hgranted : m.granted n'.budget = m.granted n.budget)
    (hother : ∀ c node, c ≠ id → g'.settled c node = g.settled c node)
    (hclosed : g'.settled id n' = true →
      (g.settled id n = true ∧ m.spent n'.budget = m.spent n.budget) ∨
      (g.settled id n = false ∧ ∀ k, m.spent n'.budget + (ledger m g).commit k id ≤
        m.granted n.budget))
    (hopen : g'.settled id n' = false → g.settled id n = false) (k : ℕ) (i : String) :
    (ledger m g').commit k i ≤ (ledger m g).commit k i := by
  have hget (x : String) : g'.nodes[x]? = if id = x then some n' else g.nodes[x]? := by
    rw [hnodes, OrdMap.get_insert]
  have hself : g'.nodes[id]? = some n' := by rw [hget, if_pos rfl]
  refine Ledger.commit_le_of_step (U := fun _ => True) ?_ ?_ ?_ ?_ k i trivial
  · intro i _
    change (g'.children[i]?).getD [] = (g.children[i]?).getD []
    rw [hchildren]
  · intro i _
    exact (heldExcept_congr hparents hbudgets).le
  · intro i _ c _ hc
    refine ⟨trivial, ?_⟩
    by_cases hcid : c = id
    · subst hcid
      rw [ledger_closed hself] at hc
      rw [ledger_closed hn, ledger_spent hself, ledger_spent hn, ledger_granted hn]
      rcases hclosed hc with ⟨hs, hspent⟩ | ⟨hs, hwithin⟩
      · exact ⟨fun _ => hspent.le, fun hno => absurd hs hno⟩
      · exact ⟨fun hyes => by simp [hs] at hyes, fun _ => hwithin⟩
    · obtain ⟨node, hnode, hsettled⟩ := hc
      rw [hget, if_neg (Ne.symm hcid)] at hnode
      rw [hother c node hcid] at hsettled
      have hold : (ledger m g).closed c := ⟨node, hnode, hsettled⟩
      have hnode' : g'.nodes[c]? = some node := by rw [hget, if_neg (Ne.symm hcid), hnode]
      rw [ledger_spent hnode', ledger_spent hnode]
      exact ⟨fun _ => le_rfl, fun hno => absurd hold hno⟩
  · intro i _ c hmem hc
    obtain ⟨node, hnode, -⟩ := hg.tree.child_mem hmem
    by_cases hcid : c = id
    · subst hcid
      rw [ledger_closed hself, Bool.not_eq_true] at hc
      rw [ledger_closed hn, ledger_granted hself, ledger_granted hn, hgranted, hopen hc]
      exact ⟨by simp, le_rfl⟩
    · have hnode' : g'.nodes[c]? = some node := by rw [hget, if_neg (Ne.symm hcid), hnode]
      rw [ledger_closed hnode', hother c node hcid] at hc
      rw [ledger_closed hnode, ledger_granted hnode', ledger_granted hnode]
      exact ⟨hc, le_rfl⟩

/-- A node rewritten with the same budget and settlement. -/
theorem Covered.rewrite (hc : Covered g) (hg : Bookkept g) {id : String} {n n' : WorkNode}
    (hn : g.nodes[id]? = some n) (hnodes : g'.nodes = g.nodes.insert id n')
    (hchildren : g'.children = g.children)
    (hparents : g'.pendingChildParents = g.pendingChildParents)
    (hbudgets : g'.pendingChildBudgets = g.pendingChildBudgets)
    (hreceipts : g'.receipts = g.receipts) (hbudget : n'.budget = n.budget)
    (hsettled : g.settled id n' = g.settled id n) : Covered g' := by
  have hsame {c : String} {node : WorkNode} : g'.settled c node = g.settled c node :=
    settled_congr hreceipts rfl rfl rfl
  rw [covered_iff] at hc ⊢
  intro m i node hi k
  have hle : (ledger m g').commit k i ≤ (ledger m g).commit k i := by
    refine commit_le_of_rewrite hg hn hnodes hchildren hparents hbudgets (by rw [hbudget])
      (fun _ _ _ => hsame) ?_ ?_ k i
    · intro h
      rw [hsame, hsettled] at h
      exact .inl ⟨h, by rw [hbudget]⟩
    · intro h
      rwa [hsame, hsettled] at h
  rw [hnodes, OrdMap.get_insert] at hi
  split_ifs at hi with heq
  · obtain rfl := Option.some.inj hi
    subst heq
    have := hc m id n hn k
    rw [hbudget]
    omega
  · have := hc m i node hi k
    omega

/-- The chain records play no part. -/
theorem Covered.of_sameButChains (h : SameButChains g g') (hc : Covered g) : Covered g' := by
  rw [h.eq]
  exact hc

/-- The spending node itself: what its reservation left free covers the new spending. -/
theorem spend_within (hc : Covered g) {id : String} {n : WorkNode} (hn : g.nodes[id]? = some n)
    {r : Totals} (hr : g.reservedChildBudget id none = .ok r) {x : ℕ}
    (hx : x ≤ m.granted n.budget - m.spent n.budget - m.total r) (k : ℕ) :
    m.spent n.budget + x + (ledger m g).commit k id ≤ m.granted n.budget := by
  have hcovered := (covered_iff.mp hc) m id n hn k
  have hreserved := commit_le_reserved (m := m) hr k
  omega

/-- The amount of a spend that falls to a meter. -/
def amount (m : Meter) (tokens cost : ℕ) : ℕ :=
  match m with
  | .tokens => tokens
  | .cost => cost

theorem SpendAdmitted.within {id chainId : String} {n : WorkNode} {tokens cost : ℕ} {r : Totals}
    {chain : ChainBudget} {a b : UInt64} (h : SpendAdmitted g id n tokens cost r chainId chain a b) :
    amount m tokens cost ≤ m.granted n.budget - m.spent n.budget - m.total r := by
  cases m
  · exact h.withinTokens
  · exact h.withinCost

/-- Spending by a node raises no commitment, and the node itself had the room. -/
theorem Covered.spendNode (hc : Covered g) (hg : Bookkept g) {id : String} {n n' : WorkNode}
    {r : Totals} {tokens cost : ℕ} (hn : g.nodes[id]? = some n) (hopen : ¬ Finished n)
    (hr : g.reservedChildBudget id none = .ok r)
    (hwithin : ∀ m, amount m tokens cost ≤ m.granted n.budget - m.spent n.budget - m.total r)
    (hnodes : g'.nodes = g.nodes.insert id n') (hchildren : g'.children = g.children)
    (hparents : g'.pendingChildParents = g.pendingChildParents)
    (hbudgets : g'.pendingChildBudgets = g.pendingChildBudgets)
    (hgranted : ∀ m : Meter, m.granted n'.budget = m.granted n.budget)
    (hspent : ∀ m : Meter, m.spent n'.budget = m.spent n.budget + amount m tokens cost)
    (hother : ∀ c node, c ≠ id → g'.settled c node = g.settled c node) : Covered g' := by
  have hfit (m : Meter) (k : ℕ) :
      m.spent n'.budget + (ledger m g).commit k id ≤ m.granted n.budget := by
    rw [hspent]
    exact spend_within hc hn hr (hwithin m) k
  have hunsettled : g.settled id n = false := settled_of_not_finished hopen
  have hle (m : Meter) (k : ℕ) (i : String) :
      (ledger m g').commit k i ≤ (ledger m g).commit k i :=
    commit_le_of_rewrite hg hn hnodes hchildren hparents hbudgets (hgranted m) hother
      (fun _ => .inr ⟨hunsettled, hfit m⟩) (fun _ => hunsettled) k i
  rw [covered_iff] at hc ⊢
  intro m i node hi k
  have hcommit := hle m k i
  rw [hnodes, OrdMap.get_insert] at hi
  split_ifs at hi with heq
  · obtain rfl := Option.some.inj hi
    subst heq
    have := hfit m k
    rw [hgranted]
    omega
  · have := hc m i node hi k
    omega

/-- A node that was not there before: it has no children and no reservations. -/
theorem commit_of_fresh (hg : Bookkept g) {id : String} (hfresh : id ∉ g.nodes) (k : ℕ) :
    (ledger m g).commit k id = 0 := by
  refine Ledger.commit_of_leaf (childrenOf_eq_nil hg.tree hfresh) ?_ k
  have hzero : OrdMap.mapSum (fun c b =>
      if some c = none ∨ g.pendingChildParents[c]? ≠ some id then 0 else m.granted b)
      g.pendingChildBudgets = OrdMap.mapSum (fun _ _ => 0) g.pendingChildBudgets := by
    refine OrdMap.mapSum_congr fun c => ?_
    have hne : g.pendingChildParents[c]? ≠ some id := fun h => hfresh (hg.pendingParent h)
    simp [hne]
  change heldExcept m g none id = 0
  rw [heldExcept, hzero]
  simp [OrdMap.mapSum]

theorem spent_le_granted {b : WorkNodeBudget} (h : validateBudget b = .ok ()) :
    m.spent b ≤ m.granted b := by
  obtain ⟨htokens, hcost⟩ := validateBudget_eq_ok.mp h
  cases m
  · exact htokens
  · exact hcost

theorem Covered.insertRoot (hc : Covered g) (hg : Bookkept g) {node : WorkNode}
    (hfresh : node.nodeId ∉ g.nodes) (hbudget : validateBudget node.budget = .ok ()) :
    Covered (g.insertRoot node) := by
  have hget (x : String) : (g.insertRoot node).nodes[x]? =
      if node.nodeId = x then some node else g.nodes[x]? := OrdMap.get_insert _ _ _ _
  have hle (m : Meter) (k : ℕ) (i : String) :
      (ledger m (g.insertRoot node)).commit k i ≤ (ledger m g).commit k i := by
    refine Ledger.commit_le_of_agree (U := fun _ => True) ?_ ?_ ?_ k i trivial
    · exact fun _ _ => rfl
    · exact fun _ _ => le_rfl
    intro i _ c hmem
    obtain ⟨child, hchild, -⟩ := hg.tree.child_mem hmem
    have hchild' : (g.insertRoot node).nodes[c]? = some child := by
      rw [hget, if_neg (ne_of_fresh hfresh hchild), hchild]
    rw [ledger_closed hchild', ledger_closed hchild, ledger_granted hchild', ledger_granted hchild,
      ledger_spent hchild', ledger_spent hchild]
    exact ⟨Iff.rfl, fun _ => ⟨trivial, rfl⟩, rfl⟩
  rw [covered_iff] at hc ⊢
  intro m i n hi k
  have hcommit := hle m k i
  rw [hget] at hi
  split_ifs at hi with heq
  · obtain rfl := Option.some.inj hi
    subst heq
    rw [commit_of_fresh hg hfresh] at hcommit
    have := spent_le_granted (m := m) hbudget
    omega
  · have := hc m i n hi k
    omega

theorem heldExcept_le (m : Meter) (g : BoundedWorkGraph) (ex : Option String) (p : String) :
    heldExcept m g ex p ≤ heldExcept m g none p := by
  refine OrdMap.mapSum_le fun c => ?_
  cases g.pendingChildBudgets[c]? with
  | none => simp
  | some b =>
    simp only [Option.elim_some]
    by_cases hp : g.pendingChildParents[c]? ≠ some p
    · simp [hp]
    · split_ifs <;> simp_all

/-- The room a parent has for a new grant: its children and other reservations, and the grant. -/
theorem grant_within (hc : Covered g) {p x : String} {parent : WorkNode}
    (hp : g.nodes[p]? = some parent) (hx : x ∉ g.childrenOf p) {r : Totals}
    (hr : g.reservedChildBudget p (some x) = .ok r) {grant : ℕ}
    (hgrant : grant ≤ m.granted parent.budget - m.spent parent.budget - m.total r) (k : ℕ) :
    m.spent parent.budget + (((g.childrenOf p).map ((ledger m g).charge k)).sum +
      heldExcept m g (some x) p + grant) ≤ m.granted parent.budget := by
  have hcovered := (covered_iff.mp hc) m p parent hp (k + 1)
  rw [Ledger.commit_succ] at hcovered
  have hheld := heldExcept_le m g (some x) p
  have hlow := (reservedChildBudget_bounds (m := m) hr).1 k
  have hfilter : (g.childrenOf p).filter (fun c => decide ¬ some c = some x) = g.childrenOf p := by
    rw [List.filter_eq_self]
    intro c hmem
    have hne : c ≠ x := by
      rintro rfl
      exact hx hmem
    simpa using hne
  rw [hfilter] at hlow
  change m.spent parent.budget + (((g.childrenOf p).map ((ledger m g).charge k)).sum +
    heldExcept m g none p) ≤ m.granted parent.budget at hcovered
  omega

/-- What is left when one reservation is taken out. -/
theorem heldExcept_takePending (p x : String) :
    heldExcept m (g.takePending x) none p = heldExcept m g (some x) p := by
  refine OrdMap.mapSum_congr fun c => ?_
  change ((g.pendingChildBudgets.erase x)[c]?).elim 0 _ = _
  rw [OrdMap.get_erase]
  by_cases hc : x = c
  · cases h : g.pendingChildBudgets[c]? <;> simp [hc]
  · have hparent : (g.takePending x).pendingChildParents[c]? = g.pendingChildParents[c]? := by
      change (g.pendingChildParents.erase x)[c]? = _
      rw [OrdMap.get_erase, if_neg hc]
    rw [if_neg hc, hparent]
    cases h : g.pendingChildBudgets[c]? <;> simp [Ne.symm hc]

theorem Covered.linkChild (hc : Covered g) (hg : Bookkept g) {p : String} {parent node : WorkNode}
    {r : Totals} (hp : g.nodes[p]? = some parent) (hactive : ¬ Finished parent)
    (hfresh : node.nodeId ∉ g.nodes) (hopen : ¬ Finished node)
    (hbudget : validateBudget node.budget = .ok ())
    (hr : g.reservedChildBudget p (some node.nodeId) = .ok r)
    (hwithin : ∀ m : Meter, m.granted node.budget ≤
      m.granted parent.budget - m.spent parent.budget - m.total r) :
    Covered ((g.linkChild p node).takePending node.nodeId) := by
  have hget (x : String) : ((g.linkChild p node).takePending node.nodeId).nodes[x]? =
      if node.nodeId = x then some node else g.nodes[x]? := OrdMap.get_insert _ _ _ _
  have hnew : node.nodeId ∉ g.childrenOf p := by
    intro hmem
    obtain ⟨n, hn, -⟩ := hg.tree.child_mem hmem
    exact ne_of_fresh hfresh hn rfl
  have hnode : ((g.linkChild p node).takePending node.nodeId).nodes[node.nodeId]? = some node := by
    rw [hget, if_pos rfl]
  have hchildren (i : String) : ((g.linkChild p node).takePending node.nodeId).childrenOf i =
      if p = i then g.childrenOf p ++ [node.nodeId] else g.childrenOf i :=
    childrenOf_linkChild g p i node
  have hheld (m : Meter) (i : String) :
      heldExcept m ((g.linkChild p node).takePending node.nodeId) none i =
        heldExcept m g (some node.nodeId) i := heldExcept_takePending i node.nodeId
  have hparent (m : Meter) : ¬ (ledger m g).closed p := by
    rw [ledger_closed hp, settled_of_not_finished hactive]
    exact Bool.false_ne_true
  have hchild {m : Meter} {i c : String} (hmem : c ∈ g.childrenOf i) :
      ((ledger m ((g.linkChild p node).takePending node.nodeId)).closed c ↔
        (ledger m g).closed c) ∧
      (ledger m ((g.linkChild p node).takePending node.nodeId)).spent c = (ledger m g).spent c ∧
      (ledger m ((g.linkChild p node).takePending node.nodeId)).granted c =
        (ledger m g).granted c := by
    obtain ⟨child, hget₀, -⟩ := hg.tree.child_mem hmem
    have hget₁ : ((g.linkChild p node).takePending node.nodeId).nodes[c]? = some child := by
      rw [hget, if_neg (ne_of_fresh hfresh hget₀), hget₀]
    rw [ledger_closed hget₁, ledger_closed hget₀, ledger_granted hget₁, ledger_granted hget₀,
      ledger_spent hget₁, ledger_spent hget₀]
    exact ⟨Iff.rfl, rfl, rfl⟩
  have hle (m : Meter) (k : ℕ) (i : String) (hi : i ≠ p) :
      (ledger m ((g.linkChild p node).takePending node.nodeId)).commit k i ≤
        (ledger m g).commit k i := by
    refine Ledger.commit_le_of_agree (U := fun i => i ≠ p) ?_ ?_ ?_ k i hi
    · intro i hi
      exact (hchildren i).trans (if_neg (Ne.symm hi))
    · intro i _
      exact (hheld m i).le.trans (heldExcept_le m g _ i)
    · intro i _ c hmem
      obtain ⟨hclosed, hspent, hgranted⟩ := hchild (m := m) hmem
      refine ⟨hclosed, fun hc => ⟨?_, hspent⟩, hgranted⟩
      rintro rfl
      exact hparent m hc
  have hcharge (m : Meter) (k : ℕ) : ∀ c ∈ g.childrenOf p,
      (ledger m ((g.linkChild p node).takePending node.nodeId)).charge k c ≤
        (ledger m g).charge k c := by
    intro c hmem
    obtain ⟨hclosed, hspent, hgranted⟩ := hchild (m := m) hmem
    by_cases h : (ledger m g).closed c
    · have hcp : c ≠ p := by
        rintro rfl
        exact hparent m h
      rw [Ledger.charge_of_closed h, Ledger.charge_of_closed (hclosed.mpr h), hspent]
      exact Nat.add_le_add_left (hle m k c hcp) _
    · rw [Ledger.charge_of_open h, Ledger.charge_of_open fun h' => h (hclosed.mp h'), hgranted]
  have hgrant (m : Meter) (k : ℕ) :
      (ledger m ((g.linkChild p node).takePending node.nodeId)).charge k node.nodeId =
        m.granted node.budget := by
    rw [Ledger.charge_of_open, ledger_granted hnode]
    rw [ledger_closed hnode, settled_of_not_finished hopen]
    exact Bool.false_ne_true
  have htop (m : Meter) (k : ℕ) : m.spent parent.budget +
      (ledger m ((g.linkChild p node).takePending node.nodeId)).commit (k + 1) p ≤
        m.granted parent.budget := by
    have hroom := grant_within hc hp hnew hr (hwithin m) k
    have hsum := Ledger.sum_map_le_sum_map (hcharge m k)
    have hcommit : (ledger m ((g.linkChild p node).takePending node.nodeId)).commit (k + 1) p =
        ((g.childrenOf p).map
          ((ledger m ((g.linkChild p node).takePending node.nodeId)).charge k)).sum +
          m.granted node.budget + heldExcept m g (some node.nodeId) p := by
      rw [Ledger.commit_succ]
      change (List.map _ (((g.linkChild p node).takePending node.nodeId).childrenOf p)).sum +
        heldExcept m ((g.linkChild p node).takePending node.nodeId) none p = _
      rw [hchildren, if_pos rfl, List.map_append, List.sum_append, hheld, List.map_singleton,
        List.sum_singleton, hgrant]
    omega
  rw [covered_iff] at hc ⊢
  intro m i n hi k
  by_cases hip : i = p
  · subst hip
    rw [hget, if_neg (ne_of_fresh hfresh hp), hp, Option.some.injEq] at hi
    subst hi
    exact (Nat.add_le_add_left (Ledger.commit_le_succ _ k i) _).trans (htop m k)
  · have hcommit := hle m k i hip
    rw [hget] at hi
    split_ifs at hi with heq
    · obtain rfl := Option.some.inj hi
      subst heq
      rw [commit_of_fresh hg hfresh] at hcommit
      have := spent_le_granted (m := m) hbudget
      omega
    · have := hc m i n hi k
      omega

/-- A reservation is held for its parent and for nobody else. -/
theorem heldExcept_addPending {p x i : String} {b : WorkNodeBudget} (hx : x ∉ g.pendingChildBudgets) :
    heldExcept m (g.addPending p x b) none i =
      heldExcept m g (some x) i + if p = i then m.granted b else 0 := by
  have hnone : g.pendingChildBudgets[x]? = none := (OrdMap.not_mem_iff _ _).mp hx
  have hinsert := OrdMap.mapSum_insert (fun c b' =>
    if some c = none ∨ (g.addPending p x b).pendingChildParents[c]? ≠ some i then 0
    else m.granted b') g.pendingChildBudgets x b
  have hparent (c : String) : (g.addPending p x b).pendingChildParents[c]? =
      if x = c then some p else g.pendingChildParents[c]? := OrdMap.get_insert _ _ _ _
  have hrest : OrdMap.mapSum (fun c b' =>
      if some c = none ∨ (g.addPending p x b).pendingChildParents[c]? ≠ some i then 0
      else m.granted b') g.pendingChildBudgets = heldExcept m g (some x) i := by
    refine OrdMap.mapSum_congr fun c => ?_
    by_cases hc : x = c
    · subst hc
      rw [hnone]
      rfl
    · rw [hparent, if_neg hc]
      cases h : g.pendingChildBudgets[c]? <;> simp [Ne.symm hc]
  rw [hnone, Option.elim_none, Nat.add_zero, hrest, hparent, if_pos rfl] at hinsert
  change OrdMap.mapSum _ (g.pendingChildBudgets.insert x b) = _
  rw [hinsert]
  by_cases hpi : p = i
  · simp [hpi]
  · simp [hpi]

theorem Covered.addPending (hc : Covered g) (hg : Bookkept g) {p x : String} {parent : WorkNode}
    {b : WorkNodeBudget} {r : Totals} (hp : g.nodes[p]? = some parent) (hactive : ¬ Finished parent)
    (hfresh : x ∉ g.nodes) (hx : x ∉ g.pendingChildBudgets)
    (hr : g.reservedChildBudget p (some x) = .ok r)
    (hwithin : ∀ m : Meter, m.granted b ≤
      m.granted parent.budget - m.spent parent.budget - m.total r) :
    Covered (g.addPending p x b) := by
  have hnew : x ∉ g.childrenOf p := by
    intro hmem
    obtain ⟨n, hn, -⟩ := hg.tree.child_mem hmem
    exact ne_of_fresh hfresh hn rfl
  have hparent (m : Meter) : ¬ (ledger m g).closed p := by
    rw [ledger_closed hp, settled_of_not_finished hactive]
    exact Bool.false_ne_true
  have hle (m : Meter) (k : ℕ) (i : String) (hi : i ≠ p) :
      (ledger m (g.addPending p x b)).commit k i ≤ (ledger m g).commit k i := by
    refine Ledger.commit_le_of_agree (U := fun i => i ≠ p) ?_ ?_ ?_ k i hi
    · exact fun _ _ => rfl
    · intro i hi
      change heldExcept m (g.addPending p x b) none i ≤ heldExcept m g none i
      rw [heldExcept_addPending hx, if_neg (Ne.symm hi), Nat.add_zero]
      exact heldExcept_le m g _ i
    · intro i _ c _
      refine ⟨Iff.rfl, fun hclosed => ⟨?_, rfl⟩, rfl⟩
      rintro rfl
      exact hparent m hclosed
  have hcharge (m : Meter) (k : ℕ) : ∀ c ∈ g.childrenOf p,
      (ledger m (g.addPending p x b)).charge k c ≤ (ledger m g).charge k c := by
    intro c _
    by_cases h : (ledger m g).closed c
    · have hcp : c ≠ p := by
        rintro rfl
        exact hparent m h
      have h' : (ledger m (g.addPending p x b)).closed c := h
      rw [Ledger.charge_of_closed h, Ledger.charge_of_closed h']
      exact Nat.add_le_add_left (hle m k c hcp) _
    · have h' : ¬ (ledger m (g.addPending p x b)).closed c := h
      rw [Ledger.charge_of_open h, Ledger.charge_of_open h']
      exact le_rfl
  have htop (m : Meter) (k : ℕ) : m.spent parent.budget +
      (ledger m (g.addPending p x b)).commit (k + 1) p ≤ m.granted parent.budget := by
    have hroom := grant_within hc hp hnew hr (hwithin m) k
    have hsum := Ledger.sum_map_le_sum_map (hcharge m k)
    have hcommit : (ledger m (g.addPending p x b)).commit (k + 1) p =
        ((g.childrenOf p).map ((ledger m (g.addPending p x b)).charge k)).sum +
          (heldExcept m g (some x) p + m.granted b) := by
      rw [Ledger.commit_succ]
      change (List.map _ (g.childrenOf p)).sum + heldExcept m (g.addPending p x b) none p = _
      rw [heldExcept_addPending hx, if_pos rfl]
    omega
  rw [covered_iff] at hc ⊢
  intro m i n hi k
  change g.nodes[i]? = some n at hi
  by_cases hip : i = p
  · subst hip
    rw [hp, Option.some.injEq] at hi
    subst hi
    exact (Nat.add_le_add_left (Ledger.commit_le_succ _ k i) _).trans (htop m k)
  · have hcommit := hle m k i hip
    have := hc m i n hi k
    omega

theorem not_finished_of_active {node : WorkNode} (h : node.status = .active) : ¬ Finished node :=
  not_finished_of_open (.inl h)

theorem settled_ended {id : String} {node : WorkNode} :
    g.settled id (ended node) = g.settled id node := by
  unfold ended
  split_ifs
  · rfl
  · exact settled_congr rfl rfl rfl rfl

theorem budget_ended (node : WorkNode) : (ended node).budget = node.budget := by
  unfold ended
  split_ifs <;> rfl

theorem Covered.change (hc : Covered g) (hg : Bookkept g) (h : Change blake3 g g') : Covered g' := by
  cases h with
  | root h => exact hc.insertRoot hg h.fresh h.validBudget
  | @child parentId childId agentId capsuleRef chainId budget status parent reserved h =>
    refine Covered.of_sameButChains (sameButChains_childInserted _ _ _ _) ?_
    refine hc.linkChild hg h.getParent (not_finished_of_active h.active) h.fresh
      (not_finished_of_open h.opened) h.validBudget h.getReserved ?_
    rintro (_ | _)
    · exact h.withinTokens
    · exact h.withinCost
  | @reservation parentId childId chainId budget parent reserved h =>
    refine Covered.of_sameButChains (sameButChains_reservationAdded _ _ _ _ _ _) ?_
    refine hc.addPending hg h.getParent (not_finished_of_active h.active) h.fresh h.unreserved
      h.getReserved ?_
    rintro (_ | _)
    · exact h.withinTokens
    · exact h.withinCost
  | rootContext hn hp =>
    exact hc.rewrite hg hn rfl rfl rfl rfl rfl rfl (settled_congr rfl rfl rfl rfl)
  | update h =>
    cases h with
    | @claim nodeId node attempt lease h =>
      have hbefore := not_finished_of_open (.inr h.pending)
      have hafter : ¬ Finished (claimedNode blake3 g.graphId node attempt lease) :=
        not_finished_of_active rfl
      exact hc.rewrite hg h.getNode rfl rfl rfl rfl rfl rfl
        ((settled_of_not_finished hafter).trans (settled_of_not_finished hbefore).symm)
    | @stop nodeId node reason hn hs =>
      refine hc.rewrite hg hn rfl rfl rfl rfl rfl (budget_ended _) ?_
      have hafter : ¬ Finished (stoppedNode node reason) := by
        rintro (h | h) <;> cases h
      rw [settled_ended]
      exact (settled_of_not_finished hafter).trans
        (settled_of_not_finished (not_finished_of_open hs)).symm
    | leaseCleared hn =>
      exact hc.rewrite hg hn rfl rfl rfl rfl rfl rfl (settled_congr rfl rfl rfl rfl)
    | paths hn hs => exact hc.rewrite hg hn rfl rfl rfl rfl rfl rfl (settled_congr rfl rfl rfl rfl)
    | childContext hn hp =>
      exact hc.rewrite hg hn rfl rfl rfl rfl rfl rfl (settled_congr rfl rfl rfl rfl)
    | delivery h =>
      exact hc.rewrite hg h.getNode rfl rfl rfl rfl rfl rfl (settled_congr rfl rfl rfl rfl)
    | complete hn hs =>
      refine hc.rewrite hg hn rfl rfl rfl rfl rfl (budget_ended _) ?_
      -- No receipt names a node that was still active, so completing it frees nothing.
      have hnone := hg.no_receipt hn (not_finished_of_active hs)
      exact (settled_of_no_receipt hnone).trans (settled_of_no_receipt hnone).symm
    | @receipt receipt node tokens cost reserved chainId chain nextTokens nextCost h hspend htokens
        hcost =>
      have hbase : Covered ((g.endNode receipt.nodeId (receiptedNode node receipt)).addReceipt
          receipt) := by
        refine hc.spendNode hg hspend.getNode (not_finished_of_active hspend.active)
          hspend.getReserved (fun m => hspend.within) rfl rfl rfl rfl ?_ ?_ ?_
        · intro m
          rw [budget_ended]
          cases m <;> rfl
        · intro m
          rw [budget_ended]
          cases m
          · exact htokens
          · exact hcost
        · intro c n hne
          exact settled_addReceipt h.freshId (Ne.symm hne) rfl
      exact hbase.of_sameButChains ((sameButChains_updateChain _ _ _).addReceipt receipt)
    | accept h => exact hc
    | @spend nodeId node tokens cost reserved chainId chain nextTokens nextCost nextChainTokens
        nextChainCost hspend htokens hcost =>
      have hbase : Covered (g.setNode nodeId (spentNode node nextTokens nextCost)) := by
        refine hc.spendNode hg hspend.getNode (not_finished_of_active hspend.active)
          hspend.getReserved (fun m => hspend.within) rfl rfl rfl rfl ?_ ?_ ?_
        · intro m
          cases m <;> rfl
        · intro m
          cases m
          · exact htokens
          · exact hcost
        · intro c n _
          exact settled_congr rfl rfl rfl rfl
      exact hbase.of_sameButChains (sameButChains_updateChain _ _ _)

theorem Covered.start (hc : Covered g) (hg : Bookkept g) (h : Start g g') : Covered g' := by
  obtain @⟨nodeId, node, lease, h⟩ := h
  exact hc.rewrite hg h.getNode rfl rfl rfl rfl rfl rfl (settled_congr rfl rfl rfl rfl)

theorem covered_new (a b : ℕ) : Covered (new a b) := by
  rw [covered_iff]
  intro m id node hn
  simp [new] at hn

theorem Reachable.covered (h : Reachable blake3 g) : Covered g := by
  refine (Reachable.induction covered_new ?_ h).2
  intro g g' hg hc hwrite
  cases hwrite with
  | change hchange => exact hc.change hg hchange
  | start hstart => exact hc.start hg hstart

/-! ## Conservation -/

/-- The parent link of a node. -/
def parentOf (g : BoundedWorkGraph) (id : String) : Option String :=
  (g.nodes[id]?).bind (·.parentNodeId)

/-- `id` is below `top`: at least one parent link, any number of them. -/
def Descendant (g : BoundedWorkGraph) (top id : String) : Prop :=
  Relation.TransGen (fun child parent => g.parentOf child = some parent) id top

open scoped Classical in
/-- What the descendants of a node have spent, taken together. -/
noncomputable def spentBelow (g : BoundedWorkGraph) (spent : WorkNodeBudget → UInt64)
    (top : String) : ℕ :=
  ((g.nodes.toList.filter fun p => Descendant g top p.1).map fun p => (spent p.2.budget).toNat).sum

theorem Descendant.under {top id : String} (h : Descendant g top id) :
    ∃ k, Ledger.Under g.parentOf k top id := by
  unfold Descendant at h
  induction h using Relation.TransGen.head_induction_on with
  | single hp => exact ⟨1, .step (.self 0 _) hp⟩
  | head hp _ ih =>
    obtain ⟨k, hunder⟩ := ih
    exact ⟨k + 1, .step hunder hp⟩

theorem parentOf_eq_some {id p : String} (h : g.parentOf id = some p) :
    ∃ node, g.nodes[id]? = some node ∧ node.parentNodeId = some p := Option.bind_eq_some_iff.mp h

theorem Descendant.depth_lt (ht : Tree g) {top id : String} (h : Descendant g top id)
    {n t : WorkNode} (hn : g.nodes[id]? = some n) (htop : g.nodes[top]? = some t) :
    t.depth < n.depth := by
  unfold Descendant at h
  induction h using Relation.TransGen.head_induction_on generalizing n with
  | single hp =>
    obtain ⟨node, hnode, hlink⟩ := parentOf_eq_some hp
    obtain ⟨q, hq, hd⟩ := ht.parent hnode hlink
    obtain rfl := Option.some.inj (hn.symm.trans hnode)
    obtain rfl := Option.some.inj (htop.symm.trans hq)
    omega
  | head hp _ ih =>
    obtain ⟨node, hnode, hlink⟩ := parentOf_eq_some hp
    obtain ⟨q, hq, hd⟩ := ht.parent hnode hlink
    obtain rfl := Option.some.inj (hn.symm.trans hnode)
    have := ih hq
    omega

open scoped Classical in
theorem spentBelow_eq (g : BoundedWorkGraph) (spent : WorkNodeBudget → UInt64) (top : String) :
    g.spentBelow spent top = ∑ x ∈ g.nodes.keys.toFinset.filter (Descendant g top),
      (g.nodes[x]?).elim 0 fun n => (spent n.budget).toNat := by
  have hsum : g.spentBelow spent top = OrdMap.mapSum (fun x n =>
      if Descendant g top x then (spent n.budget).toNat else 0) g.nodes := by
    unfold spentBelow OrdMap.mapSum
    induction g.nodes.toList with
    | nil => rfl
    | cons p l ih =>
      by_cases hp : Descendant g top p.1
      · simp [hp, ih]
      · simp [hp, ih]
  rw [hsum, OrdMap.mapSum_eq_sum _ _ g.nodes.keys.toFinset, Finset.sum_filter]
  · refine Finset.sum_congr rfl fun x _ => ?_
    cases g.nodes[x]? with
    | none => simp
    | some n => rfl
  · intro x hx
    exact List.mem_toFinset.mpr (Std.ExtTreeMap.mem_keys.mpr hx)

open scoped Classical in
/-- A covered graph conserves each meter: a node and everything below it stay within
the node's allocation. -/
theorem Covered.conserved (hc : Covered g) (ht : Tree g) {top : String} {node : WorkNode}
    (hn : g.nodes[top]? = some node) :
    m.spent node.budget + ∑ x ∈ g.nodes.keys.toFinset.filter (Descendant g top),
      (ledger m g).spent x ≤ m.granted node.budget := by
  have hbound : ∃ k, ∀ x ∈ g.nodes.keys.toFinset.filter (Descendant g top),
      Ledger.Under g.parentOf k top x := by
    have hunder : ∀ x, ∃ k, Descendant g top x → Ledger.Under g.parentOf k top x := by
      intro x
      by_cases hx : Descendant g top x
      · obtain ⟨k, hk⟩ := hx.under
        exact ⟨k, fun _ => hk⟩
      · exact ⟨0, fun h => absurd h hx⟩
    choose f hf using hunder
    refine ⟨(g.nodes.keys.toFinset.filter (Descendant g top)).sup f, fun x hx => ?_⟩
    exact (hf x (Finset.mem_filter.mp hx).2).mono (Finset.le_sup hx)
  obtain ⟨k, hk⟩ := hbound
  have hself : top ∉ g.nodes.keys.toFinset.filter (Descendant g top) := by
    intro hx
    exact lt_irrefl _ ((Finset.mem_filter.mp hx).2.depth_lt ht hn hn)
  have htop : top ∈ g.nodes.keys.toFinset :=
    List.mem_toFinset.mpr (Std.ExtTreeMap.mem_keys.mpr ((OrdMap.mem_iff _ _).mpr ⟨node, hn⟩))
  have hsubset : insert top (g.nodes.keys.toFinset.filter (Descendant g top)) ⊆
      g.nodes.keys.toFinset.filter (Ledger.Under g.parentOf k top) := by
    intro x hx
    rcases Finset.mem_insert.mp hx with rfl | hx
    · exact Finset.mem_filter.mpr ⟨htop, .self _ _⟩
    · exact Finset.mem_filter.mpr ⟨(Finset.mem_filter.mp hx).1, hk x hx⟩
  have hchild : ∀ c i, g.parentOf c = some i → c ∈ (ledger m g).children i := by
    intro c i hp
    obtain ⟨n, hc, hlink⟩ := parentOf_eq_some hp
    exact ht.mem_child hc hlink
  have hclosed : ∀ i, i ∈ g.nodes → ∀ c ∈ (ledger m g).children i, c ∈ g.nodes := by
    intro i _ c hmem
    obtain ⟨n, hc, -⟩ := ht.child_mem hmem
    exact (OrdMap.mem_iff _ _).mpr ⟨n, hc⟩
  have hmem : top ∈ g.nodes := (OrdMap.mem_iff _ _).mpr ⟨node, hn⟩
  calc m.spent node.budget + ∑ x ∈ g.nodes.keys.toFinset.filter (Descendant g top),
        (ledger m g).spent x
      = ∑ x ∈ insert top (g.nodes.keys.toFinset.filter (Descendant g top)),
          (ledger m g).spent x := by rw [Finset.sum_insert hself, ledger_spent hn]
    _ ≤ ∑ x ∈ g.nodes.keys.toFinset.filter (Ledger.Under g.parentOf k top),
          (ledger m g).spent x := Finset.sum_le_sum_of_subset hsubset
    _ ≤ (ledger m g).spent top + (ledger m g).below k top := Ledger.sum_under_le hchild _ k top
    _ ≤ (ledger m g).granted top := Ledger.spent_add_below_le (hc m) hclosed hmem k
    _ = m.granted node.budget := ledger_granted hn

/-- Budget conservation. In every graph reached by any calls, a node and all its
descendants together have consumed no more than the node was allocated. -/
theorem consumed_le_allocated (blake3 : String → String) {g : BoundedWorkGraph}
    (h : Reachable blake3 g) {id : String} {node : WorkNode} (hn : g.nodes[id]? = some node) :
    node.budget.tokensConsumed.toNat + g.spentBelow (·.tokensConsumed) id ≤
        node.budget.tokensAllocated.toNat ∧
      node.budget.costMicrosConsumed.toNat + g.spentBelow (·.costMicrosConsumed) id ≤
        node.budget.costMicrosAllocated.toNat := by
  rw [spentBelow_eq, spentBelow_eq]
  exact ⟨h.covered.conserved (m := .tokens) h.bookkept.tree hn,
    h.covered.conserved (m := .cost) h.bookkept.tree hn⟩

/-- A root that delegates forty of its hundred, both then spending. -/
def delegatedCalls : List GraphOp :=
  [.addRoot "root" "lead" "capsule:1" ⟨100, 0, 100, 0⟩,
    .delegate "root" "child" "worker" "capsule:2" ⟨40, 0, 40, 0⟩,
    .consumeBudget "child" 10 10, .consumeBudget "root" 30 30]

theorem consumed_le_allocated_delegated :
    ∃ node, (afterCalls id delegatedCalls (new 2 2)).nodes["root"]? = some node ∧
      node.budget = ⟨100, 30, 100, 30⟩ ∧
      (node.budget.tokensConsumed.toNat +
          (afterCalls id delegatedCalls (new 2 2)).spentBelow (·.tokensConsumed) "root" ≤
        node.budget.tokensAllocated.toNat ∧
      node.budget.costMicrosConsumed.toNat +
          (afterCalls id delegatedCalls (new 2 2)).spentBelow (·.costMicrosConsumed) "root" ≤
        node.budget.costMicrosAllocated.toNat) := by
  have hget : ((afterCalls id delegatedCalls (new 2 2)).nodes["root"]?).map (·.budget) =
      some ⟨100, 30, 100, 30⟩ := by decide +kernel
  obtain ⟨node, hn, hbudget⟩ := Option.map_eq_some_iff.mp hget
  exact ⟨node, hn, hbudget,
    consumed_le_allocated id (Reachable.afterCalls (.new 2 2) delegatedCalls) hn⟩

end BoundedWorkGraph

end LeanCtx
