import LeanCtx.WorkGraphValidator

/-!
# The reservation traversal always returns

On a covered graph with the tree property the traversal of `reservedChildBudget`
meets no child twice, no dangling child and no overflow, and it ends within its
fuel. What it returns is what the node has left, or less.
-/

namespace LeanCtx.BoundedWorkGraph

variable {g : BoundedWorkGraph} {m : Meter}

theorem addTotals_exists {acc : Totals} {tokens cost : UInt64}
    (ht : acc.1.toNat + tokens.toNat ≤ u64Max) (hc : acc.2.toNat + cost.toNat ≤ u64Max) :
    ∃ acc', addTotals acc tokens cost = .ok acc' := by
  simp [addTotals, checkedAdd, ht, hc]

theorem addTotals_granted_exists {acc : Totals} {b : WorkNodeBudget}
    (h : ∀ m : Meter, m.total acc + m.granted b ≤ u64Max) :
    ∃ acc', addTotals acc b.tokensAllocated b.costMicrosAllocated = .ok acc' :=
  addTotals_exists (h .tokens) (h .cost)

theorem addTotals_spent_exists {acc : Totals} {b : WorkNodeBudget}
    (h : ∀ m : Meter, m.total acc + m.spent b ≤ u64Max) :
    ∃ acc', addTotals acc b.tokensConsumed b.costMicrosConsumed = .ok acc' :=
  addTotals_exists (h .tokens) (h .cost)

/-- A round over fresh children that exist, with room for their charges, succeeds. -/
theorem chargeChildren_exists {p cur : String} {l : List String} {st : ReserveState}
    (hnodes : ∀ c ∈ l, c ∈ g.nodes) (hnodup : l.Nodup) (hnew : ∀ c ∈ l, c ∉ st.visited)
    (hroom : ∀ m : Meter, m.total st.totals + (l.map (ownCharge m g)).sum ≤ u64Max) :
    ∃ st', chargeChildren g p none cur l st = .ok st' := by
  induction l generalizing st with
  | nil => exact ⟨st, rfl⟩
  | cons c l ih =>
    obtain ⟨child, hchild⟩ := (OrdMap.mem_iff _ _).mp (hnodes c (by simp))
    obtain ⟨hc, hnodup'⟩ := List.nodup_cons.mp hnodup
    have hrest (totals : Totals) (stack : List String)
        (htotals : ∀ m : Meter, m.total totals = m.total st.totals + ownCharge m g c) :
        ∃ st', chargeChildren g p none cur l ⟨totals, stack, c :: st.visited⟩ = .ok st' := by
      refine ih (fun x hx => hnodes x (by simp [hx])) hnodup' ?_ ?_
      · intro x hx hv
        rcases List.mem_cons.mp hv with rfl | hv
        · exact hc hx
        · exact hnew x (by simp [hx]) hv
      · intro m
        have hsum := hroom m
        rw [List.map_cons, List.sum_cons] at hsum
        rw [htotals]
        omega
    have hfirst (m : Meter) : m.total st.totals + ownCharge m g c ≤ u64Max := by
      have hsum := hroom m
      rw [List.map_cons, List.sum_cons] at hsum
      omega
    rw [chargeChildren, if_neg (by simp), if_neg (hnew c (by simp)), hchild]
    dsimp only
    by_cases hsettled : g.settled c child = true
    · have hown (m : Meter) : ownCharge m g c = m.spent child.budget := by
        rw [ownCharge, if_pos ((ledger_closed hchild).mpr hsettled), ledger_spent hchild]
      obtain ⟨totals, htotals⟩ := addTotals_spent_exists fun m => hown m ▸ hfirst m
      rw [if_pos hsettled, htotals]
      exact hrest totals _ fun m => by rw [addTotals_spent htotals, hown]
    · have hown (m : Meter) : ownCharge m g c = m.granted child.budget := by
        rw [ownCharge, if_neg fun h => hsettled ((ledger_closed hchild).mp h), ledger_granted hchild]
      obtain ⟨totals, htotals⟩ := addTotals_granted_exists fun m => hown m ▸ hfirst m
      rw [if_neg hsettled, htotals]
      exact hrest totals _ fun m => by rw [addTotals_granted htotals, hown]

theorem chargePending_exists {p cur : String} {l : List (String × WorkNodeBudget)} {acc : Totals}
    (hroom : ∀ m : Meter, m.total acc + (l.map fun e =>
      if some e.1 = exclusion p none cur ∨ g.pendingChildParents[e.1]? ≠ some cur then 0
      else m.granted e.2).sum ≤ u64Max) :
    ∃ acc', chargePending g p none cur l acc = .ok acc' := by
  induction l generalizing acc with
  | nil => exact ⟨acc, rfl⟩
  | cons e l ih =>
    obtain ⟨c, b⟩ := e
    have hex : exclusion p none cur = none := by simp [exclusion]
    rw [chargePending]
    by_cases hskip : g.pendingChildParents[c]? ≠ some cur
    · rw [if_pos (.inr hskip)]
      refine ih fun m => ?_
      have hsum := hroom m
      rw [List.map_cons, List.sum_cons, if_pos (.inr hskip)] at hsum
      omega
    · have hcharged : ¬ ((cur = p ∧ some c = none) ∨ g.pendingChildParents[c]? ≠ some cur) := by
        simpa using hskip
      have hcharged' : ¬ (some c = exclusion p none cur ∨
          g.pendingChildParents[c]? ≠ some cur) := by simpa [hex] using hskip
      have hsum (m : Meter) := hroom m
      simp only [List.map_cons, List.sum_cons, if_neg hcharged'] at hsum
      have hfits (m : Meter) : m.total acc + m.granted b ≤ u64Max := by
        have := hsum m
        omega
      obtain ⟨acc₁, hacc⟩ := addTotals_granted_exists hfits
      rw [if_neg hcharged, hacc]
      refine ih fun m => ?_
      have := hsum m
      rw [addTotals_granted hacc]
      omega

/-- Where the traversal stands: the parents it has finished, and what it has marked. -/
structure Walk (g : BoundedWorkGraph) (p : String) (popped : List String) (st : ReserveState) :
    Prop where
  stackNodup : st.pendingParents.Nodup
  poppedNodup : popped.Nodup
  disjoint : ∀ x ∈ popped, x ∉ st.pendingParents
  stackNodes : ∀ x ∈ st.pendingParents, x ∈ g.nodes
  poppedNodes : ∀ x ∈ popped, x ∈ g.nodes
  stackVisited : ∀ x ∈ st.pendingParents, x ∈ st.visited
  poppedVisited : ∀ x ∈ popped, x ∈ st.visited
  marked : ∀ x ∈ st.visited, x = p ∨ ∃ q ∈ popped, g.parentOf x = some q
  below : ∀ x, x ∈ st.pendingParents → x = p ∨ Descendant g p x

theorem Tree.parentOf_child (ht : Tree g) {p c : String} (h : c ∈ g.childrenOf p) :
    g.parentOf c = some p := by
  obtain ⟨node, hn, hp⟩ := ht.child_mem h
  simp [parentOf, hn, hp]

theorem Tree.not_descendant_self (ht : Tree g) {p : String} (hp : p ∈ g.nodes) :
    ¬ Descendant g p p := by
  intro h
  obtain ⟨node, hn⟩ := (OrdMap.mem_iff _ _).mp hp
  exact lt_irrefl _ (h.depth_lt ht hn hn)

/-- A child of the parent at hand is below the start. -/
theorem Walk.child_below (ht : Tree g) {p cur c : String} {popped rest : List String}
    {st : ReserveState} (hw : Walk g p popped st) (hst : st.pendingParents = cur :: rest)
    (hc : c ∈ g.childrenOf cur) : Descendant g p c := by
  have hparent := ht.parentOf_child hc
  rcases hw.below cur (by simp [hst]) with rfl | hbelow
  · exact .single hparent
  · exact .head hparent hbelow

theorem Walk.child_new (ht : Tree g) {p cur c : String} {popped rest : List String}
    {st : ReserveState} (hp : p ∈ g.nodes) (hw : Walk g p popped st)
    (hst : st.pendingParents = cur :: rest) (hc : c ∈ g.childrenOf cur) : c ∉ st.visited := by
  intro hvisited
  have hbelow := hw.child_below ht hst hc
  rcases hw.marked c hvisited with rfl | ⟨q, hq, hparent⟩
  · exact ht.not_descendant_self hp hbelow
  · have hcur : q = cur := Option.some.inj (hparent.symm.trans (ht.parentOf_child hc))
    exact hw.disjoint q hq (by simp [hst, hcur])

open scoped Classical in
theorem Walk.step (ht : Tree g) {p cur : String} {popped rest : List String} {st st' : ReserveState}
    {totals : Totals} (hp : p ∈ g.nodes) (hw : Walk g p popped st)
    (hst : st.pendingParents = cur :: rest)
    (hstack : st'.pendingParents =
      ((g.childrenOf cur).filter fun c => (ledger m g).closed c).reverse ++ rest)
    (hvisited : st'.visited = (g.childrenOf cur).reverse ++ st.visited) :
    Walk g p (cur :: popped) { st' with totals } := by
  have hcur : cur ∈ st.pendingParents := by simp [hst]
  have hnodup := hw.stackNodup
  rw [hst, List.nodup_cons] at hnodup
  have hrest {x : String} (hx : x ∈ rest) : x ∈ st.pendingParents := by simp [hst, hx]
  have hnew {c : String} (hc : c ∈ g.childrenOf cur) : c ∉ st.visited := hw.child_new ht hp hst hc
  have hpush {x : String} (hx : x ∈ st'.pendingParents) : x ∈ g.childrenOf cur ∨ x ∈ rest := by
    rw [hstack, List.mem_append, List.mem_reverse, List.mem_filter] at hx
    exact hx.imp And.left id
  constructor
  · rw [hstack, List.nodup_append]
    refine ⟨List.nodup_reverse.mpr ((ht.nodup cur).filter _), hnodup.2, ?_⟩
    rintro x hx y hy rfl
    rw [List.mem_reverse, List.mem_filter] at hx
    exact hnew hx.1 (hw.stackVisited x (hrest hy))
  · exact List.nodup_cons.mpr ⟨fun h => hw.disjoint cur h hcur, hw.poppedNodup⟩
  · intro x hx hpushed
    rcases List.mem_cons.mp hx with rfl | hx
    · rcases hpush hpushed with hc | hr
      · exact hnew hc (hw.stackVisited x hcur)
      · exact hnodup.1 hr
    · rcases hpush hpushed with hc | hr
      · exact hnew hc (hw.poppedVisited x hx)
      · exact hw.disjoint x hx (hrest hr)
  · intro x hx
    rcases hpush hx with hc | hr
    · obtain ⟨node, hn, -⟩ := ht.child_mem hc
      exact (OrdMap.mem_iff _ _).mpr ⟨node, hn⟩
    · exact hw.stackNodes x (hrest hr)
  · intro x hx
    rcases List.mem_cons.mp hx with rfl | hx
    · exact hw.stackNodes x hcur
    · exact hw.poppedNodes x hx
  · intro x hx
    rw [hvisited, List.mem_append, List.mem_reverse]
    exact (hpush hx).imp id fun hr => hw.stackVisited x (hrest hr)
  · intro x hx
    rw [hvisited, List.mem_append]
    rcases List.mem_cons.mp hx with rfl | hx
    · exact .inr (hw.stackVisited x hcur)
    · exact .inr (hw.poppedVisited x hx)
  · intro x hx
    rw [hvisited, List.mem_append, List.mem_reverse] at hx
    rcases hx with hc | hx
    · exact .inr ⟨cur, by simp, ht.parentOf_child hc⟩
    · rcases hw.marked x hx with h | ⟨q, hq, hparent⟩
      · exact .inl h
      · exact .inr ⟨q, by simp [hq], hparent⟩
  · intro x hx
    rcases hpush hx with hc | hr
    · exact .inr (hw.child_below ht hst hc)
    · exact hw.below x (hrest hr)

theorem kept_none (p cur : String) (l : List String) : kept p none cur l = l := by simp [kept]

theorem exclusion_none (p cur : String) : exclusion p none cur = none := by simp [exclusion]

theorem reserveLoop_exists (ht : Tree g) {p : String} (hp : p ∈ g.nodes) (fuel : ℕ)
    {popped : List String} {st : ReserveState} (hw : Walk g p popped st)
    (hfuel : fuel + popped.length = g.nodes.size + 2)
    (hroom : ∀ m : Meter, m.total st.totals +
      (st.pendingParents.map ((ledger m g).commit fuel)).sum ≤ u64Max) :
    ∃ r, reserveLoop g p none fuel st = .ok r := by
  induction fuel generalizing popped st with
  | zero =>
    have := length_le_size_of_nodup hw.poppedNodup hw.poppedNodes
    omega
  | succ fuel ih =>
    rw [reserveLoop]
    cases hst : st.pendingParents with
    | nil => exact ⟨st.totals, rfl⟩
    | cons cur rest =>
      dsimp only
      have hbound (m : Meter) : m.total st.totals + (((g.childrenOf cur).map
          ((ledger m g).charge fuel)).sum + heldExcept m g none cur) +
            (rest.map ((ledger m g).commit fuel)).sum ≤ u64Max := by
        have htotal := hroom m
        rw [hst, List.map_cons, List.sum_cons, Ledger.commit_succ] at htotal
        have hmono : (rest.map ((ledger m g).commit fuel)).sum ≤
            (rest.map ((ledger m g).commit (fuel + 1))).sum :=
          Ledger.sum_map_le_sum_map fun q _ => (ledger m g).commit_le_succ fuel q
        change m.total st.totals + ((((g.childrenOf cur).map ((ledger m g).charge fuel)).sum +
          heldExcept m g none cur) + (rest.map ((ledger m g).commit (fuel + 1))).sum) ≤ u64Max
          at htotal
        omega
      obtain ⟨st', hchildren⟩ : ∃ st', chargeChildren g p none cur (g.childrenOf cur)
          { st with pendingParents := rest } = .ok st' := by
        have hnew : ∀ c ∈ g.childrenOf cur, c ∉ st.visited :=
          fun c hc => hw.child_new ht hp hst hc
        refine chargeChildren_exists ?_ (ht.nodup cur) hnew ?_
        · intro c hc
          obtain ⟨node, hn, -⟩ := ht.child_mem hc
          exact (OrdMap.mem_iff _ _).mpr ⟨node, hn⟩
        · intro m
          have := hbound m
          rw [sum_charge] at this
          dsimp only
          omega
      obtain ⟨totals, hpending⟩ : ∃ totals, chargePending g p none cur
          g.pendingChildBudgets.toList st'.totals = .ok totals := by
        refine chargePending_exists fun m => ?_
        obtain ⟨hsum, -⟩ := chargeChildren_spec (m := m) hchildren
        have := hbound m
        rw [sum_charge] at this
        rw [hsum, kept_none, exclusion_none]
        change m.total st.totals + ((g.childrenOf cur).map (ownCharge m g)).sum +
          heldExcept m g none cur ≤ u64Max
        omega
      obtain ⟨-, hpush, hmark, -⟩ := chargeChildren_spec (m := .tokens) hchildren
      rw [kept_none] at hpush hmark
      rw [hchildren]
      change ∃ r, (chargePending g p none cur g.pendingChildBudgets.toList st'.totals >>=
        fun totals => reserveLoop g p none fuel { st' with totals }) = .ok r
      rw [hpending]
      refine ih (hw.step ht hp hst hpush hmark) (by simp; omega) fun m => ?_
      have hround := reserveRound (m := m) hchildren hpending fuel
      rw [kept_none, exclusion_none] at hround
      dsimp only at hround ⊢
      rw [hround]
      exact hbound m

theorem granted_le_u64Max (m : Meter) (b : WorkNodeBudget) : m.granted b ≤ u64Max := by
  cases m
  · exact toNat_le_u64Max _
  · exact toNat_le_u64Max _

/-- The reservation of a node exists and fits into what the node has left. -/
theorem reservedChildBudget_exists (ht : Tree g) (hc : Covered g) {p : String} {parent : WorkNode}
    (hp : g.nodes[p]? = some parent) :
    ∃ r, g.reservedChildBudget p none = .ok r ∧ ∀ m : Meter,
      m.total r ≤ m.granted parent.budget - m.spent parent.budget := by
  have hmem : p ∈ g.nodes := (OrdMap.mem_iff _ _).mpr ⟨parent, hp⟩
  have hcovered (m : Meter) := covered_iff.mp hc m p parent hp (g.nodes.size + 2)
  have hwalk : Walk g p [] ⟨(0, 0), [p], [p]⟩ := by
    constructor <;> simp [hmem]
  obtain ⟨r, hr⟩ : ∃ r, g.reservedChildBudget p none = .ok r := by
    refine reserveLoop_exists ht hmem (g.nodes.size + 2) hwalk (by simp) fun m => ?_
    have hzero : m.total (0, 0) = 0 := by cases m <;> rfl
    have hgranted := granted_le_u64Max m parent.budget
    have := hcovered m
    simp only [hzero, List.map_cons, List.map_nil, List.sum_cons, List.sum_nil]
    omega
  refine ⟨r, hr, fun m => ?_⟩
  have hhigh := (reservedChildBudget_bounds (m := m) hr).2
  have hfilter : (g.childrenOf p).filter (fun c => decide ¬ some c = none) = g.childrenOf p := by
    simp
  rw [hfilter] at hhigh
  have := hcovered m
  rw [Ledger.commit_succ] at this
  change m.spent parent.budget + (((g.childrenOf p).map ((ledger m g).charge
    (g.nodes.size + 1))).sum + heldExcept m g none p) ≤ m.granted parent.budget at this
  omega

end LeanCtx.BoundedWorkGraph
