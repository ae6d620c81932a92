import LeanCtx.HiveConverge

/-!
# Purged text never comes back

`Rewrite` is what one event may do to a node: create it, move it, write to it
while it is not purged, or take its text. No event does anything else, so a
node that is marked purged stays so, and it has no text in any graph that
folds have built.
-/

namespace LeanCtx.Hive

variable {g g' g'' : Graph}

/-- `live_nodes`: the nodes an agent may be given. -/
def Graph.liveNodes (g : Graph) : List (String × Node) :=
  g.nodes.toList.filter fun p => !p.2.retracted && !p.2.purged

theorem Graph.mem_liveNodes {id : String} {node : Node} : (id, node) ∈ g.liveNodes ↔
    g.nodes[id]? = some node ∧ node.retracted = false ∧ node.purged = false := by
  simp [liveNodes, Std.ExtTreeMap.mem_toList_iff_getElem?_eq_some]

/-- The graphs that folds build from the empty one; a fold that fails leaves what it applied. -/
inductive Folded : Graph → Prop
  | empty : Folded Graph.empty
  | fold {g : Graph} (h : Folded g) (events : List FoldEvent) : Folded (finalState (fold events) g)

/-! ## What an event does to a node -/

inductive Rewrite : Option Node → Node → Prop
  | added {n' : Node} (h : n'.purged = true → n'.fields = ∅) : Rewrite none n'
  | moved {n n' : Node} (hp : n'.purged = n.purged) (hf : n'.fields = n.fields) :
      Rewrite (some n) n'
  | written {n n' : Node} (hp : n.purged = false) (hp' : n'.purged = false) : Rewrite (some n) n'
  | shredded {n n' : Node} (hp : n'.purged = true) (hf : n'.fields = ∅) : Rewrite (some n) n'

/-- Every node of `g'` comes from `g` or is new, and none is lost. -/
structure Evolves (g g' : Graph) : Prop where
  rewrite : ∀ (id : String) (n' : Node), g'.nodes[id]? = some n' → Rewrite g.nodes[id]? n'
  keeps : ∀ id ∈ g.nodes, id ∈ g'.nodes

theorem Rewrite.trans {n? : Option Node} {n' n'' : Node} (h : Rewrite n? n')
    (h' : Rewrite (some n') n'') : Rewrite n? n'' := by
  cases h' with
  | shredded hp hf =>
    cases h with
    | added => exact .added fun _ => hf
    | moved | written | shredded => exact .shredded hp hf
  | written hp hp' =>
    cases h with
    | added => exact .added fun hpurged => by simp [hp'] at hpurged
    | moved hm => exact .written (hm ▸ hp) hp'
    | written hw => exact .written hw hp'
    | shredded hs => simp [hp] at hs
  | moved hp hf =>
    cases h with
    | added ha => exact .added fun hpurged => hf.trans (ha (hp ▸ hpurged))
    | moved hm hm' => exact .moved (hp.trans hm) (hf.trans hm')
    | written hw hw' => exact .written hw (hp.trans hw')
    | shredded hs hs' => exact .shredded (hp.trans hs) (hf.trans hs')

namespace Evolves

theorem refl (g : Graph) : Evolves g g where
  rewrite id n' h := by
    rw [h]
    exact .moved rfl rfl
  keeps _ h := h

theorem trans (h : Evolves g g') (h' : Evolves g' g'') : Evolves g g'' where
  keeps id hid := h'.keeps id (h.keeps id hid)
  rewrite id n'' hn'' := by
    have hr := h'.rewrite id n'' hn''
    cases hn' : g'.nodes[id]? with
    | some n' =>
      rw [hn'] at hr
      exact (h.rewrite id n' hn').trans hr
    | none =>
      rw [hn'] at hr
      have hnone : g.nodes[id]? = none := by
        rw [← OrdMap.not_mem_iff] at hn' ⊢
        exact fun hid => hn' (h.keeps id hid)
      rwa [hnone]

theorem of_nodes (h : g'.nodes = g.nodes) : Evolves g g' where
  rewrite id n' hn' := by
    rw [h] at hn'
    rw [hn']
    exact .moved rfl rfl
  keeps id hid := by rwa [h]

/-- One node is written, the others stay. -/
theorem of_insert {id : String} {n' : Node} (h : g'.nodes = g.nodes.insert id n')
    (hr : Rewrite g.nodes[id]? n') : Evolves g g' where
  rewrite x m hm := by
    rw [h, OrdMap.get_insert] at hm
    by_cases hx : id = x
    · rw [if_pos hx, Option.some.injEq] at hm
      rwa [← hx, ← hm]
    · rw [if_neg hx] at hm
      rw [hm]
      exact .moved rfl rfl
  keeps x hx := by
    rw [h, Std.ExtTreeMap.mem_insert]
    exact .inr hx

/-- A purged node stays purged, and one without text stays without. -/
theorem purged (h : Evolves g g') {id : String} {n : Node} (hn : g.nodes[id]? = some n)
    (hp : n.purged = true) :
    ∃ n' : Node, g'.nodes[id]? = some n' ∧ n'.purged = true ∧ (n.fields = ∅ → n'.fields = ∅) := by
  obtain ⟨n', hn'⟩ := (OrdMap.mem_iff _ _).mp (h.keeps id ((OrdMap.mem_iff _ _).mpr ⟨n, hn⟩))
  have hr := h.rewrite id n' hn'
  rw [hn] at hr
  refine ⟨n', hn', ?_⟩
  cases hr with
  | moved hpp hf => exact ⟨hpp.trans hp, fun hempty => hf.trans hempty⟩
  | written hw => simp [hp] at hw
  | shredded hs hf => exact ⟨hs, fun _ => hf⟩

end Evolves

/-- Purged nodes have no text. -/
def Textless (g : Graph) : Prop :=
  ∀ (id : String) (n : Node), g.nodes[id]? = some n → n.purged = true → n.fields = ∅

theorem Textless.evolves (h : Textless g) (he : Evolves g g') : Textless g' := by
  intro id n' hn' hp
  have hr := he.rewrite id n' hn'
  cases hn : g.nodes[id]? with
  | none =>
    rw [hn] at hr
    cases hr with
    | added ha => exact ha hp
  | some n =>
    rw [hn] at hr
    cases hr with
    | moved hpp hf => exact hf.trans (h id n hn (hpp ▸ hp))
    | written _ hw => simp [hp] at hw
    | shredded _ hf => exact hf

/-! ## One event -/

theorem evolves_addNode (g : Graph) (e : FoldEvent) (target : String) :
    Evolves g (g.addNode e target) := by
  have hadded : (g.addNode e target).nodes = g.nodes.insert target
      { (g.nodes[target]?).getD (g.newNode e) with lastSeq := e.seq } := rfl
  apply Evolves.of_insert hadded
  cases hn : g.nodes[target]? with
  | some n => exact .moved rfl rfl
  | none =>
    apply Rewrite.added
    intro hp
    have hp : (e.body.isNone || decide (e.eventId ∈ g.purgedEvents)) = true := hp
    simp only [Graph.newNode, Option.getD_none, hp, if_true]

theorem evolves_setField (g : Graph) (e : FoldEvent) (target : String) :
    Evolves g (g.setField e target) := by
  unfold Graph.setField
  split
  · rename_i n body hn _
    by_cases hp : n.purged = true
    · rw [if_pos hp]
      exact .refl g
    · rw [if_neg hp]
      rw [Bool.not_eq_true] at hp
      cases (body.get "field").bind Json.asStr with
      | none => exact .refl g
      | some field =>
        apply Evolves.of_insert rfl
        rw [hn]
        exact .written hp hp
  · exact .refl g

theorem evolves_addEdge (g : Graph) (e : FoldEvent) (target : String) :
    Evolves g (g.addEdge e target) := by
  apply Evolves.of_nodes
  unfold Graph.addEdge
  cases e.body <;> rfl

theorem evolves_setRetracted (g : Graph) (e : FoldEvent) (target : String) (retracted : Bool) :
    Evolves g (g.setRetracted e target retracted) := by
  unfold Graph.setRetracted
  cases hn : g.nodes[target]? with
  | some n =>
    apply Evolves.of_insert rfl
    rw [hn]
    exact .moved rfl rfl
  | none =>
    apply Evolves.of_nodes
    cases g.edges[target]? <;> rfl

theorem evolves_purgeEvent (purge : Purge) (g : Graph) (id : String) :
    Evolves g (Graph.purgeEvent purge g id) := by
  unfold Graph.purgeEvent
  dsimp only
  cases g.addedBy[id]? with
  | none => exact .of_nodes rfl
  | some nodeId =>
    dsimp only
    cases hn : g.nodes[nodeId]? with
    | none => exact .of_nodes rfl
    | some n =>
      apply Evolves.of_insert rfl
      rw [hn]
      exact .shredded rfl rfl

theorem evolves_purgeEvents (purge : Purge) (seq : ℕ) (ids : List String) (g : Graph) :
    Evolves g (g.purgeEvents purge seq ids) := by
  have hfold : ∀ g : Graph, Evolves g (ids.foldl (Graph.purgeEvent purge) g) := by
    induction ids with
    | nil => exact Evolves.refl
    | cons id ids ih => exact fun g => (evolves_purgeEvent purge g id).trans (ih _)
  have htomb : Evolves g { g with tombstones := insert (purge.purgeId, seq) g.tombstones } :=
    .of_nodes rfl
  exact htomb.trans (hfold _)

theorem evolves_apply {e : FoldEvent} (h : apply g e = .ok g') : Evolves g g' := by
  unfold apply at h
  split at h
  · obtain rfl := Except.ok.inj h
    exact evolves_addNode g e _
  · obtain rfl := Except.ok.inj h
    exact evolves_setField g e _
  · obtain rfl := Except.ok.inj h
    exact evolves_addEdge g e _
  · obtain rfl := Except.ok.inj h
    exact evolves_setRetracted g e _ true
  · obtain rfl := Except.ok.inj h
    exact evolves_setRetracted g e _ false
  · unfold applyPurge at h
    cases hb : e.body with
    | none =>
      rw [hb] at h
      obtain rfl := Except.ok.inj h
      exact .refl g
    | some body =>
      simp only [hb] at h
      split_ifs at h
      obtain rfl := Except.ok.inj h
      exact evolves_purgeEvents _ _ _ g
  · obtain rfl := Except.ok.inj h
    exact .refl g

theorem evolves_step {e : FoldEvent} (h : step g e = .ok g') : Evolves g g' := by
  have hcursor : Evolves g { g with cursor := e.seq } := .of_nodes rfl
  unfold step at h
  by_cases hsig : e.sigInvalid = true
  · rw [if_pos hsig] at h
    obtain rfl := Except.ok.inj h
    exact hcursor
  · rw [if_neg hsig] at h
    exact hcursor.trans (evolves_apply h)

/-! ## A fold -/

/-- Also of a fold that fails: the graph it leaves comes from the events before the failure. -/
theorem foldOrdered_cons (e : FoldEvent) (l : List FoldEvent) (g : Graph) :
    foldOrdered (e :: l) g = match step g e with
      | .ok g' => foldOrdered l g'
      | .error err => .error err { g with cursor := e.seq } := by
  change (foldEvent e >>= fun _ => foldOrdered l : FoldM Unit) g = _
  simp only [bind, EStateM.bind, foldEvent_eq]
  cases step g e <;> rfl

theorem evolves_foldOrdered (l : List FoldEvent) (g : Graph) :
    Evolves g (finalState (foldOrdered l) g) := by
  induction l generalizing g with
  | nil => exact .refl g
  | cons e l ih =>
    unfold finalState
    rw [foldOrdered_cons]
    cases hs : step g e with
    | ok g' => exact (evolves_step hs).trans (ih g')
    | error err => exact .of_nodes rfl

theorem evolves_fold (events : List FoldEvent) (g : Graph) :
    Evolves g (finalState (fold events) g) := by
  by_cases hc : Coherent (unseen g events)
  · have := evolves_foldOrdered (replayed g events) g
    unfold finalState at this ⊢
    rwa [fold_of_coherent hc]
  · cases hclash : SeqLog.firstClash FoldEvent.seq
        (SeqLog.sorted FoldEvent.seq (unseen g events)) with
    | some s =>
      unfold finalState
      rw [fold_of_clash hclash]
      exact .refl g
    | none =>
      have hcoherent := (SeqLog.firstClash_eq_none (SeqLog.sorted_ascending _)).mp hclash
      exact absurd (hcoherent.mono fun _ ha => SeqLog.mem_sorted.mpr ha) hc

theorem Folded.textless (h : Folded g) : Textless g := by
  induction h with
  | empty =>
    intro id n hn
    simp [Graph.empty] at hn
  | fold _ events ih => exact ih.evolves (evolves_fold events _)

/-- A node marked purged stays purged whatever is folded onto its graph, without text and out
of the nodes an agent may be given. -/
theorem purged_stays_purged {id : String} {node : Node} (hnode : g.nodes[id]? = some node)
    (hpurged : node.purged = true) {events : List FoldEvent} (hfold : fold events g = .ok () g') :
    ∃ node' : Node, g'.nodes[id]? = some node' ∧ node'.purged = true ∧
      (Folded g ∨ node.fields = ∅ → node'.fields = ∅) ∧ ∀ n, (id, n) ∉ g'.liveNodes := by
  have hev := evolves_fold events g
  rw [finalState, hfold] at hev
  obtain ⟨node', hnode', hp', hfields⟩ := hev.purged hnode hpurged
  refine ⟨node', hnode', hp', ?_, ?_⟩
  · rintro (hg | hempty)
    · exact hfields (hg.textless id node hnode hpurged)
    · exact hfields hempty
  · intro n hlive
    obtain ⟨hn, -, hlive⟩ := Graph.mem_liveNodes.mp hlive
    rw [hnode', Option.some.injEq] at hn
    simp [← hn, hp'] at hlive

/-- The purged claim is added again under the same and under a new event id, written and restored. -/
def revivals : List FoldEvent :=
  [⟨4, "E1", "node.add", some "n_a", some "fact",
      some (.object [("statement", .string "Secret.")]), false, none, none⟩,
    ⟨5, "E5", "node.add", some "n_a", some "fact",
      some (.object [("statement", .string "Secret.")]), false, none, none⟩,
    ⟨6, "E6", "field.set", some "n_a", none,
      some (.object [("field", .string "statement"), ("value", .string "Secret.")]), false, none,
      none⟩,
    ⟨7, "E7", "restore", some "n_a", none, some (.object []), false, none, none⟩]

theorem purged_stays_purged_revivals :
    ∃ (g g' : Graph) (node node' : Node), fold purgedClaim Graph.empty = .ok () g ∧
      g.nodes["n_a"]? = some node ∧ node.purged = true ∧ fold revivals g = .ok () g' ∧
      g'.nodes["n_a"]? = some node' ∧ node'.purged = true ∧ node'.fields = ∅ ∧
      ∀ n, ("n_a", n) ∉ g'.liveNodes := by
  have hclaim : succeeded (fold purgedClaim Graph.empty) = true := by decide +kernel
  have hmarked : ((leftGraph (fold purgedClaim Graph.empty)).nodes["n_a"]?).any
      (fun node => node.purged) = true := by decide +kernel
  have hrevive : succeeded (fold revivals (leftGraph (fold purgedClaim Graph.empty))) = true := by
    decide +kernel
  obtain ⟨g, hg⟩ := exists_of_succeeded hclaim
  rw [hg] at hmarked hrevive
  obtain ⟨g', hg'⟩ := exists_of_succeeded hrevive
  obtain ⟨node, hnode, hpurged⟩ := (Option.any_eq_true _ _).mp hmarked
  have hfolded : Folded g := by
    have := Folded.fold .empty purgedClaim
    rwa [finalState, hg] at this
  obtain ⟨node', hnode', hp', hfields, hlive⟩ := purged_stays_purged hnode hpurged hg'
  exact ⟨g, g', node, node', hg, hnode, hpurged, hg', hnode', hp', hfields (.inl hfolded), hlive⟩

end LeanCtx.Hive
