import LeanCtx.WorkGraphValidator

/-!
# Execution exclusivity in the work-graph store

The store holds the graphs of a project. A claim looks for live path conflicts
in every graph and then starts the node in its own; all other operations act on
one graph. The conflict check is made once, at the claim: what keeps two
executions apart afterwards is that no operation changes the paths or the
capsule of a started node, starts a node or makes one active again.
-/

namespace LeanCtx

open Relation

def maxGraphs : ℕ := 32

structure WorkGraphStore where
  graphs : OrdMap String BoundedWorkGraph

inductive ClaimNodeExecution
  | claimed (node : WorkNode)
  | recoveredExpired

/-- The store reports every failure as text; the text of a graph's own error is
its `Display` form. -/
inductive StoreFault
  | err (message : String)
  | graph (error : WorkGraphError)
  | panic (message : String)

abbrev StoreM := EStateM StoreFault WorkGraphStore

def validateId (value field : String) : Except StoreFault Unit :=
  if value.isEmpty ∨ value.utf8ByteSize > 128 ∨
      ¬ (value.toList.all fun c => c.isAlphanum || c == '-' || c == '_' || c == '.') then
    .error (.err ("invalid " ++ field ++ ": expected 1..=128 ASCII [A-Za-z0-9._-]"))
  else .ok ()

namespace BoundedWorkGraph

def withLocalConcurrency (g : BoundedWorkGraph) (maxLocalConcurrency : ℕ) : BoundedWorkGraph :=
  { g with maxLocalConcurrency := max 1 (min maxLocalConcurrency maxLocalConcurrencyLimit) }

def withGraphId (g : BoundedWorkGraph) (graphId : String) : Except WorkGraphError BoundedWorkGraph := do
  validateIdentifier graphId "graph_id"
  .ok { g with graphId := graphId }

def bindGraphId (g : BoundedWorkGraph) (graphId : String) : Except WorkGraphError BoundedWorkGraph := do
  validateIdentifier graphId "graph_id"
  if g.graphId ≠ "" ∧ g.graphId ≠ graphId then .error (.invalidGraph "graph id mismatch")
  else .ok { g with graphId := graphId }

end BoundedWorkGraph

namespace WorkGraphStore

def empty : WorkGraphStore := ⟨∅⟩

def setGraph (s : WorkGraphStore) (graphId : String) (g : BoundedWorkGraph) : WorkGraphStore :=
  ⟨s.graphs.insert graphId g⟩

def create (graphId : String) (graph : BoundedWorkGraph) : StoreM Unit := do
  ofExcept id (validateId graphId "graph_id")
  let s ← get
  rejectIf (graphId ∈ s.graphs) (.err ("duplicate graph: " ++ graphId ++
    " (inspect it with action=get or choose a new graph_id)"))
  rejectIf (s.graphs.size ≥ maxGraphs) (.err "work graph store at capacity (32)")
  let graph ← ofExcept .graph (graph.bindGraphId graphId)
  set (s.setGraph graphId graph)

/-- `graph_mut` followed by one operation: the writes of the operation stay in
the store, whatever it returned. -/
def onGraph {α : Type} (graphId : String) (m : GraphM α) : StoreM α := do
  ofExcept id (validateId graphId "graph_id")
  let s ← get
  let g ← ofOption (.err ("graph not found: " ++ graphId)) s.graphs[graphId]?
  match m g with
  | .ok a g' => do
    set (s.setGraph graphId g')
    pure a
  | .error (.err e) g' => do
    set (s.setGraph graphId g')
    throw (.graph e)
  | .error (.panic message) g' => do
    set (s.setGraph graphId g')
    throw (.panic message)

/-- Some graph holds a live claim on a requested path; the claiming node itself is
left out of its own graph. -/
def pathConflict (s : WorkGraphStore) (requested : List String) (now : ℕ)
    (graphId nodeId : String) : Bool :=
  s.graphs.toList.any fun p =>
    p.2.hasLivePathConflict requested now (if p.1 = graphId then some nodeId else none)

def claimNodeExecution (blake3 : String → String) (graphId nodeId : String)
    (now leaseExpires : ℕ) : StoreM ClaimNodeExecution := do
  ofExcept id (validateId graphId "graph_id")
  ofExcept id (validateId nodeId "node_id")
  let s ← get
  let node ← ofOption (.err ("node not found: " ++ nodeId))
    ((s.graphs[graphId]?).bind fun g => g.nodes[nodeId]?)
  rejectIf (node.pathClaims ≠ [] ∧ s.pathConflict node.pathClaims now graphId nodeId = true)
    (.err "path claim conflicts with a live work graph execution")
  let stopped ← onGraph graphId (BoundedWorkGraph.recoverExpiredExecution nodeId now)
  if stopped ≠ [] then pure .recoveredExpired
  else do
    let claimed ← onGraph graphId
      (BoundedWorkGraph.claimOrResumeActiveUntil blake3 nodeId leaseExpires)
    pure (.claimed claimed)

end WorkGraphStore

namespace BoundedWorkGraph

variable {g g' : BoundedWorkGraph} {blake3 : String → String}

/-- The graphs a program can hold: built by the constructors and operations, or
decoded and accepted by the validator. -/
inductive Built (blake3 : String → String) : BoundedWorkGraph → Prop
  | new (maxFanOut maxDepth : ℕ) : Built blake3 (new maxFanOut maxDepth)
  | concurrency {g : BoundedWorkGraph} (h : Built blake3 g) (limit : ℕ) :
      Built blake3 (g.withLocalConcurrency limit)
  | named {g g' : BoundedWorkGraph} (h : Built blake3 g) (graphId : String)
      (hname : g.withGraphId graphId = .ok g') : Built blake3 g'
  | call {g : BoundedWorkGraph} (h : Built blake3 g) (op : GraphOp) :
      Built blake3 (finalState (op.run blake3) g)
  | decoded {g : BoundedWorkGraph} (h : validateInvariants blake3 g = .ok ()) : Built blake3 g

theorem Built.tree (h : Built blake3 g) : Tree g := by
  induction h with
  | new a b => exact (bookkept_new a b).tree
  | @concurrency g h limit ih =>
    have hsame : SameTree g (g.withLocalConcurrency limit) := .of_eq rfl rfl rfl
    exact hsame.tree ih
  | @named g g' h graphId hname ih =>
    obtain ⟨-, -, hname⟩ := except_bind_eq_ok.mp hname
    obtain rfl := Except.ok.inj hname
    have hsame : SameTree g { g with graphId := graphId } := .of_eq rfl rfl rfl
    exact hsame.tree ih
  | @call g h op ih => exact ih.finalState op
  | decoded h => exact (validateInvariants_iff.mp h).tree

theorem Built.afterCalls (h : Built blake3 g) (calls : List GraphOp) :
    Built blake3 (afterCalls blake3 calls g) := by
  induction calls generalizing g with
  | nil => exact h
  | cons op calls ih => exact ih (h.call op)

/-! ## What a call leaves of the started nodes -/

/-- Started nodes are past the pending state, where paths may change and claims are made. -/
def StartedLeft (g : BoundedWorkGraph) : Prop :=
  ∀ (id : String) (n : WorkNode), g.nodes[id]? = some n → n.executionStarted = true →
    n.status ≠ .pending

/-- Nothing was started, and what is started keeps its paths and capsule and is active
only if it was active before. -/
structure SameStart (n n' : WorkNode) : Prop where
  started : n.executionStarted = true
  capsule : n'.capsuleRef = n.capsuleRef
  paths : n'.pathClaims = n.pathClaims
  active : n'.status = .active → n.status = .active

def Quiet (g g' : BoundedWorkGraph) : Prop :=
  ∀ (id : String) (n' : WorkNode), g'.nodes[id]? = some n' → n'.executionStarted = true →
    n'.status ≠ .pending ∧ ∃ n : WorkNode, g.nodes[id]? = some n ∧ SameStart n n'

theorem SameStart.refl {n : WorkNode} (h : n.executionStarted = true) : SameStart n n :=
  ⟨h, rfl, rfl, id⟩

theorem Quiet.refl (hg : StartedLeft g) : Quiet g g :=
  fun id n hn hs => ⟨hg id n hn hs, n, hn, .refl hs⟩

theorem Quiet.left (h : Quiet g g') : StartedLeft g' := fun id n' hn' hs => (h id n' hn' hs).1

theorem Quiet.trans {g'' : BoundedWorkGraph} (h : Quiet g g') (h' : Quiet g' g'') : Quiet g g'' := by
  intro id n'' hn'' hs
  obtain ⟨hleft, n', hn', hsame'⟩ := h' id n'' hn'' hs
  obtain ⟨-, n, hn, hsame⟩ := h id n' hn' hsame'.started
  exact ⟨hleft, n, hn, hsame.started, hsame'.capsule.trans hsame.capsule,
    hsame'.paths.trans hsame.paths, fun ha => hsame.active (hsame'.active ha)⟩

/-- One node rewritten, its started part left as it was. -/
theorem quiet_rewrite (hg : StartedLeft g) {id : String} {n n' : WorkNode}
    (hn : g.nodes[id]? = some n) (hnodes : g'.nodes = g.nodes.insert id n')
    (hnode : n.executionStarted = true → n.status ≠ .pending → n'.executionStarted = true →
      n'.status ≠ .pending ∧ n'.capsuleRef = n.capsuleRef ∧ n'.pathClaims = n.pathClaims ∧
        (n'.status = .active → n.status = .active))
    (hstart : n'.executionStarted = true → n.executionStarted = true) : Quiet g g' := by
  intro x n₁ hn₁ hs
  rw [hnodes, OrdMap.get_insert] at hn₁
  split_ifs at hn₁ with heq
  · obtain rfl := Option.some.inj hn₁
    subst heq
    have hs₀ := hstart hs
    obtain ⟨hleft, hcapsule, hpaths, hactive⟩ := hnode hs₀ (hg id n hn hs₀) hs
    exact ⟨hleft, n, hn, hs₀, hcapsule, hpaths, hactive⟩
  · exact ⟨hg x n₁ hn₁ hs, n₁, hn₁, .refl hs⟩

theorem quiet_insert (hg : StartedLeft g) {id : String} {node : WorkNode}
    (hnodes : g'.nodes = g.nodes.insert id node) (hnode : node.executionStarted = false) :
    Quiet g g' := by
  intro x n hn hs
  rw [hnodes, OrdMap.get_insert] at hn
  split_ifs at hn
  · obtain rfl := Option.some.inj hn
    rw [hnode] at hs
    cases hs
  · exact ⟨hg x n hn hs, n, hn, .refl hs⟩

theorem quiet_of_nodes (hg : StartedLeft g) (hnodes : g'.nodes = g.nodes) : Quiet g g' := by
  intro x n hn hs
  rw [hnodes] at hn
  exact ⟨hg x n hn hs, n, hn, .refl hs⟩

theorem SameButChains.nodes (h : SameButChains g g') : g'.nodes = g.nodes := by
  rw [h.eq]

theorem ended_started (n : WorkNode) : (ended n).executionStarted = n.executionStarted ∧
    (ended n).capsuleRef = n.capsuleRef ∧ (ended n).pathClaims = n.pathClaims := by
  unfold ended
  split_ifs <;> exact ⟨rfl, rfl, rfl⟩

/-- A node whose incarnation ends: it keeps its paths and capsule and is not active. -/
theorem quiet_endNode (hg : StartedLeft g) {id : String} {n n' : WorkNode}
    (hn : g.nodes[id]? = some n) (hnodes : g'.nodes = g.nodes.insert id (ended n'))
    (hs : n'.executionStarted = n.executionStarted) (hcapsule : n'.capsuleRef = n.capsuleRef)
    (hpaths : n'.pathClaims = n.pathClaims) (hpending : n'.status ≠ .pending)
    (hactive : n'.status ≠ .active) : Quiet g g' := by
  obtain ⟨hs', hcapsule', hpaths'⟩ := ended_started n'
  refine quiet_rewrite hg hn hnodes ?_ fun h => hs.symm.trans (hs'.symm.trans h)
  intro _ _ _
  rw [status_ended]
  exact ⟨hpending, hcapsule'.trans hcapsule, hpaths'.trans hpaths, fun h => absurd h hactive⟩

theorem receiptStatus_ended (outcome : ChildOutcome) :
    receiptStatus outcome ≠ .pending ∧ receiptStatus outcome ≠ .active := by
  cases outcome <;> simp [receiptStatus]

theorem Quiet.of_change (hg : StartedLeft g) (h : Change blake3 g g') : Quiet g g' := by
  cases h with
  | root h => exact quiet_insert hg rfl rfl
  | child h => exact quiet_insert hg (sameButChains_childInserted _ _ _ _).nodes rfl
  | reservation h => exact quiet_of_nodes hg (sameButChains_reservationAdded _ _ _ _ _ _).nodes
  | rootContext hn hp =>
    exact quiet_rewrite hg hn rfl (fun _ hp _ => ⟨hp, rfl, rfl, id⟩) id
  | update h =>
    cases h with
    | claim h => exact quiet_rewrite hg h.getNode rfl (fun _ hp => absurd h.pending hp) id
    | @stop nodeId node reason hn hs =>
      have hstopped : (stoppedNode node reason).status = .stopped := rfl
      exact quiet_endNode hg hn rfl rfl rfl rfl (by simp [hstopped]) (by simp [hstopped])
    | leaseCleared hn =>
      exact quiet_rewrite hg hn rfl (fun _ hp _ => ⟨hp, rfl, rfl, id⟩) id
    | paths hn hs => exact quiet_rewrite hg hn rfl (fun _ hp => absurd hs hp) id
    | childContext hn hp =>
      exact quiet_rewrite hg hn rfl (fun _ hp _ => ⟨hp, rfl, rfl, id⟩) id
    | delivery h =>
      exact quiet_rewrite hg h.getNode rfl (fun _ hp _ => ⟨hp, rfl, rfl, id⟩) id
    | @complete nodeId outcomeRef node hn hs =>
      have hdone : (completedNode node outcomeRef).status = .completed := rfl
      exact quiet_endNode hg hn rfl rfl rfl rfl (by simp [hdone]) (by simp [hdone])
    | @receipt receipt node _ _ _ chainId chain nextTokens nextCost h hspend =>
      obtain ⟨hpending, hactive⟩ := receiptStatus_ended receipt.outcome
      have hnodes := ((sameButChains_updateChain (g.endNode receipt.nodeId
        (receiptedNode node receipt)) chainId (spentChain nextTokens nextCost)).addReceipt
          receipt).nodes
      exact quiet_endNode hg hspend.getNode hnodes rfl rfl rfl hpending hactive
    | accept h => exact quiet_of_nodes hg rfl
    | @spend nodeId node _ _ _ chainId _ nextTokens nextCost nextChainTokens nextChainCost hspend =>
      have hnodes := (sameButChains_updateChain (g.setNode nodeId (spentNode node nextTokens
        nextCost)) chainId (spentChain nextChainTokens nextChainCost)).nodes
      exact quiet_rewrite hg hspend.getNode hnodes (fun _ hp _ => ⟨hp, rfl, rfl, id⟩) id

theorem Quiet.of_changes (hg : StartedLeft g) (h : Changes blake3 g g') : Quiet g g' := by
  induction h with
  | refl => exact .refl hg
  | tail _ hstep ih => exact ih.trans (.of_change ih.left hstep)

end BoundedWorkGraph

namespace WorkGraphStore

open BoundedWorkGraph

variable {s : WorkGraphStore} {g g' : BoundedWorkGraph} {blake3 : String → String}

/-- The store holds node `n` under `id` in graph `gid`. -/
def NodeAt (s : WorkGraphStore) (gid id : String) (n : WorkNode) : Prop :=
  ∃ g : BoundedWorkGraph, s.graphs[gid]? = some g ∧ g.nodes[id]? = some n

/-- A started execution that has not ended. -/
def Running (n : WorkNode) : Prop := n.status = .active ∧ n.executionStarted = true

/-- A started execution that was stopped while its window is still open. -/
def Lingering (now : ℕ) (n : WorkNode) : Prop :=
  n.executionStarted = true ∧ n.status = .stopped ∧
    ∃ expires, n.leaseExpiresEpochMs = some expires ∧ now < expires

/-- No path of one list overlaps a path of the other. -/
def Apart (paths paths' : List String) : Prop :=
  ∀ p ∈ paths, ∀ q ∈ paths', pathClaimsOverlap p q = false

theorem Apart.symm {paths paths' : List String} (h : Apart paths paths') : Apart paths' paths := by
  intro q hq p hp
  rw [pathClaimsOverlap_comm]
  exact h p hp q hq

/-- The invariant of the store. -/
structure Exclusive (s : WorkGraphStore) : Prop where
  tree : ∀ {gid : String} {g : BoundedWorkGraph}, s.graphs[gid]? = some g → Tree g
  left : ∀ {gid : String} {g : BoundedWorkGraph}, s.graphs[gid]? = some g → StartedLeft g
  paths : ∀ {gid gid' id id' : String} {n n' : WorkNode}, NodeAt s gid id n →
    NodeAt s gid' id' n' → (gid, id) ≠ (gid', id') → Running n → Running n' →
    Apart n.pathClaims n'.pathClaims
  capsules : ∀ {gid id id' : String} {n n' : WorkNode}, NodeAt s gid id n → NodeAt s gid id' n' →
    id ≠ id' → n.executionStarted = true → n'.executionStarted = true →
    n.capsuleRef ≠ n'.capsuleRef

theorem get_setGraph (s : WorkGraphStore) (gid x : String) (g : BoundedWorkGraph) :
    (s.setGraph gid g).graphs[x]? = if gid = x then some g else s.graphs[x]? :=
  OrdMap.get_insert _ _ _ _

theorem setGraph_setGraph (s : WorkGraphStore) (gid : String) (g g' : BoundedWorkGraph) :
    (s.setGraph gid g).setGraph gid g' = s.setGraph gid g' := by
  rw [setGraph, setGraph, setGraph]
  congr 1
  exact insert_insert_self _ _ _ _

/-- In a store where one graph was replaced, a started node comes from a started node. -/
theorem NodeAt.before {gid x id : String} {n : WorkNode} (hg : s.graphs[gid]? = some g)
    (hq : Quiet g g') (h : NodeAt (s.setGraph gid g') x id n)
    (hstarted : n.executionStarted = true) : ∃ n₀, NodeAt s x id n₀ ∧ SameStart n₀ n := by
  obtain ⟨g₁, hg₁, hn⟩ := h
  rw [get_setGraph] at hg₁
  split_ifs at hg₁ with heq
  · obtain rfl := Option.some.inj hg₁
    subst heq
    obtain ⟨-, n₀, hn₀, hsame⟩ := hq id n hn hstarted
    exact ⟨n₀, ⟨g, hg, hn₀⟩, hsame⟩
  · exact ⟨n, ⟨g₁, hg₁, hn⟩, .refl hstarted⟩

/-- Replacing a graph by what a quiet call left of it. -/
theorem Exclusive.setQuiet (hs : Exclusive s) {gid : String} (hg : s.graphs[gid]? = some g)
    (htree : Tree g') (hq : Quiet g g') : Exclusive (s.setGraph gid g') := by
  refine ⟨?_, ?_, ?_, ?_⟩
  · intro x g₁ hg₁
    rw [get_setGraph] at hg₁
    split_ifs at hg₁
    · exact Option.some.inj hg₁ ▸ htree
    · exact hs.tree hg₁
  · intro x g₁ hg₁
    rw [get_setGraph] at hg₁
    split_ifs at hg₁
    · exact Option.some.inj hg₁ ▸ hq.left
    · exact hs.left hg₁
  · intro x x' id id' n n' hn hn' hne hrun hrun'
    obtain ⟨n₀, hn₀, hsame⟩ := hn.before hg hq hrun.2
    obtain ⟨n₀', hn₀', hsame'⟩ := hn'.before hg hq hrun'.2
    rw [hsame.paths, hsame'.paths]
    exact hs.paths hn₀ hn₀' hne ⟨hsame.active hrun.1, hsame.started⟩
      ⟨hsame'.active hrun'.1, hsame'.started⟩
  · intro x id id' n n' hn hn' hne hst hst'
    obtain ⟨n₀, hn₀, hsame⟩ := hn.before hg hq hst
    obtain ⟨n₀', hn₀', hsame'⟩ := hn'.before hg hq hst'
    rw [hsame.capsule, hsame'.capsule]
    exact hs.capsules hn₀ hn₀' hne hsame.started hsame'.started

/-- A new graph without started nodes brings no execution. -/
theorem Exclusive.setIdle (hs : Exclusive s) {gid : String} (htree : Tree g)
    (hidle : ∀ (id : String) (n : WorkNode), g.nodes[id]? = some n → n.executionStarted = false) :
    Exclusive (s.setGraph gid g) := by
  have hleft : StartedLeft g := by
    intro id n hn hstarted
    rw [hidle id n hn] at hstarted
    cases hstarted
  have hbefore {x id : String} {n : WorkNode} (h : NodeAt (s.setGraph gid g) x id n)
      (hstarted : n.executionStarted = true) : NodeAt s x id n := by
    obtain ⟨g₁, hg₁, hn⟩ := h
    rw [get_setGraph] at hg₁
    split_ifs at hg₁
    · obtain rfl := Option.some.inj hg₁
      rw [hidle id n hn] at hstarted
      cases hstarted
    · exact ⟨g₁, hg₁, hn⟩
  refine ⟨?_, ?_, ?_, ?_⟩
  · intro x g₁ hg₁
    rw [get_setGraph] at hg₁
    split_ifs at hg₁
    · exact Option.some.inj hg₁ ▸ htree
    · exact hs.tree hg₁
  · intro x g₁ hg₁
    rw [get_setGraph] at hg₁
    split_ifs at hg₁
    · exact Option.some.inj hg₁ ▸ hleft
    · exact hs.left hg₁
  · intro x x' id id' n n' hn hn' hne hrun hrun'
    exact hs.paths (hbefore hn hrun.2) (hbefore hn' hrun'.2) hne hrun hrun'
  · intro x id id' n n' hn hn' hne hst hst'
    exact hs.capsules (hbefore hn hst) (hbefore hn' hst') hne hst hst'

/-- Starting a node that no running execution overlaps and whose capsule is free. -/
theorem Exclusive.setStarted (hs : Exclusive s) {gid nodeId : String} {node : WorkNode} {lease : ℕ}
    (hg : s.graphs[gid]? = some g) (hstart : Startable g nodeId node)
    (hfree : ∀ (x id : String) (n : WorkNode), NodeAt s x id n → (x, id) ≠ (gid, nodeId) →
      Running n → Apart node.pathClaims n.pathClaims) :
    Exclusive (s.setGraph gid (g.setNode nodeId
      { node with leaseExpiresEpochMs := some lease, executionStarted := true })) := by
  have hnode : NodeAt s gid nodeId node := ⟨g, hg, hstart.getNode⟩
  have hcases {x id : String} {n : WorkNode} (h : NodeAt (s.setGraph gid (g.setNode nodeId
      { node with leaseExpiresEpochMs := some lease, executionStarted := true })) x id n) :
      ((x, id) = (gid, nodeId) ∧ n = { node with
        leaseExpiresEpochMs := some lease, executionStarted := true }) ∨
      ((x, id) ≠ (gid, nodeId) ∧ NodeAt s x id n) := by
    obtain ⟨g₁, hg₁, hn⟩ := h
    rw [get_setGraph] at hg₁
    split_ifs at hg₁ with hx
    · obtain rfl := Option.some.inj hg₁
      rw [setNode, OrdMap.get_insert] at hn
      split_ifs at hn with hid
      · exact .inl ⟨by rw [hx, hid], (Option.some.inj hn).symm⟩
      · exact .inr ⟨by simp [Ne.symm hid], g, hx ▸ hg, hn⟩
    · exact .inr ⟨by simp [Ne.symm hx], g₁, hg₁, hn⟩
  refine ⟨?_, ?_, ?_, ?_⟩
  · intro x g₁ hg₁
    rw [get_setGraph] at hg₁
    split_ifs at hg₁
    · obtain rfl := Option.some.inj hg₁
      exact (hs.tree hg).setNode hstart.getNode rfl
    · exact hs.tree hg₁
  · intro x g₁ hg₁ id n hn hstarted
    rcases hcases (x := x) ⟨g₁, hg₁, hn⟩ with ⟨-, rfl⟩ | ⟨-, g₀, hg₀, hn₀⟩
    · change node.status ≠ .pending
      rw [hstart.active]
      intro heq
      cases heq
    · exact hs.left hg₀ id n hn₀ hstarted
  · intro x x' id id' n n' hn hn' hne hrun hrun'
    rcases hcases hn with ⟨heq, rfl⟩ | ⟨hother, hn₀⟩
    · rcases hcases hn' with ⟨heq', rfl⟩ | ⟨hother', hn₀'⟩
      · exact absurd (heq.trans heq'.symm) hne
      · exact hfree x' id' n' hn₀' hother' hrun'
    · rcases hcases hn' with ⟨heq', rfl⟩ | ⟨hother', hn₀'⟩
      · exact (hfree x id n hn₀ hother hrun).symm
      · exact hs.paths hn₀ hn₀' hne hrun hrun'
  · intro x id id' n n' hn hn' hne hst hst'
    rcases hcases hn with ⟨heq, rfl⟩ | ⟨hother, hn₀⟩
    · obtain ⟨rfl, rfl⟩ := Prod.mk.inj heq
      rcases hcases hn' with ⟨heq', rfl⟩ | ⟨hother', g₀, hg₀, hn₀'⟩
      · exact absurd (Prod.mk.inj heq').2.symm hne
      · obtain rfl := Option.some.inj (hg.symm.trans hg₀)
        exact (hstart.capsule id' n' hn₀' (Ne.symm hne) hst').symm
    · rcases hcases hn' with ⟨heq', rfl⟩ | ⟨hother', hn₀'⟩
      · obtain ⟨rfl, rfl⟩ := Prod.mk.inj heq'
        obtain ⟨g₀, hg₀, hn₀⟩ := hn₀
        obtain rfl := Option.some.inj (hg.symm.trans hg₀)
        exact hstart.capsule id n hn₀ hne hst
      · exact hs.capsules hn₀ hn₀' hne hst hst'

/-! ## The operations of the store -/

/-- An operation on one graph replaces that graph by what the operation left of it. -/
theorem onGraph_outcome {α : Type} (gid : String) (m : GraphM α) :
    wp (onGraph gid m) (fun r s' => (s' = s ∧ ∀ a, r ≠ .ok a) ∨
      ∃ g, s.graphs[gid]? = some g ∧ s' = s.setGraph gid (finalState m g) ∧
        (∀ a, r = .ok a → m g = .ok a (finalState m g)) ∧
        ∀ e, r = .error e → ∃ fault, m g = .error fault (finalState m g)) s := by
  refine wp_ofExcept_bind (fun _ => .inl ⟨rfl, fun _ heq => by cases heq⟩) fun _ _ => ?_
  refine wp_get_bind ?_
  refine wp_ofOption_bind (.inl ⟨rfl, fun _ heq => by cases heq⟩) fun g hg => ?_
  cases hm : m g with
  | ok a g' =>
    have hfinal : finalState m g = g' := by simp [finalState, hm]
    refine .inr ⟨g, hg, by rw [hfinal], ?_, fun _ heq => by cases heq⟩
    rintro b ⟨⟩
    rw [hfinal]
    exact hm
  | error fault g' =>
    have hfinal : finalState m g = g' := by simp [finalState, hm]
    cases fault with
    | err e => exact .inr ⟨g, hg, by rw [hfinal], (fun _ heq => by cases heq),
        fun _ _ => ⟨.err e, by rw [hm, hfinal]⟩⟩
    | panic message =>
      exact .inr ⟨g, hg, by rw [hfinal], (fun _ heq => by cases heq),
        fun _ _ => ⟨.panic message, by rw [hm, hfinal]⟩⟩

theorem Exclusive.op (hs : Exclusive s) (gid : String) (op : GraphOp) (hop : ¬ op.starts) :
    Exclusive (finalState (onGraph gid (op.run blake3)) s) := by
  refine wp.finalState ((onGraph_outcome gid (op.run blake3)).imp ?_)
  rintro r s' (⟨rfl, -⟩ | ⟨g, hg, rfl, -⟩)
  · exact hs
  · have htree := hs.tree hg
    have hchanges : Changes blake3 g (finalState (op.run blake3) g) := by
      refine wp.finalState ((run_outcome blake3 htree op hop).imp ?_)
      rintro (⟨e | message⟩ | _) g' h
      · rw [h]
      · exact h.elim
      · exact h
    exact hs.setQuiet hg (htree.finalState op) (Quiet.of_changes (hs.left hg) hchanges)

theorem Exclusive.created (hs : Exclusive s) (gid : String) (hbuilt : Built blake3 g)
    (hidle : ∀ (id : String) (n : WorkNode), g.nodes[id]? = some n → n.executionStarted = false) :
    Exclusive (finalState (create gid g) s) := by
  refine wp.finalState (P := Exclusive) ?_
  refine wp_ofExcept_bind (fun _ => hs) fun _ _ => ?_
  refine wp_get_bind ?_
  refine wp_rejectIf_bind hs fun _ => ?_
  refine wp_rejectIf_bind hs fun _ => ?_
  refine wp_ofExcept_bind (fun _ => hs) fun g' hbind => ?_
  obtain ⟨-, -, hbind⟩ := except_bind_eq_ok.mp hbind
  split_ifs at hbind
  obtain rfl := Except.ok.inj hbind
  have hsame : SameTree g { g with graphId := gid } := .of_eq rfl rfl rfl
  exact hs.setIdle (hsame.tree hbuilt.tree) hidle

/-- Without a conflict, the requested paths are apart from those of every other
execution that runs or lingers. -/
theorem apart_of_no_conflict (hs : Exclusive s) {requested : List String} {now : ℕ}
    {gid nodeId : String}
    (h : ¬ (requested ≠ [] ∧ s.pathConflict requested now gid nodeId = true)) {x id : String}
    {n : WorkNode} (hn : NodeAt s x id n) (hne : (x, id) ≠ (gid, nodeId))
    (hlive : Running n ∨ Lingering now n) : Apart requested n.pathClaims := by
  intro p hp q hq
  by_contra hoverlap
  rw [Bool.not_eq_false, pathClaimsOverlap_comm] at hoverlap
  obtain ⟨g, hg, hget⟩ := hn
  have hkey : n.nodeId = id := (hs.tree hg).key hget
  refine h ⟨List.ne_nil_of_mem hp, OrdMap.any_toList_iff.mpr ⟨x, g, hg, ?_⟩⟩
  refine OrdMap.any_toList_iff.mpr ⟨id, n, hget, ?_⟩
  have hother : (some n.nodeId != if x = gid then some nodeId else none) = true := by
    rw [hkey]
    split_ifs with hx
    · have hid : id ≠ nodeId := fun hid => hne (by rw [hx, hid])
      simpa using hid
    · rfl
  have hpaths : (n.pathClaims.any fun held => requested.any fun claim =>
      pathClaimsOverlap held claim) = true :=
    List.any_eq_true.mpr ⟨q, hq, List.any_eq_true.mpr ⟨p, hp, hoverlap⟩⟩
  have hheld : (executionExitUnconfirmed n || (n.executionStarted && n.status == .stopped &&
      n.leaseExpiresEpochMs.any fun expires => decide (now < expires))) = true := by
    rcases hlive with ⟨hactive, hstarted⟩ | ⟨hstarted, hstopped, expires, hlease, hlt⟩
    · simp [executionExitUnconfirmed, hactive, hstarted]
    · simp [hstarted, hstopped, hlease, hlt]
  simp only [hother, hheld, hpaths, Bool.and_self]

theorem StopRun.paths {g g' : BoundedWorkGraph} (h : StopRun g g') {id : String} {n' : WorkNode}
    (hn' : g'.nodes[id]? = some n') :
    ∃ n : WorkNode, g.nodes[id]? = some n ∧ n'.pathClaims = n.pathClaims ∧
      (n'.status ≠ .stopped → n.status ≠ .stopped) := by
  induction h generalizing n' with
  | refl => exact ⟨n', hn', rfl, fun h => h⟩
  | tail _ hstep ih =>
    obtain @⟨nodeId, node, reason, hnode, hopen⟩ := hstep
    rw [endNode, OrdMap.get_insert] at hn'
    split_ifs at hn' with heq
    · obtain rfl := Option.some.inj hn'
      subst heq
      obtain ⟨n, hn, hpaths, hstopped⟩ := ih hnode
      refine ⟨n, hn, (ended_started _).2.2.trans hpaths, ?_⟩
      rw [status_ended]
      exact fun h => absurd rfl h
    · exact ih hn'

/-- What a claim in `s` leaves behind: executions apart, and what it started apart from every
stopped execution whose window is still open. -/
def ClaimPost (s : WorkGraphStore) (now : ℕ) (r : Except StoreFault ClaimNodeExecution)
    (s' : WorkGraphStore) : Prop :=
  Exclusive s' ∧ ∀ claimed, r = .ok (.claimed claimed) → ∀ (x id : String) (n : WorkNode),
    NodeAt s x id n → Lingering now n → Apart claimed.pathClaims n.pathClaims

theorem claimPost_error {now : ℕ} {s' : WorkGraphStore} {e : StoreFault} (hs : Exclusive s') :
    ClaimPost s now (.error e) s' := by
  refine ⟨hs, ?_⟩
  intro claimed h
  cases h

/-- A claim that passed the conflict check, on the graph its recovery left. -/
theorem claimPost_started (hs : Exclusive s) {gid nodeId : String} {now lease : ℕ}
    {node : WorkNode} {g₁ : BoundedWorkGraph} (hg : s.graphs[gid]? = some g)
    (hget : g.nodes[nodeId]? = some node) (hrecover : StopRun g g₁)
    (hconflict : ¬ (node.pathClaims ≠ [] ∧ s.pathConflict node.pathClaims now gid nodeId = true)) :
    wp (onGraph gid (claimOrResumeActiveUntil blake3 nodeId lease) >>= fun claimed =>
      pure (.claimed claimed)) (ClaimPost s now) (s.setGraph gid g₁) := by
  have hquiet : Quiet g g₁ := Quiet.of_changes (hs.left hg) (Updates.changes (hrecover.updates blake3))
  have htree₁ : Tree g₁ := hrecover.sameTree.tree (hs.tree hg)
  have hs₁ : Exclusive (s.setGraph gid g₁) := hs.setQuiet hg htree₁ hquiet
  have hg₁ : (s.setGraph gid g₁).graphs[gid]? = some g₁ := by rw [get_setGraph, if_pos rfl]
  have hout := claimOrResumeActiveUntil_outcome (g := g₁) blake3 nodeId lease
  refine wp_bind_of (onGraph_outcome gid (claimOrResumeActiveUntil blake3 nodeId lease)) ?_ ?_
  · rintro e s' (⟨rfl, -⟩ | ⟨g₀, hg₀, rfl, -, herr⟩)
    · exact claimPost_error hs₁
    · obtain rfl := Option.some.inj (hg₁.symm.trans hg₀)
      obtain ⟨fault, hfault⟩ := herr e rfl
      have hpost := hout.of_error hfault
      have hkept : finalState (claimOrResumeActiveUntil blake3 nodeId lease) g₁ = g₁ := by
        cases fault with
        | err e => exact hpost
        | panic message => exact hpost.elim
      rw [hkept]
      exact claimPost_error (hs₁.setQuiet hg₁ htree₁ (.refl hquiet.left))
  · rintro claimed s' (⟨rfl, hno⟩ | ⟨g₀, hg₀, rfl, hok, -⟩)
    · exact absurd rfl (hno claimed)
    · obtain rfl := Option.some.inj (hg₁.symm.trans hg₀)
      obtain ⟨mid, before, nd, hbefore, hstopped, hpaths, hmid, hstart, rfl, hfinal⟩ :=
        hout.of_ok (hok claimed rfl)
      rw [hfinal]
      have hquiet₂ : Quiet g₁ mid := by
        rcases hmid with rfl | hchange
        · exact .refl hquiet.left
        · exact .of_change hquiet.left (.update hchange)
      have htree₂ : Tree mid := by
        rcases hmid with rfl | hchange
        · exact htree₁
        · exact htree₁.change (.update hchange)
      have hs₂ : Exclusive ((s.setGraph gid g₁).setGraph gid mid) := hs₁.setQuiet hg₁ htree₂ hquiet₂
      have hg₂ : ((s.setGraph gid g₁).setGraph gid mid).graphs[gid]? = some mid := by
        rw [get_setGraph, if_pos rfl]
      obtain ⟨n₀, hn₀, hsame, hleft⟩ := StopRun.paths hrecover hbefore
      obtain rfl := Option.some.inj (hget.symm.trans hn₀)
      have hrequested : nd.pathClaims = node.pathClaims := hpaths.trans hsame
      refine ⟨?_, ?_⟩
      · rw [← setGraph_setGraph (s.setGraph gid g₁) gid mid]
        refine hs₂.setStarted hg₂ hstart ?_
        intro x id n hn hne hrun
        obtain ⟨n₁, hn₁, hsame₁⟩ := hn.before hg₁ hquiet₂ hrun.2
        obtain ⟨n₂, hn₂, hsame₂⟩ := hn₁.before hg hquiet hsame₁.started
        rw [hrequested, hsame₁.paths, hsame₂.paths]
        exact apart_of_no_conflict hs hconflict hn₂ hne
          (.inl ⟨hsame₂.active (hsame₁.active hrun.1), hsame₂.started⟩)
      · intro claimed' heq x id n hn hlinger
        cases heq
        change Apart nd.pathClaims n.pathClaims
        rw [hrequested]
        refine apart_of_no_conflict hs hconflict hn ?_ (.inr hlinger)
        intro hself
        obtain ⟨rfl, rfl⟩ := Prod.mk.inj hself
        obtain ⟨g₀, hg₀, hn₀⟩ := hn
        obtain rfl := Option.some.inj (hg.symm.trans hg₀)
        obtain rfl := Option.some.inj (hget.symm.trans hn₀)
        exact hleft hstopped hlinger.2.1

theorem claimNodeExecution_outcome (hs : Exclusive s) (gid nodeId : String) (now lease : ℕ) :
    wp (claimNodeExecution blake3 gid nodeId now lease) (ClaimPost s now) s := by
  refine wp_ofExcept_bind (fun _ => claimPost_error hs) fun _ _ => ?_
  refine wp_ofExcept_bind (fun _ => claimPost_error hs) fun _ _ => ?_
  refine wp_get_bind ?_
  refine wp_ofOption_bind (claimPost_error hs) fun node hnode => ?_
  refine wp_rejectIf_bind (claimPost_error hs) fun hconflict => ?_
  obtain ⟨g, hg, hget⟩ := Option.bind_eq_some_iff.mp hnode
  have htree := hs.tree hg
  have hrecover : StopRun g (finalState (recoverExpiredExecution nodeId now) g) := by
    refine wp.finalState ((recoverExpiredExecution_outcome htree nodeId now).imp ?_)
    rintro (⟨e | message⟩ | _) g' h
    · rw [h]
    · exact h.elim
    · exact h
  have hs₁ : Exclusive (s.setGraph gid (finalState (recoverExpiredExecution nodeId now) g)) :=
    hs.setQuiet hg (hrecover.sameTree.tree htree)
      (Quiet.of_changes (hs.left hg) (Updates.changes (hrecover.updates blake3)))
  refine wp_bind_of (onGraph_outcome gid (recoverExpiredExecution nodeId now)) ?_ ?_
  · rintro e s' (⟨rfl, -⟩ | ⟨g₀, hg₀, rfl, -⟩)
    · exact claimPost_error hs
    · obtain rfl := Option.some.inj (hg.symm.trans hg₀)
      exact claimPost_error hs₁
  · rintro stopped s' (⟨rfl, hno⟩ | ⟨g₀, hg₀, rfl, -⟩)
    · exact absurd rfl (hno stopped)
    · obtain rfl := Option.some.inj (hg.symm.trans hg₀)
      split_ifs with hstopped
      · refine ⟨hs₁, ?_⟩
        intro claimed h
        cases h
      · exact claimPost_started hs hg hget hrecover hconflict

/-! ## Runs of the store -/

/-- The stores reached from the empty one by creating graphs without started nodes, by
operations on any of the graphs and by claims, in any order and with any clock values.
Only a claim starts an execution. -/
inductive Reachable (blake3 : String → String) : WorkGraphStore → Prop
  | empty : Reachable blake3 empty
  | create {s : WorkGraphStore} (h : Reachable blake3 s) (gid : String) (g : BoundedWorkGraph)
      (hbuilt : Built blake3 g) (hidle : ∀ (id : String) (n : WorkNode), g.nodes[id]? = some n →
        n.executionStarted = false) : Reachable blake3 (finalState (create gid g) s)
  | op {s : WorkGraphStore} (h : Reachable blake3 s) (gid : String) (op : GraphOp)
      (hop : ¬ op.starts) : Reachable blake3 (finalState (onGraph gid (op.run blake3)) s)
  | claim {s : WorkGraphStore} (h : Reachable blake3 s) (gid nodeId : String) (now lease : ℕ) :
      Reachable blake3 (finalState (claimNodeExecution blake3 gid nodeId now lease) s)

theorem exclusive_empty : Exclusive empty := by
  have hnone (gid : String) : empty.graphs[gid]? = none := by simp [empty]
  refine ⟨?_, ?_, ?_, ?_⟩
  · intro gid g hg
    rw [hnone] at hg
    cases hg
  · intro gid g hg
    rw [hnone] at hg
    cases hg
  · rintro gid gid' id id' n n' ⟨g, hg, -⟩
    rw [hnone] at hg
    cases hg
  · rintro gid id id' n n' ⟨g, hg, -⟩
    rw [hnone] at hg
    cases hg

theorem Reachable.exclusive (h : Reachable blake3 s) : Exclusive s := by
  induction h with
  | empty => exact exclusive_empty
  | create h gid g hbuilt hidle ih => exact ih.created gid hbuilt hidle
  | op h gid op hop ih => exact ih.op gid op hop
  | claim h gid nodeId now lease ih =>
    exact wp.finalState ((claimNodeExecution_outcome ih gid nodeId now lease).imp fun _ _ h => h.1)

/-- Execution exclusivity. In every reachable store no two running nodes hold overlapping
paths, no two started nodes of one graph share a capsule, and a claim that succeeds is
apart from every stopped execution whose lease has not run out at the time of the claim. -/
theorem executions_exclusive (blake3 : String → String) {s : WorkGraphStore}
    (h : Reachable blake3 s) :
    (∀ (gid gid' id id' : String) (n n' : WorkNode), NodeAt s gid id n → NodeAt s gid' id' n' →
      (gid, id) ≠ (gid', id') → Running n → Running n' →
      ∀ p ∈ n.pathClaims, ∀ q ∈ n'.pathClaims, pathClaimsOverlap p q = false) ∧
    (∀ (gid id id' : String) (n n' : WorkNode), NodeAt s gid id n → NodeAt s gid id' n' →
      id ≠ id' → n.executionStarted = true → n'.executionStarted = true →
      n.capsuleRef ≠ n'.capsuleRef) ∧
    (∀ (gid nodeId : String) (now lease : ℕ) (claimed : WorkNode) (s' : WorkGraphStore),
      claimNodeExecution blake3 gid nodeId now lease s = .ok (.claimed claimed) s' →
      ∀ (gid' id : String) (n : WorkNode), NodeAt s gid' id n → n.executionStarted = true →
        n.status = .stopped → ∀ expires, n.leaseExpiresEpochMs = some expires → now < expires →
        ∀ p ∈ claimed.pathClaims, ∀ q ∈ n.pathClaims, pathClaimsOverlap p q = false) := by
  have hs := h.exclusive
  refine ⟨?_, ?_, ?_⟩
  · intro gid gid' id id' n n' hn hn' hne hrun hrun'
    exact hs.paths hn hn' hne hrun hrun'
  · intro gid id id' n n' hn hn' hne hst hst'
    exact hs.capsules hn hn' hne hst hst'
  · intro gid nodeId now lease claimed s' hclaim gid' id n hn hstarted hstopped expires hlease hlt
    exact ((claimNodeExecution_outcome hs gid nodeId now lease).of_ok hclaim).2 claimed rfl gid' id
      n hn ⟨hstarted, hstopped, expires, hlease, hlt⟩

/-- A root with one queued child that asks for a source directory. -/
def queuedGraph : BoundedWorkGraph :=
  afterCalls id [.addRoot "root" "lead" "capsule:1" ⟨100, 0, 100, 0⟩,
    .queueChild "root" "child" "worker" "capsule:2" ⟨40, 0, 40, 0⟩,
    .setPathClaims "child" ["path:src/core"]] (new 2 2)

/-- Two graphs with the same wish, and a claim in each. -/
def contendedStore : WorkGraphStore :=
  finalState (claimNodeExecution id "b" "child" 10 1000)
    (finalState (claimNodeExecution id "a" "child" 0 1000)
      (finalState (create "b" queuedGraph) (finalState (create "a" queuedGraph) empty)))

theorem queuedGraph_idle (x : String) (n : WorkNode) (h : queuedGraph.nodes[x]? = some n) :
    n.executionStarted = false := by
  have hall : ∀ p ∈ queuedGraph.nodes.toList, p.2.executionStarted = false := by decide +kernel
  exact hall (x, n) (Std.ExtTreeMap.mem_toList_iff_getElem?_eq_some.mpr h)

theorem executions_exclusive_contended :
    (∃ n, NodeAt contendedStore "a" "child" n ∧ Running n ∧ n.pathClaims = ["path:src/core"]) ∧
    ∀ n n', NodeAt contendedStore "a" "child" n → NodeAt contendedStore "b" "child" n' →
      Running n → Running n' →
      ∀ p ∈ n.pathClaims, ∀ q ∈ n'.pathClaims, pathClaimsOverlap p q = false := by
  have hreach : Reachable id contendedStore := by
    have hbuilt : Built id queuedGraph := (Built.new 2 2).afterCalls _
    exact (((Reachable.empty.create "a" queuedGraph hbuilt queuedGraph_idle).create "b" queuedGraph
      hbuilt queuedGraph_idle).claim "a" "child" 0 1000).claim "b" "child" 10 1000
  refine ⟨?_, fun n n' hn hn' => (executions_exclusive id hreach).1 "a" "b" "child" "child" n n' hn
    hn' (by decide)⟩
  have hrun : ((contendedStore.graphs["a"]?).bind fun g => g.nodes["child"]?).any (fun n =>
      n.status == .active && n.executionStarted && n.pathClaims == ["path:src/core"]) = true := by
    decide +kernel
  rw [Option.any_eq_true] at hrun
  obtain ⟨n, hn, hfields⟩ := hrun
  obtain ⟨g, hg, hget⟩ := Option.bind_eq_some_iff.mp hn
  simp only [Bool.and_eq_true, beq_iff_eq] at hfields
  exact ⟨n, ⟨g, hg, hget⟩, hfields.1, hfields.2⟩

end WorkGraphStore

end LeanCtx
