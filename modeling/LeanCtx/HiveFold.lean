import LeanCtx.Json
import LeanCtx.SeqLog
import LeanCtx.Effect

/-!
# Folding a place's log into its graph

The replica's materialisation of `fold.rs`. Events are ordered by the server's
`seq` and applied one after the other; a fold that fails keeps what it applied
before.
-/

namespace LeanCtx.Hive

/-- One event as the fold sees it. The body is absent when the event was purged. -/
structure FoldEvent where
  seq : ℕ
  eventId : String
  op : String
  target : Option String
  nodeType : Option String
  body : Option Json
  sigInvalid : Bool
  provenance : Option String
  reviewState : Option String
  deriving DecidableEq, Repr

structure Node where
  nodeType : String
  fields : OrdMap String Json
  retracted : Bool
  purged : Bool
  lastSeq : ℕ
  provenance : Option String
  reviewState : Option String

structure Edge where
  kind : String
  origin : String
  dest : String
  retracted : Bool
  lastSeq : ℕ
  deriving DecidableEq, Repr

structure Purge where
  purgeId : String
  reason : String
  deriving DecidableEq, Repr

structure Graph where
  nodes : OrdMap String Node
  edges : OrdMap String Edge
  purgedEvents : OrdSet String
  purgedNodes : OrdMap String Purge
  tombstones : Finset (String × ℕ)
  addedBy : OrdMap String String
  cursor : ℕ

/-- `Graph::default()`. -/
def Graph.empty : Graph := ⟨∅, ∅, ∅, ∅, ∅, ∅, 0⟩

inductive FoldError
  | purgeReasonInvalid (reason : String)
  | seqConflict (seq : ℕ)
  deriving DecidableEq, Repr

def purgeReasons : List String :=
  ["leaked_secret", "gdpr_erasure", "retention_schedule", "illegal_content"]

def fieldsOf (body : Json) : OrdMap String Json :=
  (body.asObject.getD ∅).erase "body_nonce"

/-- The event ids a purge names, `targets` before `cascade`. -/
def purgeIds (body : Json) : List String :=
  ((["targets", "cascade"].filterMap fun key => (body.get key).bind Json.asArray).flatten).filterMap
    Json.asStr

namespace Graph

variable (g : Graph)

/-! ## Events -/

def insertNew {ν : Type} (map : OrdMap String ν) (key : String) (value : ν) : OrdMap String ν :=
  if key ∈ map then map else map.insert key value

/-- The node a `node.add` creates. -/
def newNode (e : FoldEvent) : Node :=
  let purged := e.body.isNone || decide (e.eventId ∈ g.purgedEvents)
  { nodeType := e.nodeType.getD ""
    fields := if purged then ∅ else (e.body.map fieldsOf).getD ∅
    retracted := false
    purged := purged
    lastSeq := 0
    provenance := e.provenance
    reviewState := e.reviewState }

/-- A claim added again keeps the first text; only the sequence moves. -/
def addNode (e : FoldEvent) (target : String) : Graph :=
  let node := (g.nodes[target]?).getD (g.newNode e)
  { g with
    addedBy := insertNew g.addedBy e.eventId target
    nodes := g.nodes.insert target { node with lastSeq := e.seq } }

def setField (e : FoldEvent) (target : String) : Graph :=
  match g.nodes[target]?, e.body with
  | some node, some body =>
    if node.purged then g
    else match (body.get "field").bind Json.asStr with
      | none => g
      | some field =>
        { g with nodes := g.nodes.insert target { node with
            fields := node.fields.insert field ((body.get "value").getD .null)
            lastSeq := e.seq } }
  | _, _ => g

def addEdge (e : FoldEvent) (target : String) : Graph :=
  match e.body with
  | none => g
  | some body =>
    let edge := (g.edges[target]?).getD
      ⟨body.strField "kind", body.strField "from", body.strField "to", false, 0⟩
    { g with edges := g.edges.insert target { edge with lastSeq := e.seq } }

/-- Nodes come before edges. -/
def setRetracted (e : FoldEvent) (target : String) (retracted : Bool) : Graph :=
  match g.nodes[target]? with
  | some node =>
    { g with nodes := g.nodes.insert target { node with retracted, lastSeq := e.seq } }
  | none => match g.edges[target]? with
    | some edge =>
      { g with edges := g.edges.insert target { edge with retracted, lastSeq := e.seq } }
    | none => g

/-- One event id of a purge: its node loses its text, now or when it arrives. -/
def purgeEvent (purge : Purge) (g : Graph) (id : String) : Graph :=
  let g := { g with purgedEvents := g.purgedEvents.insert id }
  match g.addedBy[id]? with
  | none => g
  | some nodeId => match g.nodes[nodeId]? with
    | none => g
    | some node =>
      { g with
        nodes := g.nodes.insert nodeId { node with fields := ∅, purged := true }
        purgedNodes := g.purgedNodes.insert nodeId purge }

def purgeEvents (purge : Purge) (seq : ℕ) (ids : List String) : Graph :=
  ids.foldl (purgeEvent purge) { g with tombstones := insert (purge.purgeId, seq) g.tombstones }

end Graph

/-! ## The fold -/

/-- The reason is checked before anything is written. -/
def applyPurge (g : Graph) (e : FoldEvent) : Except FoldError Graph :=
  match e.body with
  | none => .ok g
  | some body =>
    let reason := body.strField "reason"
    if reason ∉ purgeReasons then .error (.purgeReasonInvalid reason)
    else .ok (g.purgeEvents ⟨body.strField "purge_id", reason⟩ e.seq (purgeIds body))

def apply (g : Graph) (e : FoldEvent) : Except FoldError Graph :=
  let target := e.target.getD ""
  match e.op with
  | "node.add" => .ok (g.addNode e target)
  | "field.set" => .ok (g.setField e target)
  | "edge.add" => .ok (g.addEdge e target)
  | "retract" => .ok (g.setRetracted e target true)
  | "restore" => .ok (g.setRetracted e target false)
  | "purge" => applyPurge g e
  | _ => .ok g

abbrev FoldM := EStateM FoldError Graph

/-- The cursor moves past an event that failed verification, which is not applied. -/
def foldEvent (e : FoldEvent) : FoldM Unit := do
  modify fun g => { g with cursor := e.seq }
  if e.sigInvalid then pure ()
  else do
    let g ← get
    let g ← ofExcept id (apply g e)
    set g

def foldOrdered : List FoldEvent → FoldM Unit
  | [] => pure ()
  | e :: rest => do
    foldEvent e
    foldOrdered rest

/-- Events at or below the cursor were folded before. -/
def fold (events : List FoldEvent) : FoldM Unit := do
  let g ← get
  let ordered := SeqLog.sorted FoldEvent.seq (events.filter fun e => e.seq > g.cursor)
  match SeqLog.firstClash FoldEvent.seq ordered with
  | some seq => throw (.seqConflict seq)
  | none => foldOrdered (SeqLog.onePerSeq FoldEvent.seq ordered)

end LeanCtx.Hive
