import LeanCtx.Effect
import LeanCtx.Json
import Mathlib.Data.List.Destutter
import Mathlib.Data.List.Sort

/-!
# Merging handoff ledgers

Several agents' ledgers of one project become one new ledger. Reading and
admitting a stored ledger, re-reading a source, the digests and the write of
the result are functions of the environment; the merge itself is a selection
over what the served inputs carry: each finding, fact and excerpt of the result
is one of an input's, and a flag beside each finding and fact says whether an
input that the merge keeps recorded it as bound.
-/

namespace LeanCtx.Handoff

def maxMergeInputs : ℕ := 8
def maxKnowledgeFacts : ℕ := 50
def maxCuratedRefs : ℕ := 20
def maxLedgerFindings : ℕ := 20
def maxDecisions : ℕ := 10
def maxNextSteps : ℕ := 20
def handoffSchemaVersion : UInt32 := 1

/-- The tool under which curated excerpts are bound. -/
def curatedTool : String := "ctx_handoff"

structure SessionExcerpt where
  sessionId : String
  task : Option String
  decisions : List String
  findings : List String
  nextSteps : List String
deriving DecidableEq

structure ToolCallsSummary where
  total : UInt64
  byTool : OrdMap String UInt64
  byCtxReadMode : OrdMap String UInt64

/-- A finite `f32` confidence is its rational value. -/
structure KnowledgeFact where
  category : String
  key : String
  value : String
  confidence : ℚ
deriving DecidableEq

structure KnowledgeExcerpt where
  projectHash : Option String
  facts : List KnowledgeFact
deriving DecidableEq

structure CuratedRef where
  path : String
  mode : String
  contentMd5 : String
  content : String
deriving DecidableEq

structure HandoffLedger where
  schemaVersion : UInt32
  createdAt : String
  contentMd5 : String
  manifestMd5 : String
  projectRoot : Option String
  agentId : Option String
  clientName : Option String
  workflow : Option Json
  sessionSnapshot : String
  session : SessionExcerpt
  toolCalls : ToolCallsSummary
  evidenceKeys : List String
  knowledge : KnowledgeExcerpt
  curatedRefs : List CuratedRef
  activeOverlays : List Json
  mergedFrom : List String
  requestId : Option String
  requestDigest : Option String

inductive PartKind
  | finding
  | fact
deriving DecidableEq

/-- An element of a stored ledger that was bound when the ledger was written. -/
structure BoundEntry where
  kind : PartKind
  index : ℕ
  digest : String
deriving DecidableEq

/-- One source of a binding: path, tool and admitted digest. -/
structure FileSource where
  path : String
  tool : String
  digest : String
deriving DecidableEq

/-- A ledger as it was served, with the record of its bound parts and the
project and files of its binding. -/
structure Served where
  ledger : HandoffLedger
  bound : List BoundEntry
  files : Option (String × List FileSource)

/-- One input of a merge. -/
structure Input extends Served where
  digest : String

def Served.isBound (s : Served) (kind : PartKind) (index : ℕ) : Bool :=
  s.bound.any fun entry => entry.kind == kind && entry.index == index

structure FactConflict where
  category : String
  key : String
  values : ℕ
deriving DecidableEq

structure Dropped where
  findings : ℕ
  facts : ℕ
  curatedRefs : ℕ
  unboundCurated : ℕ
  decisions : ℕ
  nextSteps : ℕ
deriving DecidableEq

/-- What the merge calls. Paths are ordered by their components; `readAdmitted`
re-reads a source within the bytes that remain and says how many are left. -/
structure Env (Path Source : Type) where
  loadServed : Path → Except String Served
  contentDigest : HandoffLedger → String
  hashHex : String → String
  manifestMd5 : String
  renderJson : Json → String
  sourceAuthorityRequired : Bool
  maxReadBytes : ℕ
  readAdmitted : String → String → String → String → ℕ → Option Source × ℕ
  sourceChanged : String
  persistLedger : HandoffLedger → List Source → (PartKind → ℕ → Bool) → Except String Path

/-! ## The parts of the merge -/

/-- The first of each key, in order (`filter` with a set of seen keys). -/
def uniqueOn {α κ : Type} [DecidableEq κ] (key : α → κ) (items : List α) : List α :=
  items.foldl (fun kept a => if kept.any fun b => key b = key a then kept else kept ++ [a]) []

def keepFirst {α : Type} (items : List α) (bound : ℕ) : List α × ℕ :=
  (items.take bound, items.length - bound)

def keepLast {α : Type} (items : List α) (bound : ℕ) : List α × ℕ :=
  (items.drop (items.length - bound), items.length - bound)

/-- The findings of all inputs in canonical order, each with its record. -/
def findingParts (inputs : List Input) : List (String × Bool) :=
  inputs.flatMap fun input => input.ledger.session.findings.zipIdx.map fun p =>
    (p.1, input.isBound .finding p.2)

def addFinding (acc : List String × OrdMap String Bool) (part : String × Bool) :
    List String × OrdMap String Bool :=
  match acc.2[part.1]? with
  | some flag => (acc.1, acc.2.insert part.1 (flag || part.2))
  | none => (acc.1 ++ [part.1], acc.2.insert part.1 part.2)

/-- Findings, one per text, the last ones kept, with their flags. -/
def mergeFindings (inputs : List Input) : (List String × List Bool) × ℕ :=
  let (order, bound) := (findingParts inputs).foldl addFinding ([], ∅)
  let (kept, dropped) := keepLast order maxLedgerFindings
  ((kept, kept.map fun finding => bound[finding]?.getD false), dropped)

def factParts (inputs : List Input) : List (KnowledgeFact × Bool) :=
  inputs.flatMap fun input => input.ledger.knowledge.facts.zipIdx.map fun p =>
    (p.1, input.isBound .fact p.2)

def KnowledgeFact.same (a b : KnowledgeFact) : Bool :=
  a.category == b.category && a.key == b.key && a.value == b.value

def addFact (acc : List (KnowledgeFact × Bool)) (part : KnowledgeFact × Bool) :
    List (KnowledgeFact × Bool) :=
  match acc.findIdx? fun kept => kept.1.same part.1 with
  | some i => acc.modify i fun kept =>
      ({ kept.1 with confidence := max kept.1.confidence part.1.confidence }, kept.2 || part.2)
  | none => acc ++ [part]

instance ordPair : Ord (String × String) := lexOrd

def countValue (values : OrdMap (String × String) ℕ) (part : KnowledgeFact × Bool) :
    OrdMap (String × String) ℕ :=
  values.insert (part.1.category, part.1.key)
    ((values[(part.1.category, part.1.key)]?).getD 0 + 1)

/-- Facts, one per category, key and value, the first ones kept, with their
flags; and the keys that carry several values. -/
def mergeFacts (inputs : List Input) :
    (List KnowledgeFact × List Bool × List FactConflict) × ℕ :=
  let facts := (factParts inputs).foldl addFact []
  let conflicts := ((facts.foldl countValue ∅).toList.filter fun p => p.2 > 1).map fun p =>
    ⟨p.1.1, p.1.2, p.2⟩
  let (kept, dropped) := keepFirst facts maxKnowledgeFacts
  ((kept.map Prod.fst, kept.map Prod.snd, conflicts), dropped)

/-- The value every input carries, when they all carry the same one. -/
def common (inputs : List Input) (value : HandoffLedger → Option Json) : Option Json :=
  match inputs with
  | [] => none
  | first :: _ => (value first.ledger).bind fun v =>
      if inputs.all fun input => value input.ledger == some v then some v else none

def union (inputs : List Input) (texts : HandoffLedger → List String) : List String :=
  uniqueOn id (inputs.flatMap fun input => texts input.ledger)

def addCount (counts : OrdMap String UInt64) (p : String × UInt64) : OrdMap String UInt64 :=
  counts.insert p.1 ((counts[p.1]?).getD 0 + p.2)

def sumToolCalls (inputs : List Input) : ToolCallsSummary :=
  inputs.foldl (fun sum input =>
    { total := sum.total + input.ledger.toolCalls.total
      byTool := input.ledger.toolCalls.byTool.toList.foldl addCount sum.byTool
      byCtxReadMode :=
        input.ledger.toolCalls.byCtxReadMode.toList.foldl addCount sum.byCtxReadMode })
    ⟨0, ∅, ∅⟩

section Environment

variable {Path Source : Type} (env : Env Path Source)

/-- Curated excerpts, one per path and content. -/
def mergeCurated (inputs : List Input) : List CuratedRef × ℕ :=
  keepFirst (uniqueOn (fun excerpt => (excerpt.path, env.hashHex excerpt.content))
    (inputs.flatMap fun input => input.ledger.curatedRefs)) maxCuratedRefs

def mergeOverlays (inputs : List Input) : List Json :=
  uniqueOn env.renderJson (inputs.flatMap fun input => input.ledger.activeOverlays)

def shortDigest (digests : List String) : String :=
  String.ofList ((env.hashHex ("\n".intercalate digests)).toList.take 16)

/-- The source an input's binding names for an excerpt. -/
def namedSource (inputs : List Input) (excerpt : CuratedRef) : Option (String × FileSource) :=
  inputs.findSome? fun input => input.files.bind fun (project, files) =>
    (files.find? fun file => file.path == excerpt.path && file.tool == curatedTool).map fun file =>
      (project, file)

/-- Excerpts and sources kept, excerpts left out, bytes that remain. -/
structure Rebound (Source : Type) where
  kept : List CuratedRef
  sources : List Source
  unbound : ℕ
  remaining : ℕ

def rebindExcerpt (inputs : List Input) (acc : Rebound Source) (excerpt : CuratedRef) :
    Except String (Rebound Source) :=
  match namedSource inputs excerpt with
  | none => .ok { acc with unbound := acc.unbound + 1 }
  | some (project, file) =>
    match env.readAdmitted file.path project file.tool file.digest acc.remaining with
    | (some source, remaining) =>
      .ok ⟨acc.kept ++ [excerpt], acc.sources ++ [source], acc.unbound, remaining⟩
    | (none, remaining) =>
      if env.sourceAuthorityRequired then .error env.sourceChanged
      else .ok { acc with unbound := acc.unbound + 1, remaining := remaining }

def rebindPart (project : String) (acc : Rebound Source) (file : FileSource) :
    Except String (Rebound Source) :=
  match env.readAdmitted file.path project file.tool file.digest acc.remaining with
  | (some source, remaining) =>
    .ok { acc with sources := acc.sources ++ [source], remaining := remaining }
  | (none, remaining) =>
    if env.sourceAuthorityRequired then .error env.sourceChanged
    else .ok { acc with remaining := remaining }

/-- The sources of the kept excerpts and, when a bound part is kept, those of
the inputs that recorded bound parts. -/
def rebind (inputs : List Input) (curated : List CuratedRef) (anyBound : Bool) :
    Except String (Rebound Source) := do
  let acc ← curated.foldlM (rebindExcerpt env inputs) ⟨[], [], 0, env.maxReadBytes⟩
  if anyBound then
    (inputs.filter fun input => !input.bound.isEmpty).foldlM (fun acc input =>
      match input.files with
      | none => .ok acc
      | some (project, files) =>
        (files.filter fun file => file.tool != curatedTool).foldlM (rebindPart env project) acc) acc
  else .ok acc

structure MergeOutcome (Path : Type) where
  ledger : HandoffLedger
  findingBound : List Bool
  factBound : List Bool
  path : Path
  conflicts : List FactConflict
  distinctTasks : ℕ
  dropped : Dropped

/-- The order of the inputs; the sort by it is stable. -/
def Input.notAfter (a b : Input) : Prop :=
  (compare (a.ledger.createdAt, a.digest) (b.ledger.createdAt, b.digest)).isLE = true

instance : DecidableRel Input.notAfter := fun _ _ => inferInstanceAs (Decidable (_ = _))

/-- Canonical order, one input per content digest. -/
def canonicalInputs (inputs : List Input) : List Input :=
  (inputs.insertionSort Input.notAfter).destutter fun a b => a.digest ≠ b.digest

def mergeInputs (inputs : List Input) (projectRoot : Option String) :
    Except String (MergeOutcome Path) := do
  let ((findings, findingBound), droppedFindings) := mergeFindings inputs
  let ((facts, factBound, conflicts), droppedFacts) := mergeFacts inputs
  let (curated, droppedCurated) := mergeCurated env inputs
  let anyBound := (findingBound ++ factBound).any id
  let rebound ← rebind env inputs curated anyBound
  let tasks := (inputs.filterMap fun input => input.ledger.session.task).foldl
    (fun (set : OrdSet String) task => set.insert task) ∅
  let mergedFrom := inputs.map Input.digest
  let (decisions, droppedDecisions) :=
    keepLast (union inputs fun ledger => ledger.session.decisions) maxDecisions
  let (nextSteps, droppedSteps) :=
    keepFirst (union inputs fun ledger => ledger.session.nextSteps) maxNextSteps
  let ledger : HandoffLedger :=
    { schemaVersion := handoffSchemaVersion
      createdAt := ((inputs.map fun input => input.ledger.createdAt).max?).getD ""
      contentMd5 := ""
      manifestMd5 := env.manifestMd5
      projectRoot := projectRoot
      agentId := none
      clientName := none
      workflow := common inputs HandoffLedger.workflow
      sessionSnapshot := ""
      session :=
        { sessionId := "merge-" ++ shortDigest env mergedFrom
          task := if tasks.size = 1 then tasks.toList.head? else none
          decisions := decisions
          findings := findings
          nextSteps := nextSteps }
      toolCalls := sumToolCalls inputs
      evidenceKeys := ((inputs.flatMap fun input => input.ledger.evidenceKeys).foldl
        (fun (set : OrdSet String) key => set.insert key) ∅).toList
      knowledge :=
        { projectHash := inputs.findSome? fun input => input.ledger.knowledge.projectHash
          facts := facts }
      curatedRefs := rebound.kept
      activeOverlays := mergeOverlays env inputs
      mergedFrom := mergedFrom
      requestId := none
      requestDigest := none }
  let ledger := { ledger with contentMd5 := env.contentDigest ledger }
  let path ← env.persistLedger ledger rebound.sources fun kind index =>
    ((match kind with
      | .finding => findingBound
      | .fact => factBound)[index]?).getD false
  .ok
    { ledger := ledger, findingBound := findingBound, factBound := factBound, path := path,
      conflicts := conflicts, distinctTasks := tasks.size
      dropped :=
        { findings := droppedFindings, facts := droppedFacts, curatedRefs := droppedCurated
          unboundCurated := rebound.unbound, decisions := droppedDecisions
          nextSteps := droppedSteps } }

variable [Ord Path] [Std.TransOrd Path] [Std.LawfulEqOrd Path]

/-- Merge the stored ledgers at `paths` into a new stored ledger. -/
def mergeLedgers (paths : List Path) : Except String (MergeOutcome Path) :=
  let unique : OrdSet Path := paths.foldl (fun set path => set.insert path) ∅
  if unique.size > maxMergeInputs then
    .error ("merge reads at most " ++ toString maxMergeInputs ++ " ledgers")
  else do
    let served ← unique.toList.mapM env.loadServed
    let inputs :=
      canonicalInputs (served.map fun s => { s with digest := env.contentDigest s.ledger })
    match inputs with
    | [] | [_] => .error "merge needs at least two different ledgers"
    | first :: _ =>
      if inputs.any fun input => input.ledger.projectRoot != first.ledger.projectRoot then
        .error "merge refused: the ledgers belong to different projects"
      else mergeInputs env inputs first.ledger.projectRoot

end Environment

end LeanCtx.Handoff
