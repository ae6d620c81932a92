import LeanCtx.KeyedList
import LeanCtx.KnowledgeFacts
import Mathlib.Algebra.Order.Floor.Semiring
import Mathlib.Data.List.Lex
import Mathlib.Data.List.Sort
import Mathlib.Data.List.TakeWhile
import Mathlib.Data.Rat.Floor
import Mathlib.Data.String.Basic

/-!
# The knowledge store of a project

Facts are remembered, added, removed and imported. A new value of a remembered
fact supersedes the old one, which is kept. Every change rebuilds the index that
recall looks up its terms in.
-/

namespace LeanCtx.Knowledge

/-! ## The first of a list -/

/-- The first element with a property, with what stands before and behind it. -/
def firstMatch {α : Type} (p : α → Bool) (l : List α) : Option (List α × α × List α) :=
  match l.dropWhile (!p ·) with
  | [] => none
  | x :: back => some (l.takeWhile (!p ·), x, back)

theorem firstMatch_eq_some {α : Type} {p : α → Bool} {l front back : List α} {x : α}
    (h : firstMatch p l = some (front, x, back)) : l = front ++ x :: back ∧ p x = true := by
  rw [firstMatch] at h
  split at h
  · cases h
  · rename_i y rest hdrop
    obtain ⟨rfl, rfl, rfl⟩ : l.takeWhile (!p ·) = front ∧ y = x ∧ rest = back := by
      simpa using h
    constructor
    · rw [← hdrop, List.takeWhile_append_dropWhile]
    · have hhead := List.head?_dropWhile_not (fun y => !p y) l
      rw [hdrop] at hhead
      simpa using hhead

theorem firstMatch_eq_none {α : Type} {p : α → Bool} {l : List α} (h : firstMatch p l = none) :
    ∀ x ∈ l, p x = false := by
  rw [firstMatch] at h
  split at h
  · rename_i hdrop
    intro x hx
    simpa using List.dropWhile_eq_nil_iff.mp hdrop x hx
  · cases h

/-! ## The recall index -/

/-- What the store takes from elsewhere beside the text functions: the digest of a text in hex, a
time as text, and what the feedback balance adds to the quality of a fact. -/
structure StoreEnv extends Env where
  md5Hex : Text → Text
  rfc3339 : Time → Text
  feedbackEffect : ℤ → ℚ

variable (env : StoreEnv)

def splitsToken (c : Char) : Bool := ByteText.isWhitespace c || separators.contains c

def tokenizeLower (s : Text) : List Text :=
  ((env.toLowercase s).splitOnP splitsToken).filter (· ≠ [])

/-- The positions of the facts under each of their tokens, in the order of the tokens. -/
abbrev Positions := List (Text × List ℕ)

structure KnowledgeIndex where
  tokenPositions : Positions
  sessionTokenPositions : Positions
  categoryPositions : Positions

/-- The value under a key, with the equality of the order. -/
def entry {κ ν : Type} [LinearOrder κ] (l : List (κ × ν)) (k : κ) : Option ν := l.lookup k

def push (i : ℕ) (positions : Positions) (token : Text) : Positions :=
  KeyedList.put token ((entry positions token).getD [] ++ [i]) positions

def sortDedup (positions : Positions) : Positions :=
  KeyedList.mapValues (fun indices => (indices.mergeSort (· ≤ ·)).dedup) positions

def factTokens (f : KnowledgeFact) : List Text :=
  tokenizeLower env f.category ++ tokenizeLower env f.key ++ tokenizeLower env f.value

/-- The positions of all facts under the tokens that a function finds in them. -/
def indexBy (tokens : KnowledgeFact → List Text) (facts : List KnowledgeFact) : Positions :=
  facts.zipIdx.foldl (fun positions (f, i) => (tokens f).foldl (push i) positions) []

def buildKnowledgeIndex (facts : List KnowledgeFact) : KnowledgeIndex where
  tokenPositions := sortDedup (indexBy (factTokens env) facts)
  sessionTokenPositions := sortDedup (indexBy (fun f => tokenizeLower env f.sourceSession) facts)
  categoryPositions := indexBy (fun f => [f.category]) facts

/-! ## The store -/

structure ProjectKnowledge where
  projectRoot : Text
  facts : List KnowledgeFact
  updatedAt : Time
  index : KnowledgeIndex

namespace ProjectKnowledge

/-- A store as it is loaded: the index is built anew. -/
def load (root : Text) (facts : List KnowledgeFact) (updatedAt : Time) : ProjectKnowledge :=
  ⟨root, facts, updatedAt, buildKnowledgeIndex env facts⟩

def new (root : Text) (now : Time) : ProjectKnowledge := load env root [] now

end ProjectKnowledge

/-- How the context gateway admits text at the time of a call. -/
structure Gateway where
  captured : Bool
  admitText : Text → Option Text
  authorized : Bool

/-- What a call finds around it. -/
structure Call where
  now : Time
  autoCapture : Bool
  gateway : Gateway

def admitFactFields (g : Gateway) (category key value : Text) : Option (Text × Text × Text) :=
  if g.captured then do
    let category ← g.admitText category
    let key ← g.admitText key
    let value ← g.admitText value
    if g.authorized then some (category, key, value) else none
  else none

def machineDerivedPrefix : Text := "auto:".toList

def isMachineDerived (category key : Text) : Bool :=
  machineDerivedPrefix.isPrefixOf (category.dropWhile ByteText.isWhitespace) ||
    machineDerivedPrefix.isPrefixOf (key.dropWhile ByteText.isWhitespace)

structure MemoryPolicy where
  contradictionThreshold : ℚ
  admissionEnabled : Bool
  autoMergeSimilarity : ℚ
  minSalience : ℕ

inductive ContradictionSeverity
  | low
  | medium
  | high
deriving DecidableEq

structure Contradiction where
  existingKey : Text
  existingValue : Text
  newValue : Text
  category : Text
  severity : ContradictionSeverity
  resolution : Text

def resolution (severity : ContradictionSeverity) (category key : Text) (existing : KnowledgeFact)
    (newValue : Text) : Text :=
  let change := '[' :: category ++ '/' :: key ++ ']' :: match severity with
    | .high => " changed: '".toList
    | .medium => " updated: '".toList
    | .low => " replaced: '".toList
  let start := match severity with
    | .high => "High-confidence fact ".toList
    | .medium => "Fact ".toList
    | .low => "Low-confidence fact ".toList
  let stop := match severity with
    | .high => " (was confirmed ".toList ++ (toString existing.confirmationCount).toList ++
        "x). Previous value archived.".toList
    | _ => []
  start ++ change ++ existing.value ++ "' -> '".toList ++ newValue ++ '\'' :: stop

def checkContradiction (policy : MemoryPolicy) (facts : List KnowledgeFact)
    (category key newValue : Text) : Option Contradiction := do
  let existing ← facts.find? fun f => f.category == category && f.key == key && f.isCurrent
  if env.toLowercase existing.value = env.toLowercase newValue then none
  else if env.quotient 4 5 < stringSimilarity env.toEnv existing.value newValue then none
  else
    let severity :=
      if env.quotient 9 10 ≤ existing.confidence ∧ 2 ≤ existing.confirmationCount then
        ContradictionSeverity.high
      else if policy.contradictionThreshold ≤ existing.confidence then .medium
      else .low
    some ⟨key, existing.value, newValue, category, severity,
      resolution severity category key existing newValue⟩

/-! ## Remembering -/

/-- The text that the digest of a version is taken of. -/
def versionText (f : KnowledgeFact) : Text :=
  f.category ++ '\n' :: f.key ++ '\n' :: f.value ++ '\n' :: f.sourceSession ++
    '\n' :: env.rfc3339 f.createdAt

def factVersionId (f : KnowledgeFact) : Text := env.md5Hex (versionText env f)

/-- A remembered value: a session's claim about a key, from an origin. -/
structure Observation where
  category : Text
  key : Text
  value : Text
  sessionId : Text
  confidence : ℚ
  origin : FactOrigin

/-- A new fact, as successor of a version or on its own. -/
def newFact (now : Time) (o : Observation) (supersedes : Option Text) (revision : ℕ)
    (validity : Option FactValidity) : KnowledgeFact where
  origin := o.origin
  category := o.category
  key := o.key
  value := o.value
  sourceSession := o.sessionId
  confidence := o.confidence
  createdAt := now
  lastConfirmed := now
  retrievalCount := 0
  lastRetrieved := none
  validFrom := some now
  validUntil := none
  supersedes := supersedes
  confirmationCount := 1
  feedbackUp := 0
  feedbackDown := 0
  privacy := .projectOnly
  sensitivity := env.classifyContent o.value
  importedFrom := none
  archetype := inferFromCategory env.toEnv o.category
  fidelity := none
  revisionCount := revision
  validity := validity

def midpoint (a b : ℚ) : ℚ := (a + b) / 2

/-- The same value, also in other letters, or nearly the same. -/
def confirms (existing : KnowledgeFact) (value : Text) : Bool :=
  existing.value == value || env.toLowercase existing.value == env.toLowercase value ||
    env.quotient 4 5 < stringSimilarity env.toEnv existing.value value

def confirm (now : Time) (o : Observation) (existing : KnowledgeFact) : KnowledgeFact :=
  { existing with
    lastConfirmed := now
    sourceSession := o.sessionId
    confidence := midpoint existing.confidence o.confidence
    confirmationCount := existing.confirmationCount + 1
    revisionCount := existing.revisionCount + 1
    value := if existing.value ≠ o.value ∧
        env.quotient 4 5 < stringSimilarity env.toEnv existing.value o.value ∧
        len existing.value < len o.value then o.value else existing.value }

/-- A version that another one replaces. -/
def retire (now : Time) (existing : KnowledgeFact) : KnowledgeFact :=
  { existing with
    validUntil := some now
    validFrom := existing.validFrom.or (some existing.createdAt) }

/-- The current fact that an observation is about. -/
def addressed (o : Observation) (f : KnowledgeFact) : Bool :=
  f.category == o.category && f.key == o.key && f.isCurrent && f.origin == o.origin

/-- The facts after an admitted observation. -/
def remembered (now : Time) (o : Observation) (facts : List KnowledgeFact) :
    List KnowledgeFact :=
  match firstMatch (addressed o) facts with
  | some (front, existing, back) =>
    if confirms env existing o.value then front ++ confirm env now o existing :: back
    else front ++ retire now existing :: back ++
      [newFact env now o (some (factVersionId env existing)) (existing.revisionCount + 1)
        existing.validity]
  | none => facts ++ [newFact env now o none 1 none]

namespace ProjectKnowledge

/-- Other facts, with their index. -/
def withFacts (pk : ProjectKnowledge) (facts : List KnowledgeFact) : ProjectKnowledge :=
  { pk with facts := facts, index := buildKnowledgeIndex env facts }

def rememberWithOrigin (call : Call) (policy : MemoryPolicy) (o : Observation)
    (pk : ProjectKnowledge) : Option Contradiction × ProjectKnowledge :=
  if isMachineDerived o.category o.key && !call.autoCapture then (none, pk)
  else
    match admitFactFields call.gateway o.category o.key o.value with
    | none => (none, pk)
    | some (category, key, value) =>
      (checkContradiction env policy pk.facts category key value,
        { pk.withFacts env (remembered env call.now
            { o with category := category, key := key, value := value } pk.facts) with
          updatedAt := call.now })

end ProjectKnowledge

def boosts : List (Text × ℕ) :=
  [("error".toList, 25), ("failed".toList, 25), ("panic".toList, 30), ("assert".toList, 20),
    ("forbidden".toList, 25), ("timeout".toList, 20), ("deadlock".toList, 25),
    ("security".toList, 25), ("vuln".toList, 25), ("e0".toList, 15)]

def textSalience (text : Text) : ℕ :=
  boosts.foldl (fun score (pattern, b) =>
    if (env.toLowercase text).tails.any pattern.isPrefixOf then score + b else score) 20

inductive AdmissionResult
  | stored (contradiction : Option Contradiction)
  | merged (category key : Text) (confirmations : ℕ) (value : Text)
  | rejectedLowSalience (salience floor : ℕ)

/-- The best near-duplicate so far, with its similarity and position. -/
def bestDuplicate (category value : Text) (threshold : ℚ) (facts : List KnowledgeFact) :
    Option (ℕ × ℚ) :=
  facts.zipIdx.foldl (fun best (f, i) =>
    if f.isCurrent && f.category == category && f.origin == .local then
      let sim := stringSimilarity env.toEnv value f.value
      if threshold ≤ sim && best.all (fun (_, bs) => bs < sim) then some (i, sim) else best
    else best) none

def mergeInto (now : Time) (value sessionId : Text) (confidence : ℚ) (f : KnowledgeFact) :
    KnowledgeFact :=
  { f with
    lastConfirmed := now
    sourceSession := sessionId
    confidence := midpoint f.confidence confidence
    confirmationCount := f.confirmationCount + 1
    revisionCount := f.revisionCount + 1
    value := if len f.value < len value then value else f.value }

namespace ProjectKnowledge

def mergeNearDuplicate (now : Time) (category value sessionId : Text) (confidence threshold : ℚ)
    (pk : ProjectKnowledge) : Option (AdmissionResult × ProjectKnowledge) := do
  let (idx, _) ← bestDuplicate env category value threshold pk.facts
  let f ← pk.facts[idx]?
  let f := mergeInto now value sessionId confidence f
  some (.merged f.category f.key f.confirmationCount f.value,
    pk.withFacts env (pk.facts.set idx f))

def rememberAdmitted (call : Call) (policy : MemoryPolicy)
    (category key value sessionId : Text) (confidence : ℚ) (pk : ProjectKnowledge) :
    AdmissionResult × ProjectKnowledge :=
  let remember :=
    pk.rememberWithOrigin env call policy ⟨category, key, value, sessionId, confidence, .local⟩
  let hasExact := pk.facts.any fun f => f.category == category && f.key == key && f.isCurrent
  if !policy.admissionEnabled || hasExact then (.stored remember.1, remember.2)
  else if 0 < policy.minSalience && textSalience env value < policy.minSalience then
    (.rejectedLowSalience (textSalience env value) policy.minSalience, pk)
  else
    let merged := if 0 < policy.autoMergeSimilarity then
      pk.mergeNearDuplicate env call.now category value sessionId confidence
        policy.autoMergeSimilarity
      else none
    merged.getD (.stored remember.1, remember.2)

/-! ## Adding, removing, importing -/

end ProjectKnowledge

/-- A duration in whole days. -/
def numDays (duration : ℤ) : ℤ := duration.tdiv (24 * 3600 * 10 ^ 9)

def computeStructuralFidelity (now : Time) (f : KnowledgeFact) : ℚ :=
  let days := numDays (now - f.lastConfirmed)
  let source := if f.sourceSession ≠ [] ∧ f.sourceSession ≠ "unknown".toList then 2 / 10 else 0
  let confirmed := if 2 ≤ f.confirmationCount then 2 / 10 else 0
  let confident := if env.quotient 7 10 < f.confidence then 2 / 10 else 0
  let fresh := if days < 14 then 2 / 10 else if days < 30 then 1 / 10 else 0
  let feedback := if f.feedbackDown < f.feedbackUp then 2 / 10
    else if 0 < f.feedbackUp then 1 / 10 else 0
  min (source + confirmed + confident + fresh + feedback) 1

def updateFidelity (now : Time) (f : KnowledgeFact) : KnowledgeFact :=
  let structural := computeStructuralFidelity env now f
  { f with fidelity := some ⟨structural, structural, now⟩ }

def maxCount : ℕ := 2 ^ 32 - 1

/-- A fact observed once more. -/
def observeAgain (now : Time) (fact existing : KnowledgeFact) : KnowledgeFact :=
  updateFidelity env now
    { existing with
      lastConfirmed := if existing.lastConfirmed < fact.lastConfirmed then fact.lastConfirmed
        else existing.lastConfirmed
      confidence := max existing.confidence fact.confidence
      confirmationCount := min (existing.confirmationCount + 1) maxCount }

/-- A fact that says the same from the same origin, be it current or not. -/
def sameClaim (fact existing : KnowledgeFact) : Bool :=
  existing.category == fact.category && existing.value == fact.value &&
    existing.origin == fact.origin

inductive ImportMerge
  | replace
  | append
  | skipExisting
deriving DecidableEq

structure ImportResult where
  added : ℕ
  skipped : ℕ
  replaced : ℕ
  conflicts : List Text

def importedFact (now : Time) (sessionId : Text) (source : KnowledgeFact) : KnowledgeFact :=
  { source with
    origin := importedOrigin source.origin
    sourceSession := sessionId
    createdAt := now
    lastConfirmed := now
    retrievalCount := 0
    lastRetrieved := none
    validFrom := some now
    validUntil := none
    supersedes := none
    confirmationCount := 1
    feedbackUp := 0
    feedbackDown := 0
    fidelity := none
    revisionCount := 0 }

def importOne (now : Time) (merge : ImportMerge) (sessionId : Text)
    (state : List KnowledgeFact × ImportResult) (fact : KnowledgeFact) :
    List KnowledgeFact × ImportResult :=
  let (facts, r) := state
  let existing :=
    firstMatch (fun f => f.category == fact.category && f.key == fact.key && f.isCurrent) facts
  match merge, existing with
  | .skipExisting, some (_, f, _) =>
    (facts, { r with
      conflicts := if f.value ≠ fact.value then r.conflicts ++ [fact.category ++ '/' :: fact.key]
        else r.conflicts
      skipped := r.skipped + 1 })
  | .replace, some (front, f, back) =>
    (front ++ { f with validUntil := some now } :: back ++ [importedFact now sessionId fact],
      { r with replaced := r.replaced + 1 })
  | .append, some _ => (facts ++ [importedFact now sessionId fact], { r with added := r.added + 1 })
  | _, none => (facts ++ [importedFact now sessionId fact], { r with added := r.added + 1 })

namespace ProjectKnowledge

def addFact (call : Call) (fact : KnowledgeFact) (pk : ProjectKnowledge) :
    Bool × ProjectKnowledge :=
  let fact := { fact with category := trim fact.category, value := trim fact.value }
  if fact.category.isEmpty || fact.value.isEmpty then (false, pk)
  else if isMachineDerived fact.category fact.key && !call.autoCapture then (false, pk)
  else
    match admitFactFields call.gateway fact.category fact.key fact.value with
    | none => (false, pk)
    | some (category, key, value) =>
      let fact := { fact with category := category, key := key, value := value }
      let pk' := match firstMatch (sameClaim fact) pk.facts with
        | some (front, existing, back) =>
          { pk with facts := front ++ observeAgain env call.now fact existing :: back }
        | none => pk.withFacts env (pk.facts ++ [updateFidelity env call.now fact])
      (true, { pk' with updatedAt := call.now })

def removeFact (call : Call) (category key : Text) (pk : ProjectKnowledge) :
    Bool × ProjectKnowledge :=
  let facts := pk.facts.filter fun f => !(f.category == category && f.key == key)
  if facts.length < pk.facts.length then
    (true, { pk.withFacts env facts with updatedAt := call.now })
  else (false, { pk with facts := facts })

def importFacts (call : Call) (incoming : List KnowledgeFact) (merge : ImportMerge)
    (sessionId : Text) (pk : ProjectKnowledge) : ImportResult × ProjectKnowledge :=
  let (facts, result) := incoming.foldl (importOne call.now merge sessionId)
    (pk.facts, ⟨0, 0, 0, []⟩)
  if 0 < result.added || 0 < result.replaced then
    (result, { pk.withFacts env facts with updatedAt := call.now })
  else (result, { pk with facts := facts })

end ProjectKnowledge

/-! ## A store for texts without capital letters -/

def plainStore : StoreEnv where
  __ := plainEnv
  md5Hex := id
  rfc3339 time := (toString time).toList
  feedbackEffect _ := 0

def openCall (now : Time) : Call := ⟨now, true, ⟨true, some, true⟩⟩

def defaultPolicy : MemoryPolicy := ⟨1 / 2, true, 9 / 10, 0⟩

end LeanCtx.Knowledge
