import LeanCtx.ByteText
import LeanCtx.TextFile
import Mathlib.Data.List.Dedup
import Mathlib.Algebra.Order.Field.Rat

/-!
# The facts of a project's knowledge

A fact is current until it is superseded. Two values are similar as far as they
share their words, whatever the order and the number of these.
-/

namespace LeanCtx.Knowledge

abbrev Text := List Char

/-- A point in time, in nanoseconds. -/
abbrev Time := ℤ

def texts (words : List String) : List Text := words.map String.toList

inductive KnowledgeArchetype
  | pattern
  | preference
  | architecture
  | gotcha
  | convention
  | dependency
  | workflow
  | observation
  | decision
  | fact
deriving DecidableEq

inductive SensitivityLevel
  | «public»
  | «internal»
  | confidential
  | secret
deriving DecidableEq

inductive FactPrivacy
  | projectOnly
  | linkedProjects
  | team
deriving DecidableEq

inductive FactValidity
  | content
  | convention
deriving DecidableEq

inductive Projection
  | raw
  | snapshotV1
deriving DecidableEq

structure ProviderParams where
  project : Option Text
  state : Option Text
  limit : Option ℕ
  query : Option Text
  id : Option Text
deriving DecidableEq

structure ProviderOrigin where
  version : ℕ
  provider : Text
  resource : Text
  binding : Text
  params : ProviderParams
  itemId : Text
  itemDigest : Text
  projection : Projection
deriving DecidableEq

inductive FactOrigin
  | unverified
  | «local»
  | provider (source : ProviderOrigin)
  | derived (inputs : List FactOrigin)

mutual

def FactOrigin.decEq : (a b : FactOrigin) → Decidable (a = b)
  | .unverified, .unverified => .isTrue rfl
  | .local, .local => .isTrue rfl
  | .provider a, .provider b => decidable_of_iff (a = b) (by simp)
  | .derived as, .derived bs =>
    match FactOrigin.decEqList as bs with
    | .isTrue h => .isTrue (by rw [h])
    | .isFalse h => .isFalse fun e => h (FactOrigin.derived.inj e)
  | .unverified, .local | .unverified, .provider _ | .unverified, .derived _
  | .local, .unverified | .local, .provider _ | .local, .derived _
  | .provider _, .unverified | .provider _, .local | .provider _, .derived _
  | .derived _, .unverified | .derived _, .local | .derived _, .provider _ =>
    .isFalse nofun

def FactOrigin.decEqList : (as bs : List FactOrigin) → Decidable (as = bs)
  | [], [] => .isTrue rfl
  | [], _ :: _ | _ :: _, [] => .isFalse nofun
  | a :: as, b :: bs =>
    match FactOrigin.decEq a b, FactOrigin.decEqList as bs with
    | .isTrue h, .isTrue h' => .isTrue (by rw [h, h'])
    | .isFalse h, _ => .isFalse fun e => h (List.cons.inj e).1
    | _, .isFalse h => .isFalse fun e => h (List.cons.inj e).2

end

instance : DecidableEq FactOrigin := FactOrigin.decEq

/-- Sources survive an import; what was only written down is unverified in another store. -/
def importedOrigin : FactOrigin → FactOrigin
  | .provider source => .provider source
  | .local => .unverified
  | .unverified => .unverified
  | .derived inputs => .derived (inputs.map importedOrigin)

structure FidelityScore where
  structural : ℚ
  semantic : ℚ
  computedAt : Time
deriving DecidableEq

structure KnowledgeFact where
  origin : FactOrigin
  category : Text
  key : Text
  value : Text
  sourceSession : Text
  confidence : ℚ
  createdAt : Time
  lastConfirmed : Time
  retrievalCount : ℕ
  lastRetrieved : Option Time
  validFrom : Option Time
  validUntil : Option Time
  supersedes : Option Text
  confirmationCount : ℕ
  feedbackUp : ℕ
  feedbackDown : ℕ
  privacy : FactPrivacy
  sensitivity : SensitivityLevel
  importedFrom : Option Text
  archetype : KnowledgeArchetype
  fidelity : Option FidelityScore
  revisionCount : ℕ
  validity : Option FactValidity
deriving DecidableEq

namespace KnowledgeFact

def isCurrent (f : KnowledgeFact) : Bool := f.validUntil.isNone

end KnowledgeFact

/-- The characters beside white space that part the words of a stored text. -/
def separators : List Char := ['-', '_', '/', '.']

/-- `str::trim`. -/
def trim (s : Text) : Text :=
  ((s.dropWhile ByteText.isWhitespace).reverse.dropWhile ByteText.isWhitespace).reverse

/-- `str::split_whitespace`. -/
def splitWhitespace (s : Text) : List Text :=
  (s.splitOnP ByteText.isWhitespace).filter (· ≠ [])

/-- What is taken from elsewhere: lowercase by Unicode, which works word by word and makes and
takes no separator; the quotient of two counts in single precision; and the sensitivity of a
text. -/
structure Env where
  toLowercase : Text → Text
  splitWhitespace_toLowercase :
    ∀ s, splitWhitespace (toLowercase s) = (splitWhitespace s).map toLowercase
  mem_toLowercase : ∀ s, ∀ c ∈ separators, c ∈ toLowercase s ↔ c ∈ s
  quotient : ℕ → ℕ → ℚ
  classifyContent : Text → SensitivityLevel

/-- Lowercase for texts without capital letters. -/
def plainEnv : Env where
  toLowercase := id
  splitWhitespace_toLowercase s := (List.map_id (splitWhitespace s)).symm
  mem_toLowercase _ _ _ := Iff.rfl
  quotient a b := a / b
  classifyContent _ := .public

variable (env : Env)

/-- `str::len`. -/
def len (s : Text) : ℕ := (s.map Char.utf8Size).sum

def stringSimilarity (a b : Text) : ℚ :=
  let aWords := (splitWhitespace (env.toLowercase a)).dedup
  let bWords := (splitWhitespace (env.toLowercase b)).dedup
  if aWords.isEmpty && bWords.isEmpty then 1
  else
    let intersection := (aWords.filter (bWords.contains ·)).length
    let union := (aWords ++ bWords).dedup.length
    if union = 0 then 0 else env.quotient intersection union

def archetypeTable : List (List Text × KnowledgeArchetype) :=
  [(texts ["architecture", "arch", "data_model", "schema"], .architecture),
    (texts ["decision", "decisions"], .decision),
    (texts ["gotcha", "gotchas", "known_bugs", "known_issues", "bug", "bugs", "blocker", "blockers",
      "dead_end", "dead_ends", "dead-end", "dead-ends"], .gotcha),
    (texts ["convention", "conventions", "style"], .convention),
    (texts ["dependency", "dependencies", "deps"], .dependency),
    (texts ["pattern", "patterns"], .pattern),
    (texts ["workflow", "workflows", "procedure", "procedures"], .workflow),
    (texts ["preference", "preferences", "pref"], .preference),
    (texts ["observation", "finding", "findings", "experience", "experiences"], .observation),
    (texts ["solution-decision", "solution_decision", "solution-debt", "solution_debt"], .decision)]

def inferFromCategory (category : Text) : KnowledgeArchetype :=
  ((archetypeTable.find? fun row => row.1.contains (env.toLowercase category)).map Prod.snd).getD
    .fact

end LeanCtx.Knowledge
