import LeanCtx.ByteText
import LeanCtx.OrdMap

/-!
# Resolved policies and the floor merge

A resolved policy is what enforcement reads: tool lists, token and spend caps,
retention, redaction rules, inbound filters, egress rules and routing ceilings.
`mergeFloor` folds a central policy underneath the local one, field by field,
each field toward its stricter side. The dollar amounts of the budgets only
have to be ordered, so their type is a parameter.
-/

namespace LeanCtx.Policy

open ByteText

inductive FilterAction
  | off | warn | redact | block
  deriving DecidableEq, Repr

namespace FilterAction

def parse (s : String) : Option FilterAction :=
  match (trim s).toLower with
  | "off" | "" => some .off
  | "warn" => some .warn
  | "redact" => some .redact
  | "block" => some .block
  | _ => none

def isOff (a : FilterAction) : Bool := a = .off

/-- Higher is stricter. -/
def rank : FilterAction → ℕ
  | .off => 0
  | .warn => 1
  | .redact => 2
  | .block => 3

def asStr : FilterAction → String
  | .off => "off"
  | .warn => "warn"
  | .redact => "redact"
  | .block => "block"

theorem rank_injective : Function.Injective rank := by
  intro a b h
  cases a <;> cases b <;> first | rfl | cases h

instance : LinearOrder FilterAction := LinearOrder.lift' rank rank_injective

theorem le_iff_rank (a b : FilterAction) : a ≤ b ↔ a.rank ≤ b.rank := Iff.rfl

@[simp] theorem parse_asStr (a : FilterAction) : parse a.asStr = some a := by
  cases a <;> decide +kernel

end FilterAction

structure FilterRules where
  pii : Option String
  classification : Option String
  injection : Option String
  blockedLabels : List String
  blockedPatterns : OrdMap String String
  managedPersonalRules : OrdSet String

structure EgressRules where
  forbiddenPatterns : List String
  blockSecrets : Option Bool
  maxWritesPerMin : Option ℕ

structure RoutingPolicyRules where
  allowedModels : List String
  modelCeilingGroups : List (List String)
  forbidDowngradeFor : List String

structure BudgetRules (F : Type) where
  maxCostUsdPerPersonPerDay : Option F
  maxCostUsdPerProjectPerMonth : Option F
  maxRequestsPerMinutePerPerson : Option ℕ

structure ResolvedPolicy (F : Type) where
  name : String
  version : String
  description : String
  chain : List String
  defaultReadMode : Option String
  allowTools : Option (List String)
  denyTools : List String
  maxContextTokens : Option ℕ
  auditRetentionDays : Option ℕ
  redaction : OrdMap String String
  filters : FilterRules
  egress : EgressRules
  routing : RoutingPolicyRules
  budgets : BudgetRules F

/-! ## Decisions of one policy -/

/-- One `*` of a pattern: a position is reached from every earlier reached one. -/
def starRow (reached : Bool) : List Bool → List Bool
  | [] => []
  | m :: rest => (reached || m) :: starRow (reached || m) rest

/-- One literal byte of a pattern: a position is reached over an equal byte of the model. -/
def literalRow (byte : UInt8) (model : Bytes) (matched : List Bool) : List Bool :=
  false :: List.zipWith (fun m b => m && b == byte) matched model

def modelPatternMatches (pattern model : String) : Bool :=
  let model := utf8 (trim model)
  let start := true :: List.replicate model.length false
  let matched := (utf8 (trim pattern)).foldl
    (fun matched byte =>
      if byte = 42 then starRow false matched else literalRow byte model matched) start
  matched.getLastD false

def modelAllowedByCeilings (primary : List String) (groups : List (List String))
    (model : String) : Bool :=
  (primary.isEmpty || primary.any (modelPatternMatches · model)) &&
    groups.all fun group => group.any (modelPatternMatches · model)

def RoutingPolicyRules.modelAllowed (r : RoutingPolicyRules) (model : String) : Bool :=
  modelAllowedByCeilings r.allowedModels r.modelCeilingGroups model

/-- The first occurrence of every group. -/
def uniqueModelCeilings (groups : List (List String)) : List (List String) := groups.eraseDups

/-- What the lists of a policy say about a tool: a denied tool never passes, and an
allowlist, when set, is exclusive. -/
def ResolvedPolicy.toolAllowed {F : Type} (p : ResolvedPolicy F) (tool : String) : Bool :=
  if p.denyTools.any (· == tool) then false
  else match p.allowTools with
    | some allow => allow.any (· == tool)
    | none => true

def parsedAction (action : Option String) : Option FilterAction := action.bind FilterAction.parse

/-- An absent action is `off`. -/
def filterAction (action : Option String) : FilterAction := (parsedAction action).getD .off

/-! ## The merge -/

section Merge

variable {F : Type} [LinearOrder F]

def union (a b : List String) : List String :=
  b.foldl (fun out item => if out.contains item then out else out ++ [item]) a

def minOpt {α : Type} [LinearOrder α] : Option α → Option α → Option α
  | some x, some y => some (min x y)
  | some x, none => some x
  | none, some y => some y
  | none, none => none

def maxOpt {α : Type} [LinearOrder α] : Option α → Option α → Option α
  | some x, some y => some (max x y)
  | some x, none => some x
  | none, some y => some y
  | none, none => none

def mergeAllow (org localAllow : Option (List String)) (deny : List String) :
    Option (List String) :=
  match org, localAllow with
  | some o, some l => some ((o.filter fun t => l.contains t).filter fun t => !deny.contains t)
  | some o, none => some (o.filter fun t => !deny.contains t)
  | none, some l => some (l.filter fun t => !deny.contains t)
  | none, none => none

def stricterAction (a b : Option String) : Option String :=
  match parsedAction a, parsedAction b with
  | some x, some y => some (if x.rank ≥ y.rank then x else y).asStr
  | some x, none => some x.asStr
  | none, some y => some y.asStr
  | none, none => none

def mergeBlockSecrets : Option Bool → Option Bool → Option Bool
  | some true, _ => some true
  | _, some true => some true
  | some false, _ => some false
  | _, some false => some false
  | none, none => none

def mergeModelCeilings (org localRules : RoutingPolicyRules) : List (List String) :=
  uniqueModelCeilings (org.modelCeilingGroups ++
    (if localRules.allowedModels.isEmpty then [] else [localRules.allowedModels]) ++
    localRules.modelCeilingGroups)

/-- Rules of one name keep both patterns. -/
def mergeBlockPatterns (target incoming : OrdMap String String) : OrdMap String String :=
  incoming.toList.foldl
    (fun target (name, pattern) =>
      match target[name]? with
      | some previous =>
        if previous ≠ pattern then target.insert name s!"(?:{previous})|(?:{pattern})" else target
      | none => target.insert name pattern) target

/-- The local rules with those of the organisation written over them. -/
def mergeRedaction (org localRules : OrdMap String String) : OrdMap String String :=
  org.toList.foldl (fun redaction (name, pattern) => redaction.insert name pattern) localRules

/-- The lineage of the organisation, its pack, then what the local lineage adds. -/
def mergeChain (org localPolicy : ResolvedPolicy F) : List String :=
  union (if org.chain.contains org.name then org.chain else org.chain ++ [org.name])
    localPolicy.chain

def mergeFilters (org localRules : FilterRules) : FilterRules where
  pii := stricterAction org.pii localRules.pii
  classification := stricterAction org.classification localRules.classification
  injection := stricterAction org.injection localRules.injection
  blockedLabels := union org.blockedLabels localRules.blockedLabels
  blockedPatterns := mergeBlockPatterns org.blockedPatterns localRules.blockedPatterns
  managedPersonalRules := localRules.managedPersonalRules

def mergeEgress (org localRules : EgressRules) : EgressRules where
  forbiddenPatterns := union org.forbiddenPatterns localRules.forbiddenPatterns
  blockSecrets := mergeBlockSecrets org.blockSecrets localRules.blockSecrets
  maxWritesPerMin := minOpt org.maxWritesPerMin localRules.maxWritesPerMin

def mergeRouting (org localRules : RoutingPolicyRules) : RoutingPolicyRules where
  allowedModels := org.allowedModels
  modelCeilingGroups := mergeModelCeilings org localRules
  forbidDowngradeFor := union org.forbidDowngradeFor localRules.forbidDowngradeFor

def mergeBudgets (org localRules : BudgetRules F) : BudgetRules F where
  maxCostUsdPerPersonPerDay :=
    minOpt org.maxCostUsdPerPersonPerDay localRules.maxCostUsdPerPersonPerDay
  maxCostUsdPerProjectPerMonth :=
    minOpt org.maxCostUsdPerProjectPerMonth localRules.maxCostUsdPerProjectPerMonth
  maxRequestsPerMinutePerPerson :=
    minOpt org.maxRequestsPerMinutePerPerson localRules.maxRequestsPerMinutePerPerson

def mergeFloor (org : ResolvedPolicy F) : Option (ResolvedPolicy F) → ResolvedPolicy F
  | none => org
  | some localPolicy =>
    let denyTools := union org.denyTools localPolicy.denyTools
    { name := localPolicy.name
      version := localPolicy.version
      description :=
        s!"{localPolicy.description} · org floor: {org.name} v{org.version}"
      chain := mergeChain org localPolicy
      -- a read mode the organisation sets is pinned
      defaultReadMode := org.defaultReadMode.or localPolicy.defaultReadMode
      allowTools := mergeAllow org.allowTools localPolicy.allowTools denyTools
      denyTools := denyTools
      maxContextTokens := minOpt org.maxContextTokens localPolicy.maxContextTokens
      auditRetentionDays := maxOpt org.auditRetentionDays localPolicy.auditRetentionDays
      redaction := mergeRedaction org.redaction localPolicy.redaction
      filters := mergeFilters org.filters localPolicy.filters
      egress := mergeEgress org.egress localPolicy.egress
      routing := mergeRouting org.routing localPolicy.routing
      budgets := mergeBudgets org.budgets localPolicy.budgets }

end Merge

end LeanCtx.Policy
