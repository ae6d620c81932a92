import LeanCtx.PolicyFloor

/-!
# Inheritance of policy packs

A pack extends another by name. The chain is folded from its root down: what a
pack sets replaces what it inherits, restrictions accumulate, and block patterns
of one name are joined in an alternation.
-/

namespace LeanCtx.Policy

def maxExtendsDepth : ℕ := 8

structure ContextRules where
  defaultReadMode : Option String
  allowTools : Option (List String)
  denyTools : List String
  maxContextTokens : Option ℕ
  auditRetentionDays : Option ℕ

structure PolicyPack (F : Type) where
  name : String
  version : String
  description : String
  «extends» : Option String
  context : ContextRules
  redaction : OrdMap String String
  filters : FilterRules
  egress : EgressRules
  routing : RoutingPolicyRules
  budgets : BudgetRules F

inductive PolicyError
  | allowDenyOverlap (tools : List String)
  | unknownParent (name : String)
  | extendsCycle (chain : List String)
  | extendsTooDeep (depth : ℕ)
deriving DecidableEq

section Resolve

variable {F : Type}

/-- The packs from a given parent on, after those of the lineage, with the names seen. -/
def walk (get : String → Option (PolicyPack F)) (parent : Option String)
    (lineage : List (PolicyPack F)) (seen : List String) :
    Except PolicyError (List (PolicyPack F) × List String) :=
  match parent with
  | none => .ok (lineage, seen)
  | some name =>
    if seen.contains name then .error (.extendsCycle (seen ++ [name]))
    else if hdepth : maxExtendsDepth ≤ lineage.length then
      .error (.extendsTooDeep (lineage.length + 1))
    else
      match get name with
      | none => .error (.unknownParent name)
      | some pack => walk get pack.extends (lineage ++ [pack]) (seen ++ [name])
termination_by maxExtendsDepth - lineage.length
decreasing_by
  rw [List.length_append, List.length_singleton]
  omega

def emptyFilters : FilterRules := ⟨none, none, none, [], ∅, ∅⟩

/-- What is resolved before any layer. -/
def unresolved (pack : PolicyPack F) (seen : List String) : ResolvedPolicy F where
  name := pack.name
  version := pack.version
  description := pack.description
  chain := (seen.drop 1).reverse
  defaultReadMode := none
  allowTools := none
  denyTools := []
  maxContextTokens := none
  auditRetentionDays := none
  redaction := ∅
  filters := emptyFilters
  egress := ⟨[], none, none⟩
  routing := ⟨[], [], []⟩
  budgets := ⟨none, none, none⟩

def foldFilters (layer r : FilterRules) : FilterRules where
  pii := layer.pii.or r.pii
  classification := layer.classification.or r.classification
  injection := layer.injection.or r.injection
  blockedLabels := union r.blockedLabels layer.blockedLabels
  blockedPatterns := mergeBlockPatterns r.blockedPatterns layer.blockedPatterns
  managedPersonalRules := layer.managedPersonalRules

def foldEgress (layer r : EgressRules) : EgressRules where
  forbiddenPatterns := union r.forbiddenPatterns layer.forbiddenPatterns
  blockSecrets := layer.blockSecrets.or r.blockSecrets
  maxWritesPerMin := layer.maxWritesPerMin.or r.maxWritesPerMin

def foldRouting (layer r : RoutingPolicyRules) : RoutingPolicyRules where
  allowedModels := union r.allowedModels layer.allowedModels
  modelCeilingGroups := uniqueModelCeilings (r.modelCeilingGroups ++ layer.modelCeilingGroups)
  forbidDowngradeFor := union r.forbidDowngradeFor layer.forbidDowngradeFor

/-- The request cap of a layer is not copied. -/
def foldBudgets (layer r : BudgetRules F) : BudgetRules F where
  maxCostUsdPerPersonPerDay := layer.maxCostUsdPerPersonPerDay.or r.maxCostUsdPerPersonPerDay
  maxCostUsdPerProjectPerMonth :=
    layer.maxCostUsdPerProjectPerMonth.or r.maxCostUsdPerProjectPerMonth
  maxRequestsPerMinutePerPerson := r.maxRequestsPerMinutePerPerson

def foldLayer (r : ResolvedPolicy F) (layer : PolicyPack F) : ResolvedPolicy F :=
  { r with
    defaultReadMode := layer.context.defaultReadMode.or r.defaultReadMode
    allowTools := layer.context.allowTools.or r.allowTools
    denyTools := union r.denyTools layer.context.denyTools
    maxContextTokens := layer.context.maxContextTokens.or r.maxContextTokens
    auditRetentionDays := layer.context.auditRetentionDays.or r.auditRetentionDays
    redaction := mergeRedaction layer.redaction r.redaction
    filters := foldFilters layer.filters r.filters
    egress := foldEgress layer.egress r.egress
    routing := foldRouting layer.routing r.routing
    budgets := foldBudgets layer.budgets r.budgets }

/-- The layers of a lineage folded, its root first. -/
def foldLineage (start : ResolvedPolicy F) (lineage : List (PolicyPack F)) : ResolvedPolicy F :=
  lineage.reverse.foldl foldLayer start

def overlap (r : ResolvedPolicy F) : List String :=
  (r.allowTools.getD []).filter fun tool => r.denyTools.contains tool

def resolve (get : String → Option (PolicyPack F)) (pack : PolicyPack F) :
    Except PolicyError (ResolvedPolicy F) := do
  let (lineage, seen) ← walk get pack.extends [pack] [pack.name]
  let r := foldLineage (unresolved pack seen) lineage
  if overlap r ≠ [] then .error (.allowDenyOverlap (overlap r)) else .ok r

/-! ## The chain of a pack -/

/-- A pack and the packs it extends, nearest first. -/
inductive Extends (get : String → Option (PolicyPack F)) :
    PolicyPack F → List (PolicyPack F) → Prop
  | root {pack : PolicyPack F} (h : pack.extends = none) : Extends get pack [pack]
  | child {pack parent : PolicyPack F} {name : String} {above : List (PolicyPack F)}
      (h : pack.extends = some name) (hget : get name = some parent)
      (habove : Extends get parent above) : Extends get pack (pack :: above)

variable {get : String → Option (PolicyPack F)}

theorem lineage_of_walk {parent : Option String} {lineage lineage' : List (PolicyPack F)}
    {seen seen' : List String} {pack : PolicyPack F} {layers : List (PolicyPack F)}
    (h : walk get parent lineage seen = .ok (lineage', seen')) (hextends : Extends get pack layers)
    (hparent : pack.extends = parent) (hlast : ∃ front, lineage = front ++ [pack]) :
    ∃ front, lineage = front ++ [pack] ∧ lineage' = front ++ layers := by
  induction hextends generalizing parent lineage seen with
  | @root pack hroot =>
    obtain ⟨front, hfront⟩ := hlast
    rw [← hparent, hroot, walk] at h
    obtain ⟨rfl, -⟩ := Prod.mk.inj (Except.ok.inj h)
    exact ⟨front, hfront, hfront⟩
  | @child pack above name layers hname hget _ ih =>
    obtain ⟨front, hfront⟩ := hlast
    rw [← hparent, hname, walk] at h
    split_ifs at h
    simp only [hget] at h
    obtain ⟨front', hfront', hlayers⟩ := ih h rfl ⟨lineage, rfl⟩
    obtain rfl := List.append_cancel_right hfront'
    refine ⟨front, hfront, ?_⟩
    rw [hlayers, hfront, List.append_assoc, List.singleton_append]

/-- A resolved policy is the fold of the chain, and allows no tool it denies. -/
theorem resolve_eq_ok {pack : PolicyPack F} {layers : List (PolicyPack F)}
    {r : ResolvedPolicy F} (hextends : Extends get pack layers) (h : resolve get pack = .ok r) :
    (∃ seen, r = foldLineage (unresolved pack seen) layers) ∧ overlap r = [] := by
  rw [resolve] at h
  cases hwalk : walk get pack.extends [pack] [pack.name] with
  | error e => simp [hwalk, bind, Except.bind] at h
  | ok found =>
    obtain ⟨lineage, seen⟩ := found
    obtain ⟨front, hfront, rfl⟩ := lineage_of_walk hwalk hextends rfl ⟨[], rfl⟩
    obtain rfl : front = [] := List.self_eq_append_left.mp hfront
    simp only [hwalk, bind, Except.bind, List.nil_append] at h
    split_ifs at h with hoverlap
    obtain rfl := Except.ok.inj h
    exact ⟨⟨seen, rfl⟩, not_not.mp hoverlap⟩

/-! ## What a resolved policy inherits -/

/-- The value of the nearest layer that sets it. -/
def nearest {α : Type} (field : PolicyPack F → Option α) (layers : List (PolicyPack F)) :
    Option α :=
  layers.findSome? field

/-- A regex engine as far as block patterns go: a pattern blocks a text that it matches, and every
text when it cannot be compiled. `StandsInGroup` are the patterns that read in a group as they read
alone. -/
structure RegexEngine where
  Blocks : String → String → Prop
  StandsInGroup : String → Prop
  standsInGroup_alternation : ∀ p q, StandsInGroup p → StandsInGroup q →
    StandsInGroup s!"(?:{p})|(?:{q})"
  blocks_alternation : ∀ p q text, StandsInGroup p → StandsInGroup q →
    Blocks p text ∨ Blocks q text → Blocks s!"(?:{p})|(?:{q})" text

variable (engine : RegexEngine)

/-- A pattern under the name blocks what `p` blocks. -/
def Covers (patterns : OrdMap String String) (name p : String) : Prop :=
  ∃ q, patterns[name]? = some q ∧ ∀ text, engine.Blocks p text → engine.Blocks q text

def AllStand (patterns : OrdMap String String) : Prop :=
  ∀ (name p : String), patterns[name]? = some p → engine.StandsInGroup p

/-- What a resolved policy has of its layers, nearest first, the request cap aside. -/
structure InheritsRules (layers : List (PolicyPack F)) (r : ResolvedPolicy F) : Prop where
  defaultReadMode : r.defaultReadMode = nearest (·.context.defaultReadMode) layers
  allowTools : r.allowTools = nearest (·.context.allowTools) layers
  maxContextTokens : r.maxContextTokens = nearest (·.context.maxContextTokens) layers
  auditRetentionDays : r.auditRetentionDays = nearest (·.context.auditRetentionDays) layers
  pii : r.filters.pii = nearest (·.filters.pii) layers
  classification : r.filters.classification = nearest (·.filters.classification) layers
  injection : r.filters.injection = nearest (·.filters.injection) layers
  blockSecrets : r.egress.blockSecrets = nearest (·.egress.blockSecrets) layers
  maxWritesPerMin : r.egress.maxWritesPerMin = nearest (·.egress.maxWritesPerMin) layers
  costPerDay : r.budgets.maxCostUsdPerPersonPerDay =
    nearest (·.budgets.maxCostUsdPerPersonPerDay) layers
  costPerMonth : r.budgets.maxCostUsdPerProjectPerMonth =
    nearest (·.budgets.maxCostUsdPerProjectPerMonth) layers
  denyTools : ∀ layer ∈ layers, ∀ tool ∈ layer.context.denyTools, tool ∈ r.denyTools
  blockedLabels : ∀ layer ∈ layers, ∀ label ∈ layer.filters.blockedLabels,
    label ∈ r.filters.blockedLabels
  forbiddenPatterns : ∀ layer ∈ layers, ∀ pattern ∈ layer.egress.forbiddenPatterns,
    pattern ∈ r.egress.forbiddenPatterns
  modelCeilingGroups : ∀ layer ∈ layers, ∀ group ∈ layer.routing.modelCeilingGroups,
    group ∈ r.routing.modelCeilingGroups
  forbidDowngradeFor : ∀ layer ∈ layers, ∀ project ∈ layer.routing.forbidDowngradeFor,
    project ∈ r.routing.forbidDowngradeFor
  blockedPatterns : ∀ layer ∈ layers, ∀ (name p : String),
    layer.filters.blockedPatterns[name]? = some p →
      Covers engine r.filters.blockedPatterns name p

/-- A resolved policy drops no rule of its layers. -/
structure Inherits (layers : List (PolicyPack F)) (r : ResolvedPolicy F) : Prop
    extends InheritsRules engine layers r where
  requestsPerMinute : r.budgets.maxRequestsPerMinutePerPerson =
    nearest (·.budgets.maxRequestsPerMinutePerPerson) layers
  apart : ∀ allow, r.allowTools = some allow → ∀ tool ∈ allow, tool ∉ r.denyTools

/-! ## Block patterns -/

/-- One block pattern merged in. -/
def mergeOne (target : OrdMap String String) (e : String × String) : OrdMap String String :=
  match target[e.1]? with
  | some previous =>
    if previous ≠ e.2 then target.insert e.1 s!"(?:{previous})|(?:{e.2})" else target
  | none => target.insert e.1 e.2

theorem mergeBlockPatterns_eq (target incoming : OrdMap String String) :
    mergeBlockPatterns target incoming = incoming.toList.foldl mergeOne target := rfl

variable {engine}

theorem mergeOne_allStand {target : OrdMap String String} {e : String × String}
    (h : AllStand engine target) (he : engine.StandsInGroup e.2) :
    AllStand engine (mergeOne target e) := by
  intro name p hp
  rw [mergeOne] at hp
  cases hprevious : target[e.1]? with
  | none =>
    simp only [hprevious, OrdMap.get_insert] at hp
    split_ifs at hp
    · exact Option.some.inj hp ▸ he
    · exact h name p hp
  | some previous =>
    simp only [hprevious] at hp
    split_ifs at hp with hne
    · rw [OrdMap.get_insert] at hp
      split_ifs at hp
      · obtain rfl := Option.some.inj hp
        exact engine.standsInGroup_alternation _ _ (h _ _ hprevious) he
      · exact h name p hp
    · exact h name p hp

theorem mergeOne_covers_self {target : OrdMap String String} {e : String × String}
    (h : AllStand engine target) (he : engine.StandsInGroup e.2) :
    Covers engine (mergeOne target e) e.1 e.2 := by
  rw [mergeOne]
  cases hprevious : target[e.1]? with
  | none => exact ⟨e.2, by simp, fun _ hblocks => hblocks⟩
  | some previous =>
    simp only
    split_ifs with hne
    · refine ⟨_, by rw [OrdMap.get_insert, if_pos rfl], fun text hblocks => ?_⟩
      exact engine.blocks_alternation _ _ text (h _ _ hprevious) he (.inr hblocks)
    · rw [not_not] at hne
      exact ⟨previous, hprevious, fun _ hblocks => hne ▸ hblocks⟩

theorem Covers.mergeOne {target : OrdMap String String} {e : String × String} {name p : String}
    (h : Covers engine target name p) (hstand : AllStand engine target)
    (he : engine.StandsInGroup e.2) : Covers engine (mergeOne target e) name p := by
  obtain ⟨q, hq, hcovers⟩ := h
  rw [Policy.mergeOne]
  by_cases hname : e.1 = name
  · subst hname
    simp only [hq]
    split_ifs with hne
    · refine ⟨_, by rw [OrdMap.get_insert, if_pos rfl], fun text hblocks => ?_⟩
      exact engine.blocks_alternation _ _ text (hstand _ _ hq) he (.inl (hcovers text hblocks))
    · exact ⟨q, hq, hcovers⟩
  · cases hprevious : target[e.1]? with
    | none => exact ⟨q, by rw [OrdMap.get_insert, if_neg hname, hq], hcovers⟩
    | some previous =>
      simp only
      split_ifs
      · exact ⟨q, by rw [OrdMap.get_insert, if_neg hname, hq], hcovers⟩
      · exact ⟨q, hq, hcovers⟩

theorem foldl_mergeOne {entries : List (String × String)} {target : OrdMap String String}
    (hentries : ∀ e ∈ entries, engine.StandsInGroup e.2) (hstand : AllStand engine target) :
    AllStand engine (entries.foldl mergeOne target) ∧
      (∀ name p, Covers engine target name p →
        Covers engine (entries.foldl mergeOne target) name p) ∧
      ∀ e ∈ entries, Covers engine (entries.foldl mergeOne target) e.1 e.2 := by
  induction entries generalizing target with
  | nil => exact ⟨hstand, fun _ _ h => h, fun e he => absurd he List.not_mem_nil⟩
  | cons e rest ih =>
    have he := hentries e List.mem_cons_self
    obtain ⟨hstand', hkeep, hnew⟩ := ih (fun e' he' => hentries e' (List.mem_cons_of_mem e he'))
      (mergeOne_allStand hstand he)
    refine ⟨hstand', fun name p h => hkeep name p (h.mergeOne hstand he), fun e' he' => ?_⟩
    rcases List.mem_cons.mp he' with rfl | he'
    · exact hkeep _ _ (mergeOne_covers_self hstand he)
    · exact hnew e' he'

theorem mergeBlockPatterns_covers {target incoming : OrdMap String String}
    (htarget : AllStand engine target) (hincoming : AllStand engine incoming) :
    AllStand engine (mergeBlockPatterns target incoming) ∧
      (∀ name p, Covers engine target name p →
        Covers engine (mergeBlockPatterns target incoming) name p) ∧
      ∀ (name p : String), incoming[name]? = some p →
        Covers engine (mergeBlockPatterns target incoming) name p := by
  have hentries : ∀ e ∈ incoming.toList, engine.StandsInGroup e.2 := by
    rintro ⟨name, p⟩ he
    exact hincoming name p (Std.ExtTreeMap.mem_toList_iff_getElem?_eq_some.mp he)
  obtain ⟨hstand, hkeep, hnew⟩ := foldl_mergeOne hentries htarget
  rw [mergeBlockPatterns_eq]
  exact ⟨hstand, hkeep, fun name p hp =>
    hnew (name, p) (Std.ExtTreeMap.mem_toList_iff_getElem?_eq_some.mpr hp)⟩

/-! ## The fold of a chain -/

/-- The block patterns of every layer read in a group as they read alone. -/
def PatternsStand (engine : RegexEngine) (layers : List (PolicyPack F)) : Prop :=
  ∀ layer ∈ layers, AllStand engine layer.filters.blockedPatterns

theorem foldLineage_cons (start : ResolvedPolicy F) (layer : PolicyPack F)
    (above : List (PolicyPack F)) :
    foldLineage start (layer :: above) = foldLayer (foldLineage start above) layer := by
  rw [foldLineage, List.reverse_cons, List.foldl_append]
  rfl

theorem nearest_cons {α : Type} (field : PolicyPack F → Option α) (layer : PolicyPack F)
    (above : List (PolicyPack F)) :
    nearest field (layer :: above) = (field layer).or (nearest field above) := by
  rw [nearest, List.findSome?_cons]
  cases field layer <;> rfl

/-- One more layer keeps what is inherited and adds its own rules. -/
theorem InheritsRules.foldLayer {above : List (PolicyPack F)} {r : ResolvedPolicy F}
    (h : InheritsRules engine above r) (hr : AllStand engine r.filters.blockedPatterns)
    {layer : PolicyPack F} (hlayer : AllStand engine layer.filters.blockedPatterns) :
    InheritsRules engine (layer :: above) (foldLayer r layer) where
  defaultReadMode := by rw [nearest_cons, ← h.defaultReadMode]; rfl
  allowTools := by rw [nearest_cons, ← h.allowTools]; rfl
  maxContextTokens := by rw [nearest_cons, ← h.maxContextTokens]; rfl
  auditRetentionDays := by rw [nearest_cons, ← h.auditRetentionDays]; rfl
  pii := by rw [nearest_cons, ← h.pii]; rfl
  classification := by rw [nearest_cons, ← h.classification]; rfl
  injection := by rw [nearest_cons, ← h.injection]; rfl
  blockSecrets := by rw [nearest_cons, ← h.blockSecrets]; rfl
  maxWritesPerMin := by rw [nearest_cons, ← h.maxWritesPerMin]; rfl
  costPerDay := by rw [nearest_cons, ← h.costPerDay]; rfl
  costPerMonth := by rw [nearest_cons, ← h.costPerMonth]; rfl
  denyTools := List.forall_mem_cons.mpr ⟨fun _ ht => mem_union.mpr (.inr ht),
    fun l hl t ht => mem_union.mpr (.inl (h.denyTools l hl t ht))⟩
  blockedLabels := List.forall_mem_cons.mpr ⟨fun _ ht => mem_union.mpr (.inr ht),
    fun l hl t ht => mem_union.mpr (.inl (h.blockedLabels l hl t ht))⟩
  forbiddenPatterns := List.forall_mem_cons.mpr ⟨fun _ ht => mem_union.mpr (.inr ht),
    fun l hl t ht => mem_union.mpr (.inl (h.forbiddenPatterns l hl t ht))⟩
  modelCeilingGroups := List.forall_mem_cons.mpr
    ⟨fun _ hg => List.mem_eraseDups.mpr (List.mem_append_right _ hg),
      fun l hl g hg => List.mem_eraseDups.mpr
        (List.mem_append_left _ (h.modelCeilingGroups l hl g hg))⟩
  forbidDowngradeFor := List.forall_mem_cons.mpr ⟨fun _ ht => mem_union.mpr (.inr ht),
    fun l hl t ht => mem_union.mpr (.inl (h.forbidDowngradeFor l hl t ht))⟩
  blockedPatterns := by
    obtain ⟨-, hkeep, hnew⟩ := mergeBlockPatterns_covers hr hlayer
    exact List.forall_mem_cons.mpr
      ⟨hnew, fun l hl name p hp => hkeep name p (h.blockedPatterns l hl name p hp)⟩

theorem inheritsRules_foldLineage (pack : PolicyPack F) (seen : List String)
    {layers : List (PolicyPack F)} (h : PatternsStand engine layers) :
    InheritsRules engine layers (foldLineage (unresolved pack seen) layers) ∧
      AllStand engine (foldLineage (unresolved pack seen) layers).filters.blockedPatterns := by
  induction layers with
  | nil =>
    have hempty : AllStand engine (∅ : OrdMap String String) := by
      intro name p hp
      simp at hp
    refine ⟨?_, hempty⟩
    constructor <;> first | rfl | exact fun layer hlayer => absurd hlayer List.not_mem_nil
  | cons layer above ih =>
    have hlayer := h layer List.mem_cons_self
    obtain ⟨hrules, hstand⟩ := ih fun l hl => h l (List.mem_cons_of_mem layer hl)
    rw [foldLineage_cons]
    exact ⟨hrules.foldLayer hstand hlayer, (mergeBlockPatterns_covers hstand hlayer).1⟩

/-- The request cap stays unset whatever the layers say. -/
theorem requestCap_foldLineage (pack : PolicyPack F) (seen : List String)
    (layers : List (PolicyPack F)) :
    (foldLineage (unresolved pack seen) layers).budgets.maxRequestsPerMinutePerPerson = none := by
  induction layers with
  | nil => rfl
  | cons layer above ih =>
    rw [foldLineage_cons]
    exact ih

theorem overlap_eq_nil {r : ResolvedPolicy F} (h : overlap r = []) :
    ∀ allow, r.allowTools = some allow → ∀ tool ∈ allow, tool ∉ r.denyTools := by
  intro allow hallow tool htool hdeny
  rw [overlap, hallow, Option.getD_some, List.filter_eq_nil_iff] at h
  exact h tool htool (List.contains_iff_mem.mpr hdeny)

end Resolve

/-! ## A chain with a request cap, and one without -/

/-- A pack that sets one block pattern and perhaps a request cap. -/
def blockingPack (name : String) (parent : Option String) (pattern : String)
    (cap : Option ℕ) : PolicyPack ℚ where
  name := name
  version := "1.0.0"
  description := "blocks a word"
  «extends» := parent
  context := ⟨none, none, [], none, none⟩
  redaction := ∅
  filters := { emptyFilters with blockedPatterns := (∅ : OrdMap String String).insert "w" pattern }
  egress := ⟨[], none, none⟩
  routing := ⟨[], [], []⟩
  budgets := ⟨none, none, cap⟩

/-- The texts that a word, or an alternation of such patterns, matches. -/
inductive Reads : String → (String → Prop) → Prop
  | word (p : String) (h : p.toList.all Char.isAlpha = true) :
    Reads p fun text => p.toList <:+: text.toList
  | alternation {p q : String} {A B : String → Prop} (hp : Reads p A) (hq : Reads q B) :
    Reads s!"(?:{p})|(?:{q})" fun text => A text ∨ B text

def wordEngine : RegexEngine where
  Blocks p text := ∃ A, Reads p A ∧ A text
  StandsInGroup p := ∃ A, Reads p A
  standsInGroup_alternation := by
    rintro p q ⟨A, hp⟩ ⟨B, hq⟩
    exact ⟨_, .alternation hp hq⟩
  blocks_alternation := by
    rintro p q text ⟨A, hp⟩ ⟨B, hq⟩ (⟨A', hp', h⟩ | ⟨B', hq', h⟩)
    · exact ⟨_, .alternation hp' hq, .inl h⟩
    · exact ⟨_, .alternation hp hq', .inr h⟩

end LeanCtx.Policy
