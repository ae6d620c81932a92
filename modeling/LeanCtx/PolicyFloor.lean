import LeanCtx.Policy

/-!
# Stacked floors

A stack of policies is folded with `mergeFloor` in some bracketing. Each
decision of the folded policy is the conjunction of the decisions of its
layers, so neither the bracketing nor a layer that occurs twice shows.
-/

namespace LeanCtx.Policy

/-! ## Minima and maxima of the values that are set -/

section Extrema

variable {α : Type} [LinearOrder α]

theorem minOpt_none_left (a : Option α) : minOpt none a = a := by
  cases a <;> rfl

theorem minOpt_assoc (a b c : Option α) : minOpt (minOpt a b) c = minOpt a (minOpt b c) := by
  cases a <;> cases b <;> cases c <;> simp only [minOpt, min_assoc]

theorem maxOpt_eq_minOpt (a b : Option α) : maxOpt a b = minOpt (α := αᵒᵈ) a b := by
  cases a <;> cases b <;> rfl

theorem min?_cons_eq_minOpt (x : α) (l : List α) : (x :: l).min? = minOpt (some x) l.min? := by
  rw [List.min?_cons]
  cases l.min? <;> rfl

/-- The minimum of two joined lists. -/
theorem min?_append (l m : List α) : (l ++ m).min? = minOpt l.min? m.min? := by
  induction l with
  | nil => rw [List.nil_append, List.min?_nil, minOpt_none_left]
  | cons x l ih => rw [List.cons_append, min?_cons_eq_minOpt, min?_cons_eq_minOpt, ih, minOpt_assoc]

theorem max?_append (l m : List α) : (l ++ m).max? = maxOpt l.max? m.max? := by
  rw [maxOpt_eq_minOpt]
  exact min?_append (α := αᵒᵈ) l m

/-- Only which values occur decides the minimum. -/
theorem min?_congr {l m : List α} (h : ∀ x, x ∈ l ↔ x ∈ m) : l.min? = m.min? := by
  cases hm : m.min? with
  | none =>
    have hnil : l = [] := by
      apply List.eq_nil_iff_forall_not_mem.mpr
      intro x hx
      rw [h, List.min?_eq_none_iff.mp hm] at hx
      exact List.not_mem_nil hx
    rw [hnil, List.min?_nil]
  | some a =>
    obtain ⟨hmem, hle⟩ := List.min?_eq_some_iff.mp hm
    exact List.min?_eq_some_iff.mpr ⟨(h a).mpr hmem, fun x hx => hle x ((h x).mp hx)⟩

theorem max?_congr {l m : List α} (h : ∀ x, x ∈ l ↔ x ∈ m) : l.max? = m.max? :=
  min?_congr (α := αᵒᵈ) h

end Extrema

/-! ## One merge -/

theorem mem_union {a b : List String} {x : String} : x ∈ union a b ↔ x ∈ a ∨ x ∈ b := by
  induction b generalizing a with
  | nil => simp [union]
  | cons item rest ih =>
    have hstep : union a (item :: rest) =
        union (if a.contains item then a else a ++ [item]) rest := rfl
    rw [hstep, ih]
    by_cases hmem : item ∈ a
    · rw [if_pos (List.contains_iff_mem.mpr hmem), List.mem_cons]
      constructor
      · rintro (h | h)
        · exact .inl h
        · exact .inr (.inr h)
      · rintro (h | rfl | h)
        · exact .inl h
        · exact .inl hmem
        · exact .inr h
    · rw [if_neg (fun h => hmem (List.contains_iff_mem.mp h)), List.mem_append,
        List.mem_singleton, List.mem_cons, or_assoc]

section Merge

variable {F : Type}

theorem toolAllowed_iff (p : ResolvedPolicy F) (tool : String) : p.toolAllowed tool = true ↔
    tool ∉ p.denyTools ∧ ∀ allow, p.allowTools = some allow → tool ∈ allow := by
  unfold ResolvedPolicy.toolAllowed
  by_cases hdeny : tool ∈ p.denyTools
  · simp [hdeny]
  · cases p.allowTools with
    | none => simp [hdeny]
    | some allow => simp [hdeny]

theorem mergeAllow_forall {org loc : Option (List String)} {deny : List String} {tool : String}
    (hdeny : tool ∉ deny) :
    (∀ allow, mergeAllow org loc deny = some allow → tool ∈ allow) ↔
      (∀ allow, org = some allow → tool ∈ allow) ∧ ∀ allow, loc = some allow → tool ∈ allow := by
  cases org with
  | none =>
    cases loc with
    | none => simp [mergeAllow]
    | some l => simp [mergeAllow, hdeny]
  | some o =>
    cases loc with
    | none => simp [mergeAllow, hdeny]
    | some l => simp [mergeAllow, hdeny]

theorem modelAllowed_iff (r : RoutingPolicyRules) (model : String) : r.modelAllowed model = true ↔
    (r.allowedModels = [] ∨ r.allowedModels.any (modelPatternMatches · model) = true) ∧
      ∀ group ∈ r.modelCeilingGroups, group.any (modelPatternMatches · model) = true := by
  rw [RoutingPolicyRules.modelAllowed, modelAllowedByCeilings, Bool.and_eq_true, Bool.or_eq_true,
    List.isEmpty_iff, List.all_eq_true]

theorem mem_mergeModelCeilings {org loc : RoutingPolicyRules} {group : List String} :
    group ∈ mergeModelCeilings org loc ↔ group ∈ org.modelCeilingGroups ∨
      (loc.allowedModels ≠ [] ∧ group = loc.allowedModels) ∨ group ∈ loc.modelCeilingGroups := by
  rw [mergeModelCeilings, uniqueModelCeilings, List.mem_eraseDups, List.mem_append,
    List.mem_append, or_assoc]
  cases loc.allowedModels with
  | nil => simp
  | cons pattern rest => simp

/-- A model passes the merged rules exactly when it passes both. -/
theorem modelAllowed_mergeRouting (org loc : RoutingPolicyRules) (model : String) :
    (mergeRouting org loc).modelAllowed model = true ↔
      org.modelAllowed model = true ∧ loc.modelAllowed model = true := by
  simp only [modelAllowed_iff, mergeRouting, mem_mergeModelCeilings]
  constructor
  · rintro ⟨hprimary, hgroups⟩
    refine ⟨⟨hprimary, fun group h => hgroups group (.inl h)⟩, ?_, fun group h =>
      hgroups group (.inr (.inr h))⟩
    by_cases hempty : loc.allowedModels = []
    · exact .inl hempty
    · exact .inr (hgroups _ (.inr (.inl ⟨hempty, rfl⟩)))
  · rintro ⟨⟨hprimary, hgroups⟩, hloc, hlocGroups⟩
    refine ⟨hprimary, ?_⟩
    rintro group (h | ⟨hne, rfl⟩ | h)
    · exact hgroups group h
    · exact hloc.resolve_left hne
    · exact hlocGroups group h

theorem parsedAction_stricterAction (a b : Option String) :
    parsedAction (stricterAction a b) = maxOpt (parsedAction a) (parsedAction b) := by
  unfold stricterAction
  cases parsedAction a with
  | none => cases parsedAction b <;> simp [parsedAction, maxOpt]
  | some x =>
    cases parsedAction b with
    | none => simp [parsedAction, maxOpt]
    | some y =>
      by_cases hrank : x.rank ≥ y.rank
      · have hle : y ≤ x := hrank
        simp [parsedAction, maxOpt, hrank, max_eq_left hle]
      · have hle : x ≤ y := (not_le.mp hrank).le
        simp [parsedAction, maxOpt, hrank, max_eq_right hle]

variable [LinearOrder F]

/-- A tool passes the merged lists exactly when it passes both. -/
theorem toolAllowed_mergeFloor (org loc : ResolvedPolicy F) (tool : String) :
    (mergeFloor org (some loc)).toolAllowed tool = true ↔
      org.toolAllowed tool = true ∧ loc.toolAllowed tool = true := by
  simp only [toolAllowed_iff, mergeFloor, mem_union, not_or]
  constructor
  · rintro ⟨⟨horg, hloc⟩, hallow⟩
    rw [mergeAllow_forall (by simp [mem_union, horg, hloc])] at hallow
    exact ⟨⟨horg, hallow.1⟩, hloc, hallow.2⟩
  · rintro ⟨⟨horg, hallowOrg⟩, hloc, hallowLoc⟩
    refine ⟨⟨horg, hloc⟩, ?_⟩
    rw [mergeAllow_forall (by simp [mem_union, horg, hloc])]
    exact ⟨hallowOrg, hallowLoc⟩

end Merge

/-! ## Stacks -/

/-- Policies to be folded, outermost floor first, in some bracketing. -/
inductive Stack (F : Type)
  | layer (p : ResolvedPolicy F)
  | under (floor rest : Stack F)

namespace Stack

variable {F : Type}

def layers : Stack F → List (ResolvedPolicy F)
  | .layer p => [p]
  | .under floor rest => floor.layers ++ rest.layers

def fold [LinearOrder F] : Stack F → ResolvedPolicy F
  | .layer p => p
  | .under floor rest => mergeFloor floor.fold (some rest.fold)

end Stack

section Decisions

variable {F : Type} [LinearOrder F]

/-- The policy `p` decides like the conjunction of the layers: a tool or a model passes when every
layer lets it pass, a cap is the smallest one set, retention the largest, a filter action the
strictest. -/
structure Conjunction (layers : List (ResolvedPolicy F)) (p : ResolvedPolicy F) : Prop where
  tool : ∀ tool, p.toolAllowed tool = true ↔ ∀ q ∈ layers, q.toolAllowed tool = true
  model : ∀ model, p.routing.modelAllowed model = true ↔
    ∀ q ∈ layers, q.routing.modelAllowed model = true
  maxContextTokens : p.maxContextTokens = (layers.filterMap (·.maxContextTokens)).min?
  maxWritesPerMin : p.egress.maxWritesPerMin = (layers.filterMap (·.egress.maxWritesPerMin)).min?
  maxCostPerPerson : p.budgets.maxCostUsdPerPersonPerDay =
    (layers.filterMap (·.budgets.maxCostUsdPerPersonPerDay)).min?
  maxCostPerProject : p.budgets.maxCostUsdPerProjectPerMonth =
    (layers.filterMap (·.budgets.maxCostUsdPerProjectPerMonth)).min?
  maxRequests : p.budgets.maxRequestsPerMinutePerPerson =
    (layers.filterMap (·.budgets.maxRequestsPerMinutePerPerson)).min?
  auditRetentionDays : p.auditRetentionDays = (layers.filterMap (·.auditRetentionDays)).max?
  pii : parsedAction p.filters.pii =
    (layers.filterMap fun q => parsedAction q.filters.pii).max?
  classification : parsedAction p.filters.classification =
    (layers.filterMap fun q => parsedAction q.filters.classification).max?
  injection : parsedAction p.filters.injection =
    (layers.filterMap fun q => parsedAction q.filters.injection).max?

/-- The same answer to every question of `Conjunction`. -/
structure SameDecisions (p q : ResolvedPolicy F) : Prop where
  tool : ∀ tool, p.toolAllowed tool = q.toolAllowed tool
  model : ∀ model, p.routing.modelAllowed model = q.routing.modelAllowed model
  maxContextTokens : p.maxContextTokens = q.maxContextTokens
  maxWritesPerMin : p.egress.maxWritesPerMin = q.egress.maxWritesPerMin
  maxCostPerPerson :
    p.budgets.maxCostUsdPerPersonPerDay = q.budgets.maxCostUsdPerPersonPerDay
  maxCostPerProject :
    p.budgets.maxCostUsdPerProjectPerMonth = q.budgets.maxCostUsdPerProjectPerMonth
  maxRequests :
    p.budgets.maxRequestsPerMinutePerPerson = q.budgets.maxRequestsPerMinutePerPerson
  auditRetentionDays : p.auditRetentionDays = q.auditRetentionDays
  pii : parsedAction p.filters.pii = parsedAction q.filters.pii
  classification : parsedAction p.filters.classification = parsedAction q.filters.classification
  injection : parsedAction p.filters.injection = parsedAction q.filters.injection

theorem Conjunction.singleton (p : ResolvedPolicy F) : Conjunction [p] p := by
  have hmin : ∀ {α : Type} [LinearOrder α] (f : ResolvedPolicy F → Option α),
      f p = ([p].filterMap f).min? := by
    intro α _ f
    cases hf : f p <;> simp [hf]
  have hmax : ∀ {α : Type} [LinearOrder α] (f : ResolvedPolicy F → Option α),
      f p = ([p].filterMap f).max? := by
    intro α _ f
    cases hf : f p <;> simp [hf]
  exact {
    tool := fun tool => by simp
    model := fun model => by simp
    maxContextTokens := hmin _
    maxWritesPerMin := hmin fun q => q.egress.maxWritesPerMin
    maxCostPerPerson := hmin fun q => q.budgets.maxCostUsdPerPersonPerDay
    maxCostPerProject := hmin fun q => q.budgets.maxCostUsdPerProjectPerMonth
    maxRequests := hmin fun q => q.budgets.maxRequestsPerMinutePerPerson
    auditRetentionDays := hmax _
    pii := hmax fun q => parsedAction q.filters.pii
    classification := hmax fun q => parsedAction q.filters.classification
    injection := hmax fun q => parsedAction q.filters.injection }

/-- One merge joins two conjunctions. -/
theorem Conjunction.mergeFloor {above below : List (ResolvedPolicy F)}
    {org loc : ResolvedPolicy F} (horg : Conjunction above org) (hloc : Conjunction below loc) :
    Conjunction (above ++ below) (mergeFloor org (some loc)) where
  tool tool := by
    rw [toolAllowed_mergeFloor, horg.tool, hloc.tool]
    exact List.forall_mem_append.symm
  model model := by
    rw [show (Policy.mergeFloor org (some loc)).routing = mergeRouting org.routing loc.routing
      from rfl, modelAllowed_mergeRouting, horg.model, hloc.model]
    exact List.forall_mem_append.symm
  maxContextTokens := by
    rw [List.filterMap_append, min?_append, ← horg.maxContextTokens, ← hloc.maxContextTokens]
    rfl
  maxWritesPerMin := by
    rw [List.filterMap_append, min?_append, ← horg.maxWritesPerMin, ← hloc.maxWritesPerMin]
    rfl
  maxCostPerPerson := by
    rw [List.filterMap_append, min?_append, ← horg.maxCostPerPerson, ← hloc.maxCostPerPerson]
    rfl
  maxCostPerProject := by
    rw [List.filterMap_append, min?_append, ← horg.maxCostPerProject, ← hloc.maxCostPerProject]
    rfl
  maxRequests := by
    rw [List.filterMap_append, min?_append, ← horg.maxRequests, ← hloc.maxRequests]
    rfl
  auditRetentionDays := by
    rw [List.filterMap_append, max?_append, ← horg.auditRetentionDays, ← hloc.auditRetentionDays]
    rfl
  pii := by
    rw [List.filterMap_append, max?_append, ← horg.pii, ← hloc.pii]
    exact parsedAction_stricterAction _ _
  classification := by
    rw [List.filterMap_append, max?_append, ← horg.classification, ← hloc.classification]
    exact parsedAction_stricterAction _ _
  injection := by
    rw [List.filterMap_append, max?_append, ← horg.injection, ← hloc.injection]
    exact parsedAction_stricterAction _ _

theorem Stack.conjunction (s : Stack F) : Conjunction s.layers s.fold := by
  induction s with
  | layer p => exact Conjunction.singleton p
  | under floor rest hfloor hrest => exact hfloor.mergeFloor hrest

/-- Only which layers occur decides what a conjunction answers. -/
theorem Conjunction.sameDecisions {l m : List (ResolvedPolicy F)} {p q : ResolvedPolicy F}
    (hp : Conjunction l p) (hq : Conjunction m q) (hset : ∀ r, r ∈ l ↔ r ∈ m) :
    SameDecisions p q := by
  have hmap : ∀ {α : Type} (f : ResolvedPolicy F → Option α) (x : α),
      x ∈ l.filterMap f ↔ x ∈ m.filterMap f := by
    intro α f x
    simp only [List.mem_filterMap, hset]
  exact {
    tool := fun tool => by
      rw [Bool.eq_iff_iff, hp.tool, hq.tool]
      simp only [hset]
    model := fun model => by
      rw [Bool.eq_iff_iff, hp.model, hq.model]
      simp only [hset]
    maxContextTokens := by
      rw [hp.maxContextTokens, hq.maxContextTokens, min?_congr (hmap _)]
    maxWritesPerMin := by
      rw [hp.maxWritesPerMin, hq.maxWritesPerMin, min?_congr (hmap _)]
    maxCostPerPerson := by
      rw [hp.maxCostPerPerson, hq.maxCostPerPerson, min?_congr (hmap _)]
    maxCostPerProject := by
      rw [hp.maxCostPerProject, hq.maxCostPerProject, min?_congr (hmap _)]
    maxRequests := by
      rw [hp.maxRequests, hq.maxRequests, min?_congr (hmap _)]
    auditRetentionDays := by
      rw [hp.auditRetentionDays, hq.auditRetentionDays, max?_congr (hmap _)]
    pii := by rw [hp.pii, hq.pii, max?_congr (hmap _)]
    classification := by rw [hp.classification, hq.classification, max?_congr (hmap _)]
    injection := by rw [hp.injection, hq.injection, max?_congr (hmap _)] }

/-- A stack decides like the conjunction of its layers, and folding one of its layers in again,
above or below, changes no decision; nor does any other arrangement of the same layers. -/
theorem stack_decides (s : Stack F) : Conjunction s.layers s.fold ∧
    (∀ q ∈ s.layers, SameDecisions (mergeFloor q (some s.fold)) s.fold ∧
      SameDecisions (mergeFloor s.fold (some q)) s.fold) ∧
    ∀ t : Stack F, (∀ q, q ∈ t.layers ↔ q ∈ s.layers) → SameDecisions t.fold s.fold := by
  have hsame : ∀ t : Stack F, (∀ q, q ∈ t.layers ↔ q ∈ s.layers) →
      SameDecisions t.fold s.fold :=
    fun t ht => t.conjunction.sameDecisions s.conjunction ht
  refine ⟨s.conjunction, ?_, hsame⟩
  intro q hq
  constructor
  · apply hsame (.under (.layer q) s)
    intro r
    simp only [Stack.layers, List.mem_append, List.mem_singleton, or_iff_right_iff_imp]
    rintro rfl
    exact hq
  · apply hsame (.under s (.layer q))
    intro r
    simp only [Stack.layers, List.mem_append, List.mem_singleton, or_iff_left_iff_imp]
    rintro rfl
    exact hq

end Decisions

end LeanCtx.Policy
