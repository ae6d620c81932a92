import Mathlib.Algebra.Order.BigOperators.Group.List
import Mathlib.Algebra.Order.Ring.Nat
import Mathlib.Data.List.Perm.Basic
import Mathlib.Data.List.Sort

/-!
# Selecting context under a budget

Candidates are selected in stages: pinned ones first, then by a score against
what is selected already, each in the densest view that the budget still
admits. What was not selected is listed with a reason. The last stage drops
items that repeat an earlier one; the tokens it frees are not given out again.
-/

namespace LeanCtx.ContextCompiler

inductive ContextState
  | candidate
  | included
  | excluded
  | pinned
  | stale
  | shadowed
deriving DecidableEq

inductive ViewKind
  | full
  | signatures
  | map
  | diff
  | aggressive
  | entropy
  | lines
  | reference
  | handle
deriving DecidableEq

namespace ViewKind

def asStr : ViewKind → String
  | full => "full"
  | signatures => "signatures"
  | map => "map"
  | diff => "diff"
  | aggressive => "aggressive"
  | entropy => "entropy"
  | lines => "lines"
  | reference => "reference"
  | handle => "handle"

/-- By `density_rank`. -/
def byDensity : List ViewKind :=
  [full, aggressive, diff, lines, entropy, signatures, map, reference, handle]

theorem mem_byDensity (view : ViewKind) : view ∈ byDensity := by
  cases view <;> decide

end ViewKind

/-- A cost for each declared view. -/
abbrev ViewCosts := ViewKind → Option ℕ

def cheapestContentView (costs : ViewCosts) : Option ℕ :=
  ((ViewKind.byDensity.filter (· ≠ .handle)).filterMap costs).min?

/-- The densest view that fits. -/
def bestAffordableView (costs : ViewCosts) (budgetLeft : ℕ) : Option (ViewKind × ℕ) :=
  (ViewKind.byDensity.filterMap fun view => (costs view).map fun tokens => (view, tokens)).find?
    fun option => option.2 ≤ budgetLeft && 0 < option.2

/-- Scores are floating-point numbers; nothing is assumed of their arithmetic. -/
structure Scoring (F : Type) where
  zero : F
  minPositive : F
  dedupThreshold : F
  max : F → F → F
  div : F → F → F
  efficiency : F → ℕ → F
  mmrScore : F → F → F
  jaccardSimilarity : String → String → F
  gt : F → F → Bool
  ge : F → F → Bool
  eq : F → F → Bool
  /-- Whether the two differ by less than the machine epsilon. -/
  close : F → F → Bool
  /-- Whether more than nine tenths of the total is used. -/
  nearlyFull : (used total : ℕ) → Bool

structure CompileCandidate (F : Type) where
  id : String
  path : String
  state : ContextState
  phi : F
  viewCosts : ViewCosts
  selectedTokens : ℕ
  pinned : Bool
  contentSketch : Option String

structure SelectedItem (F : Type) where
  id : String
  path : String
  view : String
  tokens : ℕ
  phi : F
  pinned : Bool

structure ExcludedItem where
  id : String
  path : String
  reason : String

structure TokenBudget where
  total : ℕ
  used : ℕ

def TokenBudget.remaining (budget : TokenBudget) : ℕ := budget.total - budget.used

variable {F : Type}

namespace CompileCandidate

def isPinned (c : CompileCandidate F) : Bool := c.pinned || c.state = .pinned

def sketch (c : CompileCandidate F) : String := c.contentSketch.getD c.path

def exclude (c : CompileCandidate F) (reason : String) : ExcludedItem := ⟨c.id, c.path, reason⟩

def select (c : CompileCandidate F) (view : ViewKind) (tokens : ℕ) (pinned : Bool) :
    SelectedItem F :=
  ⟨c.id, c.path, view.asStr, tokens, c.phi, pinned⟩

end CompileCandidate

def sketchOf (candidates : List (CompileCandidate F)) (id fallbackPath : String) : String :=
  ((candidates.find? fun c => c.id = id).bind fun c => c.contentSketch).getD fallbackPath

/-! ## Pinned candidates -/

/-- What is decided so far. -/
structure Draft (F : Type) where
  selected : List (SelectedItem F)
  excluded : List ExcludedItem
  tokensUsed : ℕ

def Draft.empty : Draft F := ⟨[], [], 0⟩

def pinCandidate (remaining : ℕ) (draft : Draft F) (c : CompileCandidate F) : Draft F :=
  if c.state = .excluded then
    { draft with excluded := draft.excluded ++ [c.exclude "excluded by overlay"] }
  else
    match bestAffordableView c.viewCosts (remaining - draft.tokensUsed) with
    | none =>
      { draft with
        excluded := draft.excluded ++ [c.exclude "budget cannot fit a declared pinned view"] }
    | some (view, tokens) =>
      { draft with
        selected := draft.selected ++ [c.select view tokens true]
        tokensUsed := draft.tokensUsed + tokens }

def pinCandidates (remaining : ℕ) (pinned : List (CompileCandidate F)) : Draft F :=
  pinned.foldl (pinCandidate remaining) .empty

/-! ## Greedy selection -/

section

variable (scoring : Scoring F)

def candidateEfficiency (c : CompileCandidate F) : F :=
  scoring.efficiency c.phi (max ((cheapestContentView c.viewCosts).getD c.selectedTokens) 1)

def maxEfficiency (unpinned : List (CompileCandidate F)) : F :=
  scoring.max ((unpinned.map (candidateEfficiency scoring)).foldl scoring.max scoring.zero)
    scoring.minPositive

/-- A candidate of a round, with its position among those that remain. -/
structure Pick (F : Type) where
  pos : ℕ
  candidate : CompileCandidate F
  mmr : F
  view : ViewKind
  tokens : ℕ

def maxSimilarity (sketches : List String) (c : CompileCandidate F) : F :=
  (sketches.map fun s => scoring.jaccardSimilarity s c.sketch).foldl scoring.max scoring.zero

def isBetter (mmr : F) (c : CompileCandidate F) (best : Pick F) : Bool :=
  let eff := candidateEfficiency scoring c
  let bestEff := candidateEfficiency scoring best.candidate
  scoring.gt mmr best.mmr || (scoring.eq mmr best.mmr && scoring.gt eff bestEff) ||
    (scoring.eq mmr best.mmr && scoring.close eff bestEff && decide (c.id < best.candidate.id))

def considerPick (maxEff : F) (sketches : List String) (budgetLeft : ℕ) (best : Option (Pick F))
    (entry : CompileCandidate F × ℕ) : Option (Pick F) :=
  match bestAffordableView entry.1.viewCosts budgetLeft with
  | none => best
  | some (view, tokens) =>
    let mmr := scoring.mmrScore (scoring.div (candidateEfficiency scoring entry.1) maxEff)
      (maxSimilarity scoring sketches entry.1)
    if best.all (isBetter scoring mmr entry.1) then some ⟨entry.2, entry.1, mmr, view, tokens⟩
    else best

/-- The best candidate that fits. -/
def bestPick (maxEff : F) (sketches : List String) (budgetLeft : ℕ)
    (remaining : List (CompileCandidate F)) : Option (Pick F) :=
  remaining.zipIdx.foldl (considerPick scoring maxEff sketches budgetLeft) none

/-- The rounds, at most `rounds` of them; what was never picked is given back. -/
def selectGreedy (budget : ℕ) (maxEff : F) : (rounds : ℕ) → Draft F → (sketches : List String) →
    List (CompileCandidate F) → Draft F × List (CompileCandidate F)
  | 0, draft, _, remaining => (draft, remaining)
  | rounds + 1, draft, sketches, remaining =>
    if budget - draft.tokensUsed = 0 then (draft, remaining)
    else
      match bestPick scoring maxEff sketches (budget - draft.tokensUsed) remaining with
      | none => (draft, remaining)
      | some pick =>
        selectGreedy budget maxEff rounds
          { draft with
            selected := draft.selected ++ [pick.candidate.select pick.view pick.tokens false]
            tokensUsed := draft.tokensUsed + pick.tokens }
          (sketches ++ [pick.candidate.sketch]) (remaining.eraseIdx pick.pos)

/-! ## The candidates that are left out -/

/-- A candidate in state `Excluded` is listed unless it is listed already. -/
def sweepCandidate (excluded : List ExcludedItem) (c : CompileCandidate F) : List ExcludedItem :=
  if excluded.any fun e => e.id = c.id then excluded
  else excluded ++ [c.exclude "excluded by overlay/policy"]

/-! ## Dropping duplicates -/

/-- The items kept so far with their sketches. -/
structure Dedup (F : Type) where
  kept : List (SelectedItem F × String)
  tokens : ℕ
  excluded : List ExcludedItem

def isDominated (kept : List (SelectedItem F × String)) (item : SelectedItem F) (sketch : String) :
    Bool :=
  kept.any fun existing =>
    !(sketch.isEmpty || existing.2.isEmpty) &&
      scoring.gt (scoring.jaccardSimilarity existing.2 sketch) scoring.dedupThreshold &&
      scoring.ge existing.1.phi item.phi

def dedupItem (candidates : List (CompileCandidate F)) (state : Dedup F) (item : SelectedItem F) :
    Dedup F :=
  let sketch := sketchOf candidates item.id item.path
  if isDominated scoring state.kept item sketch then
    { state with
      excluded := state.excluded ++
        [⟨item.id, item.path, "dedup: >70% content overlap with higher-Phi item"⟩] }
  else { state with kept := state.kept ++ [(item, sketch)], tokens := state.tokens + item.tokens }

/-! ## Ordering -/

/-- High scores at the beginning and at the end. -/
def reorder (selected : List (SelectedItem F)) : List (SelectedItem F) :=
  if 3 ≤ selected.length then
    let sorted := selected.mergeSort fun a b => !scoring.gt b.phi a.phi
    let left := (sorted.zipIdx.filter fun entry => entry.2 % 2 = 0).map Prod.fst
    let right := (sorted.zipIdx.filter fun entry => entry.2 % 2 ≠ 0).map Prod.fst
    left ++ right.reverse
  else selected

/-! ## The whole selection -/

structure CompileSelection (F : Type) where
  budgetTotal : ℕ
  budgetUsed : ℕ
  itemsConsidered : ℕ
  itemsSelected : ℕ
  itemsExcluded : ℕ
  itemsPinned : ℕ
  selected : List (SelectedItem F)
  excludedReasons : List ExcludedItem
  warnings : List String

/-- The draft before duplicates are dropped. -/
def choose (candidates : List (CompileCandidate F)) (remaining : ℕ) : Draft F :=
  let pinned := candidates.filter CompileCandidate.isPinned
  let unpinned := candidates.filter fun c => !c.isPinned
  let draft := pinCandidates remaining pinned
  let sketches := draft.selected.map fun s => sketchOf candidates s.id s.path
  let pickable := unpinned.filter fun c => c.state ≠ .excluded
  let (draft, unpicked) := selectGreedy scoring remaining (maxEfficiency scoring unpinned)
    pickable.length draft sketches pickable
  let excluded := draft.excluded ++ unpicked.map fun c => c.exclude "budget exhausted"
  { draft with
    excluded := (candidates.filter fun c => c.state = .excluded).foldl sweepCandidate excluded }

def selectExplicit (candidates : List (CompileCandidate F)) (budget : TokenBudget) :
    CompileSelection F :=
  let draft := choose scoring candidates budget.remaining
  let dedup := draft.selected.foldl (dedupItem scoring candidates) ⟨[], 0, draft.excluded⟩
  let selected := reorder scoring (dedup.kept.map Prod.fst)
  { budgetTotal := budget.total
    budgetUsed := dedup.tokens
    itemsConsidered := candidates.length
    itemsSelected := selected.length
    itemsExcluded := dedup.excluded.length
    itemsPinned := (candidates.filter CompileCandidate.isPinned).length
    selected := selected
    excludedReasons := dedup.excluded
    warnings :=
      if scoring.nearlyFull dedup.tokens (max budget.total 1) then
        ["Context budget >90% utilized (" ++ toString dedup.tokens ++ "/" ++ toString budget.total ++
          " tokens)"]
      else [] }

end

/-! ## Views that fit -/

theorem bestAffordableView_eq_some {costs : ViewCosts} {budgetLeft : ℕ} {view : ViewKind}
    {tokens : ℕ} (h : bestAffordableView costs budgetLeft = some (view, tokens)) :
    costs view = some tokens ∧ tokens ≤ budgetLeft ∧ 0 < tokens := by
  have hfits := List.find?_some h
  obtain ⟨view', -, hcost⟩ := List.mem_filterMap.mp (List.mem_of_find?_eq_some h)
  obtain ⟨tokens', hdeclared, heq⟩ := Option.map_eq_some_iff.mp hcost
  obtain ⟨rfl, rfl⟩ := Prod.mk.inj heq
  rw [Bool.and_eq_true, decide_eq_true_eq, decide_eq_true_eq] at hfits
  exact ⟨hdeclared, hfits.1, hfits.2⟩

/-- No declared view of positive cost fits. -/
def NothingFits (costs : ViewCosts) (budgetLeft : ℕ) : Prop :=
  ∀ view tokens, costs view = some tokens → 0 < tokens → budgetLeft < tokens

theorem nothingFits_iff {costs : ViewCosts} {budgetLeft : ℕ} :
    NothingFits costs budgetLeft ↔ bestAffordableView costs budgetLeft = none := by
  constructor
  · intro h
    cases hbest : bestAffordableView costs budgetLeft with
    | none => rfl
    | some option =>
      obtain ⟨hdeclared, hle, hpos⟩ := bestAffordableView_eq_some hbest
      exact absurd hle (Nat.not_le_of_lt (h option.1 option.2 hdeclared hpos))
  · intro h view tokens hdeclared hpos
    have hmem : (view, tokens) ∈
        ViewKind.byDensity.filterMap fun view => (costs view).map fun tokens => (view, tokens) :=
      List.mem_filterMap.mpr ⟨view, view.mem_byDensity, by rw [hdeclared, Option.map_some]⟩
    have hunfit := List.find?_eq_none.mp h _ hmem
    simp only [Bool.and_eq_true, decide_eq_true_eq, not_and] at hunfit
    by_contra hle
    exact hunfit (Nat.not_lt.mp hle) hpos

/-! ## Drafts -/

/-- The item is a declared view of the candidate, at its positive cost. -/
structure CompileCandidate.Yields (c : CompileCandidate F) (item : SelectedItem F) : Prop where
  id : item.id = c.id
  path : item.path = c.path
  phi : item.phi = c.phi
  state : c.state ≠ .excluded
  view : ∃ view, item.view = ViewKind.asStr view ∧ c.viewCosts view = some item.tokens
  positive : 0 < item.tokens

/-- A draft that has decided of the candidates, within the budget. -/
structure Drawn (remaining : ℕ) (cs : List (CompileCandidate F)) (draft : Draft F) : Prop where
  ids : (draft.selected.map SelectedItem.id ++ draft.excluded.map ExcludedItem.id).Perm
    (cs.map CompileCandidate.id)
  tokens : (draft.selected.map SelectedItem.tokens).sum = draft.tokensUsed
  fits : draft.tokensUsed ≤ remaining
  declared : ∀ item ∈ draft.selected, ∃ c ∈ cs, c.Yields item

namespace Drawn

variable {remaining : ℕ} {cs : List (CompileCandidate F)} {draft : Draft F}

theorem empty : Drawn remaining [] (.empty : Draft F) :=
  ⟨.refl _, rfl, Nat.zero_le _, nofun⟩

theorem perm (h : Drawn remaining cs draft) {cs' : List (CompileCandidate F)} (hperm : cs.Perm cs') :
    Drawn remaining cs' draft := by
  refine ⟨h.ids.trans (hperm.map _), h.tokens, h.fits, ?_⟩
  intro item hitem
  obtain ⟨c, hc, hyields⟩ := h.declared item hitem
  exact ⟨c, hperm.mem_iff.mp hc, hyields⟩

theorem select (h : Drawn remaining cs draft) {c : CompileCandidate F} {view : ViewKind}
    {tokens : ℕ} (hview : bestAffordableView c.viewCosts (remaining - draft.tokensUsed) =
      some (view, tokens)) (hstate : c.state ≠ .excluded) (pinned : Bool) :
    Drawn remaining (cs ++ [c]) { draft with
      selected := draft.selected ++ [c.select view tokens pinned]
      tokensUsed := draft.tokensUsed + tokens } := by
  obtain ⟨hdeclared, hle, hpos⟩ := bestAffordableView_eq_some hview
  have hfits := h.fits
  refine ⟨?_, ?_, ?_, ?_⟩
  · rw [List.map_append, List.map_append, List.append_assoc]
    have hswap : ([c.id] ++ draft.excluded.map ExcludedItem.id).Perm
        (draft.excluded.map ExcludedItem.id ++ [c.id]) := List.perm_append_comm
    refine (hswap.append_left _).trans ?_
    rw [← List.append_assoc]
    exact h.ids.append_right _
  · rw [List.map_append, List.sum_append, h.tokens]
    rfl
  · exact (by omega : draft.tokensUsed + tokens ≤ remaining)
  · intro item hitem
    rcases List.mem_append.mp hitem with hold | hnew
    · obtain ⟨c', hc', hyields⟩ := h.declared item hold
      exact ⟨c', List.mem_append_left _ hc', hyields⟩
    · obtain rfl := List.mem_singleton.mp hnew
      exact ⟨c, List.mem_append_right _ List.mem_cons_self,
        ⟨rfl, rfl, rfl, hstate, ⟨view, rfl, hdeclared⟩, hpos⟩⟩

theorem exclude (h : Drawn remaining cs draft) (excluded : List (CompileCandidate F))
    (reason : String) : Drawn remaining (cs ++ excluded) { draft with
      excluded := draft.excluded ++ excluded.map fun c => c.exclude reason } := by
  refine ⟨?_, h.tokens, h.fits, ?_⟩
  · have hids : (excluded.map fun c => c.exclude reason).map ExcludedItem.id =
        excluded.map CompileCandidate.id := by
      rw [List.map_map]
      rfl
    rw [List.map_append, List.map_append, ← List.append_assoc, hids]
    exact h.ids.append_right _
  · intro item hitem
    obtain ⟨c, hc, hyields⟩ := h.declared item hitem
    exact ⟨c, List.mem_append_left _ hc, hyields⟩

end Drawn

/-! ## Pinned candidates -/

theorem drawn_pinCandidate {remaining : ℕ} {cs : List (CompileCandidate F)} {draft : Draft F}
    (h : Drawn remaining cs draft) (c : CompileCandidate F) :
    Drawn remaining (cs ++ [c]) (pinCandidate remaining draft c) := by
  unfold pinCandidate
  split
  · exact h.exclude [c] _
  · rename_i hstate
    split
    · exact h.exclude [c] _
    · rename_i view tokens hview
      exact h.select hview hstate true

theorem drawn_foldl_pinCandidate {remaining : ℕ} {cs : List (CompileCandidate F)} {draft : Draft F}
    (h : Drawn remaining cs draft) (pinned : List (CompileCandidate F)) :
    Drawn remaining (cs ++ pinned) (pinned.foldl (pinCandidate remaining) draft) := by
  induction pinned generalizing cs draft with
  | nil => rwa [List.append_nil]
  | cons c pinned ih =>
    have hnext := ih (drawn_pinCandidate h c)
    rwa [List.append_assoc, List.singleton_append] at hnext

theorem drawn_pinCandidates (remaining : ℕ) (pinned : List (CompileCandidate F)) :
    Drawn remaining pinned (pinCandidates remaining pinned) :=
  drawn_foldl_pinCandidate .empty pinned

/-- The pass only adds. -/
theorem prefix_foldl_pinCandidate (remaining : ℕ) (draft : Draft F)
    (pinned : List (CompileCandidate F)) :
    draft.selected <+: (pinned.foldl (pinCandidate remaining) draft).selected := by
  induction pinned generalizing draft with
  | nil => exact List.prefix_rfl
  | cons c pinned ih =>
    refine .trans ?_ (ih _)
    unfold pinCandidate
    split
    · exact List.prefix_rfl
    · split
      · exact List.prefix_rfl
      · exact List.prefix_append _ _

/-! ## Greedy selection -/

section

variable {scoring : Scoring F} {maxEff : F} {sketches : List String} {budgetLeft : ℕ}

/-- The candidate of a pick is among the entries, and its view fits. -/
def Pick.From (budgetLeft : ℕ) (entries : List (CompileCandidate F × ℕ)) (pick : Pick F) : Prop :=
  (pick.candidate, pick.pos) ∈ entries ∧
    bestAffordableView pick.candidate.viewCosts budgetLeft = some (pick.view, pick.tokens)

variable (scoring maxEff sketches budgetLeft) in
theorem considerPick_cases (best : Option (Pick F)) (entry : CompileCandidate F × ℕ) :
    (bestAffordableView entry.1.viewCosts budgetLeft = none ∧
        considerPick scoring maxEff sketches budgetLeft best entry = best) ∨
      (best.isSome = true ∧ considerPick scoring maxEff sketches budgetLeft best entry = best) ∨
      ∃ pick, considerPick scoring maxEff sketches budgetLeft best entry = some pick ∧
        pick.From budgetLeft [entry] := by
  unfold considerPick
  cases hview : bestAffordableView entry.1.viewCosts budgetLeft with
  | none => exact .inl ⟨rfl, rfl⟩
  | some option =>
    dsimp only
    split
    · exact .inr (.inr ⟨_, rfl, List.mem_singleton.mpr rfl, hview⟩)
    · rename_i hworse
      cases best with
      | none => exact absurd rfl hworse
      | some pick => exact .inr (.inl ⟨rfl, rfl⟩)

theorem foldl_considerPick (entries : List (CompileCandidate F × ℕ)) (best : Option (Pick F)) :
    (entries.foldl (considerPick scoring maxEff sketches budgetLeft) best = none →
        best = none ∧ ∀ entry ∈ entries, bestAffordableView entry.1.viewCosts budgetLeft = none) ∧
      ∀ pick, entries.foldl (considerPick scoring maxEff sketches budgetLeft) best = some pick →
        best = some pick ∨ pick.From budgetLeft entries := by
  induction entries generalizing best with
  | nil => exact ⟨fun h => ⟨h, nofun⟩, fun _ h => .inl h⟩
  | cons entry entries ih =>
    rw [List.foldl_cons]
    obtain ⟨hnone, hsome⟩ := ih (considerPick scoring maxEff sketches budgetLeft best entry)
    have hlift : ∀ pick : Pick F, pick.From budgetLeft entries →
        pick.From budgetLeft (entry :: entries) :=
      fun pick h => ⟨List.mem_cons_of_mem _ h.1, h.2⟩
    rcases considerPick_cases scoring maxEff sketches budgetLeft best entry with
      ⟨hview, heq⟩ | ⟨hbest, heq⟩ | ⟨new, heq, hnew⟩
    · rw [heq] at hnone hsome ⊢
      refine ⟨fun h => ⟨(hnone h).1, ?_⟩, fun pick h => (hsome pick h).imp id (hlift pick)⟩
      exact List.forall_mem_cons.mpr ⟨hview, (hnone h).2⟩
    · rw [heq] at hnone hsome ⊢
      refine ⟨fun h => ?_, fun pick h => (hsome pick h).imp id (hlift pick)⟩
      rw [(hnone h).1] at hbest
      cases hbest
    · rw [heq] at hnone hsome ⊢
      refine ⟨fun h => absurd (hnone h).1 (by simp), fun pick h => .inr ?_⟩
      rcases hsome pick h with hpick | hpick
      · obtain rfl := Option.some.inj hpick
        exact ⟨List.mem_cons.mpr (.inl (List.mem_singleton.mp hnew.1)), hnew.2⟩
      · exact hlift pick hpick

theorem bestPick_eq_none {remaining : List (CompileCandidate F)}
    (h : bestPick scoring maxEff sketches budgetLeft remaining = none) :
    ∀ c ∈ remaining, NothingFits c.viewCosts budgetLeft := by
  intro c hc
  obtain ⟨i, hi⟩ := List.mem_iff_getElem?.mp hc
  have hentry : (c, i) ∈ remaining.zipIdx := List.mem_zipIdx_iff_getElem?.mpr hi
  exact nothingFits_iff.mpr (((foldl_considerPick _ _).1 h).2 (c, i) hentry)

theorem bestPick_eq_some {remaining : List (CompileCandidate F)} {pick : Pick F}
    (h : bestPick scoring maxEff sketches budgetLeft remaining = some pick) :
    remaining[pick.pos]? = some pick.candidate ∧
      bestAffordableView pick.candidate.viewCosts budgetLeft = some (pick.view, pick.tokens) := by
  rcases (foldl_considerPick _ _).2 pick h with hpick | ⟨hmem, hview⟩
  · cases hpick
  · exact ⟨List.mem_zipIdx_iff_getElem?.mp hmem, hview⟩

/-- What the rounds do: some candidates are selected, and when none is left over by the number of
rounds, nothing of the others fits in what is left. -/
structure Rounds (budget : ℕ) (cs remaining : List (CompileCandidate F)) (draft : Draft F)
    (result : Draft F × List (CompileCandidate F)) : Prop where
  drawn : ∃ picked, remaining.Perm (picked ++ result.2) ∧ Drawn budget (cs ++ picked) result.1
  exhausted : ∀ c ∈ result.2, NothingFits c.viewCosts (budget - result.1.tokensUsed)
  grows : draft.selected <+: result.1.selected
  excluded : result.1.excluded = draft.excluded

theorem selectGreedy_rounds {budget : ℕ} {cs : List (CompileCandidate F)} {draft : Draft F}
    {remaining : List (CompileCandidate F)} (rounds : ℕ) (hrounds : remaining.length ≤ rounds)
    (hstate : ∀ c ∈ remaining, c.state ≠ .excluded) (h : Drawn budget cs draft) :
    Rounds budget cs remaining draft
      (selectGreedy scoring budget maxEff rounds draft sketches remaining) := by
  induction rounds generalizing cs draft remaining sketches with
  | zero =>
    obtain rfl := List.length_eq_zero_iff.mp (Nat.le_zero.mp hrounds)
    exact ⟨⟨[], .refl _, by rwa [List.append_nil]⟩, nofun, List.prefix_rfl, rfl⟩
  | succ rounds ih =>
    have hstop : ∀ (_ : ∀ c ∈ remaining, NothingFits c.viewCosts (budget - draft.tokensUsed)),
        Rounds budget cs remaining draft (draft, remaining) := fun hnone =>
      ⟨⟨[], .refl _, by rwa [List.append_nil]⟩, hnone, List.prefix_rfl, rfl⟩
    rw [selectGreedy]
    split
    · rename_i hzero
      apply hstop
      intro c _ view tokens _ hpos
      omega
    · split
      · rename_i hpick
        exact hstop (bestPick_eq_none hpick)
      · rename_i pick hpick
        obtain ⟨hpos, hview⟩ := bestPick_eq_some hpick
        obtain ⟨hlt, hget⟩ := List.getElem?_eq_some_iff.mp hpos
        have hperm : remaining.Perm (pick.candidate :: remaining.eraseIdx pick.pos) := by
          rw [← hget]
          exact (List.getElem_cons_eraseIdx_perm hlt).symm
        have hdrawn := h.select hview (hstate _ (List.mem_of_getElem? hpos)) false
        have hlen : (remaining.eraseIdx pick.pos).length ≤ rounds := by
          have := List.length_eraseIdx_add_one hlt
          omega
        have hrest : ∀ c ∈ remaining.eraseIdx pick.pos, c.state ≠ .excluded :=
          fun c hc => hstate c (List.mem_of_mem_eraseIdx hc)
        have hnext : Rounds budget (cs ++ [pick.candidate]) _ _ (selectGreedy scoring budget maxEff
            rounds _ (sketches ++ [pick.candidate.sketch]) _) := ih hlen hrest hdrawn
        obtain ⟨⟨picked, hpicked, hfinal⟩, hexhausted, hgrows, hexcluded⟩ := hnext
        refine ⟨⟨pick.candidate :: picked, ?_, ?_⟩, hexhausted, ?_, hexcluded⟩
        · exact hperm.trans (hpicked.cons _)
        · rwa [List.append_assoc, List.singleton_append] at hfinal
        · exact (List.prefix_append _ _).trans hgrows

end

/-! ## The candidates that are left out -/

/-- Candidates that are not listed yet are listed once. -/
theorem foldl_sweepCandidate {cs : List (CompileCandidate F)}
    (hnodup : (cs.map CompileCandidate.id).Nodup) (excluded : List ExcludedItem) :
    cs.foldl sweepCandidate excluded = excluded ++
      (cs.filter fun c => c.id ∉ excluded.map ExcludedItem.id).map fun c =>
        c.exclude "excluded by overlay/policy" := by
  induction cs generalizing excluded with
  | nil => simp
  | cons c cs ih =>
    rw [List.map_cons, List.nodup_cons] at hnodup
    rw [List.foldl_cons, ih hnodup.2]
    by_cases hc : c.id ∈ excluded.map ExcludedItem.id
    · have hany : (excluded.any fun e => e.id = c.id) = true := by
        obtain ⟨e, he, hid⟩ := List.mem_map.mp hc
        exact List.any_eq_true.mpr ⟨e, he, decide_eq_true hid⟩
      rw [sweepCandidate, if_pos hany, List.filter_cons_of_neg (by simpa using hc)]
    · have hany : ¬ (excluded.any fun e => e.id = c.id) = true := by
        intro hany
        obtain ⟨e, he, hid⟩ := List.any_eq_true.mp hany
        exact hc (List.mem_map.mpr ⟨e, he, of_decide_eq_true hid⟩)
      rw [sweepCandidate, if_neg hany, List.filter_cons_of_pos (by simpa using hc), List.map_cons,
        List.append_assoc, List.singleton_append]
      congr 3
      apply List.filter_congr
      intro c' hc'
      have hne : c'.id ≠ c.id := fun heq => hnodup.1 (heq ▸ List.mem_map_of_mem hc')
      simp [hne, CompileCandidate.exclude]

/-- What holds of the draft before duplicates are dropped: the pinned pass comes first, the
candidates out of budget are in no place of it. -/
structure Chosen (remaining : ℕ) (candidates : List (CompileCandidate F)) (draft : Draft F) :
    Prop where
  drawn : Drawn remaining candidates draft
  pinned : (pinCandidates remaining (candidates.filter CompileCandidate.isPinned)).selected <+:
    draft.selected
  exhausted : ∀ e ∈ draft.excluded, e.reason = "budget exhausted" →
    ∃ c ∈ candidates, c.id = e.id ∧ NothingFits c.viewCosts (remaining - draft.tokensUsed)

theorem pinCandidate_reasons {remaining : ℕ} {draft : Draft F}
    (h : ∀ e ∈ draft.excluded, e.reason ≠ "budget exhausted") (c : CompileCandidate F) :
    ∀ e ∈ (pinCandidate remaining draft c).excluded, e.reason ≠ "budget exhausted" := by
  have hadd : ∀ reason : String, reason ≠ "budget exhausted" →
      ∀ e ∈ draft.excluded ++ [c.exclude reason], e.reason ≠ "budget exhausted" := by
    intro reason hreason e he
    rcases List.mem_append.mp he with hold | hnew
    · exact h e hold
    · rw [List.mem_singleton.mp hnew]
      exact hreason
  unfold pinCandidate
  split
  · exact hadd _ (by decide)
  · split
    · exact hadd _ (by decide)
    · exact h

theorem foldl_pinCandidate_reasons {remaining : ℕ} {draft : Draft F}
    (h : ∀ e ∈ draft.excluded, e.reason ≠ "budget exhausted")
    (pinned : List (CompileCandidate F)) :
    ∀ e ∈ (pinned.foldl (pinCandidate remaining) draft).excluded,
      e.reason ≠ "budget exhausted" := by
  induction pinned generalizing draft with
  | nil => exact h
  | cons c pinned ih => exact ih (pinCandidate_reasons h c)

theorem eq_of_id {candidates : List (CompileCandidate F)}
    (hnodup : (candidates.map CompileCandidate.id).Nodup) {c c' : CompileCandidate F}
    (hc : c ∈ candidates) (hc' : c' ∈ candidates) (hid : c.id = c'.id) : c = c' :=
  List.inj_on_of_nodup_map hnodup hc hc' hid

/-- The unpinned candidates in state `Excluded` are those that the pinned pass and the rounds have
not listed. -/
theorem swept_eq {candidates cs : List (CompileCandidate F)} {remaining : ℕ} {draft : Draft F}
    (hnodup : (candidates.map CompileCandidate.id).Nodup) (h : Drawn remaining cs draft)
    (hcs : ∀ c, c ∈ cs ↔ c ∈ candidates ∧ (c.isPinned = true ∨ c.state ≠ .excluded)) :
    ((candidates.filter fun c => c.state = .excluded).filter fun c =>
        c.id ∉ draft.excluded.map ExcludedItem.id) =
      (candidates.filter fun c => !c.isPinned).filter fun c => c.state = .excluded := by
  rw [List.filter_filter, List.filter_filter]
  apply List.filter_congr
  intro c hc
  by_cases hstate : c.state = .excluded
  · suffices hlisted : c.id ∈ draft.excluded.map ExcludedItem.id ↔ c.isPinned = true by
      cases hpinned : c.isPinned <;> simp [hstate, hlisted, hpinned]
    constructor
    · intro hmem
      have hid := h.ids.mem_iff.mp (List.mem_append_right _ hmem)
      obtain ⟨c', hc', hid⟩ := List.mem_map.mp hid
      obtain ⟨hmem', hwhich⟩ := (hcs c').mp hc'
      obtain rfl := eq_of_id hnodup hmem' hc hid
      exact hwhich.resolve_right fun hne => hne hstate
    · intro hpinned
      have hid := h.ids.mem_iff.mpr (List.mem_map_of_mem ((hcs c).mpr ⟨hc, .inl hpinned⟩))
      rcases List.mem_append.mp hid with hselected | hexcluded
      · obtain ⟨item, hitem, heq⟩ := List.mem_map.mp hselected
        obtain ⟨c', hc', hyields⟩ := h.declared item hitem
        obtain rfl := eq_of_id hnodup ((hcs c').mp hc').1 hc (hyields.id.symm.trans heq)
        exact absurd hstate hyields.state
      · exact hexcluded
  · simp [hstate]

theorem chosen (scoring : Scoring F) {candidates : List (CompileCandidate F)}
    (hnodup : (candidates.map CompileCandidate.id).Nodup) (remaining : ℕ) :
    Chosen remaining candidates (choose scoring candidates remaining) := by
  let pinned := candidates.filter CompileCandidate.isPinned
  let unpinned := candidates.filter fun c => !c.isPinned
  let pickable := unpinned.filter fun c => c.state ≠ .excluded
  let draft := pinCandidates remaining pinned
  let result := selectGreedy scoring remaining (maxEfficiency scoring unpinned) pickable.length draft
    (draft.selected.map fun s => sketchOf candidates s.id s.path) pickable
  have hrounds : Rounds remaining pinned pickable draft result :=
    selectGreedy_rounds pickable.length le_rfl (fun c hc => by simpa using (List.mem_filter.mp hc).2)
      (drawn_pinCandidates remaining pinned)
  obtain ⟨⟨picked, hperm, hdrawn⟩, hexhausted, hgrows, hexcluded⟩ := hrounds
  have hlisted := hdrawn.exclude result.2 "budget exhausted"
  have hall : (pinned ++ picked ++ result.2).Perm (pinned ++ pickable) := by
    rw [List.append_assoc]
    exact hperm.symm.append_left _
  have hcs : ∀ c, c ∈ pinned ++ picked ++ result.2 ↔
      c ∈ candidates ∧ (c.isPinned = true ∨ c.state ≠ .excluded) := by
    intro c
    rw [hall.mem_iff, List.mem_append, List.mem_filter, List.mem_filter, List.mem_filter]
    cases c.isPinned <;> simp
  have hswept := swept_eq hnodup hlisted hcs
  have hsweep := foldl_sweepCandidate
    (hnodup.sublist ((List.filter_sublist (p := fun c => decide (c.state = .excluded))).map _))
    (result.1.excluded ++ result.2.map fun c => c.exclude "budget exhausted")
  rw [hswept] at hsweep
  have hfinal := hlisted.exclude (unpinned.filter fun c => c.state = .excluded)
    "excluded by overlay/policy"
  have hsplit : (pinned ++ picked ++ result.2 ++ unpinned.filter fun c => c.state = .excluded).Perm
      candidates := by
    refine (hall.append_right _).trans ?_
    have hunpinned : (pickable ++ unpinned.filter fun c => c.state = .excluded).Perm unpinned := by
      have hnot : pickable = unpinned.filter fun c => !decide (c.state = .excluded) :=
        List.filter_congr fun c _ => by simp
      rw [hnot]
      exact List.perm_append_comm.trans (List.filter_append_perm _ _)
    rw [List.append_assoc]
    exact (hunpinned.append_left _).trans (List.filter_append_perm _ _)
  have hchoose : choose scoring candidates remaining = { result.1 with
      excluded := result.1.excluded ++ (result.2.map fun c => c.exclude "budget exhausted") ++
        (unpinned.filter fun c => c.state = .excluded).map fun c =>
          c.exclude "excluded by overlay/policy" } := by
    rw [← hsweep]
    rfl
  rw [hchoose]
  refine ⟨hfinal.perm hsplit, hgrows, ?_⟩
  intro e he hreason
  rcases List.mem_append.mp he with hfront | hlast
  · rcases List.mem_append.mp hfront with hfirst | hunpicked
    · rw [hexcluded] at hfirst
      exact absurd hreason (foldl_pinCandidate_reasons (fun _ h => absurd h List.not_mem_nil) pinned e hfirst)
    · obtain ⟨c, hc, rfl⟩ := List.mem_map.mp hunpicked
      exact ⟨c, ((hcs c).mp (List.mem_append_right _ hc)).1, rfl, hexhausted c hc⟩
  · obtain ⟨c, -, rfl⟩ := List.mem_map.mp hlast
    exact absurd hreason (by decide : ("excluded by overlay/policy" : String) ≠ "budget exhausted")

/-! ## Dropping duplicates -/

section

variable (scoring : Scoring F) (candidates : List (CompileCandidate F))

/-- The items so far are kept or listed. -/
structure Deduped (excluded : List ExcludedItem) (items : List (SelectedItem F)) (s : Dedup F) :
    Prop where
  ids : ((s.kept.map Prod.fst).map SelectedItem.id ++ s.excluded.map ExcludedItem.id).Perm
    (items.map SelectedItem.id ++ excluded.map ExcludedItem.id)
  tokens : ((s.kept.map Prod.fst).map SelectedItem.tokens).sum = s.tokens
  kept : (s.kept.map Prod.fst).Sublist items
  sketches : ∀ entry ∈ s.kept, entry.2 = sketchOf candidates entry.1.id entry.1.path
  reasons : ∀ e ∈ s.excluded, e.reason = "budget exhausted" → e ∈ excluded

theorem deduped_dedupItem {excluded : List ExcludedItem} {items : List (SelectedItem F)}
    {s : Dedup F} (h : Deduped candidates excluded items s) (item : SelectedItem F) :
    Deduped candidates excluded (items ++ [item]) (dedupItem scoring candidates s item) := by
  unfold dedupItem
  dsimp only
  have hswap : ([item.id] ++ excluded.map ExcludedItem.id).Perm
      (excluded.map ExcludedItem.id ++ [item.id]) := List.perm_append_comm
  have hitems : ((items ++ [item]).map SelectedItem.id ++ excluded.map ExcludedItem.id).Perm
      (items.map SelectedItem.id ++ excluded.map ExcludedItem.id ++ [item.id]) := by
    rw [List.map_append, List.append_assoc, List.append_assoc]
    exact hswap.append_left _
  split
  · refine ⟨?_, h.tokens, h.kept.trans (List.sublist_append_left _ _), h.sketches, ?_⟩
    · rw [List.map_append, ← List.append_assoc]
      exact (h.ids.append_right _).trans hitems.symm
    · intro e he hreason
      rcases List.mem_append.mp he with hold | hnew
      · exact h.reasons e hold hreason
      · rw [List.mem_singleton.mp hnew] at hreason
        exact absurd hreason (by decide : ("dedup: >70% content overlap with higher-Phi item" : String) ≠
          "budget exhausted")
  · refine ⟨?_, ?_, ?_, ?_, h.reasons⟩
    · refine .trans ?_ hitems.symm
      rw [List.map_append, List.map_append, List.append_assoc]
      refine .trans (List.Perm.append_left _ List.perm_append_comm) ?_
      rw [← List.append_assoc]
      exact h.ids.append_right _
    · rw [List.map_append, List.map_append, List.sum_append, h.tokens]
      rfl
    · rw [List.map_append]
      exact h.kept.append (.refl _)
    · intro entry hentry
      rcases List.mem_append.mp hentry with hold | hnew
      · exact h.sketches entry hold
      · rw [List.mem_singleton.mp hnew]

theorem deduped_foldl {excluded : List ExcludedItem} {front : List (SelectedItem F)} {s : Dedup F}
    (h : Deduped candidates excluded front s) (items : List (SelectedItem F)) :
    Deduped candidates excluded (front ++ items)
      (items.foldl (dedupItem scoring candidates) s) := by
  induction items generalizing front s with
  | nil => rwa [List.append_nil]
  | cons item items ih =>
    have hnext := ih (deduped_dedupItem scoring candidates h item)
    rwa [List.append_assoc, List.singleton_append] at hnext

theorem deduped (excluded : List ExcludedItem) (items : List (SelectedItem F)) :
    Deduped candidates excluded items
      (items.foldl (dedupItem scoring candidates) ⟨[], 0, excluded⟩) := by
  have hempty : Deduped candidates excluded [] (⟨[], 0, excluded⟩ : Dedup F) := by
    refine ⟨.refl _, rfl, .refl _, ?_, fun _ he _ => he⟩
    exact fun _ h => absurd h List.not_mem_nil
  exact deduped_foldl scoring candidates hempty items

theorem prefix_foldl_dedupItem (s : Dedup F) (items : List (SelectedItem F)) :
    s.kept <+: (items.foldl (dedupItem scoring candidates) s).kept := by
  induction items generalizing s with
  | nil => exact List.prefix_rfl
  | cons item items ih =>
    refine .trans ?_ (ih _)
    unfold dedupItem
    dsimp only
    split
    · exact List.prefix_rfl
    · exact List.prefix_append _ _

end

/-- The two halves of the order are the items. -/
theorem reorder_perm (scoring : Scoring F) (selected : List (SelectedItem F)) :
    (reorder scoring selected).Perm selected := by
  unfold reorder
  split
  · dsimp only
    refine .trans (List.Perm.append_left _ (List.reverse_perm _)) ?_
    rw [← List.map_append]
    have hparity : ∀ l : List (SelectedItem F × ℕ),
        (l.filter (fun entry => entry.2 % 2 ≠ 0)) =
          l.filter fun entry => !decide (entry.2 % 2 = 0) :=
      fun l => List.filter_congr fun entry _ => decide_not
    rw [hparity]
    refine ((List.filter_append_perm _ _).map _).trans ?_
    rw [List.zipIdx_map_fst]
    exact List.mergeSort_perm _ _
  · exact .refl _

/-! ## The whole selection -/

section

variable (scoring : Scoring F) (candidates : List (CompileCandidate F))

/-- The second candidate repeats the first, which scores at least as high. -/
def Repeats (c' c : CompileCandidate F) : Prop :=
  scoring.gt (scoring.jaccardSimilarity c'.sketch c.sketch) scoring.dedupThreshold = true ∧
    scoring.ge c'.phi c.phi = true

/-- What a selection promises. A pinned candidate is left out only when nothing of it fits in what
earlier pinned ones leave, or when it repeats one of them; a candidate out of budget has no view
that fits in what was left before duplicates were dropped. -/
structure Honest (remaining : ℕ) (s : CompileSelection F) : Prop where
  tokens : (s.selected.map SelectedItem.tokens).sum = s.budgetUsed
  fits : s.budgetUsed ≤ remaining
  declared : ∀ item ∈ s.selected, ∃ c ∈ candidates, c.Yields item
  partition : (s.selected.map SelectedItem.id ++ s.excludedReasons.map ExcludedItem.id).Perm
    (candidates.map CompileCandidate.id)
  pinned : ∀ front c back, candidates.filter CompileCandidate.isPinned = front ++ c :: back →
    c.state ≠ .excluded → c.id ∈ s.excludedReasons.map ExcludedItem.id →
      NothingFits c.viewCosts (remaining - (pinCandidates remaining front).tokensUsed) ∨
        ∃ c' ∈ front, (∃ item ∈ s.selected, c'.Yields item) ∧ Repeats scoring c' c
  exhausted : ∀ e ∈ s.excludedReasons, e.reason = "budget exhausted" → ∃ c ∈ candidates,
    c.id = e.id ∧
      NothingFits c.viewCosts (remaining - (choose scoring candidates remaining).tokensUsed)

variable {scoring candidates}

theorem sketchOf_eq (hnodup : (candidates.map CompileCandidate.id).Nodup) {c : CompileCandidate F}
    (hc : c ∈ candidates) {item : SelectedItem F} (hitem : c.Yields item) :
    sketchOf candidates item.id item.path = c.sketch := by
  unfold sketchOf CompileCandidate.sketch
  cases hfind : candidates.find? fun c' => c'.id = item.id with
  | none =>
    have hnone := List.find?_eq_none.mp hfind c hc
    simp [hitem.id] at hnone
  | some c' =>
    have hid : c'.id = item.id := by simpa using List.find?_some hfind
    obtain rfl := eq_of_id hnodup (List.mem_of_find?_eq_some hfind) hc (hid.trans hitem.id)
    rw [Option.bind_some, hitem.path]

/-- The item of a pinned candidate comes after the items of those before it. -/
theorem pinned_selected {remaining : ℕ} {draft : Draft F} {front back : List (CompileCandidate F)}
    {c : CompileCandidate F} {view : ViewKind} {tokens : ℕ}
    (hpass : (pinCandidates remaining (candidates.filter CompileCandidate.isPinned)).selected <+:
      draft.selected)
    (hsplit : candidates.filter CompileCandidate.isPinned = front ++ c :: back)
    (hstate : c.state ≠ .excluded)
    (hview : bestAffordableView c.viewCosts
      (remaining - (pinCandidates remaining front).tokensUsed) = some (view, tokens)) :
    ∃ later, draft.selected =
      (pinCandidates remaining front).selected ++ c.select view tokens true :: later := by
  have hgrows := prefix_foldl_pinCandidate remaining
    (pinCandidate remaining (pinCandidates remaining front) c) back
  rw [hsplit, pinCandidates, List.foldl_append, List.foldl_cons] at hpass
  obtain ⟨later, hlater⟩ := hgrows.trans hpass
  rw [pinCandidate, if_neg hstate, hview] at hlater
  exact ⟨later, by rw [← hlater, List.append_assoc, List.singleton_append]⟩

/-- An item that is left out repeats one before it that is kept. -/
theorem dominated_of_left_out (hnodup : (candidates.map CompileCandidate.id).Nodup) {remaining : ℕ}
    {draft : Draft F} (hdraft : Drawn remaining candidates draft) {front later : List (SelectedItem F)}
    {item : SelectedItem F} (hselected : draft.selected = front ++ item :: later)
    {c : CompileCandidate F} (hc : c ∈ candidates) (hitem : c.Yields item)
    (hleft : c.id ∈ (draft.selected.foldl (dedupItem scoring candidates)
      ⟨[], 0, draft.excluded⟩).excluded.map ExcludedItem.id) :
    ∃ existing ∈ front, existing ∈ (draft.selected.foldl (dedupItem scoring candidates)
        ⟨[], 0, draft.excluded⟩).kept.map Prod.fst ∧
      scoring.gt (scoring.jaccardSimilarity (sketchOf candidates existing.id existing.path) c.sketch)
        scoring.dedupThreshold = true ∧
      scoring.ge existing.phi c.phi = true := by
  have hall := deduped scoring candidates draft.excluded draft.selected
  have hbefore := deduped scoring candidates draft.excluded front
  have hkept := prefix_foldl_dedupItem scoring candidates
    (dedupItem scoring candidates (front.foldl (dedupItem scoring candidates)
      ⟨[], 0, draft.excluded⟩) item) later
  rw [← List.foldl_cons, ← List.foldl_append, ← hselected] at hkept
  cases hdominated : isDominated scoring (front.foldl (dedupItem scoring candidates)
      ⟨[], 0, draft.excluded⟩).kept item (sketchOf candidates item.id item.path) with
  | false =>
    -- then the item is kept, and its identifier would be listed twice
    rw [dedupItem, hdominated, if_neg Bool.false_ne_true] at hkept
    have hmem := hkept.subset (List.mem_append_right _ List.mem_cons_self)
    have hids := (hall.ids.trans hdraft.ids).nodup_iff.mpr hnodup
    have hdisjoint := (List.nodup_append.mp hids).2.2 c.id
      (List.mem_map.mpr ⟨item, List.mem_map.mpr ⟨_, hmem, rfl⟩, hitem.id⟩) c.id hleft
    exact absurd rfl hdisjoint
  | true =>
    obtain ⟨existing, hexisting, hrepeats⟩ := List.any_eq_true.mp hdominated
    rw [Bool.and_eq_true, Bool.and_eq_true] at hrepeats
    obtain ⟨⟨-, hsimilar⟩, hphi⟩ := hrepeats
    rw [dedupItem, hdominated, if_pos rfl] at hkept
    refine ⟨existing.1, hbefore.kept.mem (List.mem_map_of_mem hexisting),
      List.mem_map_of_mem (hkept.subset hexisting), ?_, ?_⟩
    · rwa [hbefore.sketches existing hexisting, sketchOf_eq hnodup hc hitem] at hsimilar
    · rwa [hitem.phi] at hphi

theorem honest (hnodup : (candidates.map CompileCandidate.id).Nodup) (budget : TokenBudget) :
    Honest scoring candidates budget.remaining (selectExplicit scoring candidates budget) := by
  have hchosen := chosen scoring hnodup budget.remaining
  have hdedup := deduped scoring candidates (choose scoring candidates budget.remaining).excluded
    (choose scoring candidates budget.remaining).selected
  have hperm := reorder_perm scoring (((choose scoring candidates budget.remaining).selected.foldl
    (dedupItem scoring candidates)
      ⟨[], 0, (choose scoring candidates budget.remaining).excluded⟩).kept.map Prod.fst)
  refine ⟨?_, ?_, ?_, ?_, ?_, ?_⟩
  · exact ((hperm.map _).sum_eq).trans hdedup.tokens
  · refine le_trans ?_ hchosen.drawn.fits
    rw [← hchosen.drawn.tokens]
    exact hdedup.tokens.symm.le.trans ((hdedup.kept.map _).sum_le_sum fun _ _ => Nat.zero_le _)
  · intro item hitem
    exact hchosen.drawn.declared item (hdedup.kept.mem (hperm.mem_iff.mp hitem))
  · exact ((hperm.map _).append_right _).trans (hdedup.ids.trans hchosen.drawn.ids)
  · intro front c back hsplit hstate hleft
    have hmem : ∀ c' ∈ front ++ c :: back, c' ∈ candidates := fun c' hc' =>
      (List.mem_filter.mp (hsplit ▸ hc')).1
    have hfront := drawn_pinCandidates budget.remaining front
    cases hview : bestAffordableView c.viewCosts
        (budget.remaining - (pinCandidates budget.remaining front).tokensUsed) with
    | none => exact .inl (nothingFits_iff.mpr hview)
    | some option =>
      obtain ⟨view, tokens⟩ := option
      obtain ⟨later, hselected⟩ := pinned_selected hchosen.pinned hsplit hstate hview
      have hyields : c.Yields (c.select view tokens true) := by
        obtain ⟨hdeclared, -, hpos⟩ := bestAffordableView_eq_some hview
        exact ⟨rfl, rfl, rfl, hstate, ⟨view, rfl, hdeclared⟩, hpos⟩
      obtain ⟨existing, hexisting, hkept, hsimilar, hphi⟩ := dominated_of_left_out hnodup hchosen.drawn
        hselected (hmem c (by simp)) hyields hleft
      obtain ⟨c', hc', hyields'⟩ := hfront.declared existing hexisting
      refine .inr ⟨c', hc', ⟨existing, hperm.mem_iff.mpr hkept, hyields'⟩, ?_, ?_⟩
      · rwa [sketchOf_eq hnodup (hmem c' (List.mem_append_left _ hc')) hyields'] at hsimilar
      · rwa [hyields'.phi] at hphi
  · intro e he hreason
    exact hchosen.exhausted e (hdedup.reasons e he hreason) hreason

end

/-! ## Freed budget -/

/-- Whole numbers as scores; equal sketches are alike. -/
def sampleScoring : Scoring ℕ where
  zero := 0
  minPositive := 1
  dedupThreshold := 7
  max := max
  div a b := a / b
  efficiency phi _ := phi
  mmrScore eff sim := eff - sim
  jaccardSimilarity a b := if a = b then 10 else 0
  gt a b := b < a
  ge a b := b ≤ a
  eq a b := a = b
  close a b := a = b
  nearlyFull used total := 9 * total < 10 * used

def sampleCandidate (id : String) (state : ContextState) (phi tokens : ℕ) (pinned : Bool)
    (sketch : String) : CompileCandidate ℕ :=
  ⟨id, id, state, phi, fun view => if view = .full then some tokens else none, tokens, pinned,
    some sketch⟩

/-- A pinned candidate that is excluded, two pinned ones with one content, and one more. -/
def sample : List (CompileCandidate ℕ) :=
  [sampleCandidate "x" .excluded 1 10 true "x", sampleCandidate "a" .candidate 2 60 true "s",
    sampleCandidate "b" .candidate 1 40 true "s", sampleCandidate "c" .candidate 1 40 false "t"]

theorem honest_sample : (sample.map CompileCandidate.id).Nodup ∧
    Honest sampleScoring sample 100 (selectExplicit sampleScoring sample ⟨100, 0⟩) :=
  ⟨by decide, honest (by decide) ⟨100, 0⟩⟩

/-- The last candidate is out of budget, but fits in what the result leaves; the excluded one fits
from the start and repeats nothing. -/
theorem freed_budget_unused :
    (∃ e ∈ (selectExplicit sampleScoring sample ⟨100, 0⟩).excludedReasons,
      e.reason = "budget exhausted" ∧ ∃ c ∈ sample, c.id = e.id ∧ ∃ view tokens,
        c.viewCosts view = some tokens ∧ 0 < tokens ∧
          tokens ≤ 100 - (selectExplicit sampleScoring sample ⟨100, 0⟩).budgetUsed) ∧
    ∃ c back, sample.filter CompileCandidate.isPinned = c :: back ∧
      c.id ∈ (selectExplicit sampleScoring sample ⟨100, 0⟩).excludedReasons.map ExcludedItem.id ∧
        ¬ NothingFits c.viewCosts 100 := by
  have hexcluded : (selectExplicit sampleScoring sample ⟨100, 0⟩).excludedReasons =
      [⟨"x", "x", "excluded by overlay"⟩, ⟨"c", "c", "budget exhausted"⟩,
        ⟨"b", "b", "dedup: >70% content overlap with higher-Phi item"⟩] := by
    rfl
  have hused : (selectExplicit sampleScoring sample ⟨100, 0⟩).budgetUsed = 60 := by rfl
  rw [hexcluded, hused]
  refine ⟨⟨⟨"c", "c", "budget exhausted"⟩, by simp, rfl, sampleCandidate "c" .candidate 1 40 false "t",
    by simp [sample], rfl, .full, 40, rfl, by decide, by decide⟩, ?_⟩
  refine ⟨sampleCandidate "x" .excluded 1 10 true "x", _, rfl, by simp [sampleCandidate], ?_⟩
  intro hnone
  exact absurd (hnone .full 10 rfl (by decide)) (by decide)

end LeanCtx.ContextCompiler
