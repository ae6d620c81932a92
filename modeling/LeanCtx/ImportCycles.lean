import LeanCtx.TarjanComponents
import Mathlib.Data.List.Lex
import Mathlib.Data.String.Basic

/-!
# Import cycles

Files that import each other are the strongly connected components with at
least two files. Names are interned in the order in which the edges mention
them, so the components come in an order that depends on the edges; the two
sorts take that away again.
-/

namespace LeanCtx.ImportCycles

open Relation (ReflTransGen)
open Tarjan (tarjanScc IsComponent Reach Edge Components)

/-! ## Edges -/

structure EdgeInfo where
  «from» : String
  «to» : String
  kind : String
deriving DecidableEq

def depEdgeKinds : List String := ["import", "reexport"]

def isDependencyKind (kind : String) : Bool := depEdgeKinds.contains kind

def dependencyEdges (edges : List EdgeInfo) : List (String × String) :=
  ((edges.filter fun e => isDependencyKind e.kind).filter fun e => e.«from» ≠ e.«to»).map
    fun e => (e.«from», e.«to»)

/-! ## The search for cycles -/

@[ext]
structure ImportCycle where
  files : List String
  size : ℕ
deriving DecidableEq

def intern (names : List String) (s : String) : List String :=
  if s ∈ names then names else names ++ [s]

/-- The name of each node. Its index is its position. -/
def internNames (deps : List (String × String)) : List String :=
  deps.foldl (fun names (source, target) => intern (intern names source) target) []

def adjacency (names : List String) (deps : List (String × String)) : List (List ℕ) :=
  deps.foldl (fun adj (source, target) => adj.modify (names.idxOf source) (· ++ [names.idxOf target]))
    (names.map fun _ => [])

def neighbours (adj : List (List ℕ)) (v : ℕ) : List ℕ := adj[v]?.getD []

/-- There is no name for an index out of range. -/
def importCycle (names : List String) (component : List ℕ) : Option ImportCycle :=
  (component.mapM fun i => names[i]?).map fun files =>
    let files := files.mergeSort fun a b => a ≤ b
    ⟨files, files.length⟩

/-- Larger cycles first, then by their files. -/
def ImportCycle.notAfter (a b : ImportCycle) : Bool :=
  b.size < a.size ∨ a.size = b.size ∧ a.files ≤ b.files

def findImportCycles (fuel : ℕ) (edges : List EdgeInfo) (limit : ℕ) : Option (List ImportCycle) :=
  let deps := dependencyEdges edges
  if deps = [] then some []
  else do
    let names := internNames deps
    let adj := adjacency names deps
    let sccs ← tarjanScc (neighbours adj) fuel (List.range adj.length)
    let cycles ← (sccs.filter fun c => 2 ≤ c.length).mapM (importCycle names)
    return (cycles.mergeSort ImportCycle.notAfter).take limit

/-- Fuel with which the search of any node ends. -/
def fuelFor (edges : List EdgeInfo) : ℕ :=
  let deps := dependencyEdges edges
  let adj := adjacency (internNames deps) deps
  Tarjan.enoughFuel (neighbours adj) (List.range adj.length)

/-! ## What is looked for -/

/-- An import or a reexport of another file. -/
def Imports (edges : List EdgeInfo) (a b : String) : Prop :=
  a ≠ b ∧ ∃ e ∈ edges, (e.kind = "import" ∨ e.kind = "reexport") ∧ e.«from» = a ∧ e.«to» = b

/-- Each of the two files reaches the other. -/
def Mutual (edges : List EdgeInfo) : String → String → Prop :=
  AntisymmRel (ReflTransGen (Imports edges))

def ImportCycle.Before (a b : ImportCycle) : Prop :=
  b.size < a.size ∨ a.size = b.size ∧ a.files < b.files

/-- The classes of at least two files, each once, with sorted files, in order. -/
structure IsCycles (edges : List EdgeInfo) (cycles : List ImportCycle) : Prop where
  size : ∀ c ∈ cycles, c.size = c.files.length ∧ 2 ≤ c.files.length
  sorted : ∀ c ∈ cycles, c.files.Pairwise (· < ·)
  mem_iff : ∀ c ∈ cycles, ∀ a ∈ c.files, ∀ b, b ∈ c.files ↔ Mutual edges a b
  complete : ∀ a b, a ≠ b → Mutual edges a b → ∃ c ∈ cycles, a ∈ c.files
  ordered : cycles.Pairwise ImportCycle.Before

theorem isCycles_congr {edges edges' : List EdgeInfo} (h : ∀ e, e ∈ edges' ↔ e ∈ edges)
    {cycles : List ImportCycle} : IsCycles edges' cycles ↔ IsCycles edges cycles := by
  have himports : Imports edges' = Imports edges := by
    funext a b
    simp only [Imports, h]
  have hmutual : Mutual edges' = Mutual edges := by rw [Mutual, himports, Mutual]
  constructor
  · rintro ⟨hsize, hsorted, hmem, hcomplete, hordered⟩
    rw [hmutual] at hmem hcomplete
    exact ⟨hsize, hsorted, hmem, hcomplete, hordered⟩
  · rintro ⟨hsize, hsorted, hmem, hcomplete, hordered⟩
    rw [← hmutual] at hmem hcomplete
    exact ⟨hsize, hsorted, hmem, hcomplete, hordered⟩

theorem ImportCycle.Before.irrefl (a : ImportCycle) : ¬ a.Before a := by
  rintro (h | ⟨-, h⟩)
  · exact Nat.lt_irrefl _ h
  · exact lt_irrefl _ h

theorem ImportCycle.Before.asymm {a b : ImportCycle} (h : a.Before b) : ¬ b.Before a := by
  rintro (h' | ⟨hsize, h'⟩)
  · rcases h with h | ⟨hsize, -⟩
    · omega
    · omega
  · rcases h with h | ⟨-, h⟩
    · omega
    · exact lt_asymm h h'

/-- Sorted files are known by their members. -/
theorem files_eq {l m : List String} (hl : l.Pairwise (· < ·)) (hm : m.Pairwise (· < ·))
    (h : ∀ a, a ∈ l ↔ a ∈ m) : l = m := by
  have hperm : l.Perm m :=
    (List.perm_ext_iff_of_nodup (hl.imp fun h => h.ne) (hm.imp fun h => h.ne)).mpr h
  exact hperm.eq_of_pairwise (fun a b _ _ hab hba => absurd hba (lt_asymm hab)) hl hm

namespace IsCycles

variable {edges : List EdgeInfo} {cycles cycles' : List ImportCycle}

theorem subset (h : IsCycles edges cycles) (h' : IsCycles edges cycles') {c : ImportCycle}
    (hc : c ∈ cycles) : c ∈ cycles' := by
  obtain ⟨hsize, htwo⟩ := h.size c hc
  obtain ⟨a, b, rest, hfiles⟩ : ∃ a b rest, c.files = a :: b :: rest := by
    cases hlist : c.files with
    | nil => simp [hlist] at htwo
    | cons a more =>
      cases more with
      | nil => simp [hlist] at htwo
      | cons b rest => exact ⟨a, b, rest, rfl⟩
  have ha : a ∈ c.files := by simp [hfiles]
  have hb : b ∈ c.files := by simp [hfiles]
  have hne : a ≠ b := by
    have hsorted := h.sorted c hc
    rw [hfiles] at hsorted
    exact ((List.pairwise_cons.mp hsorted).1 b List.mem_cons_self).ne
  obtain ⟨c', hc', ha'⟩ := h'.complete a b hne ((h.mem_iff c hc a ha b).mp hb)
  have hsame : c.files = c'.files := by
    refine files_eq (h.sorted c hc) (h'.sorted c' hc') fun x => ?_
    rw [h.mem_iff c hc a ha x, h'.mem_iff c' hc' a ha' x]
  have hsize' : c.size = c'.size := by rw [hsize, (h'.size c' hc').1, hsame]
  rwa [ImportCycle.ext hsame hsize']

theorem unique (h : IsCycles edges cycles) (h' : IsCycles edges cycles') : cycles' = cycles := by
  have hnodup : ∀ {l : List ImportCycle}, l.Pairwise ImportCycle.Before → l.Nodup := by
    intro l hl
    refine hl.imp fun {a b} hab heq => ?_
    rw [heq] at hab
    exact ImportCycle.Before.irrefl b hab
  have hperm : cycles'.Perm cycles :=
    (List.perm_ext_iff_of_nodup (hnodup h'.ordered) (hnodup h.ordered)).mpr fun c =>
      ⟨h'.subset h, h.subset h'⟩
  exact hperm.eq_of_pairwise (fun a b _ _ hab hba => absurd hba hab.asymm) h'.ordered h.ordered

end IsCycles

/-! ## Interning -/

section Interning

variable {edges : List EdgeInfo} {deps : List (String × String)}

theorem mem_dependencyEdges {a b : String} :
    (a, b) ∈ dependencyEdges edges ↔ Imports edges a b := by
  have hkind : ∀ kind, isDependencyKind kind = true ↔ kind = "import" ∨ kind = "reexport" := by
    intro kind
    simp [isDependencyKind, depEdgeKinds]
  simp only [dependencyEdges, List.mem_map, List.mem_filter, hkind, decide_eq_true_eq,
    Prod.mk.injEq, Imports]
  constructor
  · rintro ⟨e, ⟨⟨he, hk⟩, hne⟩, rfl, rfl⟩
    exact ⟨hne, e, he, hk, rfl, rfl⟩
  · rintro ⟨hne, e, he, hk, rfl, rfl⟩
    exact ⟨e, ⟨⟨he, hk⟩, hne⟩, rfl, rfl⟩

theorem mem_intern {names : List String} {s x : String} : x ∈ intern names s ↔ x ∈ names ∨ x = s := by
  unfold intern
  split_ifs with h
  · exact ⟨.inl, fun hx => hx.elim id fun heq => heq ▸ h⟩
  · rw [List.mem_append, List.mem_singleton]

theorem nodup_intern {names : List String} (h : names.Nodup) (s : String) :
    (intern names s).Nodup := by
  unfold intern
  split_ifs with hs
  · exact h
  · rw [← List.concat_eq_append]
    exact h.concat hs

theorem nodup_internNames (deps : List (String × String)) : (internNames deps).Nodup := by
  have hfold : ∀ (deps : List (String × String)) (names : List String), names.Nodup →
      (deps.foldl (fun names (source, target) => intern (intern names source) target)
        names).Nodup := by
    intro deps
    induction deps with
    | nil => exact fun _ h => h
    | cons d rest ih => exact fun names h => ih _ (nodup_intern (nodup_intern h d.1) d.2)
  exact hfold deps [] List.nodup_nil

theorem mem_internNames {x : String} :
    x ∈ internNames deps ↔ ∃ d ∈ deps, x = d.1 ∨ x = d.2 := by
  have hfold : ∀ (deps : List (String × String)) (names : List String),
      x ∈ deps.foldl (fun names (source, target) => intern (intern names source) target) names ↔
        x ∈ names ∨ ∃ d ∈ deps, x = d.1 ∨ x = d.2 := by
    intro deps
    induction deps with
    | nil => simp
    | cons d rest ih =>
      intro names
      rw [List.foldl_cons, ih, mem_intern, mem_intern]
      simp only [List.mem_cons, exists_eq_or_imp, or_assoc]
  exact (hfold deps []).trans (by simp)

/-- The neighbours of a node are the targets of its edges. -/
theorem mem_neighbours {names : List String} (hdeps : ∀ d ∈ deps, d.1 ∈ names) {v w : ℕ} :
    w ∈ neighbours (adjacency names deps) v ↔
      ∃ d ∈ deps, names.idxOf d.1 = v ∧ names.idxOf d.2 = w := by
  have hfold : ∀ (deps : List (String × String)) (adj : List (List ℕ)),
      (∀ d ∈ deps, names.idxOf d.1 < adj.length) →
      (w ∈ neighbours (deps.foldl (fun adj (source, target) =>
        adj.modify (names.idxOf source) (· ++ [names.idxOf target])) adj) v ↔
        w ∈ neighbours adj v ∨ ∃ d ∈ deps, names.idxOf d.1 = v ∧ names.idxOf d.2 = w) := by
    intro deps
    induction deps with
    | nil => simp
    | cons d rest ih =>
      intro adj hlen
      have hd := hlen d List.mem_cons_self
      rw [List.foldl_cons, ih _ fun d' hd' => by
        rw [List.length_modify]
        exact hlen d' (List.mem_cons_of_mem _ hd')]
      simp only [List.mem_cons, exists_eq_or_imp, ← or_assoc]
      refine or_congr_left ?_
      rw [neighbours, neighbours, List.getElem?_modify]
      by_cases heq : names.idxOf d.1 = v
      · subst heq
        rw [List.getElem?_eq_getElem hd]
        simp [eq_comm]
      · simp [heq]
  have hempty : neighbours (names.map fun _ => []) v = [] := by
    rw [neighbours, List.getElem?_map]
    cases names[v]? with
    | none => rfl
    | some _ => rfl
  refine (hfold deps _ fun d hd => ?_).trans ?_
  · rw [List.length_map]
    exact List.idxOf_lt_length_of_mem (hdeps d hd)
  · rw [hempty]
    simp

theorem length_adjacency (names : List String) (deps : List (String × String)) :
    (adjacency names deps).length = names.length := by
  have hfold : ∀ (deps : List (String × String)) (adj : List (List ℕ)),
      (deps.foldl (fun adj (source, target) =>
        adj.modify (names.idxOf source) (· ++ [names.idxOf target])) adj).length = adj.length := by
    intro deps
    induction deps with
    | nil => exact fun _ => rfl
    | cons d rest ih =>
      intro adj
      rw [List.foldl_cons, ih, List.length_modify]
  rw [adjacency, hfold, List.length_map]

end Interning

/-! ## Nodes and files -/

section Nodes

variable {edges : List EdgeInfo}

def namesOf (edges : List EdgeInfo) : List String := internNames (dependencyEdges edges)

def graphOf (edges : List EdgeInfo) : ℕ → List ℕ :=
  neighbours (adjacency (namesOf edges) (dependencyEdges edges))

def nodesOf (edges : List EdgeInfo) : List ℕ := List.range (namesOf edges).length

theorem imports_mem {a b : String} (h : Imports edges a b) :
    a ∈ namesOf edges ∧ b ∈ namesOf edges := by
  have hdep := mem_dependencyEdges.mpr h
  exact ⟨mem_internNames.mpr ⟨_, hdep, .inl rfl⟩, mem_internNames.mpr ⟨_, hdep, .inr rfl⟩⟩

theorem mem_graphOf {v w : ℕ} : w ∈ graphOf edges v ↔ ∃ a b, Imports edges a b ∧
    (namesOf edges).idxOf a = v ∧ (namesOf edges).idxOf b = w := by
  refine (mem_neighbours fun d hd => ?_).trans ?_
  · exact mem_internNames.mpr ⟨d, hd, .inl rfl⟩
  · simp only [Prod.exists, mem_dependencyEdges]

theorem graphOf_closed : ∀ v ∈ nodesOf edges, ∀ w ∈ graphOf edges v, w ∈ nodesOf edges := by
  intro v _ w hw
  obtain ⟨a, b, h, -, rfl⟩ := mem_graphOf.mp hw
  exact List.mem_range.mpr (List.idxOf_lt_length_of_mem (imports_mem h).2)

theorem reach_iff {a b : String} (ha : a ∈ namesOf edges) (hb : b ∈ namesOf edges) :
    Reach (graphOf edges) ((namesOf edges).idxOf a) ((namesOf edges).idxOf b) ↔
      ReflTransGen (Imports edges) a b := by
  have hname : ∀ x ∈ namesOf edges, (namesOf edges)[(namesOf edges).idxOf x]?.getD "" = x := by
    intro x hx
    rw [List.getElem?_eq_getElem (List.idxOf_lt_length_of_mem hx), List.getElem_idxOf,
      Option.getD_some]
  constructor
  · intro h
    have hlift := ReflTransGen.lift (p := Imports edges)
      (fun i => (namesOf edges)[i]?.getD "") (fun v w hedge => ?_) _ _ h
    · dsimp only [Function.onFun] at hlift
      rwa [hname a ha, hname b hb] at hlift
    · obtain ⟨x, y, hxy, rfl, rfl⟩ := mem_graphOf.mp hedge
      dsimp only [Function.onFun]
      rwa [hname x (imports_mem hxy).1, hname y (imports_mem hxy).2]
  · intro h
    exact ReflTransGen.lift (p := Edge (graphOf edges)) (fun x => (namesOf edges).idxOf x)
      (fun x y hxy => mem_graphOf.mpr ⟨x, y, hxy, rfl, rfl⟩) _ _ h

theorem mutual_iff {a b : String} (ha : a ∈ namesOf edges) (hb : b ∈ namesOf edges) :
    AntisymmRel (Reach (graphOf edges)) ((namesOf edges).idxOf a) ((namesOf edges).idxOf b) ↔
      Mutual edges a b :=
  and_congr (reach_iff ha hb) (reach_iff hb ha)

/-- Only files with edges are in a class with others. -/
theorem Mutual.mem {a b : String} (h : Mutual edges a b) (hne : a ≠ b) :
    a ∈ namesOf edges ∧ b ∈ namesOf edges := by
  have hfirst : ∀ x y, x ≠ y → ReflTransGen (Imports edges) x y → x ∈ namesOf edges := by
    intro x y hxy hreach
    rcases hreach.cases_head with heq | ⟨z, hedge, -⟩
    · exact absurd heq hxy
    · exact (imports_mem hedge).1
  exact ⟨hfirst a b hne h.1, hfirst b a hne.symm h.2⟩

end Nodes

/-! ## Cycles -/

/-- The cycle of a component whose nodes have names. -/
def cycleOf (names : List String) (component : List ℕ) : ImportCycle :=
  let files := (component.filterMap fun i => names[i]?).mergeSort fun a b => a ≤ b
  ⟨files, files.length⟩

theorem mapM_eq_some_filterMap {α β : Type} {f : α → Option β} {l : List α}
    (h : ∀ a ∈ l, f a ≠ none) : l.mapM f = some (l.filterMap f) := by
  induction l with
  | nil => rfl
  | cons a rest ih =>
    obtain ⟨b, hb⟩ := Option.ne_none_iff_exists'.mp (h a List.mem_cons_self)
    rw [List.mapM_cons, hb, ih fun x hx => h x (List.mem_cons_of_mem _ hx),
      List.filterMap_cons_some hb]
    rfl

theorem importCycle_eq {names : List String} {component : List ℕ}
    (h : ∀ i ∈ component, i < names.length) :
    importCycle names component = some (cycleOf names component) := by
  have hnames : ∀ i ∈ component, names[i]? ≠ none := fun i hi => by
    rw [List.getElem?_eq_getElem (h i hi)]
    exact Option.some_ne_none _
  rw [importCycle, mapM_eq_some_filterMap hnames]
  rfl

theorem mem_cycleOf {names : List String} {component : List ℕ} {a : String}
    (hnodup : names.Nodup) :
    a ∈ (cycleOf names component).files ↔ a ∈ names ∧ names.idxOf a ∈ component := by
  simp only [cycleOf, List.mem_mergeSort, List.mem_filterMap]
  constructor
  · rintro ⟨i, hi, hname⟩
    obtain ⟨hlt, rfl⟩ := List.getElem?_eq_some_iff.mp hname
    refine ⟨List.getElem_mem hlt, ?_⟩
    rwa [hnodup.idxOf_getElem i hlt]
  · rintro ⟨ha, hmem⟩
    refine ⟨_, hmem, ?_⟩
    rw [List.getElem?_eq_getElem (List.idxOf_lt_length_of_mem ha), List.getElem_idxOf]

theorem length_cycleOf {names : List String} {component : List ℕ}
    (hcomponent : ∀ i ∈ component, i < names.length) :
    (cycleOf names component).files.length = component.length := by
  rw [cycleOf, List.length_mergeSort]
  induction component with
  | nil => rfl
  | cons i rest ih =>
    have hi := hcomponent i List.mem_cons_self
    rw [List.filterMap_cons_some (List.getElem?_eq_getElem hi), List.length_cons,
      ih fun j hj => hcomponent j (List.mem_cons_of_mem _ hj), List.length_cons]

theorem sorted_cycleOf {names : List String} {component : List ℕ} (hnodup : names.Nodup)
    (hcomponent : component.Nodup) : (cycleOf names component).files.Pairwise (· < ·) := by
  have hsorted : (cycleOf names component).files.Pairwise fun a b => decide (a ≤ b) = true := by
    refine List.pairwise_mergeSort (fun a b c hab hbc => ?_) (fun a b => ?_) _
    · exact decide_eq_true (le_trans (of_decide_eq_true hab) (of_decide_eq_true hbc))
    · simpa using le_total a b
  have hdistinct : (cycleOf names component).files.Nodup := by
    refine (List.mergeSort_perm _ _).nodup_iff.mpr ?_
    refine hcomponent.filterMap fun i j a hi hj => ?_
    obtain ⟨hlt, hname⟩ := List.getElem?_eq_some_iff.mp hi
    obtain ⟨hlt', hname'⟩ := List.getElem?_eq_some_iff.mp hj
    exact (hnodup.getElem_inj_iff).mp (hname.trans hname'.symm)
  exact List.Pairwise.imp₂ (fun a b hle hne => lt_of_le_of_ne (of_decide_eq_true hle) hne)
    hsorted hdistinct

theorem notAfter_trans {a b c : ImportCycle} (hab : a.notAfter b = true)
    (hbc : b.notAfter c = true) : a.notAfter c = true := by
  simp only [ImportCycle.notAfter, decide_eq_true_eq] at hab hbc ⊢
  rcases hab with hab | ⟨hab, hfiles⟩
  · rcases hbc with hbc | ⟨hbc, -⟩
    · exact .inl (hbc.trans hab)
    · exact .inl (hbc ▸ hab)
  · rcases hbc with hbc | ⟨hbc, hfiles'⟩
    · exact .inl (hab ▸ hbc)
    · exact .inr ⟨hab.trans hbc, hfiles.trans hfiles'⟩

theorem notAfter_total (a b : ImportCycle) : (a.notAfter b || b.notAfter a) = true := by
  simp only [ImportCycle.notAfter, Bool.or_eq_true, decide_eq_true_eq]
  rcases lt_trichotomy a.size b.size with h | h | h
  · exact .inr (.inl h)
  · rcases le_total a.files b.files with hfiles | hfiles
    · exact .inl (.inr ⟨h, hfiles⟩)
    · exact .inr (.inr ⟨h.symm, hfiles⟩)
  · exact .inl (.inl h)

theorem before_of_notAfter {a b : ImportCycle} (h : a.notAfter b = true) (hne : a ≠ b) :
    a.Before b := by
  simp only [ImportCycle.notAfter, decide_eq_true_eq] at h
  rcases h with h | ⟨heq, hfiles⟩
  · exact .inl h
  · refine .inr ⟨heq, lt_of_le_of_ne hfiles fun hsame => hne ?_⟩
    exact ImportCycle.ext hsame heq

theorem two_le_length {α : Type} {l : List α} {a b : α} (ha : a ∈ l) (hb : b ∈ l) (hne : a ≠ b) :
    2 ≤ l.length := by
  cases l with
  | nil => cases ha
  | cons x rest =>
    cases rest with
    | nil => exact absurd ((List.mem_singleton.mp ha).trans (List.mem_singleton.mp hb).symm) hne
    | cons y rest => exact Nat.le_add_left 2 rest.length

/-- Components without a common node make different cycles. -/
theorem nodup_cycles {names : List String} {sccs : List (List ℕ)} (hnodup : names.Nodup)
    (hlt : ∀ c ∈ sccs, ∀ i ∈ c, i < names.length) (hdisjoint : sccs.Pairwise List.Disjoint) :
    ((sccs.filter fun c => 2 ≤ c.length).map (cycleOf names)).Nodup := by
  refine List.pairwise_map.mpr ((hdisjoint.filter _).imp_of_mem ?_)
  intro c c' hc hc' hapart heq
  obtain ⟨hmem, htwo⟩ := List.mem_filter.mp hc
  obtain ⟨i, hi⟩ := List.exists_mem_of_length_pos
    (Nat.lt_of_lt_of_le Nat.two_pos (of_decide_eq_true htwo))
  have hlen := hlt c hmem i hi
  have hself : names.idxOf names[i] = i := hnodup.idxOf_getElem i hlen
  have hfile : names[i] ∈ (cycleOf names c).files :=
    (mem_cycleOf hnodup).mpr ⟨List.getElem_mem hlen, hself.symm ▸ hi⟩
  rw [heq] at hfile
  have hi' := ((mem_cycleOf hnodup).mp hfile).2
  rw [hself] at hi'
  exact hapart hi hi'

/-- What the search makes of the components, before the limit. -/
def sortedCycles (names : List String) (sccs : List (List ℕ)) : List ImportCycle :=
  ((sccs.filter fun c => 2 ≤ c.length).map (cycleOf names)).mergeSort ImportCycle.notAfter

theorem isCycles_sortedCycles {edges : List EdgeInfo} {sccs : List (List ℕ)}
    (h : Components (graphOf edges) (nodesOf edges) sccs) :
    IsCycles edges (sortedCycles (namesOf edges) sccs) := by
  have hnodup : (namesOf edges).Nodup := nodup_internNames _
  have hlt : ∀ c ∈ sccs, ∀ i ∈ c, i < (namesOf edges).length := fun c hc i hi =>
    List.mem_range.mp (h.within c hc i hi)
  have hmem : ∀ cycle, cycle ∈ sortedCycles (namesOf edges) sccs ↔
      ∃ c ∈ sccs, 2 ≤ c.length ∧ cycleOf (namesOf edges) c = cycle := by
    intro cycle
    simp only [sortedCycles, List.mem_mergeSort, List.mem_map, List.mem_filter, decide_eq_true_eq,
      and_assoc]
  refine ⟨?_, ?_, ?_, ?_, ?_⟩
  · intro cycle hcycle
    obtain ⟨c, hc, htwo, rfl⟩ := (hmem cycle).mp hcycle
    exact ⟨rfl, (length_cycleOf (hlt c hc)).symm ▸ htwo⟩
  · intro cycle hcycle
    obtain ⟨c, hc, -, rfl⟩ := (hmem cycle).mp hcycle
    exact sorted_cycleOf hnodup (h.components c hc).nodup
  · intro cycle hcycle a ha b
    obtain ⟨c, hc, -, rfl⟩ := (hmem cycle).mp hcycle
    obtain ⟨ha, hac⟩ := (mem_cycleOf hnodup).mp ha
    rw [mem_cycleOf hnodup, (h.components c hc).mem_iff _ hac]
    constructor
    · exact fun hb => (mutual_iff ha hb.1).mp hb.2
    · intro hab
      by_cases heq : a = b
      · subst heq
        exact ⟨ha, .refl _ _⟩
      · have hb := (hab.mem heq).2
        exact ⟨hb, (mutual_iff ha hb).mpr hab⟩
  · intro a b hne hab
    obtain ⟨ha, hb⟩ := hab.mem hne
    obtain ⟨c, hc, hac⟩ := h.covers _ (List.mem_range.mpr (List.idxOf_lt_length_of_mem ha))
    have hbc := ((h.components c hc).mem_iff _ hac _).mpr ((mutual_iff ha hb).mpr hab)
    have hdistinct : (namesOf edges).idxOf a ≠ (namesOf edges).idxOf b := fun heq =>
      hne ((List.idxOf_inj ha).mp heq)
    exact ⟨_, (hmem _).mpr ⟨c, hc, two_le_length hac hbc hdistinct, rfl⟩,
      (mem_cycleOf hnodup).mpr ⟨ha, hac⟩⟩
  · have hne : (sortedCycles (namesOf edges) sccs).Nodup :=
      (List.mergeSort_perm _ _).nodup_iff.mpr (nodup_cycles hnodup hlt h.disjoint)
    have hsorted : (sortedCycles (namesOf edges) sccs).Pairwise fun a b => a.notAfter b = true := by
      unfold sortedCycles
      exact @List.pairwise_mergeSort _ ImportCycle.notAfter (fun _ _ _ => notAfter_trans)
        notAfter_total _
    exact List.Pairwise.imp₂ (fun _ _ => before_of_notAfter) hsorted hne

/-- The search ends, and finds what the components of the graph come to. -/
theorem findImportCycles_isCycles (edges : List EdgeInfo) {fuel : ℕ} (hfuel : fuelFor edges ≤ fuel) :
    ∃ cycles, IsCycles edges cycles ∧
      ∀ limit, findImportCycles fuel edges limit = some (cycles.take limit) := by
  have hlen : (adjacency (namesOf edges) (dependencyEdges edges)).length =
      (namesOf edges).length := length_adjacency _ _
  obtain ⟨sccs, hsccs, hcomponents⟩ := @Tarjan.tarjanScc_components _ (graphOf edges)
    (nodesOf edges) _ graphOf_closed fuel (by
      rw [nodesOf, ← hlen]
      exact hfuel)
  have hlt : ∀ c ∈ sccs, ∀ i ∈ c, i < (namesOf edges).length := fun c hc i hi =>
    List.mem_range.mp (hcomponents.within c hc i hi)
  refine ⟨_, isCycles_sortedCycles hcomponents, fun limit => ?_⟩
  unfold findImportCycles
  dsimp only
  split_ifs with hdeps
  · -- Without edges there is no node, and no component.
    have hnone : sccs = [] := by
      refine List.eq_nil_iff_forall_not_mem.mpr fun c hc => ?_
      obtain ⟨i, hi⟩ := List.exists_mem_of_ne_nil c (hcomponents.components c hc).ne_nil
      have hi := hlt c hc i hi
      rw [namesOf, hdeps] at hi
      exact absurd hi (Nat.not_lt_zero i)
    rw [hnone]
    simp [sortedCycles]
  · have hcycles : (sccs.filter fun c => 2 ≤ c.length).mapM (importCycle (namesOf edges)) =
        some ((sccs.filter fun c => 2 ≤ c.length).map (cycleOf (namesOf edges))) := by
      have hnamed : ∀ c ∈ sccs.filter fun c => 2 ≤ c.length,
          importCycle (namesOf edges) c = some (cycleOf (namesOf edges) c) := fun c hc =>
        importCycle_eq (hlt c (List.mem_filter.mp hc).1)
      rw [mapM_eq_some_filterMap fun c hc => hnamed c hc ▸ Option.some_ne_none _,
        List.filterMap_eq_map_iff_forall_eq_some.mpr hnamed]
    change (tarjanScc (graphOf edges) fuel (List.range (adjacency (namesOf edges)
      (dependencyEdges edges)).length)).bind _ = _
    rw [hlen]
    change (tarjanScc (graphOf edges) fuel (nodesOf edges)).bind _ = _
    rw [hsccs, Option.bind_some]
    change (List.mapM (importCycle (namesOf edges)) _).bind _ = _
    rw [hcycles, Option.bind_some]
    rfl

/-- The import cycles are the classes of mutual reachability, for every list with the same edges. -/
theorem find_import_cycles (edges : List EdgeInfo) :
    ∃ cycles, IsCycles edges cycles ∧ (∀ cycles', IsCycles edges cycles' → cycles' = cycles) ∧
      ∀ edges', (∀ e, e ∈ edges' ↔ e ∈ edges) → ∀ limit ≥ cycles.length,
        ∀ fuel ≥ fuelFor edges', findImportCycles fuel edges' limit = some cycles := by
  obtain ⟨cycles, hcycles, -⟩ := findImportCycles_isCycles edges le_rfl
  refine ⟨cycles, hcycles, fun _ h => hcycles.unique h, fun edges' hsame limit hlimit fuel hfuel => ?_⟩
  obtain ⟨cycles', hcycles', hfound⟩ := findImportCycles_isCycles edges' hfuel
  rw [isCycles_congr hsame] at hcycles'
  obtain rfl := hcycles.unique hcycles'
  rw [hfound, List.take_of_length_le hlimit]

/-! ## Two files -/

def twoFiles : List EdgeInfo := [⟨"a.rs", "b.rs", "import"⟩, ⟨"b.rs", "a.rs", "reexport"⟩]

def aAndB : ImportCycle := ⟨["a.rs", "b.rs"], 2⟩

theorem imports_twoFiles {x y : String} : Imports twoFiles x y ↔
    x = "a.rs" ∧ y = "b.rs" ∨ x = "b.rs" ∧ y = "a.rs" := by
  constructor
  · rintro ⟨-, e, he, -, rfl, rfl⟩
    rcases List.mem_pair.mp he with rfl | rfl
    · exact .inl ⟨rfl, rfl⟩
    · exact .inr ⟨rfl, rfl⟩
  · rintro (⟨rfl, rfl⟩ | ⟨rfl, rfl⟩)
    · exact ⟨by decide, _, List.mem_cons_self, .inl rfl, rfl, rfl⟩
    · exact ⟨by decide, _, List.mem_cons_of_mem _ List.mem_cons_self, .inr rfl, rfl, rfl⟩

theorem isCycles_twoFiles : IsCycles twoFiles [aAndB] := by
  have hfirst : ∀ x y, x ≠ y → ReflTransGen (Imports twoFiles) x y → x ∈ aAndB.files := by
    intro x y hne hreach
    rcases hreach.cases_head with heq | ⟨z, hedge, -⟩
    · exact absurd heq hne
    · rcases imports_twoFiles.mp hedge with ⟨rfl, -⟩ | ⟨rfl, -⟩
      · decide
      · decide
  have hforth : Imports twoFiles "a.rs" "b.rs" := imports_twoFiles.mpr (.inl ⟨rfl, rfl⟩)
  have hback : Imports twoFiles "b.rs" "a.rs" := imports_twoFiles.mpr (.inr ⟨rfl, rfl⟩)
  have hmutual : Mutual twoFiles "a.rs" "b.rs" := ⟨.single hforth, .single hback⟩
  refine ⟨?_, ?_, ?_, ?_, List.pairwise_singleton _ _⟩
  · intro c hc
    rw [List.mem_singleton.mp hc]
    decide
  · intro c hc
    rw [List.mem_singleton.mp hc]
    exact List.pairwise_pair.mpr (by decide)
  · intro c hc x hx y
    rw [List.mem_singleton.mp hc] at hx ⊢
    constructor
    · intro hy
      rcases List.mem_pair.mp hx with rfl | rfl
      · rcases List.mem_pair.mp hy with rfl | rfl
        · exact .refl _ _
        · exact hmutual
      · rcases List.mem_pair.mp hy with rfl | rfl
        · exact hmutual.symm
        · exact .refl _ _
    · intro hxy
      by_cases heq : y = x
      · rwa [heq]
      · exact hfirst y x heq hxy.2
  · intro x y hne hxy
    exact ⟨aAndB, List.mem_cons_self, hfirst x y hne hxy.1⟩

/-- The edges in another order, one of them twice. -/
theorem find_import_cycles_twoFiles :
    findImportCycles (fuelFor (twoFiles.reverse ++ twoFiles.take 1))
      (twoFiles.reverse ++ twoFiles.take 1) 1 = some [aAndB] := by
  obtain ⟨cycles, -, hunique, hfound⟩ := find_import_cycles twoFiles
  obtain rfl := hunique _ isCycles_twoFiles
  refine hfound _ (fun e => ?_) 1 (by decide) _ le_rfl
  rw [List.mem_append, List.mem_reverse]
  exact ⟨fun h => h.elim id List.mem_of_mem_take, .inl⟩

end LeanCtx.ImportCycles
