import Mathlib.Algebra.Order.Ring.Nat
import Mathlib.Data.List.Nodup
import Mathlib.Logic.Function.Basic
import Mathlib.Logic.Relation
import Mathlib.Order.Antisymmetrization
import Mathlib.Tactic.Common

/-!
# Strongly connected components

The depth-first search with an explicit stack of frames, a node with the
number of its edges that were taken. A node is entered when its frame is first
looked at. `Numbered` is what holds of the numbers, the stack and the finished
components, `Searching` what holds of the frames: every node of the stack lies
above a frame that reaches it and that it reaches, and `lowlink` is a lower
bound for the edges that lead back below a frame.
-/

namespace LeanCtx.Tarjan

open Relation (ReflTransGen)

variable {V : Type}

/-! ## The search -/

/-- Stacks start at the top. -/
structure State (V : Type) where
  indices : V → Option ℕ := fun _ => none
  lowlink : V → ℕ := fun _ => 0
  onStack : V → Bool := fun _ => false
  tarjanStack : List V := []
  sccs : List (List V) := []
  counter : ℕ := 0
  callStack : List (V × ℕ) := []

section Search

variable [DecidableEq V]

/-- Pops down to `v`. There is no `v` to stop at in a stack without it. -/
def popComponent (v : V) : List V → Option (List V × List V)
  | [] => none
  | w :: rest =>
    if w = v then some ([w], rest)
    else (popComponent v rest).map fun (component, rest) => (w :: component, rest)

namespace State

/-- The frame of `v` is looked at for the first time. -/
def enter (s : State V) (v : V) : State V :=
  { s with
    indices := Function.update s.indices v (some s.counter)
    lowlink := Function.update s.lowlink v s.counter
    counter := s.counter + 1
    tarjanStack := v :: s.tarjanStack
    onStack := Function.update s.onStack v true }

/-- An edge of `v` leads to `w`. -/
def look (s : State V) (v w : V) : State V :=
  match s.indices w with
  | none => { s with callStack := (w, 0) :: s.callStack }
  | some i =>
    if s.onStack w then
      { s with lowlink := Function.update s.lowlink v (min (s.lowlink v) i) }
    else s

def close (s : State V) (v : V) : Option (State V) :=
  (popComponent v s.tarjanStack).map fun (component, rest) =>
    { s with
      tarjanStack := rest
      onStack := fun w => if w ∈ component then false else s.onStack w
      sccs := s.sccs ++ [component] }

/-- The frame of `v` goes; the frame below is told how far `v` led back. -/
def retreat (s : State V) (v : V) (below : List (V × ℕ)) : State V :=
  match below with
  | [] => { s with callStack := [] }
  | (parent, edge) :: rest =>
    { s with
      callStack := (parent, edge) :: rest
      lowlink := Function.update s.lowlink parent (min (s.lowlink parent) (s.lowlink v)) }

end State

variable (adj : V → List V)

/-- An edge is taken, or the frame is left. -/
def act (s : State V) (v : V) (edge : ℕ) (below : List (V × ℕ)) : Option (State V) :=
  match (adj v)[edge]? with
  | some w => some ({ s with callStack := (v, edge + 1) :: below }.look v w)
  | none =>
    if s.indices v = some (s.lowlink v) then (s.close v).map fun s => s.retreat v below
    else some (s.retreat v below)

/-- One round of the loop, with the frame `(v, edge)` on top. -/
def step (s : State V) (v : V) (edge : ℕ) (below : List (V × ℕ)) : Option (State V) :=
  act adj (if edge = 0 then s.enter v else s) v edge below

/-- The loop until there is no frame left. -/
def run : ℕ → State V → Option (State V)
  | 0, s => if s.callStack = [] then some s else none
  | fuel + 1, s =>
    match s.callStack with
    | [] => some s
    | (v, edge) :: below => (step adj s v edge below).bind (run fuel)

def visit (fuel : ℕ) (s : State V) (start : V) : Option (State V) :=
  if s.indices start ≠ none then some s
  else run adj fuel { s with callStack := [(start, 0)] }

def tarjanScc (fuel : ℕ) (nodes : List V) : Option (List (List V)) :=
  (nodes.foldlM (visit adj fuel) {}).map State.sccs

end Search

/-! ## The invariant -/

variable (adj : V → List V)

def Edge (v w : V) : Prop := w ∈ adj v

abbrev Reach : V → V → Prop := ReflTransGen (Edge adj)

/-- A class of mutual reachability, without repetition. -/
structure IsComponent (c : List V) : Prop where
  ne_nil : c ≠ []
  nodup : c.Nodup
  mem_iff : ∀ v ∈ c, ∀ w, w ∈ c ↔ AntisymmRel (Reach adj) v w

namespace State

def index (s : State V) (v : V) : ℕ := (s.indices v).getD 0

def Done (s : State V) (v : V) : Prop := ∃ c ∈ s.sccs, v ∈ c

/-- The nodes with a frame. -/
def gray (s : State V) : List V := s.callStack.map Prod.fst

end State

/-- The edge to `w` was taken: all edges of a node without a frame were. -/
def Explored (frames : List (V × ℕ)) (v w : V) : Prop :=
  w ∈ adj v ∧ ∀ f ∈ frames, f.1 = v → w ∈ (adj v).take f.2

/-- Of the gray nodes, `v` is the topmost at or below `y`. -/
def Last (index : V → ℕ) (gray : List V) (v y : V) : Prop :=
  index v ≤ index y ∧ ∀ g ∈ gray, index g ≤ index y → index g ≤ index v

structure Numbered (nodes : List V) (s : State V) : Prop where
  index_lt : ∀ v i, s.indices v = some i → i < s.counter
  index_inj : ∀ v w i, s.indices v = some i → s.indices w = some i → v = w
  within : ∀ v, s.indices v ≠ none → v ∈ nodes
  visited : ∀ v, s.indices v ≠ none ↔ v ∈ s.tarjanStack ∨ s.Done v
  onStack : ∀ v, s.onStack v = true ↔ v ∈ s.tarjanStack
  sorted : s.tarjanStack.Pairwise fun v w => s.index w < s.index v
  pending : ∀ v ∈ s.tarjanStack, ¬ s.Done v
  closed : ∀ v w, s.Done v → w ∈ adj v → s.Done w
  components : ∀ c ∈ s.sccs, IsComponent adj c
  disjoint : s.sccs.Pairwise List.Disjoint

structure Searching (s : State V) : Prop where
  frames : ∀ v ∈ s.gray, v ∈ s.tarjanStack
  ordered : s.gray.Pairwise fun v w => s.index w < s.index v
  down : ∀ v ∈ s.gray, ∀ y ∈ s.tarjanStack, s.index v ≤ s.index y → Reach adj v y
  up : ∀ y ∈ s.tarjanStack, ∃ v ∈ s.gray, s.index v ≤ s.index y ∧ Reach adj y v
  explored : ∀ y ∈ s.tarjanStack, ∀ w, Explored adj s.callStack y w → s.indices w ≠ none
  low : ∀ y ∈ s.tarjanStack, ∀ w ∈ s.tarjanStack, Explored adj s.callStack y w →
    ∀ v ∈ s.gray, Last s.index s.gray v y → s.lowlink v ≤ s.index w
  back : ∀ v ∈ s.gray, ∃ z ∈ s.tarjanStack, s.index z = s.lowlink v ∧ s.index z ≤ s.index v ∧
    Reach adj v z

variable {adj} {nodes : List V} {s : State V}

/-! ## Numbers -/

theorem State.index_eq {v : V} {i : ℕ} (h : s.indices v = some i) : s.index v = i := by
  rw [State.index, h, Option.getD_some]

namespace Numbered

theorem index_lt_counter (h : Numbered adj nodes s) {v : V} (hv : s.indices v ≠ none) :
    s.index v < s.counter := by
  obtain ⟨i, hi⟩ := Option.ne_none_iff_exists'.mp hv
  rw [State.index_eq hi]
  exact h.index_lt v i hi

theorem eq_of_index (h : Numbered adj nodes s) {v w : V} (hv : s.indices v ≠ none)
    (hw : s.indices w ≠ none) (heq : s.index v = s.index w) : v = w := by
  obtain ⟨i, hi⟩ := Option.ne_none_iff_exists'.mp hv
  obtain ⟨j, hj⟩ := Option.ne_none_iff_exists'.mp hw
  rw [State.index_eq hi, State.index_eq hj] at heq
  exact h.index_inj v w i hi (heq ▸ hj)

theorem visited_of_stack (h : Numbered adj nodes s) {v : V} (hv : v ∈ s.tarjanStack) :
    s.indices v ≠ none :=
  (h.visited v).mpr (.inl hv)

/-- Frames and low links do not matter. -/
theorem frames (h : Numbered adj nodes s) (frames : List (V × ℕ)) (lowlink : V → ℕ) :
    Numbered adj nodes { s with callStack := frames, lowlink := lowlink } :=
  ⟨h.index_lt, h.index_inj, h.within, h.visited, h.onStack, h.sorted, h.pending, h.closed,
    h.components, h.disjoint⟩

end Numbered

section Enter

variable [DecidableEq V]

@[simp] theorem State.indices_enter (w : V) :
    (s.enter w).indices = Function.update s.indices w (some s.counter) := rfl

theorem State.index_enter_self (w : V) : (s.enter w).index w = s.counter := by
  rw [index, indices_enter, Function.update_self, Option.getD_some]

theorem State.index_enter_of_ne {v w : V} (h : v ≠ w) : (s.enter w).index v = s.index v := by
  rw [index, indices_enter, Function.update_of_ne h, index]

theorem Numbered.enter (h : Numbered adj nodes s) {w : V} (hw : s.indices w = none)
    (hnode : w ∈ nodes) : Numbered adj nodes (s.enter w) := by
  have hold : ∀ v ∈ s.tarjanStack, v ≠ w := by
    rintro v hv rfl
    exact h.visited_of_stack hv hw
  have hopen : ¬ s.Done w := fun hdone => (h.visited w).mpr (.inr hdone) hw
  refine ⟨?_, ?_, ?_, ?_, ?_, ?_, ?_, h.closed, h.components, h.disjoint⟩
  · intro v i hi
    rw [State.indices_enter, Function.update_apply] at hi
    split_ifs at hi with heq
    · obtain rfl := Option.some.inj hi
      exact Nat.lt_succ_self _
    · exact Nat.lt_succ_of_lt (h.index_lt v i hi)
  · intro v v' i hi hi'
    rw [State.indices_enter, Function.update_apply] at hi hi'
    split_ifs at hi hi' with heq heq' heq'
    · rw [heq, heq']
    · obtain rfl := Option.some.inj hi
      exact absurd (h.index_lt v' _ hi') (Nat.lt_irrefl _)
    · obtain rfl := Option.some.inj hi'
      exact absurd (h.index_lt v _ hi) (Nat.lt_irrefl _)
    · exact h.index_inj v v' i hi hi'
  · intro v hv
    rw [State.indices_enter, Function.update_apply] at hv
    split_ifs at hv with heq
    · rwa [heq]
    · exact h.within v hv
  · intro v
    rw [State.indices_enter, Function.update_apply]
    split_ifs with heq
    · simp [State.enter, heq]
    · rw [h.visited v]
      simp [State.enter, State.Done, heq]
  · intro v
    dsimp only [State.enter]
    rw [Function.update_apply, List.mem_cons]
    split_ifs with heq
    · simp [heq]
    · rw [h.onStack v]
      simp [heq]
  · refine List.pairwise_cons.mpr ⟨fun v hv => ?_, ?_⟩
    · rw [State.index_enter_of_ne (hold v hv), State.index_enter_self]
      exact h.index_lt_counter (h.visited_of_stack hv)
    · refine h.sorted.imp_of_mem fun {v v'} hv hv' hlt => ?_
      rwa [State.index_enter_of_ne (hold v hv), State.index_enter_of_ne (hold v' hv')]
  · intro v hv
    rcases List.mem_cons.mp hv with rfl | hv
    · exact hopen
    · exact h.pending v hv

end Enter

/-! ## Edges -/

theorem explored_advance {v w y x : V} {edge : ℕ} {below : List (V × ℕ)}
    (hw : (adj v)[edge]? = some w) (h : Explored adj ((v, edge + 1) :: below) y x) :
    Explored adj ((v, edge) :: below) y x ∨ y = v ∧ x = w := by
  obtain ⟨hx, htaken⟩ := h
  by_cases heq : y = v
  · have hmem := htaken (v, edge + 1) List.mem_cons_self heq.symm
    rw [List.take_add_one, heq, hw, Option.toList_some, List.mem_append, List.mem_singleton] at hmem
    rcases hmem with hmem | hmem
    · refine .inl ⟨hx, fun f hf hfy => ?_⟩
      rcases List.mem_cons.mp hf with rfl | hf
      · rwa [heq]
      · exact htaken f (List.mem_cons_of_mem _ hf) hfy
    · exact .inr ⟨heq, hmem⟩
  · refine .inl ⟨hx, fun f hf hfy => ?_⟩
    rcases List.mem_cons.mp hf with rfl | hf
    · exact absurd hfy.symm heq
    · exact htaken f (List.mem_cons_of_mem _ hf) hfy

/-- When no edge is left, the frame says nothing any more. -/
theorem explored_of_none {v y x : V} {edge : ℕ} {below : List (V × ℕ)}
    (hnone : (adj v)[edge]? = none) (h : Explored adj below y x) :
    Explored adj ((v, edge) :: below) y x := by
  refine ⟨h.1, fun f hf hfy => ?_⟩
  rcases List.mem_cons.mp hf with rfl | hf
  · obtain rfl : v = y := hfy
    have hall : (adj v).take edge = adj v :=
      List.take_of_length_le (List.getElem?_eq_none_iff.mp hnone)
    exact hall.symm ▸ h.1
  · exact h.2 f hf hfy

/-! ## Frames -/

namespace Searching

theorem gray_visited (h : Searching adj s) (hnum : Numbered adj nodes s) {v : V}
    (hv : v ∈ s.gray) : s.indices v ≠ none :=
  hnum.visited_of_stack (h.frames v hv)

/-- The topmost gray node at or below a gray node is the node. -/
theorem eq_of_last (h : Searching adj s) (hnum : Numbered adj nodes s) {v u : V}
    (hv : v ∈ s.gray) (hu : u ∈ s.gray) (hlast : Last s.index s.gray u v) : u = v :=
  hnum.eq_of_index (h.gray_visited hnum hu) (h.gray_visited hnum hv)
    (Nat.le_antisymm hlast.1 (hlast.2 v hv le_rfl))

/-- An edge to a node that was entered before. -/
theorem advance (h : Searching adj s) (hnum : Numbered adj nodes s) {v w : V} {edge : ℕ}
    {below : List (V × ℕ)} {lowlink : V → ℕ} (hcalls : s.callStack = (v, edge) :: below)
    (hw : (adj v)[edge]? = some w) (hvisited : s.indices w ≠ none)
    (hle : ∀ x, lowlink x ≤ s.lowlink x) (hlow : w ∈ s.tarjanStack → lowlink v ≤ s.index w)
    (hback : ∀ x ∈ s.gray, ∃ z ∈ s.tarjanStack, s.index z = lowlink x ∧ s.index z ≤ s.index x ∧
      Reach adj x z) :
    Searching adj { s with callStack := (v, edge + 1) :: below, lowlink := lowlink } := by
  have hgray : ({ s with callStack := (v, edge + 1) :: below, lowlink := lowlink } : State V).gray =
      s.gray := by
    simp [State.gray, hcalls]
  have hexplored : ∀ y x, Explored adj ((v, edge + 1) :: below) y x →
      Explored adj s.callStack y x ∨ y = v ∧ x = w := by
    intro y x hx
    rw [hcalls]
    exact explored_advance hw hx
  refine ⟨?_, ?_, ?_, ?_, ?_, ?_, ?_⟩
  · rw [hgray]
    exact h.frames
  · rw [hgray]
    exact h.ordered
  · rw [hgray]
    exact h.down
  · rw [hgray]
    exact h.up
  · intro y hy x hx
    rcases hexplored y x hx with hx | ⟨-, rfl⟩
    · exact h.explored y hy x hx
    · exact hvisited
  · rw [hgray]
    intro y hy x hmem hx u hu hlast
    rcases hexplored y x hx with hx | ⟨rfl, rfl⟩
    · exact (hle u).trans (h.low y hy x hmem hx u hu hlast)
    · have hy : y ∈ s.gray := by simp [State.gray, hcalls]
      rw [h.eq_of_last hnum hy hu hlast]
      exact hlow hmem
  · rw [hgray]
    exact hback

end Searching

section Enter

variable [DecidableEq V]

/-- A node without a number comes on top. -/
theorem Searching.enter (h : Searching adj s) (hnum : Numbered adj nodes s) {w : V}
    {frames : List (V × ℕ)} (hw : s.indices w = none) (hsame : frames.map Prod.fst = s.gray)
    (hedge : ∀ y x, Explored adj frames y x → Explored adj s.callStack y x ∨ x = w)
    (hreach : ∀ v ∈ s.gray, Reach adj v w) :
    Searching adj (({ s with callStack := (w, 0) :: frames } : State V).enter w) := by
  have hold : ∀ v ∈ s.tarjanStack, v ≠ w := by
    rintro v hv rfl
    exact hnum.visited_of_stack hv hw
  set s' := ({ s with callStack := (w, 0) :: frames } : State V).enter w with hs'
  have hself : s'.index w = s.counter := State.index_enter_self w
  have hindex : ∀ v ∈ s.tarjanStack, s'.index v = s.index v := fun v hv =>
    State.index_enter_of_ne (hold v hv)
  have hbelow : ∀ v ∈ s.tarjanStack, s'.index v < s'.index w := by
    intro v hv
    rw [hindex v hv, hself]
    exact hnum.index_lt_counter (hnum.visited_of_stack hv)
  have hgray : s'.gray = w :: s.gray := by
    rw [← hsame]
    rfl
  have hlow : ∀ v, v ≠ w → s'.lowlink v = s.lowlink v := fun v hv => Function.update_of_ne hv _ _
  have hlowSelf : s'.lowlink w = s.counter := Function.update_self _ _ _
  have hfirst : ∀ y x, Explored adj ((w, 0) :: frames) y x → y ≠ w ∧
      (Explored adj s.callStack y x ∨ x = w) := by
    rintro y x ⟨hx, htaken⟩
    refine ⟨?_, hedge y x ⟨hx, fun f hf => htaken f (List.mem_cons_of_mem _ hf)⟩⟩
    rintro rfl
    exact absurd (htaken _ List.mem_cons_self rfl) List.not_mem_nil
  refine ⟨?_, ?_, ?_, ?_, ?_, ?_, ?_⟩
  · intro v hv
    rw [hgray] at hv
    rcases List.mem_cons.mp hv with rfl | hv
    · exact List.mem_cons_self
    · exact List.mem_cons_of_mem _ (h.frames v hv)
  · rw [hgray]
    refine List.pairwise_cons.mpr ⟨fun v hv => hbelow v (h.frames v hv), ?_⟩
    refine h.ordered.imp_of_mem fun {v v'} hv hv' hlt => ?_
    rwa [hindex v (h.frames v hv), hindex v' (h.frames v' hv')]
  · intro v hv y hy hle
    rw [hgray] at hv
    rcases List.mem_cons.mp hy with rfl | hy
    · rcases List.mem_cons.mp hv with rfl | hv
      · exact .refl
      · exact hreach v hv
    · rcases List.mem_cons.mp hv with rfl | hv
      · exact absurd (hbelow y hy) (Nat.not_lt.mpr hle)
      · rw [hindex v (h.frames v hv), hindex y hy] at hle
        exact h.down v hv y hy hle
  · intro y hy
    rw [hgray]
    rcases List.mem_cons.mp hy with rfl | hy
    · exact ⟨y, List.mem_cons_self, le_rfl, .refl⟩
    · obtain ⟨v, hv, hle, hup⟩ := h.up y hy
      refine ⟨v, List.mem_cons_of_mem _ hv, ?_, hup⟩
      rwa [hindex v (h.frames v hv), hindex y hy]
  · intro y hy x hx
    obtain ⟨hne, hx⟩ := hfirst y x hx
    have hy := (List.mem_cons.mp hy).resolve_left hne
    rw [hs', State.indices_enter, Function.update_apply]
    split_ifs with heq
    · exact Option.some_ne_none _
    · exact h.explored y hy x (hx.resolve_right heq)
  · intro y hy x hmem hx u hu hlast
    obtain ⟨hne, hx⟩ := hfirst y x hx
    have hy := (List.mem_cons.mp hy).resolve_left hne
    have hu' : u ≠ w := by
      rintro rfl
      exact absurd (hbelow y hy) (Nat.not_lt.mpr hlast.1)
    rw [hgray] at hu
    have hu := (List.mem_cons.mp hu).resolve_left hu'
    rw [hlow u hu']
    by_cases heq : x = w
    · obtain ⟨z, -, hz, hle, -⟩ := h.back u hu
      rw [heq, hself, ← hz]
      exact hle.trans (hnum.index_lt_counter (h.gray_visited hnum hu)).le
    · have hmem := (List.mem_cons.mp hmem).resolve_left heq
      rw [hindex x hmem]
      refine h.low y hy x hmem (hx.resolve_right heq) u hu ⟨?_, fun g hg hle => ?_⟩
      · rw [← hindex u (h.frames u hu), ← hindex y hy]
        exact hlast.1
      · rw [← hindex u (h.frames u hu), ← hindex g (h.frames g hg)]
        refine hlast.2 g (hgray ▸ List.mem_cons_of_mem _ hg) ?_
        rwa [hindex g (h.frames g hg), hindex y hy]
  · intro v hv
    rw [hgray] at hv
    rcases List.mem_cons.mp hv with rfl | hv
    · exact ⟨v, List.mem_cons_self, hself.trans hlowSelf.symm, le_rfl, .refl⟩
    · obtain ⟨z, hz, hzlow, hle, hback⟩ := h.back v hv
      refine ⟨z, List.mem_cons_of_mem _ hz, ?_, ?_, hback⟩
      · rw [hindex z hz, hlow v (hold v (h.frames v hv)), hzlow]
      · rwa [hindex z hz, hindex v (h.frames v hv)]

end Enter

end LeanCtx.Tarjan
