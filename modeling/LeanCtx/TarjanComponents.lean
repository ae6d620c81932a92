import LeanCtx.Tarjan

/-!
# The components that the search finds

A node without edges left either leads back below itself and stays on the
stack, or is the root of a component: then everything above it reaches it and
is reached from it, and no edge leads from there to the rest of the stack.
Every round of the loop lowers a weight, so the loop ends; then every node was
closed in a component.
-/

namespace LeanCtx.Tarjan

open Relation (ReflTransGen)

variable {V : Type} {adj : V → List V} {nodes : List V} {s : State V}

/-! ## Leaving a node -/

variable {v : V} {edge : ℕ} {below : List (V × ℕ)}

namespace Searching

theorem gray_lt (h : Searching adj s) (hcalls : s.callStack = (v, edge) :: below) {u : V}
    (hu : u ∈ below.map Prod.fst) : s.index u < s.index v := by
  have hordered := h.ordered
  rw [State.gray, hcalls, List.map_cons] at hordered
  exact (List.pairwise_cons.mp hordered).1 u hu

theorem mem_gray_iff (hcalls : s.callStack = (v, edge) :: below) {u : V} :
    u ∈ s.gray ↔ u = v ∨ u ∈ below.map Prod.fst := by
  rw [State.gray, hcalls, List.map_cons, List.mem_cons]

/-- The node on top is the topmost below everything above it. -/
theorem last_top (h : Searching adj s) (hcalls : s.callStack = (v, edge) :: below) {y : V}
    (hle : s.index v ≤ s.index y) : Last s.index s.gray v y := by
  refine ⟨hle, fun g hg _ => ?_⟩
  rcases (mem_gray_iff hcalls).mp hg with rfl | hg
  · exact le_rfl
  · exact (h.gray_lt hcalls hg).le

/-- Below the top, the frame on top is not the topmost. -/
theorem last_of_below (hcalls : s.callStack = (v, edge) :: below) {u y : V}
    (hlt : s.index y < s.index v) (hlast : Last s.index (below.map Prod.fst) u y) :
    Last s.index s.gray u y := by
  refine ⟨hlast.1, fun g hg hle => ?_⟩
  rcases (mem_gray_iff hcalls).mp hg with rfl | hg
  · exact absurd hlt (Nat.not_lt.mpr hle)
  · exact hlast.2 g hg hle

end Searching

section Leave

variable [DecidableEq V]

theorem State.lowlink_retreat (s : State V) {parent : V} {e : ℕ} {rest : List (V × ℕ)}
    (h : below = (parent, e) :: rest) : (s.retreat v below).lowlink =
      Function.update s.lowlink parent (min (s.lowlink parent) (s.lowlink v)) := by
  subst h
  rfl

theorem State.retreat_eq (s : State V) (v : V) (below : List (V × ℕ)) :
    s.retreat v below = { s with
      callStack := below
      lowlink := (s.retreat v below).lowlink } := by
  cases below with
  | nil => rfl
  | cons f rest => rfl

theorem State.lowlink_retreat_le (s : State V) (v : V) (below : List (V × ℕ)) (u : V) :
    (s.retreat v below).lowlink u ≤ s.lowlink u := by
  cases below with
  | nil => exact le_rfl
  | cons f rest =>
    rw [s.lowlink_retreat rfl, Function.update_apply]
    split_ifs with heq
    · rw [heq]
      exact min_le_left _ _
    · exact le_rfl

namespace Searching

/-- A node that leads back below itself keeps its place on the stack. -/
theorem retreat (h : Searching adj s) (hnum : Numbered adj nodes s)
    (hcalls : s.callStack = (v, edge) :: below) (hnone : (adj v)[edge]? = none)
    (hroot : s.index v ≠ s.lowlink v) : Searching adj (s.retreat v below) := by
  have hv : v ∈ s.gray := (mem_gray_iff hcalls).mpr (.inl rfl)
  have hsub : ∀ u ∈ below.map Prod.fst, u ∈ s.gray := fun u hu =>
    (mem_gray_iff hcalls).mpr (.inr hu)
  obtain ⟨z, hz, hzlow, hzle, hvz⟩ := h.back v hv
  have hzlt : s.index z < s.index v := lt_of_le_of_ne hzle fun heq => hroot (heq ▸ hzlow)
  obtain ⟨low, hlow, hlowle, hzlow'⟩ := h.up z hz
  have hlowbelow : low ∈ below.map Prod.fst := by
    refine ((mem_gray_iff hcalls).mp hlow).resolve_left ?_
    rintro rfl
    exact absurd (hlowle.trans_lt hzlt) (Nat.lt_irrefl _)
  obtain ⟨⟨parent, e⟩, rest, hbelow⟩ : ∃ f rest, below = f :: rest := by
    cases below with
    | nil => exact absurd hlowbelow List.not_mem_nil
    | cons f rest => exact ⟨f, rest, rfl⟩
  have hparent : parent ∈ below.map Prod.fst := by simp [hbelow]
  have hlink := s.lowlink_retreat (v := v) hbelow
  have hle := s.lowlink_retreat_le v below
  have hexplored : ∀ y x, Explored adj below y x → Explored adj s.callStack y x := by
    intro y x hx
    rw [hcalls]
    exact explored_of_none hnone hx
  rw [s.retreat_eq v below]
  refine ⟨?_, ?_, ?_, ?_, ?_, ?_, ?_⟩
  · exact fun u hu => h.frames u (hsub u hu)
  · have hordered := h.ordered
    rw [State.gray, hcalls, List.map_cons] at hordered
    exact (List.pairwise_cons.mp hordered).2
  · exact fun u hu => h.down u (hsub u hu)
  · intro y hy
    obtain ⟨u, hu, hule, hyu⟩ := h.up y hy
    rcases (mem_gray_iff hcalls).mp hu with rfl | hu
    · exact ⟨low, hlowbelow, hlowle.trans (hzle.trans hule), (hyu.trans hvz).trans hzlow'⟩
    · exact ⟨u, hu, hule, hyu⟩
  · exact fun y hy x hx => h.explored y hy x (hexplored y x hx)
  · intro y hy x hmem hx u hu hlast
    have hx := hexplored y x hx
    rcases Nat.lt_or_ge (s.index y) (s.index v) with hlt | hge
    · exact (hle u).trans (h.low y hy x hmem hx u (hsub u hu) (last_of_below hcalls hlt hlast))
    · -- The topmost node at or below `y` is now the parent.
      have hup : s.index parent ≤ s.index u :=
        hlast.2 parent hparent ((h.gray_lt hcalls hparent).le.trans hge)
      have hup' : s.index u ≤ s.index parent := by
        have hordered := h.ordered
        rw [State.gray, hcalls, List.map_cons, hbelow, List.map_cons] at hordered
        change u ∈ below.map Prod.fst at hu
        rw [hbelow, List.map_cons] at hu
        rcases List.mem_cons.mp hu with rfl | hu
        · exact le_rfl
        · exact ((List.pairwise_cons.mp (List.pairwise_cons.mp hordered).2).1 u hu).le
      obtain rfl : u = parent := hnum.eq_of_index (h.gray_visited hnum (hsub u hu))
        (h.gray_visited hnum (hsub _ hparent)) (Nat.le_antisymm hup' hup)
      change (s.retreat v below).lowlink u ≤ s.index x
      rw [hlink, Function.update_self]
      exact (min_le_right _ _).trans (h.low y hy x hmem hx v hv (h.last_top hcalls hge))
  · intro u hu
    change ∃ z ∈ s.tarjanStack, s.index z = (s.retreat v below).lowlink u ∧ _
    obtain ⟨z', hz', hzlow'', hzle', huz⟩ := h.back u (hsub u hu)
    rw [hlink, Function.update_apply]
    split_ifs with heq
    · subst heq
      rcases Nat.le_total (s.lowlink u) (s.lowlink v) with hmin | hmin
      · rw [min_eq_left hmin]
        exact ⟨z', hz', hzlow'', hzle', huz⟩
      · rw [min_eq_right hmin]
        refine ⟨z, hz, hzlow, ?_, ?_⟩
        · change s.index z ≤ s.index u
          rw [hzlow]
          exact hmin.trans (hzlow'' ▸ hzle')
        · exact (h.down u (hsub u hu) v (h.frames v hv) (h.gray_lt hcalls hu).le).trans hvz
    · exact ⟨z', hz', hzlow'', hzle', huz⟩

end Searching

end Leave

/-! ## Closing a component -/

theorem popComponent_of_mem [DecidableEq V] {stack : List V} (h : v ∈ stack) :
    ∃ front rest, stack = front ++ v :: rest ∧
      popComponent v stack = some (front ++ [v], rest) := by
  induction stack with
  | nil => cases h
  | cons w rest ih =>
    rw [popComponent]
    split_ifs with heq
    · exact ⟨[], rest, by rw [heq, List.nil_append], by rw [heq, List.nil_append]⟩
    · obtain ⟨front, kept, hrest, hpop⟩ := ih ((List.mem_cons.mp h).resolve_left (Ne.symm heq))
      exact ⟨w :: front, kept, by rw [hrest, List.cons_append], by rw [hpop]; rfl⟩

/-- The state when `v` is left as the root of its component. -/
structure Root (adj : V → List V) (nodes : List V) (s : State V) (v : V) (edge : ℕ)
    (below : List (V × ℕ)) (component rest : List V) : Prop where
  numbered : Numbered adj nodes s
  searching : Searching adj s
  calls : s.callStack = (v, edge) :: below
  exhausted : (adj v)[edge]? = none
  root : s.index v = s.lowlink v
  split : s.tarjanStack = component ++ rest
  mem_component : ∀ y, y ∈ component ↔ y ∈ s.tarjanStack ∧ s.index v ≤ s.index y
  mem_rest : ∀ y, y ∈ rest ↔ y ∈ s.tarjanStack ∧ s.index y < s.index v

namespace Root

variable {component rest : List V}

theorem exists_pop [DecidableEq V] (hnum : Numbered adj nodes s) (h : Searching adj s)
    (hcalls : s.callStack = (v, edge) :: below) (hnone : (adj v)[edge]? = none)
    (hroot : s.index v = s.lowlink v) :
    ∃ component rest, popComponent v s.tarjanStack = some (component, rest) ∧
      Root adj nodes s v edge below component rest := by
  have hv : v ∈ s.tarjanStack := h.frames v ((Searching.mem_gray_iff hcalls).mpr (.inl rfl))
  obtain ⟨front, rest, hstack, hpop⟩ := popComponent_of_mem hv
  have hsorted := hnum.sorted
  rw [hstack] at hsorted
  obtain ⟨-, htail, hcross⟩ := List.pairwise_append.mp hsorted
  have hrest := (List.pairwise_cons.mp htail).1
  have hfront : ∀ y ∈ front, s.index v < s.index y := fun y hy =>
    hcross y hy v List.mem_cons_self
  refine ⟨front ++ [v], rest, hpop, hnum, h, hcalls, hnone, hroot, ?_, fun y => ?_, fun y => ?_⟩
  · rw [hstack, List.append_assoc, List.singleton_append]
  · rw [hstack, List.mem_append, List.mem_append, List.mem_singleton, List.mem_cons]
    constructor
    · rintro (hy | rfl)
      · exact ⟨.inl hy, (hfront y hy).le⟩
      · exact ⟨.inr (.inl rfl), le_rfl⟩
    · rintro ⟨hy | rfl | hy, hle⟩
      · exact .inl hy
      · exact .inr rfl
      · exact absurd (hrest y hy) (Nat.not_lt.mpr hle)
  · rw [hstack, List.mem_append, List.mem_cons]
    constructor
    · exact fun hy => ⟨.inr (.inr hy), hrest y hy⟩
    · rintro ⟨hy | rfl | hy, hlt⟩
      · exact absurd (hfront y hy) (Nat.not_lt.mpr hlt.le)
      · exact absurd hlt (Nat.lt_irrefl _)
      · exact hy

variable (h : Root adj nodes s v edge below component rest)

include h

theorem gray_self : v ∈ s.gray := (Searching.mem_gray_iff h.calls).mpr (.inl rfl)

theorem mem_self : v ∈ component :=
  (h.mem_component v).mpr ⟨h.searching.frames v h.gray_self, le_rfl⟩

/-- Whatever lies above `v` is reached from it and reaches it. -/
theorem reach {y : V} (hy : y ∈ component) : Reach adj v y ∧ Reach adj y v := by
  obtain ⟨hstack, hle⟩ := (h.mem_component y).mp hy
  refine ⟨h.searching.down v h.gray_self y hstack hle, ?_⟩
  obtain ⟨u, hu, -, hyu⟩ := h.searching.up y hstack
  refine hyu.trans (h.searching.down u hu v (h.searching.frames v h.gray_self) ?_)
  rcases (Searching.mem_gray_iff h.calls).mp hu with rfl | hu
  · exact le_rfl
  · exact (h.searching.gray_lt h.calls hu).le

/-- No edge leads from the component to what stays on the stack. -/
theorem edge_closed {y x : V} (hy : y ∈ component) (hx : x ∈ adj y) : x ∈ component ∨ s.Done x := by
  obtain ⟨hstack, hle⟩ := (h.mem_component y).mp hy
  have hexplored : Explored adj s.callStack y x := by
    rw [h.calls]
    refine explored_of_none h.exhausted ⟨hx, fun f hf hfy => ?_⟩
    have hlt := h.searching.gray_lt h.calls (List.mem_map_of_mem hf)
    rw [hfy] at hlt
    exact absurd hlt (Nat.not_lt.mpr hle)
  rcases (h.numbered.visited x).mp (h.searching.explored y hstack x hexplored) with hx | hx
  · refine .inl ((h.mem_component x).mpr ⟨hx, ?_⟩)
    rw [h.root]
    exact h.searching.low y hstack x hx hexplored v h.gray_self (h.searching.last_top h.calls hle)
  · exact .inr hx

theorem reach_closed {y w : V} (hy : y ∈ component ∨ s.Done y) (hreach : Reach adj y w) :
    w ∈ component ∨ s.Done w := by
  induction hreach with
  | refl => exact hy
  | tail _ hedge ih =>
    rcases ih with hmid | hmid
    · exact h.edge_closed hmid hedge
    · exact .inr (h.numbered.closed _ _ hmid hedge)

theorem done_closed {y w : V} (hy : s.Done y) (hreach : Reach adj y w) : s.Done w := by
  induction hreach with
  | refl => exact hy
  | tail _ hedge ih => exact h.numbered.closed _ _ ih hedge

theorem isComponent : IsComponent adj component where
  ne_nil := List.ne_nil_of_mem h.mem_self
  nodup := by
    have hsorted := h.numbered.sorted
    rw [h.split] at hsorted
    refine (List.pairwise_append.mp hsorted).1.imp fun {a b} hlt heq => ?_
    rw [heq] at hlt
    exact Nat.lt_irrefl _ hlt
  mem_iff y hy w := by
    constructor
    · exact fun hw => ⟨(h.reach hy).2.trans (h.reach hw).1, (h.reach hw).2.trans (h.reach hy).1⟩
    · rintro ⟨hyw, hwy⟩
      refine (h.reach_closed (.inl hy) hyw).resolve_right fun hdone => ?_
      exact h.numbered.pending y ((h.mem_component y).mp hy).1 (h.done_closed hdone hwy)

end Root

section Close

variable [DecidableEq V] {component rest : List V}

/-- The state without the component. -/
def State.closed (s : State V) (component rest : List V) : State V :=
  { s with
    tarjanStack := rest
    onStack := fun w => if w ∈ component then false else s.onStack w
    sccs := s.sccs ++ [component] }

theorem State.done_closed {u : V} : (s.closed component rest).Done u ↔ s.Done u ∨ u ∈ component := by
  simp [Done, closed, or_and_right, exists_or]

theorem Numbered.close (h : Root adj nodes s v edge below component rest) :
    Numbered adj nodes (s.closed component rest) := by
  have hnum := h.numbered
  have hstack : ∀ y, y ∈ s.tarjanStack ↔ y ∈ component ∨ y ∈ rest := fun y => by
    rw [h.split, List.mem_append]
  have hapart : ∀ y ∈ component, y ∉ rest := fun y hy hy' =>
    absurd ((h.mem_rest y).mp hy').2 (Nat.not_lt.mpr ((h.mem_component y).mp hy).2)
  refine ⟨hnum.index_lt, hnum.index_inj, hnum.within, ?_, ?_, ?_, ?_, ?_, ?_, ?_⟩
  · intro y
    rw [State.done_closed]
    refine (hnum.visited y).trans ?_
    rw [hstack y]
    exact ⟨fun hy => hy.elim (fun hy => hy.elim (fun hc => .inr (.inr hc)) .inl)
        fun hd => .inr (.inl hd),
      fun hy => hy.elim (fun hr => .inl (.inr hr)) fun hy => hy.elim .inr fun hc => .inl (.inl hc)⟩
  · intro y
    dsimp only [State.closed]
    split_ifs with hy
    · simpa using hapart y hy
    · rw [hnum.onStack y, hstack y]
      exact ⟨fun hmem => hmem.resolve_left hy, .inr⟩
  · have hsorted := hnum.sorted
    rw [h.split] at hsorted
    exact (List.pairwise_append.mp hsorted).2.1
  · intro y hy hdone
    rcases State.done_closed.mp hdone with hdone | hmem
    · exact hnum.pending y ((h.mem_rest y).mp hy).1 hdone
    · exact hapart y hmem hy
  · intro y w hy hw
    rw [State.done_closed] at hy ⊢
    rcases hy with hy | hy
    · exact .inl (hnum.closed y w hy hw)
    · exact (h.edge_closed hy hw).symm
  · intro c hc
    rcases List.mem_append.mp hc with hc | hc
    · exact hnum.components c hc
    · rw [List.mem_singleton.mp hc]
      exact h.isComponent
  · refine List.pairwise_append.mpr ⟨hnum.disjoint, List.pairwise_singleton _ _, ?_⟩
    intro c hc c' hc' y hy hy'
    rw [List.mem_singleton.mp hc'] at hy'
    exact hnum.pending y ((h.mem_component y).mp hy').1 ⟨c, hc, hy⟩

theorem Searching.close (h : Root adj nodes s v edge below component rest) :
    Searching adj ((s.closed component rest).retreat v below) := by
  have hs := h.searching
  have hcalls := h.calls
  have hsub : ∀ u ∈ below.map Prod.fst, u ∈ s.gray := fun u hu =>
    (mem_gray_iff hcalls).mpr (.inr hu)
  have hexplored : ∀ y x, Explored adj below y x → Explored adj s.callStack y x := by
    intro y x hx
    rw [hcalls]
    exact explored_of_none h.exhausted hx
  have hlink : ∀ u, ((s.closed component rest).retreat v below).lowlink u ≤ s.lowlink u :=
    State.lowlink_retreat_le _ v below
  -- The root led back to itself at most, which is above its parent.
  have hsame : ∀ u ∈ below.map Prod.fst,
      ((s.closed component rest).retreat v below).lowlink u = s.lowlink u := by
    intro u hu
    obtain ⟨z, -, hz, hzle, -⟩ := hs.back u (hsub u hu)
    have hlow : s.lowlink u ≤ s.lowlink v := by
      rw [← hz, ← h.root]
      exact hzle.trans (hs.gray_lt hcalls hu).le
    cases below with
    | nil => cases hu
    | cons f rest' =>
      rw [State.lowlink_retreat _ rfl, Function.update_apply]
      split_ifs with heq
      · subst heq
        exact min_eq_left hlow
      · rfl
  rw [State.retreat_eq]
  refine ⟨?_, ?_, ?_, ?_, ?_, ?_, ?_⟩
  · exact fun u hu => (h.mem_rest u).mpr ⟨hs.frames u (hsub u hu), hs.gray_lt hcalls hu⟩
  · have hordered := hs.ordered
    rw [State.gray, hcalls, List.map_cons] at hordered
    exact (List.pairwise_cons.mp hordered).2
  · exact fun u hu y hy => hs.down u (hsub u hu) y ((h.mem_rest y).mp hy).1
  · intro y hy
    obtain ⟨hstack, hlt⟩ := (h.mem_rest y).mp hy
    obtain ⟨u, hu, hule, hyu⟩ := hs.up y hstack
    rcases (mem_gray_iff hcalls).mp hu with rfl | hu
    · exact absurd hlt (Nat.not_lt.mpr hule)
    · exact ⟨u, hu, hule, hyu⟩
  · exact fun y hy x hx => hs.explored y ((h.mem_rest y).mp hy).1 x (hexplored y x hx)
  · intro y hy x hmem hx u hu hlast
    obtain ⟨hstack, hlt⟩ := (h.mem_rest y).mp hy
    exact (hlink u).trans (hs.low y hstack x ((h.mem_rest x).mp hmem).1 (hexplored y x hx) u
      (hsub u hu) (last_of_below hcalls hlt hlast))
  · intro u hu
    obtain ⟨z, hz, hzlow, hzle, huz⟩ := hs.back u (hsub u hu)
    refine ⟨z, (h.mem_rest z).mpr ⟨hz, hzle.trans_lt (hs.gray_lt hcalls hu)⟩, ?_, hzle, huz⟩
    exact hzlow.trans (hsame u hu).symm

end Close

/-! ## Rounds -/

/-- Some edge of every frame was taken. -/
def Taken (frames : List (V × ℕ)) : Prop := ∀ f ∈ frames, f.2 ≠ 0

theorem taken_cons (htaken : Taken below) : Taken ((v, edge + 1) :: below) := by
  intro f hf
  rcases List.mem_cons.mp hf with rfl | hf
  · exact Nat.succ_ne_zero _
  · exact htaken f hf

/-- The frame of `w` was pushed for an edge of the frame below. -/
structure Fresh (adj : V → List V) (nodes : List V) (s : State V) (w : V)
    (frames : List (V × ℕ)) : Prop where
  unvisited : s.indices w = none
  node : w ∈ nodes
  pushed : ∃ before, Searching adj { s with callStack := before } ∧
    frames.map Prod.fst = before.map Prod.fst ∧
    (∀ y x, Explored adj frames y x → Explored adj before y x ∨ x = w) ∧
    ∀ v ∈ before.map Prod.fst, Reach adj v w

/-- The state at the head of the loop. -/
inductive AtHead (adj : V → List V) (nodes : List V) (s : State V) : Prop
  | finished (hcalls : s.callStack = []) (h : Searching adj s)
  | taken (v : V) (edge : ℕ) (below : List (V × ℕ)) (hcalls : s.callStack = (v, edge) :: below)
      (htaken : Taken s.callStack) (h : Searching adj s)
  | fresh (w : V) (frames : List (V × ℕ)) (hcalls : s.callStack = (w, 0) :: frames)
      (htaken : Taken frames) (h : Fresh adj nodes s w frames)

theorem Searching.atHead (h : Searching adj s) (htaken : Taken s.callStack) :
    AtHead adj nodes s := by
  cases hcalls : s.callStack with
  | nil => exact .finished hcalls h
  | cons f below => exact .taken f.1 f.2 below hcalls htaken h

/-- What a frame may still do. -/
def frameWeight (adj : V → List V) (f : V × ℕ) : ℕ :=
  if f.2 = 0 then 1 else 2 * ((adj f.1).length - f.2) + 1

def framesWeight (adj : V → List V) (frames : List (V × ℕ)) : ℕ :=
  (frames.map (frameWeight adj)).sum

/-- What a round comes to once the node on top is entered. -/
structure Round (adj : V → List V) (nodes : List V) (s : State V) (v : V) (edge : ℕ)
    (below : List (V × ℕ)) (s' : State V) : Prop where
  numbered : Numbered adj nodes s'
  atHead : AtHead adj nodes s'
  indices : s'.indices = s.indices
  weight : framesWeight adj s'.callStack ≤
    2 * ((adj v).length - edge) + framesWeight adj below

theorem round_push {w : V} (hnum : Numbered adj nodes s) (h : Searching adj s)
    (hcalls : s.callStack = (v, edge) :: below) (htaken : Taken below)
    (hnodes : ∀ v ∈ nodes, ∀ w ∈ adj v, w ∈ nodes) (hedge : (adj v)[edge]? = some w)
    (hw : s.indices w = none) :
    Round adj nodes s v edge below { s with callStack := (w, 0) :: (v, edge + 1) :: below } := by
  have hlt : edge < (adj v).length := (List.getElem?_eq_some_iff.mp hedge).1
  have hmem : w ∈ adj v := List.mem_of_getElem? hedge
  have hv : v ∈ s.gray := (Searching.mem_gray_iff hcalls).mpr (.inl rfl)
  refine ⟨hnum.frames _ _, .fresh w _ rfl (taken_cons htaken) ⟨hw, ?_, s.callStack, h, ?_, ?_, ?_⟩,
    rfl, ?_⟩
  · exact hnodes v (hnum.within v (h.gray_visited hnum hv)) w hmem
  · rw [hcalls, List.map_cons, List.map_cons]
  · intro y x hx
    rw [hcalls]
    exact (explored_advance hedge hx).imp_right And.right
  · intro u hu
    have hle : s.index u ≤ s.index v := by
      rcases (Searching.mem_gray_iff hcalls).mp hu with rfl | hu
      · exact le_rfl
      · exact (h.gray_lt hcalls hu).le
    exact (h.down u hu v (h.frames v hv) hle).tail hmem
  · simp only [framesWeight, List.map_cons, List.sum_cons, frameWeight, if_pos,
      if_neg (Nat.succ_ne_zero edge)]
    omega

theorem round_advance {w : V} {lowlink : V → ℕ} (hnum : Numbered adj nodes s)
    (h : Searching adj s) (hcalls : s.callStack = (v, edge) :: below) (htaken : Taken below)
    (hedge : (adj v)[edge]? = some w) (hvisited : s.indices w ≠ none)
    (hle : ∀ x, lowlink x ≤ s.lowlink x) (hlow : w ∈ s.tarjanStack → lowlink v ≤ s.index w)
    (hback : ∀ x ∈ s.gray, ∃ z ∈ s.tarjanStack, s.index z = lowlink x ∧ s.index z ≤ s.index x ∧
      Reach adj x z) :
    Round adj nodes s v edge below
      { s with callStack := (v, edge + 1) :: below, lowlink := lowlink } := by
  have hlt : edge < (adj v).length := (List.getElem?_eq_some_iff.mp hedge).1
  have hstep := h.advance hnum hcalls hedge hvisited hle hlow hback
  refine ⟨hnum.frames _ _, hstep.atHead (taken_cons htaken), rfl, ?_⟩
  simp only [framesWeight, List.map_cons, List.sum_cons, frameWeight,
    if_neg (Nat.succ_ne_zero edge)]
  omega

section Rounds

variable [DecidableEq V]

/-- An edge to a node of the stack may lead further back than all before. -/
theorem back_min {w : V} {i : ℕ} (h : Searching adj s) (hmem : w ∈ adj v)
    (hstack : w ∈ s.tarjanStack) (hw : s.index w = i) : ∀ x ∈ s.gray, ∃ z ∈ s.tarjanStack,
      s.index z = Function.update s.lowlink v (min (s.lowlink v) i) x ∧ s.index z ≤ s.index x ∧
        Reach adj x z := by
  intro x hx
  obtain ⟨z, hz, hzlow, hzle, hxz⟩ := h.back x hx
  rw [Function.update_apply]
  split_ifs with heq
  · subst heq
    rcases Nat.le_total (s.lowlink x) i with hmin | hmin
    · rw [min_eq_left hmin]
      exact ⟨z, hz, hzlow, hzle, hxz⟩
    · rw [min_eq_right hmin]
      refine ⟨w, hstack, hw, ?_, .single hmem⟩
      rw [hw]
      exact hmin.trans (hzlow ▸ hzle)
  · exact ⟨z, hz, hzlow, hzle, hxz⟩

theorem round_look {w : V} (hnum : Numbered adj nodes s) (h : Searching adj s)
    (hcalls : s.callStack = (v, edge) :: below) (htaken : Taken below)
    (hnodes : ∀ v ∈ nodes, ∀ w ∈ adj v, w ∈ nodes) (hedge : (adj v)[edge]? = some w) :
    Round adj nodes s v edge below
      (({ s with callStack := (v, edge + 1) :: below } : State V).look v w) := by
  cases hw : s.indices w with
  | none =>
    have hpush := round_push hnum h hcalls htaken hnodes hedge hw
    simpa only [State.look, hw] using hpush
  | some i =>
    have hvisited : s.indices w ≠ none := hw ▸ Option.some_ne_none i
    simp only [State.look, hw]
    split_ifs with hon
    · have hstack := (hnum.onStack w).mp hon
      refine round_advance hnum h hcalls htaken hedge hvisited (fun x => ?_) (fun _ => ?_)
        (back_min h (List.mem_of_getElem? hedge) hstack (State.index_eq hw))
      · rw [Function.update_apply]
        split_ifs with heq
        · rw [heq]
          exact min_le_left _ _
        · exact le_rfl
      · rw [Function.update_self, State.index_eq hw]
        exact min_le_right _ _
    · have hstack : w ∉ s.tarjanStack := fun hmem => hon ((hnum.onStack w).mpr hmem)
      exact round_advance hnum h hcalls htaken hedge hvisited (fun _ => le_rfl)
        (fun hmem => absurd hmem hstack) h.back

theorem round_leave {t : State V} (htaken : Taken below) (hindices : t.indices = s.indices)
    (hnum : Numbered adj nodes t) (h : Searching adj (t.retreat v below)) :
    Round adj nodes s v edge below (t.retreat v below) := by
  refine ⟨?_, h.atHead ?_, ?_, ?_⟩
  · rw [State.retreat_eq]
    exact hnum.frames _ _
  · rw [State.retreat_eq]
    exact htaken
  · rw [State.retreat_eq]
    exact hindices
  · rw [State.retreat_eq]
    exact Nat.le_add_left _ _

theorem exists_round (hnum : Numbered adj nodes s) (h : Searching adj s)
    (hcalls : s.callStack = (v, edge) :: below) (htaken : Taken below)
    (hnodes : ∀ v ∈ nodes, ∀ w ∈ adj v, w ∈ nodes) :
    ∃ s', act adj s v edge below = some s' ∧ Round adj nodes s v edge below s' := by
  have hv : v ∈ s.gray := (Searching.mem_gray_iff hcalls).mpr (.inl rfl)
  unfold act
  cases hedge : (adj v)[edge]? with
  | some w => exact ⟨_, rfl, round_look hnum h hcalls htaken hnodes hedge⟩
  | none =>
    obtain ⟨i, hi⟩ := Option.ne_none_iff_exists'.mp (h.gray_visited hnum hv)
    dsimp only
    split_ifs with hroot
    · obtain ⟨component, rest, hpop, hclose⟩ :=
        Root.exists_pop hnum h hcalls hedge (State.index_eq hroot)
      have hclosed : s.close v = some (s.closed component rest) := by
        rw [State.close, hpop]
        rfl
      rw [hclosed, Option.map_some]
      exact ⟨_, rfl, round_leave htaken rfl (Numbered.close hclose) (Searching.close hclose)⟩
    · have hindex : s.index v ≠ s.lowlink v := by
        intro heq
        rw [State.index_eq hi] at heq
        exact hroot (heq ▸ hi)
      exact ⟨_, rfl, round_leave htaken rfl hnum (h.retreat hnum hcalls hedge hindex)⟩

end Rounds

/-! ## Runs -/

theorem sum_filter_add_le {α : Type} {p q : α → Bool} {f : α → ℕ} {l : List α} {w : α}
    (hsub : ∀ u, q u = true → p u = true) (hmem : w ∈ l) (hp : p w = true) (hq : q w = false) :
    ((l.filter q).map f).sum + f w ≤ ((l.filter p).map f).sum := by
  have hle : ∀ l : List α, ((l.filter q).map f).sum ≤ ((l.filter p).map f).sum := by
    intro l
    induction l with
    | nil => exact le_rfl
    | cons a rest ih =>
      by_cases hqa : q a = true
      · rw [List.filter_cons_of_pos hqa, List.filter_cons_of_pos (hsub a hqa)]
        simp only [List.map_cons, List.sum_cons]
        omega
      · rw [List.filter_cons_of_neg hqa]
        by_cases hpa : p a = true
        · rw [List.filter_cons_of_pos hpa, List.map_cons, List.sum_cons]
          omega
        · rwa [List.filter_cons_of_neg hpa]
  induction l with
  | nil => cases hmem
  | cons a rest ih =>
    by_cases heq : a = w
    · subst heq
      rw [List.filter_cons_of_pos hp, List.filter_cons_of_neg (by simp [hq]), List.map_cons,
        List.sum_cons]
      have := hle rest
      omega
    · have hrest := ih ((List.mem_cons.mp hmem).resolve_left (Ne.symm heq))
      by_cases hqa : q a = true
      · rw [List.filter_cons_of_pos hqa, List.filter_cons_of_pos (hsub a hqa)]
        simp only [List.map_cons, List.sum_cons]
        omega
      · rw [List.filter_cons_of_neg hqa]
        by_cases hpa : p a = true
        · rw [List.filter_cons_of_pos hpa, List.map_cons, List.sum_cons]
          omega
        · rwa [List.filter_cons_of_neg hpa]

def nodeWeight (adj : V → List V) (v : V) : ℕ := 2 * (adj v).length + 3

/-- What the nodes without a number may still do. -/
def unvisitedWeight (adj : V → List V) (nodes : List V) (s : State V) : ℕ :=
  ((nodes.filter fun u => (s.indices u).isNone).map (nodeWeight adj)).sum

def weight (adj : V → List V) (nodes : List V) (s : State V) : ℕ :=
  unvisitedWeight adj nodes s + framesWeight adj s.callStack

theorem unvisitedWeight_le (adj : V → List V) (nodes : List V) (s : State V) :
    unvisitedWeight adj nodes s ≤ (nodes.map (nodeWeight adj)).sum := by
  unfold unvisitedWeight
  induction nodes with
  | nil => exact le_rfl
  | cons v rest ih =>
    rw [List.filter_cons]
    split
    · simp only [List.map_cons, List.sum_cons]
      omega
    · rw [List.map_cons, List.sum_cons]
      omega

theorem AtHead.stack_nil (h : AtHead adj nodes s) (hcalls : s.callStack = []) :
    s.tarjanStack = [] := by
  cases h with
  | finished _ h =>
    refine List.eq_nil_iff_forall_not_mem.mpr fun y hy => ?_
    obtain ⟨u, hu, -⟩ := h.up y hy
    rw [State.gray, hcalls] at hu
    cases hu
  | taken v e below hcalls' _ _ =>
    rw [hcalls] at hcalls'
    cases hcalls'
  | fresh w frames hcalls' _ _ =>
    rw [hcalls] at hcalls'
    cases hcalls'

section Runs

variable [DecidableEq V]

theorem unvisitedWeight_enter (hw : s.indices v = none) (hnode : v ∈ nodes) :
    unvisitedWeight adj nodes (s.enter v) + nodeWeight adj v ≤ unvisitedWeight adj nodes s := by
  refine sum_filter_add_le (fun u hu => ?_) hnode (by rw [hw]; rfl) ?_
  · rw [State.indices_enter, Function.update_apply] at hu
    split_ifs at hu with heq
    · cases hu
    · exact hu
  · rw [State.indices_enter, Function.update_self]
    rfl

/-- A round goes on, numbers the node on top and has less to do. -/
theorem exists_step (hnum : Numbered adj nodes s) (hhead : AtHead adj nodes s)
    (hcalls : s.callStack = (v, edge) :: below)
    (hnodes : ∀ v ∈ nodes, ∀ w ∈ adj v, w ∈ nodes) :
    ∃ s', step adj s v edge below = some s' ∧ Numbered adj nodes s' ∧ AtHead adj nodes s' ∧
      (∀ u, s.indices u ≠ none ∨ u = v → s'.indices u ≠ none) ∧
      weight adj nodes s' < weight adj nodes s := by
  cases hhead with
  | finished hnil h =>
    rw [hnil] at hcalls
    cases hcalls
  | taken v' e below' hcalls' htaken h =>
    have hedge : edge ≠ 0 := htaken (v, edge) (hcalls ▸ List.mem_cons_self)
    have hbelow : Taken below := fun f hf => htaken f (hcalls ▸ List.mem_cons_of_mem _ hf)
    obtain ⟨s', hact, hround⟩ := exists_round hnum h hcalls hbelow hnodes
    refine ⟨s', by rw [step, if_neg hedge, hact], hround.numbered, hround.atHead, ?_, ?_⟩
    · rintro u (hu | rfl)
      · rwa [hround.indices]
      · rw [hround.indices]
        exact h.gray_visited hnum ((Searching.mem_gray_iff hcalls).mpr (.inl rfl))
    · have hsame : unvisitedWeight adj nodes s' = unvisitedWeight adj nodes s := by
        rw [unvisitedWeight, hround.indices, unvisitedWeight]
      have hweight := hround.weight
      rw [weight, weight, hsame, hcalls]
      simp only [framesWeight, List.map_cons, List.sum_cons, frameWeight, if_neg hedge] at hweight ⊢
      omega
  | fresh w frames hcalls' htaken h =>
    obtain ⟨hpair, rfl⟩ := List.cons.inj (hcalls.symm.trans hcalls')
    obtain ⟨rfl, rfl⟩ := Prod.mk.inj hpair
    obtain ⟨before, hsearch, hsame, hedge, hreach⟩ := h.pushed
    have hnum' : Numbered adj nodes (s.enter v) := hnum.enter h.unvisited h.node
    have hstart : ({ s with callStack := (v, 0) :: below } : State V) = s := by
      rw [← hcalls]
    have hentered : Searching adj (s.enter v) := by
      have hsearch' := hsearch.enter (hnum.frames before s.lowlink) h.unvisited hsame hedge hreach
      rwa [hstart] at hsearch'
    obtain ⟨s', hact, hround⟩ := exists_round hnum' hentered hcalls htaken hnodes
    refine ⟨s', by rw [step, if_pos rfl, hact], hround.numbered, hround.atHead, ?_, ?_⟩
    · intro u hu
      rw [hround.indices, State.indices_enter, Function.update_apply]
      split_ifs with heq
      · exact Option.some_ne_none _
      · exact hu.resolve_right heq
    · have hless : unvisitedWeight adj nodes (s.enter v) + nodeWeight adj v ≤
          unvisitedWeight adj nodes s := unvisitedWeight_enter h.unvisited h.node
      have hsame' : unvisitedWeight adj nodes s' = unvisitedWeight adj nodes (s.enter v) := by
        rw [unvisitedWeight, hround.indices, unvisitedWeight]
      have hweight := hround.weight
      rw [weight, weight, hsame', hcalls]
      simp only [framesWeight, List.map_cons, List.sum_cons, frameWeight, if_pos, nodeWeight]
        at hweight hless ⊢
      omega

/-- Between two runs nothing is left open. -/
structure Idle (adj : V → List V) (nodes : List V) (s : State V) : Prop where
  numbered : Numbered adj nodes s
  stack : s.tarjanStack = []

/-- With enough fuel the loop comes to its end. -/
theorem exists_run (hnodes : ∀ v ∈ nodes, ∀ w ∈ adj v, w ∈ nodes) {fuel : ℕ} {s : State V}
    (hnum : Numbered adj nodes s) (hhead : AtHead adj nodes s)
    (hfuel : weight adj nodes s ≤ fuel) :
    ∃ s', run adj fuel s = some s' ∧ Idle adj nodes s' ∧
      ∀ u, (s.indices u ≠ none ∨ s.callStack.head?.map Prod.fst = some u) →
        s'.indices u ≠ none := by
  induction fuel generalizing s with
  | zero =>
    cases hcalls : s.callStack with
    | nil =>
      refine ⟨s, by rw [run, if_pos hcalls], ⟨hnum, hhead.stack_nil hcalls⟩, fun u hu => ?_⟩
      exact hu.resolve_right nofun
    | cons f below =>
      rw [weight, hcalls, framesWeight, List.map_cons, List.sum_cons] at hfuel
      have hpos : 0 < frameWeight adj f := by
        unfold frameWeight
        split
        · exact Nat.one_pos
        · exact Nat.succ_pos _
      omega
  | succ fuel ih =>
    cases hcalls : s.callStack with
    | nil =>
      refine ⟨s, by rw [run, hcalls], ⟨hnum, hhead.stack_nil hcalls⟩, fun u hu => ?_⟩
      exact hu.resolve_right nofun
    | cons f below =>
      obtain ⟨v, edge⟩ := f
      obtain ⟨s', hstep, hnum', hhead', hkept, hless⟩ := exists_step hnum hhead hcalls hnodes
      obtain ⟨s'', hrun, hidle, hkept'⟩ := ih hnum' hhead' (by omega)
      refine ⟨s'', ?_, hidle, fun u hu => hkept' u (.inl (hkept u (hu.imp_right fun htop => ?_)))⟩
      · simp only [run, hcalls, hstep, Option.bind_some, hrun]
      · exact (Option.some.inj htop).symm

/-- Fuel for a run from any node. -/
def enoughFuel (adj : V → List V) (nodes : List V) : ℕ := (nodes.map (nodeWeight adj)).sum + 1

theorem exists_visit (hnodes : ∀ v ∈ nodes, ∀ w ∈ adj v, w ∈ nodes) {fuel : ℕ} {start : V}
    (hfuel : enoughFuel adj nodes ≤ fuel) (hstart : start ∈ nodes) (h : Idle adj nodes s) :
    ∃ s', visit adj fuel s start = some s' ∧ Idle adj nodes s' ∧
      ∀ u, (s.indices u ≠ none ∨ u = start) → s'.indices u ≠ none := by
  unfold visit
  split_ifs with hvisited
  · exact ⟨s, rfl, h, fun u hu => hu.elim id fun heq => heq ▸ hvisited⟩
  · rw [not_not] at hvisited
    have hempty : Searching adj { s with callStack := [] } := by
      refine ⟨nofun, .nil, nofun, ?_, ?_, ?_, nofun⟩
      · intro y hy
        rw [h.stack] at hy
        cases hy
      · intro y hy
        rw [h.stack] at hy
        cases hy
      · intro y hy
        rw [h.stack] at hy
        cases hy
    have hhead : AtHead adj nodes { s with callStack := [(start, 0)] } :=
      .fresh start [] rfl nofun
        ⟨hvisited, hstart, [], hempty, rfl, fun _ _ hx => .inl hx, nofun⟩
    have hweight : weight adj nodes { s with callStack := [(start, 0)] } ≤ fuel := by
      refine le_trans ?_ hfuel
      rw [weight, enoughFuel]
      exact Nat.add_le_add (unvisitedWeight_le adj nodes _) le_rfl
    obtain ⟨s', hrun, hidle, hkept⟩ :=
      exists_run hnodes (h.numbered.frames [(start, 0)] s.lowlink) hhead hweight
    exact ⟨s', hrun, hidle, fun u hu => hkept u (hu.imp_right fun heq => by rw [heq]; rfl)⟩

theorem exists_visits (hnodes : ∀ v ∈ nodes, ∀ w ∈ adj v, w ∈ nodes) {fuel : ℕ}
    (hfuel : enoughFuel adj nodes ≤ fuel) {starts : List V} (hstarts : ∀ v ∈ starts, v ∈ nodes)
    (h : Idle adj nodes s) :
    ∃ s', starts.foldlM (visit adj fuel) s = some s' ∧ Idle adj nodes s' ∧
      ∀ u, (s.indices u ≠ none ∨ u ∈ starts) → s'.indices u ≠ none := by
  induction starts generalizing s with
  | nil => exact ⟨s, rfl, h, fun u hu => hu.resolve_right List.not_mem_nil⟩
  | cons start rest ih =>
    obtain ⟨t, hvisit, hidle, hkept⟩ :=
      exists_visit hnodes hfuel (hstarts start List.mem_cons_self) h
    obtain ⟨s', hfold, hidle', hkept'⟩ :=
      ih (fun v hv => hstarts v (List.mem_cons_of_mem _ hv)) hidle
    refine ⟨s', ?_, hidle', fun u hu => hkept' u ?_⟩
    · rw [List.foldlM_cons, hvisit]
      exact hfold
    · rcases hu with hu | hu
      · exact .inl (hkept u (.inl hu))
      · rcases List.mem_cons.mp hu with rfl | hu
        · exact .inl (hkept u (.inr rfl))
        · exact .inr hu

/-- The nodes are divided into components. -/
structure Components (adj : V → List V) (nodes : List V) (sccs : List (List V)) : Prop where
  components : ∀ c ∈ sccs, IsComponent adj c
  disjoint : sccs.Pairwise List.Disjoint
  covers : ∀ v ∈ nodes, ∃ c ∈ sccs, v ∈ c
  within : ∀ c ∈ sccs, ∀ v ∈ c, v ∈ nodes

theorem tarjanScc_components (hnodes : ∀ v ∈ nodes, ∀ w ∈ adj v, w ∈ nodes) {fuel : ℕ}
    (hfuel : enoughFuel adj nodes ≤ fuel) :
    ∃ sccs, tarjanScc adj fuel nodes = some sccs ∧ Components adj nodes sccs := by
  have hstart : Idle adj nodes ({} : State V) := by
    refine ⟨⟨nofun, nofun, fun v hv => absurd rfl hv, fun v => ?_, fun v => ?_, .nil, nofun, ?_,
      nofun, .nil⟩, rfl⟩
    · exact ⟨fun hv => absurd rfl hv, fun hv => hv.elim nofun fun ⟨_, hc, _⟩ => nomatch hc⟩
    · exact ⟨nofun, nofun⟩
    · rintro v w ⟨_, hc, _⟩
      cases hc
  obtain ⟨s, hfold, hidle, hkept⟩ := exists_visits hnodes hfuel (fun _ hv => hv) hstart
  refine ⟨s.sccs, by rw [tarjanScc, hfold]; rfl, hidle.numbered.components,
    hidle.numbered.disjoint, fun v hv => ?_, fun c hc v hv => ?_⟩
  · have hv := (hidle.numbered.visited v).mp (hkept v (.inr hv))
    rw [hidle.stack] at hv
    exact hv.resolve_left List.not_mem_nil
  · exact hidle.numbered.within v ((hidle.numbered.visited v).mpr (.inr ⟨c, hc, hv⟩))

end Runs

end LeanCtx.Tarjan
