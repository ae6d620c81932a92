import LeanCtx.Absorb
import LeanCtx.KnowledgeFacts

/-!
# Consolidation of similar facts

Of two similar facts of one category the more confident one takes in the other.
A fact that took others in can be taken in itself. The categories are visited in
the order of a hash table, which can be any.
-/

namespace LeanCtx.Knowledge

open Absorb (State)

variable (env : Env)

/-- A similarity to reach; `none` is reached by nothing. -/
abbrev Threshold := Option ℚ

def Threshold.reached (threshold : Threshold) (similarity : ℚ) : Bool :=
  threshold.any (· ≤ similarity)

def countLimit : ℕ := 2 ^ 32

/-- A fact after it took in another one. -/
def takeIn (f other : KnowledgeFact) : KnowledgeFact :=
  { f with
    confirmationCount := (f.confirmationCount + other.confirmationCount) % countLimit
    lastConfirmed :=
      if f.lastConfirmed < other.lastConfirmed then other.lastConfirmed else f.lastConfirmed }

def currentCategories (facts : List KnowledgeFact) : List Text :=
  ((facts.filter (·.isCurrent)).map (·.category)).dedup

/-- The order in which the groups of a list of facts are visited. -/
structure GroupOrder (facts : List KnowledgeFact) where
  categories : List Text
  perm : categories.Perm (currentCategories facts)

section Scan

variable {n : ℕ} (threshold : Threshold)

/-- The inner loop for fact `i`: it ends when `i` itself is taken in. -/
def scanFrom (i : Fin n) : List (Fin n) → State (Fin n) KnowledgeFact →
    State (Fin n) KnowledgeFact
  | [], s => s
  | j :: rest, s =>
    if j ∈ s.gone then scanFrom i rest s
    else if threshold.reached (stringSimilarity env (s.val i).value (s.val j).value) then
      if (s.val j).confidence ≤ (s.val i).confidence then scanFrom i rest (s.absorb takeIn j i)
      else s.absorb takeIn i j
    else scanFrom i rest s

def scanGroup : List (Fin n) → State (Fin n) KnowledgeFact → State (Fin n) KnowledgeFact
  | [], s => s
  | i :: rest, s =>
    scanGroup rest (if i ∈ s.gone then s else scanFrom env threshold i rest s)

end Scan

def group (facts : List KnowledgeFact) (category : Text) : List (Fin facts.length) :=
  (List.finRange facts.length).filter fun i => facts[i].isCurrent && facts[i].category == category

def scanAll (threshold : Threshold) (facts : List KnowledgeFact) (order : GroupOrder facts) :
    State (Fin facts.length) KnowledgeFact :=
  order.categories.foldl (fun s c => scanGroup env threshold (group facts c) s)
    (Absorb.intact facts.get)

def consolidateSimilar (threshold : Threshold) (facts : List KnowledgeFact)
    (order : GroupOrder facts) : List KnowledgeFact × ℕ :=
  let s := scanAll env threshold facts order
  (Absorb.removeAll (s.gone.sort (· ≤ ·)) (List.ofFn s.val), s.gone.card)

/-! ## What one absorption keeps -/

/-- The same fact, confirmed otherwise. -/
def Reconfirmed (f g : KnowledgeFact) : Prop :=
  g = { f with confirmationCount := g.confirmationCount, lastConfirmed := g.lastConfirmed }

/-- `g` can stand for `f`. -/
structure StandsFor (f g : KnowledgeFact) : Prop where
  category : f.category = g.category
  current : f.isCurrent = g.isCurrent
  confidence : f.confidence ≤ g.confidence
  confirmed : f.lastConfirmed ≤ g.lastConfirmed

/-- A current fact is taken in by one of its category with no less confidence. -/
structure MayTakeIn (f g : KnowledgeFact) : Prop where
  source : f.isCurrent = true
  target : g.isCurrent = true
  category : f.category = g.category
  confidence : f.confidence ≤ g.confidence

theorem Reconfirmed.refl (f : KnowledgeFact) : Reconfirmed f f := rfl

theorem Reconfirmed.takeIn {f g other : KnowledgeFact} (h : Reconfirmed f g) :
    Reconfirmed f (takeIn g other) := by
  rw [Reconfirmed] at h ⊢
  rw [h]
  rfl

theorem Reconfirmed.isCurrent_eq {f g : KnowledgeFact} (h : Reconfirmed f g) :
    g.isCurrent = f.isCurrent := by
  rw [h]
  rfl

theorem Reconfirmed.category_eq {f g : KnowledgeFact} (h : Reconfirmed f g) :
    g.category = f.category := by
  rw [h]

theorem StandsFor.refl (f : KnowledgeFact) : StandsFor f f := ⟨rfl, rfl, le_rfl, le_rfl⟩

theorem StandsFor.trans {f g k : KnowledgeFact} (h : StandsFor f g) (h' : StandsFor g k) :
    StandsFor f k where
  category := h.category.trans h'.category
  current := h.current.trans h'.current
  confidence := h.confidence.trans h'.confidence
  confirmed := h.confirmed.trans h'.confirmed

theorem confirmed_takeIn (f other : KnowledgeFact) :
    f.lastConfirmed ≤ (takeIn f other).lastConfirmed ∧
      other.lastConfirmed ≤ (takeIn f other).lastConfirmed := by
  simp only [takeIn]
  split_ifs with h
  · exact ⟨h.le, le_rfl⟩
  · exact ⟨le_rfl, not_lt.mp h⟩

theorem standsFor_takeIn_source {f g : KnowledgeFact} (h : MayTakeIn f g) :
    StandsFor f (takeIn g f) where
  category := h.category
  current := h.source.trans h.target.symm
  confidence := h.confidence
  confirmed := (confirmed_takeIn g f).2

theorem standsFor_takeIn_target (f g : KnowledgeFact) : StandsFor g (takeIn g f) where
  category := rfl
  current := rfl
  confidence := le_rfl
  confirmed := (confirmed_takeIn g f).1

/-- The confirmations that count: those of current facts. -/
def currentCount (f : KnowledgeFact) : ℕ := if f.isCurrent then f.confirmationCount else 0

theorem currentCount_takeIn {f g : KnowledgeFact} (h : MayTakeIn f g)
    (hbound : currentCount g + currentCount f < countLimit) :
    currentCount (takeIn g f) = currentCount g + currentCount f := by
  have hnow : (takeIn g f).isCurrent = true := h.target
  simp only [currentCount, h.source, h.target, if_true] at hbound
  rw [currentCount, if_pos hnow]
  simp only [currentCount, h.source, h.target, if_true]
  exact Nat.mod_eq_of_lt hbound

/-! ## The loops only absorb -/

section Reach

variable {n : ℕ} {threshold : Threshold} {start : Fin n → KnowledgeFact}
  {s : State (Fin n) KnowledgeFact} {c : Text}

abbrev Reachable (start : Fin n → KnowledgeFact) (s : State (Fin n) KnowledgeFact) : Prop :=
  Absorb.Reaches takeIn MayTakeIn start s

theorem Reachable.reconfirmed (h : Reachable start s) (i : Fin n) :
    Reconfirmed (start i) (s.val i) :=
  h.pointwise Reconfirmed.refl (fun _ => Reconfirmed.takeIn) i

/-- The positions of a group hold current facts of its category, once each. -/
structure IsGroup (start : Fin n → KnowledgeFact) (c : Text) (positions : List (Fin n)) : Prop where
  nodup : positions.Nodup
  mem : ∀ i ∈ positions, (start i).isCurrent = true ∧ (start i).category = c

theorem IsGroup.tail {i : Fin n} {rest : List (Fin n)} (h : IsGroup start c (i :: rest)) :
    IsGroup start c rest where
  nodup := h.nodup.of_cons
  mem j hj := h.mem j (List.mem_cons_of_mem i hj)

theorem mayTakeIn_of_group {i j : Fin n} (h : Reachable start s)
    (hi : (start i).isCurrent = true ∧ (start i).category = c)
    (hj : (start j).isCurrent = true ∧ (start j).category = c)
    (hle : (s.val i).confidence ≤ (s.val j).confidence) : MayTakeIn (s.val i) (s.val j) where
  source := (h.reconfirmed i).isCurrent_eq.trans hi.1
  target := (h.reconfirmed j).isCurrent_eq.trans hj.1
  category := by
    rw [(h.reconfirmed i).category_eq, (h.reconfirmed j).category_eq, hi.2, hj.2]
  confidence := hle

theorem reachable_scanFrom {i : Fin n} {rest : List (Fin n)} (h : Reachable start s)
    (hgroup : IsGroup start c (i :: rest)) (hi : i ∉ s.gone) :
    Reachable start (scanFrom env threshold i rest s) := by
  induction rest generalizing s with
  | nil => exact h
  | cons j rest ih =>
    have hself := hgroup.mem i List.mem_cons_self
    have hother := hgroup.mem j (List.mem_cons_of_mem i List.mem_cons_self)
    have hij : i ≠ j := by
      rintro rfl
      exact (List.nodup_cons.mp hgroup.nodup).1 List.mem_cons_self
    have hrest : IsGroup start c (i :: rest) := by
      refine ⟨hgroup.nodup.sublist ?_, fun k hk => hgroup.mem k ?_⟩
      · exact (List.sublist_cons_self j rest).cons_cons i
      · exact ((List.sublist_cons_self j rest).cons_cons i).mem hk
    rw [scanFrom]
    split_ifs with hgone hsimilar hle
    · exact ih h hrest hi
    · refine ih (h.absorb hgone hi hij.symm (mayTakeIn_of_group h hother hself hle)) hrest ?_
      simp only [State.absorb, Finset.mem_insert, not_or]
      exact ⟨hij, hi⟩
    · exact h.absorb hi hgone hij (mayTakeIn_of_group h hself hother (not_le.mp hle).le)
    · exact ih h hrest hi

theorem reachable_scanGroup {positions : List (Fin n)} (h : Reachable start s)
    (hgroup : IsGroup start c positions) :
    Reachable start (scanGroup env threshold positions s) := by
  induction positions generalizing s with
  | nil => exact h
  | cons i rest ih =>
    rw [scanGroup]
    refine ih ?_ hgroup.tail
    split_ifs with hgone
    · exact h
    · exact reachable_scanFrom env h hgroup hgone

end Reach

theorem isGroup_group (facts : List KnowledgeFact) (c : Text) :
    IsGroup facts.get c (group facts c) where
  nodup := (List.nodup_finRange _).filter _
  mem i hi := by
    simpa using (List.mem_filter.mp hi).2

theorem reachable_scanAll (threshold : Threshold) (facts : List KnowledgeFact)
    (order : GroupOrder facts) :
    Reachable facts.get (scanAll env threshold facts order) := by
  rw [scanAll]
  generalize order.categories = categories
  suffices hrun : ∀ s, Reachable facts.get s → Reachable facts.get
      (categories.foldl (fun s c => scanGroup env threshold (group facts c) s) s) from
    hrun _ .fresh
  induction categories with
  | nil => exact fun s h => h
  | cons c rest ih =>
    intro s h
    exact ih _ (reachable_scanGroup env h (isGroup_group facts c))

/-! ## What is left -/

def currentTotal (facts : List KnowledgeFact) : ℕ := (facts.map currentCount).sum

/-- What a consolidation keeps: `removed` are the positions of the facts it removes, `after` the
facts as it leaves them. -/
structure Consolidated (facts out : List KnowledgeFact) (count : ℕ)
    (removed : Finset (Fin facts.length)) (after : Fin facts.length → KnowledgeFact) : Prop where
  kept : out = ((List.finRange facts.length).filter (· ∉ removed)).map after
  counted : count = removed.card
  length : out.length + count = facts.length
  same : ∀ i, Reconfirmed facts[i] (after i)
  history : ∀ i, facts[i].isCurrent = false → i ∉ removed ∧ after i = facts[i]
  total : currentTotal facts < countLimit → currentTotal out = currentTotal facts
  represented : ∀ i ∈ removed, ∃ f ∈ out, f.isCurrent = true ∧ StandsFor facts[i] f
  category : ∀ f ∈ facts, f.isCurrent = true →
    ∃ g ∈ out, g.isCurrent = true ∧ g.category = f.category

section Left

variable {facts : List KnowledgeFact} (s : State (Fin facts.length) KnowledgeFact)

/-- The facts that are left. -/
def left : List KnowledgeFact :=
  ((List.finRange facts.length).filter (· ∉ s.gone)).map s.val

theorem mem_left {i : Fin facts.length} (h : i ∉ s.gone) : s.val i ∈ left s :=
  List.mem_map_of_mem (List.mem_filter.mpr ⟨List.mem_finRange i, decide_eq_true h⟩)

theorem length_left : (left s).length + s.gone.card = facts.length := by
  have hgone : ((List.finRange facts.length).filter (· ∈ s.gone)).length = s.gone.card := by
    rw [← List.toFinset_card_of_nodup ((List.nodup_finRange _).filter _)]
    congr 1
    ext i
    simp
  have hsplit := List.length_eq_length_filter_add (l := List.finRange facts.length) (· ∈ s.gone)
  rw [List.length_finRange, hgone] at hsplit
  have hleft : (left s).length =
      ((List.finRange facts.length).filter fun i => !decide (i ∈ s.gone)).length := by
    rw [left, List.length_map]
    congr 2
    funext i
    exact decide_not
  omega

theorem currentTotal_left : currentTotal (left s) = Absorb.total currentCount s := by
  rw [Absorb.total, Fin.sum_univ_def, currentTotal, left, List.map_map]
  induction List.finRange facts.length with
  | nil => rfl
  | cons i rest ih =>
    by_cases hi : i ∈ s.gone
    · rw [List.filter_cons_of_neg (by simpa using hi), List.map_cons, List.sum_cons, if_pos hi,
        zero_add, ih]
    · rw [List.filter_cons_of_pos (by simpa using hi), List.map_cons, List.map_cons, List.sum_cons,
        List.sum_cons, if_neg hi, ih, Function.comp_apply]

theorem currentTotal_intact :
    currentTotal facts = Absorb.total currentCount (Absorb.intact facts.get) := by
  have hleft : left (Absorb.intact facts.get) = facts := by
    simp only [left, Absorb.intact, Finset.notMem_empty, not_false_eq_true, decide_true,
      List.filter_true]
    exact List.map_get_finRange facts
  rw [← currentTotal_left, hleft]

end Left

/-- Consolidation conserves the evidence of the facts. -/
theorem consolidateSimilar_conserves (threshold : Threshold) (facts : List KnowledgeFact)
    (order : GroupOrder facts) :
    ∃ removed after, Consolidated facts (consolidateSimilar env threshold facts order).1
      (consolidateSimilar env threshold facts order).2 removed after := by
  have hreach := reachable_scanAll env threshold facts order
  obtain ⟨s, hs⟩ : ∃ s, s = scanAll env threshold facts order := ⟨_, rfl⟩
  rw [← hs] at hreach
  have hout : (consolidateSimilar env threshold facts order).1 = left s := by
    rw [consolidateSimilar, ← hs, Absorb.removeAll_ofFn _ (Finset.sortedLT_sort _).pairwise, left]
    simp
  have hcount : (consolidateSimilar env threshold facts order).2 = s.gone.card := by
    rw [consolidateSimilar, ← hs]
  have hstands : ∀ i : Fin facts.length, ∃ f ∈ left s, StandsFor facts[i] f := by
    intro i
    obtain ⟨j, hj, hij⟩ := hreach.represented StandsFor.refl StandsFor.trans
      standsFor_takeIn_source (fun _ => standsFor_takeIn_target _ _) i
    exact ⟨s.val j, mem_left s hj, hij⟩
  have hhistory : ∀ i : Fin facts.length, facts[i].isCurrent = false → i ∉ s.gone ∧ s.val i = facts[i] := by
    intro i hi
    refine hreach.untouched (p := fun f => f.isCurrent = true) (fun h => ⟨h.source, h.target⟩) ?_
    exact fun h => Bool.false_ne_true (hi.symm.trans h)
  refine ⟨s.gone, s.val, ?_⟩
  rw [hout, hcount]
  exact {
    kept := rfl
    counted := rfl
    length := length_left s
    same := hreach.reconfirmed
    history := hhistory
    total := fun h => by
      rw [currentTotal_intact] at h
      rw [currentTotal_left, currentTotal_intact]
      exact hreach.total_eq currentCount_takeIn h
    represented := fun i hi => by
      obtain ⟨f, hf, hstand⟩ := hstands i
      refine ⟨f, hf, ?_, hstand⟩
      rw [← hstand.current]
      by_contra hcurrent
      exact (hhistory i (Bool.eq_false_iff.mpr hcurrent)).1 hi
    category := fun f hf hcurrent => by
      obtain ⟨k, hk, rfl⟩ := List.mem_iff_getElem.mp hf
      obtain ⟨g, hg, hstand⟩ := hstands ⟨k, hk⟩
      exact ⟨g, hg, hstand.current.symm.trans hcurrent, hstand.category.symm⟩ }

end LeanCtx.Knowledge
