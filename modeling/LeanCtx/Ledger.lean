import Mathlib

/-!
# Commitments in a tree of grants

A ledger hands grants down a tree: a holder passes part of its grant to its
children and reserves another part for children still to come. An open child
is charged its whole grant. A closed child is charged what it spent and, since
its own children may still be running, what it has committed itself. `commit`
is the total charged to a holder. If everywhere spending and commitments stay
within the grant, then no subtree spends more than the grant at its top.
-/

namespace LeanCtx

variable {ι : Type}

structure Ledger (ι : Type) where
  children : ι → List ι
  closed : ι → Prop
  spent : ι → ℕ
  granted : ι → ℕ
  held : ι → ℕ

namespace Ledger

open scoped Classical in
/-- What a holder owes to its children, to the given depth. -/
noncomputable def commit (L : Ledger ι) : ℕ → ι → ℕ
  | 0, _ => 0
  | k + 1, i => ((L.children i).map fun c =>
      if L.closed c then L.spent c + commit L k c else L.granted c).sum + L.held i

open scoped Classical in
/-- What one child costs its parent. -/
noncomputable def charge (L : Ledger ι) (k : ℕ) (c : ι) : ℕ :=
  if L.closed c then L.spent c + L.commit k c else L.granted c

/-- Spending below a holder, to the given depth. -/
def below (L : Ledger ι) : ℕ → ι → ℕ
  | 0, _ => 0
  | k + 1, i => ((L.children i).map fun c => L.spent c + below L k c).sum

/-- Spending and commitments of every holder in `N` stay within its grant. -/
def Covered (L : Ledger ι) (N : ι → Prop) : Prop :=
  ∀ i, N i → ∀ k, L.spent i + L.commit k i ≤ L.granted i

theorem commit_succ (L : Ledger ι) (k : ℕ) (i : ι) :
    L.commit (k + 1) i = ((L.children i).map (L.charge k)).sum + L.held i := rfl

theorem charge_of_closed {L : Ledger ι} {k : ℕ} {c : ι} (h : L.closed c) :
    L.charge k c = L.spent c + L.commit k c := if_pos h

theorem charge_of_open {L : Ledger ι} {k : ℕ} {c : ι} (h : ¬ L.closed c) :
    L.charge k c = L.granted c := if_neg h

theorem sum_map_le_sum_map {α : Type} {l : List α} {f g : α → ℕ} (h : ∀ a ∈ l, f a ≤ g a) :
    (l.map f).sum ≤ (l.map g).sum := by
  induction l with
  | nil => simp
  | cons a l ih =>
    simp only [List.map_cons, List.sum_cons]
    have ha := h a (by simp)
    have hl := ih fun b hb => h b (by simp [hb])
    omega

theorem commit_le_succ (L : Ledger ι) (k : ℕ) (i : ι) : L.commit k i ≤ L.commit (k + 1) i := by
  induction k generalizing i with
  | zero => simp [commit]
  | succ k ih =>
    rw [commit_succ, commit_succ]
    refine Nat.add_le_add_right (sum_map_le_sum_map ?_) _
    intro c _
    by_cases hc : L.closed c
    · rw [charge_of_closed hc, charge_of_closed hc]
      exact Nat.add_le_add_left (ih c) _
    · rw [charge_of_open hc, charge_of_open hc]

theorem commit_mono (L : Ledger ι) {k k' : ℕ} (h : k ≤ k') (i : ι) :
    L.commit k i ≤ L.commit k' i := monotone_nat_of_le_succ (fun n => L.commit_le_succ n i) h

theorem charge_le_succ (L : Ledger ι) (k : ℕ) (c : ι) : L.charge k c ≤ L.charge (k + 1) c := by
  by_cases hc : L.closed c
  · rw [charge_of_closed hc, charge_of_closed hc]
    exact Nat.add_le_add_left (L.commit_le_succ k c) _
  · rw [charge_of_open hc, charge_of_open hc]

/-- A holder without children and reservations owes nothing. -/
theorem commit_of_leaf {L : Ledger ι} {i : ι} (hc : L.children i = []) (hh : L.held i = 0) (k : ℕ) :
    L.commit k i = 0 := by
  cases k with
  | zero => rfl
  | succ k => simp [commit_succ, hc, hh]

/-- A change of ledger raises no commitment in `U` when no child in view costs more.
A child that has just closed must have stayed within its grant. -/
theorem commit_le_of_step {L L' : Ledger ι} {U : ι → Prop}
    (hchildren : ∀ i, U i → L'.children i = L.children i)
    (hheld : ∀ i, U i → L'.held i ≤ L.held i)
    (hclosed : ∀ i, U i → ∀ c ∈ L.children i, L'.closed c →
      U c ∧ (L.closed c → L'.spent c ≤ L.spent c) ∧
        (¬ L.closed c → ∀ k, L'.spent c + L.commit k c ≤ L.granted c))
    (hopen : ∀ i, U i → ∀ c ∈ L.children i, ¬ L'.closed c →
      ¬ L.closed c ∧ L'.granted c ≤ L.granted c) (k : ℕ) :
    ∀ i, U i → L'.commit k i ≤ L.commit k i := by
  induction k with
  | zero => intro i _; rfl
  | succ k ih =>
    intro i hi
    rw [commit_succ, commit_succ, hchildren i hi]
    refine Nat.add_le_add (sum_map_le_sum_map ?_) (hheld i hi)
    intro c hc
    by_cases h' : L'.closed c
    · obtain ⟨hU, hstay, hnew⟩ := hclosed i hi c hc h'
      have hcommit := ih c hU
      rw [charge_of_closed h']
      by_cases h : L.closed c
      · rw [charge_of_closed h]
        exact Nat.add_le_add (hstay h) hcommit
      · rw [charge_of_open h]
        exact (Nat.add_le_add_left hcommit _).trans (hnew h k)
    · obtain ⟨h, hgranted⟩ := hopen i hi c hc h'
      rw [charge_of_open h', charge_of_open h]
      exact hgranted

/-- The special case of a change that leaves every charge in view as it was. -/
theorem commit_le_of_agree {L L' : Ledger ι} {U : ι → Prop}
    (hchildren : ∀ i, U i → L'.children i = L.children i)
    (hheld : ∀ i, U i → L'.held i ≤ L.held i)
    (hagree : ∀ i, U i → ∀ c ∈ L.children i, (L'.closed c ↔ L.closed c) ∧
      (L.closed c → U c ∧ L'.spent c = L.spent c) ∧ L'.granted c = L.granted c) (k : ℕ) :
    ∀ i, U i → L'.commit k i ≤ L.commit k i := by
  apply commit_le_of_step hchildren hheld
  · intro i hi c hc h'
    obtain ⟨hiff, hspent, -⟩ := hagree i hi c hc
    have h := hiff.mp h'
    exact ⟨(hspent h).1, fun _ => (hspent h).2.le, fun hn => absurd h hn⟩
  · intro i hi c hc h'
    obtain ⟨hiff, -, hgranted⟩ := hagree i hi c hc
    exact ⟨fun h => h' (hiff.mpr h), hgranted.le⟩

/-! ## Conservation -/

theorem below_le_commit {L : Ledger ι} {N : ι → Prop} (h : L.Covered N)
    (hN : ∀ i, N i → ∀ c ∈ L.children i, N c) (k : ℕ) :
    ∀ i, N i → L.below k i ≤ L.commit k i := by
  induction k with
  | zero => intro i _; rfl
  | succ k ih =>
    intro i hi
    rw [commit_succ, below]
    refine le_trans (sum_map_le_sum_map ?_) (Nat.le_add_right _ _)
    intro c hc
    have hNc := hN i hi c hc
    have hbelow := ih c hNc
    by_cases hclosed : L.closed c
    · rw [charge_of_closed hclosed]
      exact Nat.add_le_add_left hbelow _
    · rw [charge_of_open hclosed]
      exact (Nat.add_le_add_left hbelow _).trans (h c hNc k)

/-- No subtree spends more than the grant at its top. -/
theorem spent_add_below_le {L : Ledger ι} {N : ι → Prop} (h : L.Covered N)
    (hN : ∀ i, N i → ∀ c ∈ L.children i, N c) {i : ι} (hi : N i) (k : ℕ) :
    L.spent i + L.below k i ≤ L.granted i :=
  (Nat.add_le_add_left (below_le_commit h hN k i hi) _).trans (h i hi k)

/-- `m` lies at most `k` parent links below `i`. -/
inductive Under (parent : ι → Option ι) : ℕ → ι → ι → Prop
  | self (k : ℕ) (i : ι) : Under parent k i i
  | step {k : ℕ} {i p m : ι} (h : Under parent k i p) (hm : parent m = some p) :
      Under parent (k + 1) i m

theorem Under.mono {parent : ι → Option ι} {k k' : ℕ} {i m : ι} (h : Under parent k i m)
    (hk : k ≤ k') : Under parent k' i m := by
  induction h generalizing k' with
  | self => exact .self _ _
  | step h hm ih =>
    cases k' with
    | zero => omega
    | succ k' => exact .step (ih (by omega)) hm

/-- Below `i` itself, a node lies under one of `i`'s children. -/
theorem Under.cases_top {parent : ι → Option ι} {k : ℕ} {i m : ι} (h : Under parent (k + 1) i m) :
    m = i ∨ ∃ c, parent c = some i ∧ Under parent k c m := by
  generalize hj : k + 1 = j at h
  induction h generalizing k with
  | self => exact .inl rfl
  | @step j i p m h hm ih =>
    obtain rfl : k = j := by omega
    cases k with
    | zero =>
      cases h
      exact .inr ⟨m, hm, .self _ _⟩
    | succ k =>
      rcases ih rfl with rfl | ⟨c, hc, hcp⟩
      · exact .inr ⟨m, hm, .self _ _⟩
      · exact .inr ⟨c, hc, .step hcp hm⟩

theorem sum_union_le [DecidableEq ι] (f : ι → ℕ) (s t : Finset ι) :
    ∑ m ∈ s ∪ t, f m ≤ ∑ m ∈ s, f m + ∑ m ∈ t, f m := by
  have h : ∑ m ∈ s ∪ t, f m + ∑ m ∈ s ∩ t, f m = ∑ m ∈ s, f m + ∑ m ∈ t, f m :=
    Finset.sum_union_inter
  omega

theorem sum_biUnion_le [DecidableEq ι] (f : ι → ℕ) (s : Finset ι) (t : ι → Finset ι) :
    ∑ m ∈ s.biUnion t, f m ≤ ∑ c ∈ s, ∑ m ∈ t c, f m := by
  induction s using Finset.induction_on with
  | empty => simp
  | insert c s hc ih =>
    rw [Finset.biUnion_insert, Finset.sum_insert hc]
    exact (sum_union_le f _ _).trans (Nat.add_le_add_left ih _)

open scoped Classical in
/-- The spending found by following parent links upwards is the spending counted
by following child lists downwards. -/
theorem sum_under_le {L : Ledger ι} {parent : ι → Option ι}
    (hp : ∀ c i, parent c = some i → c ∈ L.children i) (S : Finset ι) (k : ℕ) (i : ι) :
    ∑ m ∈ S.filter (Under parent k i), L.spent m ≤ L.spent i + L.below k i := by
  induction k generalizing i with
  | zero =>
    refine (Finset.sum_le_sum_of_subset (t := {i}) ?_).trans (by simp)
    intro m hm
    obtain ⟨-, hm⟩ := Finset.mem_filter.mp hm
    cases hm
    exact Finset.mem_singleton_self _
  | succ k ih =>
    have hcover : S.filter (Under parent (k + 1) i) ⊆
        {i} ∪ (L.children i).toFinset.biUnion fun c => S.filter (Under parent k c) := by
      intro m hm
      obtain ⟨hS, hm⟩ := Finset.mem_filter.mp hm
      rcases hm.cases_top with rfl | ⟨c, hc, hcm⟩
      · exact Finset.mem_union_left _ (Finset.mem_singleton_self _)
      · refine Finset.mem_union_right _ (Finset.mem_biUnion.mpr ⟨c, ?_, ?_⟩)
        · exact List.mem_toFinset.mpr (hp c i hc)
        · exact Finset.mem_filter.mpr ⟨hS, hcm⟩
    have hchildren : ∑ c ∈ (L.children i).toFinset, (L.spent c + L.below k c) ≤
        L.below (k + 1) i := by
      rw [below, Finset.sum_list_map_count]
      refine Finset.sum_le_sum fun c hc => ?_
      have hcount : 1 ≤ (L.children i).count c := List.count_pos_iff.mpr (List.mem_toFinset.mp hc)
      rw [smul_eq_mul]
      exact Nat.le_mul_of_pos_left _ hcount
    calc ∑ m ∈ S.filter (Under parent (k + 1) i), L.spent m
        ≤ ∑ m ∈ {i} ∪ (L.children i).toFinset.biUnion fun c => S.filter (Under parent k c),
            L.spent m := Finset.sum_le_sum_of_subset hcover
      _ ≤ L.spent i + ∑ m ∈ (L.children i).toFinset.biUnion fun c => S.filter (Under parent k c),
            L.spent m := by
          simpa using sum_union_le L.spent {i}
            ((L.children i).toFinset.biUnion fun c => S.filter (Under parent k c))
      _ ≤ L.spent i + ∑ c ∈ (L.children i).toFinset, (L.spent c + L.below k c) :=
          Nat.add_le_add_left ((sum_biUnion_le _ _ _).trans (Finset.sum_le_sum fun c _ => ih c)) _
      _ ≤ L.spent i + L.below (k + 1) i := Nat.add_le_add_left hchildren _

end Ledger

end LeanCtx
