import Mathlib.Algebra.BigOperators.Fin
import Mathlib.Algebra.Order.BigOperators.Group.Finset
import Mathlib.Data.Finset.Sort
import Mathlib.Data.List.FinRange

/-!
# Elements that absorb each other

One of two elements is taken into the other and is gone; what took it in may be
taken in later. Weights that add up under this are conserved, and every element
that is gone is represented by one that is left.
-/

namespace LeanCtx.Absorb

variable {ι α : Type}

structure State (ι α : Type) where
  val : ι → α
  gone : Finset ι

section Runs

variable [DecidableEq ι] (join : α → α → α) (may : α → α → Prop)

/-- `b` takes in `a`. -/
def State.absorb (s : State ι α) (a b : ι) : State ι α :=
  ⟨Function.update s.val b (join (s.val b) (s.val a)), insert a s.gone⟩

def intact (start : ι → α) : State ι α := ⟨start, ∅⟩

/-- The states that absorption leads to; `may x y` allows `y` to take in `x`. -/
inductive Reaches (start : ι → α) : State ι α → Prop
  | fresh : Reaches start (intact start)
  | absorb {s : State ι α} {a b : ι} (reached : Reaches start s) (source : a ∉ s.gone)
      (target : b ∉ s.gone) (apart : a ≠ b) (allowed : may (s.val a) (s.val b)) :
      Reaches start (s.absorb join a b)

variable {join may} {start : ι → α} {s : State ι α}

/-- What holds between an element and itself, and survives taking something in, holds between each
element and what has become of it. -/
theorem Reaches.pointwise {R : α → α → Prop} (hrefl : ∀ x, R x x)
    (hjoin : ∀ {x y z}, may z y → R x y → R x (join y z))
    (h : Reaches join may start s) (i : ι) : R (start i) (s.val i) := by
  induction h with
  | fresh => exact hrefl _
  | @absorb s a b _ _ _ _ allowed ih =>
    by_cases hi : i = b
    · subst hi
      simp only [State.absorb, Function.update_self]
      exact hjoin allowed ih
    · simpa only [State.absorb, Function.update_of_ne hi] using ih

/-- An element that takes no part stays as it is. -/
theorem Reaches.untouched {p : α → Prop} (hmay : ∀ {x y}, may x y → p x ∧ p y)
    (h : Reaches join may start s) {i : ι} (hi : ¬p (start i)) :
    i ∉ s.gone ∧ s.val i = start i := by
  induction h with
  | fresh => exact ⟨Finset.notMem_empty i, rfl⟩
  | @absorb s a b _ _ _ _ allowed ih =>
    obtain ⟨hgone, hval⟩ := ih
    have ha : i ≠ a := by
      rintro rfl
      exact hi (hval ▸ (hmay allowed).1)
    have hb : i ≠ b := by
      rintro rfl
      exact hi (hval ▸ (hmay allowed).2)
    refine ⟨?_, ?_⟩
    · simp only [State.absorb, Finset.mem_insert, not_or]
      exact ⟨ha, hgone⟩
    · simp only [State.absorb, Function.update_of_ne hb, hval]

/-- Every element is represented by one that is left. -/
theorem Reaches.represented {R : α → α → Prop} (hrefl : ∀ x, R x x)
    (htrans : ∀ {x y z}, R x y → R y z → R x z)
    (hsource : ∀ {x y}, may x y → R x (join y x)) (htarget : ∀ {x y}, may x y → R y (join y x))
    (h : Reaches join may start s) (i : ι) : ∃ j ∉ s.gone, R (start i) (s.val j) := by
  induction h with
  | fresh => exact ⟨i, Finset.notMem_empty i, hrefl _⟩
  | @absorb s a b _ source target apart allowed ih =>
    obtain ⟨j, hj, hR⟩ := ih
    have hleft : ∀ k, k ∉ s.gone → k ≠ a → k ∉ (s.absorb join a b).gone := by
      intro k hk hka
      simp only [State.absorb, Finset.mem_insert, not_or]
      exact ⟨hka, hk⟩
    have hnow : (s.absorb join a b).val b = join (s.val b) (s.val a) :=
      Function.update_self b _ s.val
    by_cases hja : j = a
    · subst hja
      exact ⟨b, hleft b target apart.symm, hnow ▸ htrans hR (hsource allowed)⟩
    · by_cases hjb : j = b
      · subst hjb
        exact ⟨j, hleft j target hja, hnow ▸ htrans hR (htarget allowed)⟩
      · refine ⟨j, hleft j hj hja, ?_⟩
        simpa only [State.absorb, Function.update_of_ne hjb] using hR

/-- The weight of what is left. -/
def total [Fintype ι] (weight : α → ℕ) (s : State ι α) : ℕ :=
  ∑ i, if i ∈ s.gone then 0 else weight (s.val i)

theorem total_absorb [Fintype ι] (weight : α → ℕ) {a b : ι} (ha : a ∉ s.gone) (hb : b ∉ s.gone)
    (hab : a ≠ b) :
    ∃ rest, total weight s = rest + (weight (s.val b) + weight (s.val a)) ∧
      total weight (s.absorb join a b) = rest + weight (join (s.val b) (s.val a)) := by
  have hsplit : ∀ t : State ι α, total weight t =
      (∑ i ∈ (Finset.univ.erase b).erase a, if i ∈ t.gone then 0 else weight (t.val i)) +
        ((if b ∈ t.gone then 0 else weight (t.val b)) +
          if a ∈ t.gone then 0 else weight (t.val a)) := by
    intro t
    have hmem : a ∈ Finset.univ.erase b := Finset.mem_erase.mpr ⟨hab, Finset.mem_univ a⟩
    rw [total, ← Finset.sum_erase_add _ _ (Finset.mem_univ b), ← Finset.sum_erase_add _ _ hmem]
    rw [add_assoc, add_comm (if a ∈ t.gone then 0 else weight (t.val a))]
  refine ⟨∑ i ∈ (Finset.univ.erase b).erase a, if i ∈ s.gone then 0 else weight (s.val i),
    (hsplit s).trans ?_, (hsplit _).trans ?_⟩
  · rw [if_neg ha, if_neg hb]
  · have hrest : ∀ i ∈ (Finset.univ.erase b).erase a,
        (if i ∈ (s.absorb join a b).gone then 0 else weight ((s.absorb join a b).val i)) =
          if i ∈ s.gone then 0 else weight (s.val i) := by
      intro i hi
      obtain ⟨hia, hi⟩ := Finset.mem_erase.mp hi
      have hib := (Finset.mem_erase.mp hi).1
      simp [State.absorb, Function.update_of_ne hib, hia]
    have hgone : b ∉ (s.absorb join a b).gone := by
      simp [State.absorb, hab.symm, hb]
    rw [Finset.sum_congr rfl hrest, if_neg hgone]
    simp [State.absorb]

/-- Weights that add up below a bound are conserved when they start below it. -/
theorem Reaches.total_eq [Fintype ι] {weight : α → ℕ} {bound : ℕ}
    (hadd : ∀ {x y}, may x y → weight y + weight x < bound →
      weight (join y x) = weight y + weight x)
    (h : Reaches join may start s) (hbound : total weight (intact start) < bound) :
    total weight s = total weight (intact start) := by
  induction h with
  | fresh => rfl
  | @absorb s a b _ source target apart allowed ih =>
    obtain ⟨rest, hbefore, hafter⟩ : ∃ rest,
        total weight s = rest + (weight (s.val b) + weight (s.val a)) ∧
          total weight (s.absorb join a b) = rest + weight (join (s.val b) (s.val a)) :=
      total_absorb weight source target apart
    have hsum : weight (s.val b) + weight (s.val a) < bound := by omega
    rw [hafter, hadd allowed hsum, ← hbefore, ih]

end Runs

/-! ## Removal from a list -/

variable {n : ℕ}

/-- Positions taken out of a list one after the other, the last one first. -/
def removeAll (positions : List (Fin n)) (l : List α) : List α :=
  positions.foldr (fun i l => l.eraseIdx i) l

theorem finRange_split (i : Fin n) :
    ∃ front back, List.finRange n = front ++ i :: back ∧ front.length = i ∧ ∀ k ∈ front, k < i := by
  refine ⟨(List.finRange n).take i, (List.finRange n).drop (i + 1), ?_, ?_, ?_⟩
  · have hi : (i : ℕ) < (List.finRange n).length := by simp
    have hdrop := List.drop_eq_getElem_cons hi
    rw [List.getElem_finRange] at hdrop
    conv_lhs => rw [← List.take_append_drop i (List.finRange n), hdrop]
    rfl
  · simp
  · intro k hk
    obtain ⟨m, hm, rfl⟩ := List.mem_iff_getElem.mp hk
    rw [List.getElem_take, List.getElem_finRange]
    exact Fin.lt_def.mpr (lt_of_lt_of_le hm (by simp))

theorem removeAll_ofFn (v : Fin n → α) {positions : List (Fin n)}
    (h : positions.Pairwise (· < ·)) :
    removeAll positions (List.ofFn v) =
      ((List.finRange n).filter (· ∉ positions)).map v := by
  induction positions with
  | nil => simp [removeAll, List.ofFn_eq_map]
  | cons i rest ih =>
    obtain ⟨hi, hrest⟩ := List.pairwise_cons.mp h
    obtain ⟨front, back, hsplit, hlength, hfront⟩ := finRange_split i
    have hnodup : (front ++ i :: back).Nodup := hsplit ▸ List.nodup_finRange n
    have hback : ∀ k ∈ back, k ≠ i := by
      rintro k hk rfl
      exact (List.nodup_cons.mp (List.nodup_append.mp hnodup).2.1).1 hk
    have hkeep : front.filter (· ∉ rest) = front := by
      refine List.filter_eq_self.mpr fun k hk => decide_eq_true fun hmem => ?_
      exact absurd (hfront k hk) (not_lt.mpr (hi k hmem).le)
    have hkeep' : front.filter (· ∉ i :: rest) = front := by
      refine List.filter_eq_self.mpr fun k hk => decide_eq_true fun hmem => ?_
      rcases List.mem_cons.mp hmem with rfl | hmem
      · exact absurd (hfront k hk) (lt_irrefl k)
      · exact absurd (hfront k hk) (not_lt.mpr (hi k hmem).le)
    have hsame : back.filter (· ∉ i :: rest) = back.filter (· ∉ rest) := by
      refine List.filter_congr fun k hk => ?_
      simp [hback k hk]
    have hself : i ∉ rest := fun hmem => lt_irrefl i (hi i hmem)
    calc removeAll (i :: rest) (List.ofFn v)
      _ = (((List.finRange n).filter (· ∉ rest)).map v).eraseIdx i := by
        rw [← ih hrest]
        rfl
      _ = (front.map v ++ v i :: (back.filter (· ∉ rest)).map v).eraseIdx i := by
        rw [hsplit, List.filter_append, List.filter_cons_of_pos (by simpa using hself), hkeep,
          List.map_append, List.map_cons]
      _ = front.map v ++ (back.filter (· ∉ rest)).map v := by
        rw [List.eraseIdx_append_of_length_le (by simp [hlength])]
        simp [hlength]
      _ = ((List.finRange n).filter (· ∉ i :: rest)).map v := by
        rw [hsplit, List.filter_append, List.filter_cons_of_neg (by simp), hkeep', hsame,
          List.map_append]

end LeanCtx.Absorb
