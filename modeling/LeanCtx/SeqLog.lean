import Mathlib.Data.List.Sort
import Mathlib.Data.List.Destutter
import Mathlib.Tactic.Common

/-!
# Logs ordered by sequence number

A log arrives in any order and with repetitions. It is replayed after a stable
sort by sequence number and with one entry kept for each number, provided
entries with the same number are equal; the first number that carries two
different entries is its clash. Which entries are replayed, and which clash is
found, depends only on the entries and not on their order, and a log cut at a
sequence number is replayed part by part.
-/

namespace LeanCtx.SeqLog

variable {α : Type} (seq : α → ℕ)

/-- Stable, as entries with the same number keep their order. -/
def sorted (l : List α) : List α := l.insertionSort fun a b => seq a ≤ seq b

/-- One entry for each run of entries with the same number, the first of the run. -/
def onePerSeq (l : List α) : List α := l.destutter fun a b => seq a ≠ seq b

/-- The number of the first two neighbours that share it and differ. -/
def firstClash [DecidableEq α] : List α → Option ℕ
  | a :: b :: rest =>
    if seq a = seq b then
      if a = b then firstClash (b :: rest) else some (seq a)
    else firstClash (b :: rest)
  | _ => none

/-- Entries with the same number are equal. -/
def Coherent (l : List α) : Prop := ∀ a ∈ l, ∀ b ∈ l, seq a = seq b → a = b

abbrev Ascending (l : List α) : Prop := l.Pairwise fun a b => seq a ≤ seq b

variable {seq}

theorem sorted_ascending (l : List α) : Ascending seq (sorted seq l) := by
  have : Std.Total fun a b : α => seq a ≤ seq b := ⟨fun a b => Nat.le_total _ _⟩
  have : IsTrans α fun a b : α => seq a ≤ seq b := ⟨fun _ _ _ => Nat.le_trans⟩
  exact List.pairwise_insertionSort _ l

theorem sorted_perm (l : List α) : (sorted seq l).Perm l := List.perm_insertionSort _ l

theorem mem_sorted {l : List α} {a : α} : a ∈ sorted seq l ↔ a ∈ l := (sorted_perm l).mem_iff

theorem Coherent.mono {l l' : List α} (h : Coherent seq l) (hsub : ∀ a ∈ l', a ∈ l) :
    Coherent seq l' :=
  fun a ha b hb => h a (hsub a ha) b (hsub b hb)

/-- Coherent logs with the same entries sort to the same list. -/
theorem Coherent.sorted_eq {l l' : List α} (h : Coherent seq l) (hasc : Ascending seq l')
    (hperm : l.Perm l') : sorted seq l = l' := by
  refine List.Perm.eq_of_pairwise ?_ (sorted_ascending l) hasc ((sorted_perm l).trans hperm)
  intro a b ha hb hab hba
  exact h a (mem_sorted.mp ha) b (hperm.mem_iff.mpr hb) (Nat.le_antisymm hab hba)

/-! ## Clashes -/

section Clash

variable [DecidableEq α]

theorem firstClash_eq_none {l : List α} (hasc : Ascending seq l) :
    firstClash seq l = none ↔ Coherent seq l := by
  induction l with
  | nil => exact ⟨fun _ => nofun, fun _ => rfl⟩
  | cons a l ih =>
    cases l with
    | nil =>
      refine ⟨fun _ x hx y hy _ => ?_, fun _ => rfl⟩
      rw [List.mem_singleton.mp hx, List.mem_singleton.mp hy]
    | cons b rest =>
      obtain ⟨ha, hrest⟩ := List.pairwise_cons.mp hasc
      rw [firstClash]
      split_ifs with hseq heq
      · subst heq
        rw [ih hrest]
        refine ⟨fun h => h.mono ?_, fun h => h.mono fun x hx => List.mem_cons_of_mem _ hx⟩
        intro x hx
        rcases List.mem_cons.mp hx with rfl | hx
        · exact List.mem_cons_self
        · exact hx
      · exact ⟨nofun, fun h => absurd (h a (by simp) b (by simp) hseq) heq⟩
      · -- The head is the only entry with its number.
        have hlt : ∀ x ∈ b :: rest, seq a < seq x := by
          intro x hx
          have hab := ha b (by simp)
          rcases List.mem_cons.mp hx with rfl | hx
          · omega
          · have := (List.pairwise_cons.mp hrest).1 x hx
            omega
        rw [ih hrest]
        refine ⟨fun h x hx y hy hxy => ?_, fun h => h.mono fun x hx => List.mem_cons_of_mem _ hx⟩
        rcases List.mem_cons.mp hx with rfl | hx'
        · rcases List.mem_cons.mp hy with rfl | hy'
          · rfl
          · exact absurd hxy (hlt y hy').ne
        · rcases List.mem_cons.mp hy with rfl | hy'
          · exact absurd hxy.symm (hlt x hx').ne
          · exact h x hx' y hy' hxy

/-- The clash found is the least number that carries two different entries. -/
theorem firstClash_spec {l : List α} (hasc : Ascending seq l) {s : ℕ}
    (h : firstClash seq l = some s) :
    (∃ a ∈ l, ∃ b ∈ l, a ≠ b ∧ seq a = s ∧ seq b = s) ∧
      ∀ a ∈ l, ∀ b ∈ l, seq a = seq b → seq a < s → a = b := by
  induction l with
  | nil => cases h
  | cons a l ih =>
    cases l with
    | nil => cases h
    | cons b rest =>
      obtain ⟨ha, hrest⟩ := List.pairwise_cons.mp hasc
      rw [firstClash] at h
      split_ifs at h with hseq heq
      · subst heq
        obtain ⟨⟨x, hx, y, hy, hne⟩, hleast⟩ := ih hrest h
        refine ⟨⟨x, List.mem_cons_of_mem _ hx, y, List.mem_cons_of_mem _ hy, hne⟩, ?_⟩
        have hsub : ∀ z ∈ a :: a :: rest, z ∈ a :: rest := by
          intro z hz
          rcases List.mem_cons.mp hz with rfl | hz
          · exact List.mem_cons_self
          · exact hz
        exact fun z hz w hw => hleast z (hsub z hz) w (hsub w hw)
      · obtain rfl := Option.some.inj h
        refine ⟨⟨a, by simp, b, by simp, heq, rfl, hseq.symm⟩, ?_⟩
        intro x hx y _ _ hlt
        rcases List.mem_cons.mp hx with rfl | hx
        · exact absurd hlt (lt_irrefl _)
        · exact absurd hlt (Nat.not_lt.mpr (ha x hx))
      · obtain ⟨⟨x, hx, y, hy, hne⟩, hleast⟩ := ih hrest h
        refine ⟨⟨x, List.mem_cons_of_mem _ hx, y, List.mem_cons_of_mem _ hy, hne⟩, ?_⟩
        have hlt : ∀ z ∈ b :: rest, seq a < seq z := by
          intro z hz
          have hab := ha b (by simp)
          rcases List.mem_cons.mp hz with rfl | hz
          · omega
          · have := (List.pairwise_cons.mp hrest).1 z hz
            omega
        intro z hz w hw hzw
        rcases List.mem_cons.mp hz with rfl | hz'
        · rcases List.mem_cons.mp hw with rfl | hw'
          · exact fun _ => rfl
          · exact absurd hzw (hlt w hw').ne
        · rcases List.mem_cons.mp hw with rfl | hw'
          · exact absurd hzw.symm (hlt z hz').ne
          · exact hleast z hz' w hw' hzw

/-- The order of arrival does not change the clash. -/
theorem firstClash_perm {l l' : List α} (hasc : Ascending seq l) (hasc' : Ascending seq l')
    (hperm : l.Perm l') : firstClash seq l = firstClash seq l' := by
  cases h : firstClash seq l with
  | none =>
    have hcoherent := (firstClash_eq_none hasc).mp h
    exact ((firstClash_eq_none hasc').mpr
      (hcoherent.mono fun a ha => hperm.mem_iff.mpr ha)).symm
  | some s =>
    cases h' : firstClash seq l' with
    | none =>
      have hcoherent := (firstClash_eq_none hasc').mp h'
      rw [(firstClash_eq_none hasc).mpr (hcoherent.mono fun a ha => hperm.mem_iff.mp ha)] at h
      cases h
    | some s' =>
      obtain ⟨⟨a, ha, b, hb, hne, has, hbs⟩, hleast⟩ := firstClash_spec hasc h
      obtain ⟨⟨a', ha', b', hb', hne', has', hbs'⟩, hleast'⟩ := firstClash_spec hasc' h'
      rcases lt_trichotomy s s' with hlt | rfl | hlt
      · exact absurd (hleast' a (hperm.mem_iff.mp ha) b (hperm.mem_iff.mp hb)
          (has.trans hbs.symm) (by omega)) hne
      · rfl
      · exact absurd (hleast a' (hperm.mem_iff.mpr ha') b' (hperm.mem_iff.mpr hb')
          (has'.trans hbs'.symm) (by omega)) hne'

end Clash

/-! ## One entry for each number -/

theorem onePerSeq_sublist (l : List α) : (onePerSeq seq l).Sublist l := List.destutter_sublist _ l

theorem onePerSeq_cons_cons (a b : α) (l : List α) : onePerSeq seq (a :: b :: l) =
    if seq a = seq b then onePerSeq seq (a :: l) else a :: onePerSeq seq (b :: l) := by
  simp only [onePerSeq, List.destutter_cons']
  split_ifs with h
  · exact List.destutter'_cons_neg l (not_not.mpr h)
  · exact List.destutter'_cons_pos l h

/-- A cut between two numbers is a cut of what is replayed. -/
theorem onePerSeq_append {l l' : List α} (hlt : ∀ a ∈ l, ∀ b ∈ l', seq a < seq b) :
    onePerSeq seq (l ++ l') = onePerSeq seq l ++ onePerSeq seq l' := by
  induction hn : l.length generalizing l with
  | zero =>
    rw [List.length_eq_zero_iff.mp hn]
    rfl
  | succ n ih =>
    match l, hn, hlt with
    | [a], _, hlt =>
      cases l' with
      | nil => rfl
      | cons b l' =>
        rw [List.singleton_append, onePerSeq_cons_cons, if_neg (hlt a (by simp) b (by simp)).ne]
        rfl
    | a :: b :: l, hn, hlt =>
      have hlen : (b :: l).length = n := by simpa using hn
      have hlen' : (a :: l).length = n := by simpa using hn
      rw [List.cons_append, List.cons_append, onePerSeq_cons_cons, onePerSeq_cons_cons]
      split_ifs with h
      · refine ih (fun x hx => hlt x ?_) hlen'
        rcases List.mem_cons.mp hx with rfl | hx
        · simp
        · simp [hx]
      · rw [List.cons_append]
        congr 1
        exact ih (fun x hx => hlt x (List.mem_cons_of_mem _ hx)) hlen

/-- Every number of the log is replayed. -/
theorem exists_mem_onePerSeq {l : List α} {a : α} (ha : a ∈ l) :
    ∃ b ∈ onePerSeq seq l, seq b = seq a := by
  induction hn : l.length generalizing l with
  | zero =>
    rw [List.length_eq_zero_iff.mp hn] at ha
    cases ha
  | succ n ih =>
    match l, hn, ha with
    | [x], _, ha =>
      obtain rfl := List.mem_singleton.mp ha
      exact ⟨a, List.mem_cons_self, rfl⟩
    | x :: y :: l, hn, ha =>
      have hlen : (y :: l).length = n := by simpa using hn
      have hlen' : (x :: l).length = n := by simpa using hn
      rw [onePerSeq_cons_cons]
      split_ifs with h
      · rcases List.mem_cons.mp ha with rfl | ha
        · exact ih (by simp) hlen'
        · rcases List.mem_cons.mp ha with rfl | ha
          · obtain ⟨b, hb, hseq⟩ : ∃ b ∈ onePerSeq seq (x :: l), seq b = seq x := by
              refine ⟨x, ?_, rfl⟩
              cases l with
              | nil => exact List.mem_cons_self
              | cons z l => exact List.mem_destutter' _ _ _
            exact ⟨b, hb, hseq.trans h⟩
          · exact ih (by simp [ha]) hlen'
      · rcases List.mem_cons.mp ha with rfl | ha
        · exact ⟨a, by simp, rfl⟩
        · obtain ⟨b, hb, hseq⟩ := ih ha hlen
          exact ⟨b, List.mem_cons_of_mem _ hb, hseq⟩

/-! ## Rewriting entries -/

section Map

variable {f : α → α} (hf : ∀ a, seq (f a) = seq a)

include hf

theorem sorted_map (l : List α) : sorted seq (l.map f) = (sorted seq l).map f := by
  refine (List.map_insertionSort _ _ f l fun a _ b _ => ?_).symm
  rw [hf, hf]

theorem onePerSeq_map (l : List α) : onePerSeq seq (l.map f) = (onePerSeq seq l).map f := by
  refine (List.map_destutter fun a _ b _ => ?_).symm
  rw [hf, hf]

end Map

end LeanCtx.SeqLog
