import LeanCtx.Splice

/-!
# What a batch of splices leaves alone

Splices commute with functions on the elements. The elements that no splice of a
batch covers are kept, each once and in their order, and an element is the last
of the result just when everything behind it goes and nothing comes in its place.
-/

namespace LeanCtx.Splice

variable {α β : Type}

/-! ## Functions on the elements -/

def map (f : α → β) (e : Splice α) : Splice β :=
  { startIdx := e.startIdx, removeCount := e.removeCount, newLines := e.newLines.map f }

theorem splice_map (f : α → β) (l : List α) (e : Splice α) :
    splice (l.map f) (e.map f) = (splice l e).map f := by
  simp [splice, map, List.map_take, List.map_drop]

theorem applyAll_map (f : α → β) (l : List α) (es : List (Splice α)) :
    applyAll (l.map f) (es.map (map f)) = (applyAll l es).map f := by
  have hsort : (es.map (map f)).insertionSort (fun a b => b.startIdx ≤ a.startIdx) =
      (es.insertionSort fun a b => b.startIdx ≤ a.startIdx).map (map f) :=
    (List.map_insertionSort (fun a b : Splice α => b.startIdx ≤ a.startIdx)
      (fun a b : Splice β => b.startIdx ≤ a.startIdx) (map f) es fun _ _ _ _ => Iff.rfl).symm
  have hfold : ∀ (es : List (Splice α)) (l : List α),
      (es.map (map f)).foldl splice (l.map f) = (es.foldl splice l).map f := by
    intro es
    induction es with
    | nil => exact fun l => rfl
    | cons e es ih =>
      intro l
      rw [List.map_cons, List.foldl_cons, splice_map, ih, List.foldl_cons]
  rw [applyAll, hsort, hfold, applyAll]

/-! ## Kept elements -/

def Covered (es : List (Splice α)) (i : ℕ) : Prop := ∃ e ∈ es, covers i e = true

/-- Elements that are neither covered nor new are kept in their order. -/
theorem filter_foldl_splice {kept : α → Bool} {l : List α} {es : List (Splice α)}
    (hdesc : Descending es) (hpair : es.Pairwise Apart) (hwithin : ∀ e ∈ es, Within l e)
    (hnew : ∀ e ∈ es, ∀ x ∈ e.newLines, kept x = false)
    (hspan : ∀ e ∈ es, ∀ x ∈ (l.drop e.startIdx).take e.removeCount, kept x = false) :
    (es.foldl splice l).filter kept = l.filter kept := by
  have hnone : ∀ xs : List α, (∀ x ∈ xs, kept x = false) → xs.filter kept = [] := by
    intro xs hxs
    rw [List.filter_eq_nil_iff]
    exact fun x hx => Bool.eq_false_iff.mp (hxs x hx)
  induction es using List.reverseRecOn with
  | nil => rfl
  | append_singleton es e ih =>
    obtain ⟨hdesc', -, hfirst⟩ := List.pairwise_append.mp hdesc
    obtain ⟨hpair', -, hapart⟩ := List.pairwise_append.mp hpair
    replace hfirst : ∀ f ∈ es, e.startIdx ≤ f.startIdx := fun f hf => hfirst f hf e (by simp)
    replace hapart : ∀ f ∈ es, Apart f e := fun f hf => hapart f hf e (by simp)
    have hold := ih hdesc' hpair' (fun f hf => hwithin f (List.mem_append_left _ hf))
      (fun f hf => hnew f (List.mem_append_left _ hf))
      fun f hf => hspan f (List.mem_append_left _ hf)
    have hin : e.startIdx + e.removeCount ≤ l.length := hwithin e (by simp)
    have hA : (l.take e.startIdx).length = e.startIdx := by
      rw [List.length_take]
      omega
    rw [List.foldl_append, ← hold]
    by_cases he : e.removeCount = 0
    · obtain ⟨X, hX⟩ := foldl_splice_below (A := l.take e.startIdx) (B := l.drop e.startIdx)
        (show ∀ f ∈ es, (l.take e.startIdx).length ≤ f.startIdx by rwa [hA])
      rw [List.take_append_drop] at hX
      rw [hX, List.foldl_cons, List.foldl_nil, splice_append hA, he, List.drop_zero]
      simp only [List.filter_append, hnone _ (hnew e (by simp)), List.append_nil]
    · have hpos : 0 < e.removeCount := Nat.pos_of_ne_zero he
      have hS : ((l.drop e.startIdx).take e.removeCount).length = e.removeCount := by
        rw [List.length_take, List.length_drop]
        omega
      obtain ⟨X, hX⟩ := foldl_splice_span (B := (l.drop e.startIdx).drop e.removeCount)
        hdesc' hpair' hpos hA hS hfirst hapart
      rw [List.append_assoc (l.take _), List.take_append_drop, List.take_append_drop] at hX
      -- What goes is inserted or covered.
      have hgone : ∀ x ∈ insertedAt es e.startIdx ++ (l.drop e.startIdx).take e.removeCount,
          kept x = false := by
        intro x hx
        rcases List.mem_append.mp hx with hx | hx
        · rw [insertedAt] at hx
          cases hfind : es.find? (insertsAt e.startIdx) with
          | none => simp [hfind] at hx
          | some d =>
            rw [hfind] at hx
            exact hnew d (List.mem_append_left _ (List.mem_of_find?_eq_some hfind)) x hx
        · exact hspan e (by simp) x hx
      have hdropped := fun x hx => hgone x (List.mem_of_mem_drop (i := e.removeCount) hx)
      rw [hX, List.foldl_cons, List.foldl_nil, List.append_assoc, splice_append hA,
        List.drop_append_of_le_length (by rw [List.length_append]; omega)]
      simp only [List.filter_append, hnone _ (hnew e (by simp)), hnone _ hdropped, List.append_nil]
      rw [← List.filter_append, hnone _ hgone]

theorem filter_applyAll {kept : α → Bool} {l : List α} {es : List (Splice α)}
    (hpair : es.Pairwise Apart) (hwithin : ∀ e ∈ es, Within l e)
    (hnew : ∀ e ∈ es, ∀ x ∈ e.newLines, kept x = false)
    (hspan : ∀ e ∈ es, ∀ x ∈ (l.drop e.startIdx).take e.removeCount, kept x = false) :
    (applyAll l es).filter kept = l.filter kept := by
  have hperm := List.perm_insertionSort (fun a b : Splice α => b.startIdx ≤ a.startIdx) es
  exact filter_foldl_splice (List.pairwise_insertionSort _ es) (hperm.symm.pairwise hpair Or.symm)
    (fun e he => hwithin e (hperm.mem_iff.mp he)) (fun e he => hnew e (hperm.mem_iff.mp he))
    fun e he => hspan e (hperm.mem_iff.mp he)

/-! ## What stands behind a kept element -/

theorem splice_append_of_le {A Y : List α} {e : Splice α}
    (h : e.startIdx + e.removeCount ≤ A.length) : splice (A ++ Y) e = splice A e ++ Y := by
  rw [splice, splice, List.take_append_of_le_length (by omega), List.drop_append_of_le_length h]
  simp only [List.append_assoc]

/-- Splices within a first part do not see what follows it. -/
theorem foldl_splice_append {A Y : List α} {es : List (Splice α)} (hdesc : Descending es)
    (hpair : es.Pairwise Apart) (hwithin : ∀ e ∈ es, Within A e) :
    es.foldl splice (A ++ Y) = es.foldl splice A ++ Y := by
  induction es using List.reverseRecOn with
  | nil => rfl
  | append_singleton es e ih =>
    obtain ⟨hdesc', -, hfirst⟩ := List.pairwise_append.mp hdesc
    obtain ⟨hpair', -, hapart⟩ := List.pairwise_append.mp hpair
    replace hfirst : ∀ f ∈ es, e.startIdx ≤ f.startIdx := fun f hf => hfirst f hf e (by simp)
    replace hapart : ∀ f ∈ es, Apart f e := fun f hf => hapart f hf e (by simp)
    have hin : e.startIdx + e.removeCount ≤ A.length := hwithin e (by simp)
    have hA : (A.take e.startIdx).length = e.startIdx := by
      rw [List.length_take]
      omega
    have hlen : e.startIdx + e.removeCount ≤ (es.foldl splice A).length := by
      by_cases he : e.removeCount = 0
      · obtain ⟨X, hX⟩ := foldl_splice_below (A := A.take e.startIdx) (B := A.drop e.startIdx)
          (show ∀ f ∈ es, (A.take e.startIdx).length ≤ f.startIdx by rwa [hA])
        rw [List.take_append_drop] at hX
        rw [hX, List.length_append, hA]
        omega
      · have hS : ((A.drop e.startIdx).take e.removeCount).length = e.removeCount := by
          rw [List.length_take, List.length_drop]
          omega
        obtain ⟨X, hX⟩ := foldl_splice_span (B := (A.drop e.startIdx).drop e.removeCount)
          hdesc' hpair' (Nat.pos_of_ne_zero he) hA hS hfirst hapart
        rw [List.append_assoc (A.take _), List.take_append_drop, List.take_append_drop] at hX
        rw [hX]
        simp only [List.length_append]
        omega
    rw [List.foldl_append, List.foldl_append,
      ih hdesc' hpair' fun f hf => hwithin f (List.mem_append_left _ hf)]
    exact splice_append_of_le hlen

theorem filter_append_of_descending {es : List (Splice α)} (h : Descending es) (i : ℕ) :
    es = es.filter (fun e => i < e.startIdx) ++ es.filter (fun e => e.startIdx ≤ i) := by
  induction es with
  | nil => rfl
  | cons e es ih =>
    obtain ⟨hhead, htail⟩ := List.pairwise_cons.mp h
    by_cases he : i < e.startIdx
    · simp only [List.filter_cons, he, decide_true, if_true, not_le.mpr he, decide_false,
        Bool.false_eq_true, if_false, List.cons_append]
      rw [← ih htail]
    · have hle : e.startIdx ≤ i := not_lt.mp he
      have hnone : es.filter (fun e => i < e.startIdx) = [] := by
        rw [List.filter_eq_nil_iff]
        intro f hf
        have := hhead f hf
        simp only [decide_eq_true_eq]
        omega
      have hrest := ih htail
      rw [hnone, List.nil_append] at hrest
      simp only [List.filter_cons, he, decide_false, Bool.false_eq_true, if_false, hnone, hle,
        decide_true, if_true, List.nil_append]
      rw [← hrest]

/-- Nothing is left behind a position: all of it goes and nothing comes. -/
def ClearedAfter (n : ℕ) (es : List (Splice α)) (i : ℕ) : Prop :=
  (∀ j, i < j → j < n → Covered es j) ∧ ∀ e ∈ es, i < e.startIdx → e.newLines = []

theorem outLines_eq_nil {es : List (Splice α)} {xs : List α} {i : ℕ} :
    outLines es i xs = [] ↔ ∀ j (h : j < xs.length),
      insertedAt es (i + j) = [] ∧ lineImage es xs[j] (i + j) = [] := by
  induction xs generalizing i with
  | nil => simp [outLines]
  | cons x xs ih =>
    rw [outLines, List.append_eq_nil_iff, List.append_eq_nil_iff, ih]
    constructor
    · rintro ⟨hhere, hrest⟩ j hj
      cases j with
      | zero => exact hhere
      | succ j =>
        have := hrest j (by simpa using hj)
        rw [Nat.add_right_comm, Nat.add_assoc] at this
        exact this
    · intro h
      refine ⟨h 0 (by simp), fun j hj => ?_⟩
      have := h (j + 1) (by simpa using hj)
      rw [← Nat.add_assoc, Nat.add_right_comm] at this
      exact this

/-- An element that is not covered is kept, and what stands behind it in the result is nothing
just when all behind it is cleared. -/
theorem foldl_splice_split {A B : List α} {x : α} {es : List (Splice α)} (hdesc : Descending es)
    (hpair : es.Pairwise Apart) (hwithin : ∀ e ∈ es, Within (A ++ x :: B) e)
    (hkept : ¬ Covered es A.length) :
    ∃ P Q, es.foldl splice (A ++ x :: B) = P ++ x :: Q ∧
      (Q = [] ↔ ClearedAfter (A ++ x :: B).length es A.length) := by
  have hsplit := filter_append_of_descending hdesc A.length
  generalize hhigh : es.filter (fun e => A.length < e.startIdx) = high at hsplit
  generalize hlow : es.filter (fun e => e.startIdx ≤ A.length) = low at hsplit
  have hmemHigh : ∀ e, e ∈ high ↔ e ∈ es ∧ A.length < e.startIdx := by
    intro e
    rw [← hhigh, List.mem_filter, decide_eq_true_iff]
  have hmemLow : ∀ e ∈ low, e ∈ es ∧ e.startIdx ≤ A.length := by
    intro e he
    rwa [← hlow, List.mem_filter, decide_eq_true_iff] at he
  rw [hsplit] at hdesc hpair
  obtain ⟨hdescHigh, hdescLow, -⟩ := List.pairwise_append.mp hdesc
  obtain ⟨hpairHigh, hpairLow, -⟩ := List.pairwise_append.mp hpair
  have hlowWithin : ∀ e ∈ low, Within A e := by
    intro e he
    obtain ⟨hmem, hle⟩ := hmemLow e he
    by_contra hnot
    exact hkept ⟨e, hmem, covers_iff.mpr ⟨hle, by rw [Within] at hnot; omega⟩⟩
  -- The splices behind the element leave it and all before it.
  have hprefix : (A ++ [x]).length = A.length + 1 := by simp
  have hbehind : ∀ e ∈ high, (A ++ [x]).length ≤ e.startIdx := by
    intro e he
    have := ((hmemHigh e).mp he).2
    omega
  obtain ⟨Q, hQ⟩ := foldl_splice_below (B := B) hbehind
  rw [List.append_assoc, List.singleton_append, List.append_assoc, List.singleton_append] at hQ
  have hlen := (foldl_splice_iff hdescHigh hpairHigh
    fun e he => hwithin e ((hmemHigh e).mp he).1).1
  have hmeaning : simultaneous (A ++ x :: B) high = A ++ x ::
      (outLines high (A.length + 1) B ++ insertedAt high (A ++ x :: B).length) := by
    have hbelow : outLines high 0 (A ++ [x]) = A ++ [x] := outLines_below fun e he => by
      have := hbehind e he
      omega
    rw [simultaneous, show A ++ x :: B = (A ++ [x]) ++ B by simp, outLines_append, hbelow,
      Nat.zero_add, hprefix]
    simp
  refine ⟨low.foldl splice A, Q, ?_, ?_⟩
  · rw [hsplit, List.foldl_append, hQ, foldl_splice_append hdescLow hpairLow hlowWithin]
  · have hQlen : Q.length =
        (outLines high (A.length + 1) B ++ insertedAt high (A ++ x :: B).length).length := by
      rw [hQ, hmeaning, List.length_append, List.length_append, List.length_cons,
        List.length_cons] at hlen
      omega
    rw [← List.length_eq_zero_iff, hQlen, List.length_eq_zero_iff, List.append_eq_nil_iff,
      outLines_eq_nil]
    have hn : (A ++ x :: B).length = A.length + 1 + B.length := by
      rw [List.length_append, List.length_cons]
      omega
    constructor
    · rintro ⟨hlines, hend⟩
      have hinserted : ∀ i, A.length < i → i ≤ (A ++ x :: B).length → insertedAt high i = [] := by
        intro i hlt hle
        rcases Nat.lt_or_ge i (A ++ x :: B).length with hi | hi
        · have := (hlines (i - (A.length + 1)) (by omega)).1
          rwa [Nat.add_sub_cancel' (by omega)] at this
        · rwa [Nat.le_antisymm hle hi]
      have hcovered : ∀ j, A.length < j → j < (A ++ x :: B).length →
          ∃ e, high.find? (covers j) = some e ∧ (e.startIdx = j → e.newLines = []) := by
        intro j hlt hj
        obtain ⟨-, himage⟩ := hlines (j - (A.length + 1)) (by omega)
        rw [Nat.add_sub_cancel' (by omega), lineImage] at himage
        cases hfind : high.find? (covers j) with
        | none => simp [hfind] at himage
        | some e =>
          refine ⟨e, rfl, fun hstart => ?_⟩
          simpa [hfind, hstart] using himage
      refine ⟨fun j hlt hj => ?_, fun e he hlt => ?_⟩
      · obtain ⟨e, hfind, -⟩ := hcovered j hlt hj
        exact ⟨e, ((hmemHigh e).mp (List.mem_of_find?_eq_some hfind)).1, List.find?_some hfind⟩
      · have hmem := (hmemHigh e).mpr ⟨he, hlt⟩
        have hin : e.startIdx + e.removeCount ≤ (A ++ x :: B).length := hwithin e he
        by_cases hcount : e.removeCount = 0
        · rw [← insertedAt_of_mem hpairHigh hmem hcount]
          exact hinserted _ hlt (by omega)
        · obtain ⟨f, hfind, hnil⟩ := hcovered e.startIdx hlt (by omega)
          have hself : covers e.startIdx e = true := covers_iff.mpr ⟨le_rfl, by omega⟩
          have hfe := covers_unique hpairHigh e.startIdx f (List.mem_of_find?_eq_some hfind) e hmem
            (List.find?_some hfind) hself
          rw [hfe] at hnil
          exact hnil rfl
    · rintro ⟨hcovered, hnew⟩
      have hinserted : ∀ i, insertedAt high i = [] := by
        intro i
        cases hfind : high.find? (insertsAt i) with
        | none => simp [insertedAt, hfind]
        | some e =>
          obtain ⟨he, hlt⟩ := (hmemHigh e).mp (List.mem_of_find?_eq_some hfind)
          simp [insertedAt, hfind, hnew e he hlt]
      refine ⟨fun j hj => ⟨hinserted _, ?_⟩, hinserted _⟩
      obtain ⟨e, he, hcover⟩ := hcovered (A.length + 1 + j) (by omega) (by omega)
      have hhigh : e ∈ high := by
        refine (hmemHigh e).mpr ⟨he, ?_⟩
        -- A splice that starts before the element would cover it.
        by_contra hnot
        rw [covers_iff] at hcover
        exact hkept ⟨e, he, covers_iff.mpr ⟨by omega, by omega⟩⟩
      rw [lineImage]
      cases hfind : high.find? (covers (A.length + 1 + j)) with
      | none => exact absurd hcover (List.find?_eq_none.mp hfind e hhigh)
      | some f =>
        obtain ⟨hf, hlt⟩ := (hmemHigh f).mp (List.mem_of_find?_eq_some hfind)
        simp [hnew f hf hlt]

theorem applyAll_split {A B : List α} {x : α} {es : List (Splice α)}
    (hpair : es.Pairwise Apart) (hwithin : ∀ e ∈ es, Within (A ++ x :: B) e)
    (hkept : ¬ Covered es A.length) :
    ∃ P Q, applyAll (A ++ x :: B) es = P ++ x :: Q ∧
      (Q = [] ↔ ClearedAfter (A ++ x :: B).length es A.length) := by
  have hperm := List.perm_insertionSort (fun a b : Splice α => b.startIdx ≤ a.startIdx) es
  have hcovered : ∀ i, Covered (es.insertionSort fun a b => b.startIdx ≤ a.startIdx) i ↔
      Covered es i := by
    intro i
    simp only [Covered, hperm.mem_iff]
  obtain ⟨P, Q, happly, hQ⟩ := foldl_splice_split (List.pairwise_insertionSort _ es)
    (hperm.symm.pairwise hpair Or.symm) (fun e he => hwithin e (hperm.mem_iff.mp he))
    (mt (hcovered A.length).mp hkept)
  refine ⟨P, Q, happly, hQ.trans ?_⟩
  simp only [ClearedAfter, hcovered, hperm.mem_iff]

theorem covered_map (f : α → β) {es : List (Splice α)} {i : ℕ} :
    Covered (es.map (map f)) i ↔ Covered es i := by
  constructor
  · rintro ⟨e, he, hcover⟩
    obtain ⟨e', he', rfl⟩ := List.mem_map.mp he
    exact ⟨e', he', hcover⟩
  · rintro ⟨e, he, hcover⟩
    exact ⟨e.map f, List.mem_map_of_mem he, hcover⟩

theorem clearedAfter_map (f : α → β) {es : List (Splice α)} {n i : ℕ} :
    ClearedAfter n (es.map (map f)) i ↔ ClearedAfter n es i := by
  simp only [ClearedAfter, covered_map, List.forall_mem_map]
  simp [map]

theorem pairwise_apart_map (f : α → β) {es : List (Splice α)} :
    (es.map (map f)).Pairwise Apart ↔ es.Pairwise Apart := List.pairwise_map

end LeanCtx.Splice
