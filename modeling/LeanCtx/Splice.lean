import Mathlib.Data.List.Basic
import Mathlib.Data.List.Induction
import Mathlib.Data.List.Pairwise
import Mathlib.Data.List.Perm.Basic
import Mathlib.Data.List.Sort

/-!
# Batches of splices

A splice replaces some successive elements of a list, an insertion none of them.
A batch of splices that touch different elements means one list: every element
is replaced where it stood in the original. The machine applies the splices one
after the other, from the end of the list to its start.
-/

namespace LeanCtx

structure Splice (α : Type) where
  startIdx : ℕ
  removeCount : ℕ
  newLines : List α

namespace Splice

variable {α β : Type}

/-- `Vec::splice`. -/
def splice (l : List α) (e : Splice α) : List α :=
  l.take e.startIdx ++ e.newLines ++ l.drop (e.startIdx + e.removeCount)

def applyAll (l : List α) (es : List (Splice α)) : List α :=
  (es.insertionSort fun a b => b.startIdx ≤ a.startIdx).foldl splice l

/-! ## The list that a batch means -/

def insertsAt (i : ℕ) (e : Splice α) : Bool := decide (e.removeCount = 0 ∧ e.startIdx = i)

def covers (i : ℕ) (e : Splice α) : Bool :=
  decide (e.startIdx ≤ i ∧ i < e.startIdx + e.removeCount)

/-- What is inserted before the element at a position. -/
def insertedAt (es : List (Splice α)) (i : ℕ) : List α :=
  ((es.find? (insertsAt i)).map newLines).getD []

/-- What stands in the place of the element at a position. -/
def lineImage (es : List (Splice α)) (x : α) (i : ℕ) : List α :=
  match es.find? (covers i) with
  | none => [x]
  | some e => if e.startIdx = i then e.newLines else []

def outLines (es : List (Splice α)) : ℕ → List α → List α
  | _, [] => []
  | i, x :: xs => insertedAt es i ++ lineImage es x i ++ outLines es (i + 1) xs

/-- All splices of the batch at once. -/
def simultaneous (l : List α) (es : List (Splice α)) : List α :=
  outLines es 0 l ++ insertedAt es l.length

/-! ## Batches that touch different elements -/

/-- The first line a splice depends on, counted from one; an insertion depends on the line
before it. -/
def lo (e : Splice α) : ℕ := if e.removeCount = 0 then e.startIdx else e.startIdx + 1

def hi (e : Splice α) : ℕ := e.startIdx + e.removeCount

def Apart (a b : Splice α) : Prop := a.hi < b.lo ∨ b.hi < a.lo

def Within (l : List α) (e : Splice α) : Prop := e.startIdx + e.removeCount ≤ l.length

instance : Std.Symm (Apart (α := α)) := ⟨fun _ _ h => Or.symm h⟩

theorem lo_le_hi (e : Splice α) : e.lo ≤ e.hi := by
  unfold lo hi
  split_ifs <;> omega

theorem not_apart_self (e : Splice α) : ¬ Apart e e := by
  have := lo_le_hi e
  rintro (h | h) <;> omega

/-- Members of a batch that are not apart are the same splice. -/
theorem eq_of_not_apart {es : List (Splice α)} (h : es.Pairwise Apart) {a b : Splice α}
    (ha : a ∈ es) (hb : b ∈ es) (hab : ¬ Apart a b) : a = b := by
  by_contra hne
  exact hab (h.forall ha hb hne)

theorem find?_perm {es es' : List (Splice α)} (hperm : es'.Perm es) {p : Splice α → Bool}
    (hone : ∀ a ∈ es, ∀ b ∈ es, p a = true → p b = true → a = b) :
    es'.find? p = es.find? p := by
  cases hfind : es.find? p with
  | none =>
    rw [List.find?_eq_none] at hfind ⊢
    exact fun e he => hfind e (hperm.mem_iff.mp he)
  | some e =>
    have he := List.mem_of_find?_eq_some hfind
    have hp := List.find?_some hfind
    have hsome : (es'.find? p).isSome = true := by
      rw [List.find?_isSome]
      exact ⟨e, hperm.mem_iff.mpr he, hp⟩
    obtain ⟨e', he'⟩ := Option.isSome_iff_exists.mp hsome
    rw [he', hone e' (hperm.mem_iff.mp (List.mem_of_find?_eq_some he')) e he
      (List.find?_some he') hp]

@[simp] theorem insertsAt_iff {i : ℕ} {e : Splice α} :
    insertsAt i e = true ↔ e.removeCount = 0 ∧ e.startIdx = i := decide_eq_true_iff

@[simp] theorem covers_iff {i : ℕ} {e : Splice α} :
    covers i e = true ↔ e.startIdx ≤ i ∧ i < e.startIdx + e.removeCount := decide_eq_true_iff

theorem insertsAt_unique {es : List (Splice α)} (h : es.Pairwise Apart) (i : ℕ) :
    ∀ a ∈ es, ∀ b ∈ es, insertsAt i a = true → insertsAt i b = true → a = b := by
  intro a ha b hb hpa hpb
  obtain ⟨hca, hsa⟩ := insertsAt_iff.mp hpa
  obtain ⟨hcb, hsb⟩ := insertsAt_iff.mp hpb
  apply eq_of_not_apart h ha hb
  rw [Apart, lo, lo, hi, hi, if_pos hca, if_pos hcb]
  omega

theorem covers_unique {es : List (Splice α)} (h : es.Pairwise Apart) (i : ℕ) :
    ∀ a ∈ es, ∀ b ∈ es, covers i a = true → covers i b = true → a = b := by
  intro a ha b hb hpa hpb
  rw [covers_iff] at hpa hpb
  apply eq_of_not_apart h ha hb
  rw [Apart, lo, lo, hi, hi, if_neg (by omega), if_neg (by omega)]
  omega

theorem insertedAt_of_mem {es : List (Splice α)} (h : es.Pairwise Apart) {d : Splice α}
    (hd : d ∈ es) (hcount : d.removeCount = 0) : insertedAt es d.startIdx = d.newLines := by
  have hself : insertsAt d.startIdx d = true := insertsAt_iff.mpr ⟨hcount, rfl⟩
  cases hfind : es.find? (insertsAt d.startIdx) with
  | none => exact absurd hself (List.find?_eq_none.mp hfind d hd)
  | some e =>
    have he := insertsAt_unique h d.startIdx e (List.mem_of_find?_eq_some hfind) d hd
      (List.find?_some hfind) hself
    rw [insertedAt, hfind, he]
    rfl

/-- The order of a batch does not matter for what it means. -/
theorem simultaneous_perm {es es' : List (Splice α)} (hperm : es'.Perm es)
    (h : es.Pairwise Apart) (l : List α) : simultaneous l es' = simultaneous l es := by
  have hinserted : ∀ i, insertedAt es' i = insertedAt es i := by
    intro i
    rw [insertedAt, insertedAt, find?_perm hperm (insertsAt_unique h i)]
  have hlines : ∀ (xs : List α) (i : ℕ), outLines es' i xs = outLines es i xs := by
    intro xs
    induction xs with
    | nil => intro i; rfl
    | cons x xs ih =>
      intro i
      rw [outLines, outLines, hinserted, ih, lineImage, lineImage,
        find?_perm hperm (covers_unique h i)]
  rw [simultaneous, simultaneous, hlines, hinserted]

/-! ## One more splice, above the others -/

theorem outLines_append (es : List (Splice α)) (xs ys : List α) (i : ℕ) :
    outLines es i (xs ++ ys) = outLines es i xs ++ outLines es (i + xs.length) ys := by
  induction xs generalizing i with
  | nil => rfl
  | cons x xs ih =>
    rw [List.cons_append, outLines, outLines, ih, List.length_cons, List.append_assoc,
      List.append_assoc, List.append_assoc, Nat.add_right_comm i 1, Nat.add_assoc i]

theorem insertedAt_eq_nil {es : List (Splice α)} {i : ℕ}
    (h : ∀ e ∈ es, e.removeCount = 0 → e.startIdx ≠ i) : insertedAt es i = [] := by
  rw [insertedAt, List.find?_eq_none.mpr]
  · rfl
  · intro e he
    rw [insertsAt_iff, not_and]
    exact h e he

theorem lineImage_eq_self {es : List (Splice α)} {i : ℕ} (x : α)
    (h : ∀ e ∈ es, i < e.startIdx ∨ e.startIdx + e.removeCount ≤ i) : lineImage es x i = [x] := by
  rw [lineImage, List.find?_eq_none.mpr]
  intro e he
  have := h e he
  rw [covers_iff]
  omega

/-- Elements below all splices stay as they are. -/
theorem outLines_below {es : List (Splice α)} {xs : List α} {i : ℕ}
    (h : ∀ e ∈ es, i + xs.length ≤ e.startIdx) : outLines es i xs = xs := by
  induction xs generalizing i with
  | nil => rfl
  | cons x xs ih =>
    rw [List.length_cons] at h
    have hinserted : insertedAt es i = [] := insertedAt_eq_nil fun e he _ => by
      have := h e he
      omega
    have himage : lineImage es x i = [x] := lineImage_eq_self x fun e he => by
      have := h e he
      omega
    rw [outLines, hinserted, himage, ih fun e he => by have := h e he; omega]
    rfl

theorem find?_append_of_false {es : List (Splice α)} {e : Splice α} {p : Splice α → Bool}
    (h : ¬ p e = true) : (es ++ [e]).find? p = es.find? p := by
  rw [List.find?_append, List.find?_cons_of_neg h, List.find?_nil, Option.or_none]

theorem insertedAt_append {es : List (Splice α)} {e : Splice α} {i : ℕ}
    (h : e.removeCount = 0 → e.startIdx ≠ i) : insertedAt (es ++ [e]) i = insertedAt es i := by
  rw [insertedAt, insertedAt, find?_append_of_false]
  rw [insertsAt_iff, not_and]
  exact h

theorem lineImage_append {es : List (Splice α)} {e : Splice α} {i : ℕ} (x : α)
    (h : i < e.startIdx ∨ e.startIdx + e.removeCount ≤ i) :
    lineImage (es ++ [e]) x i = lineImage es x i := by
  rw [lineImage, lineImage, find?_append_of_false]
  rw [covers_iff]
  omega

theorem outLines_above {es : List (Splice α)} {e : Splice α} {i : ℕ} (xs : List α)
    (h : e.startIdx + e.removeCount ≤ i) (hins : e.removeCount = 0 → e.startIdx < i) :
    outLines (es ++ [e]) i xs = outLines es i xs := by
  induction xs generalizing i with
  | nil => rfl
  | cons x xs ih =>
    have hlt := ih (i := i + 1) (by omega) (by omega)
    rw [outLines, outLines, insertedAt_append (by omega), lineImage_append x (by omega), hlt]

/-- The last splice of a sorted batch inserts. -/
theorem simultaneous_insert {es : List (Splice α)} {e : Splice α} {A B : List α}
    (he : e.removeCount = 0) (hA : A.length = e.startIdx) (hfirst : ∀ f ∈ es, e.startIdx ≤ f.startIdx)
    (hapart : ∀ f ∈ es, Apart f e) :
    ∃ T, simultaneous (A ++ B) es = A ++ T ∧
      simultaneous (A ++ B) (es ++ [e]) = A ++ e.newLines ++ T := by
  have hnone : insertedAt es e.startIdx = [] := insertedAt_eq_nil fun f hf hcount hstart => by
    have := hapart f hf
    rw [Apart, lo, lo, hi, hi, if_pos he, if_pos hcount] at this
    omega
  have hhere : insertedAt (es ++ [e]) e.startIdx = e.newLines := by
    have hfind : es.find? (insertsAt e.startIdx) = none := by
      rw [List.find?_eq_none]
      intro f hf
      rw [insertsAt_iff]
      rintro ⟨hcount, hstart⟩
      have := hapart f hf
      rw [Apart, lo, lo, hi, hi, if_pos he, if_pos hcount] at this
      omega
    have hself : insertsAt e.startIdx e = true := insertsAt_iff.mpr ⟨he, rfl⟩
    rw [insertedAt, List.find?_append, hfind, List.find?_cons_of_pos hself]
    rfl
  have hbelow : outLines es 0 A = A := outLines_below fun f hf => by
    have := hfirst f hf
    omega
  have hbelow' : outLines (es ++ [e]) 0 A = A := outLines_below fun f hf => by
    rcases List.mem_append.mp hf with hf | hf
    · have := hfirst f hf
      omega
    · rw [List.mem_singleton.mp hf]
      omega
  refine ⟨outLines es e.startIdx B ++ insertedAt es (A ++ B).length, ?_, ?_⟩
  · rw [simultaneous, outLines_append, hbelow, Nat.zero_add, hA, List.append_assoc]
  · rw [simultaneous, outLines_append, hbelow', Nat.zero_add, hA]
    cases B with
    | nil =>
      rw [List.append_nil, hA, hhere, hnone]
      simp [outLines]
    | cons x B =>
      have himage : lineImage (es ++ [e]) x e.startIdx = lineImage es x e.startIdx :=
        lineImage_append x (by omega)
      have hend : insertedAt (es ++ [e]) (A ++ x :: B).length = insertedAt es (A ++ x :: B).length :=
        insertedAt_append fun _ => by
          rw [List.length_append, List.length_cons]
          omega
      rw [outLines, outLines, hhere, hnone, himage, hend,
        outLines_above B (by omega) (by omega)]
      simp [List.append_assoc]

/-- The elements of a span, all in the place of the first of them. -/
theorem outLines_span {es : List (Splice α)} {e : Splice α} (he : 0 < e.removeCount) {S : List α}
    (hS : S.length = e.removeCount) (hapart : ∀ f ∈ es, Apart f e) :
    outLines (es ++ [e]) e.startIdx S = insertedAt es e.startIdx ++ e.newLines := by
  have hfind : ∀ i, covers i e = true → (es ++ [e]).find? (covers i) = some e := by
    intro i hcover
    have hnone : es.find? (covers i) = none := by
      rw [List.find?_eq_none]
      intro f hf
      rw [covers_iff]
      intro hf'
      have hap := hapart f hf
      rw [covers_iff] at hcover
      rw [Apart, lo, lo, hi, hi, if_neg (by omega), if_neg (by omega)] at hap
      omega
    rw [List.find?_append, hnone, List.find?_cons_of_pos hcover]
    rfl
  have hempty : ∀ (xs : List α) (i : ℕ), e.startIdx < i →
      i + xs.length ≤ e.startIdx + e.removeCount → outLines (es ++ [e]) i xs = [] := by
    intro xs
    induction xs with
    | nil => intro i _ _; rfl
    | cons x xs ih =>
      intro i hlt hle
      rw [List.length_cons] at hle
      have hinserted : insertedAt (es ++ [e]) i = [] := insertedAt_eq_nil fun f hf hcount hstart => by
        rcases List.mem_append.mp hf with hf | hf
        · have hap := hapart f hf
          rw [Apart, lo, lo, hi, hi, if_pos hcount, if_neg (by omega)] at hap
          omega
        · rw [List.mem_singleton.mp hf] at hcount
          omega
      rw [outLines, hinserted, lineImage, hfind i (covers_iff.mpr ⟨by omega, by omega⟩),
        ih (i + 1) (by omega) (by omega)]
      simp [hlt.ne]
  cases S with
  | nil =>
    rw [List.length_nil] at hS
    omega
  | cons x S =>
    rw [List.length_cons] at hS
    rw [outLines, insertedAt_append (by omega), lineImage,
      hfind e.startIdx (covers_iff.mpr ⟨by omega, by omega⟩), hempty S _ (by omega) (by omega)]
    simp

/-- A span that the others do not touch, with what is inserted above it. -/
theorem outLines_kept {es : List (Splice α)} {e : Splice α} (he : 0 < e.removeCount) {S : List α}
    (hS : S.length = e.removeCount) (hfirst : ∀ f ∈ es, e.startIdx ≤ f.startIdx)
    (hapart : ∀ f ∈ es, Apart f e) :
    outLines es e.startIdx S = insertedAt es e.startIdx ++ S := by
  have hfar : ∀ f ∈ es, (f.removeCount = 0 ∧ f.startIdx = e.startIdx) ∨
      e.startIdx + e.removeCount ≤ f.startIdx := by
    intro f hf
    have hap := hapart f hf
    have := hfirst f hf
    rw [Apart, lo, lo, hi, hi, if_neg (by omega : ¬ e.removeCount = 0)] at hap
    split_ifs at hap <;> omega
  have hrest : ∀ (xs : List α) (i : ℕ), e.startIdx < i →
      i + xs.length ≤ e.startIdx + e.removeCount → outLines es i xs = xs := by
    intro xs
    induction xs with
    | nil => intro i _ _; rfl
    | cons x xs ih =>
      intro i hlt hle
      rw [List.length_cons] at hle
      have hinserted : insertedAt es i = [] := insertedAt_eq_nil fun f hf hcount hstart => by
        have := hfar f hf
        omega
      have himage : lineImage es x i = [x] := lineImage_eq_self x fun f hf => by
        have := hfar f hf
        omega
      rw [outLines, hinserted, himage, ih (i + 1) (by omega) (by omega)]
      rfl
  cases S with
  | nil =>
    rw [List.length_nil] at hS
    omega
  | cons x S =>
    rw [List.length_cons] at hS
    have himage : lineImage es x e.startIdx = [x] := lineImage_eq_self x fun f hf => by
      have := hfar f hf
      omega
    rw [outLines, himage, hrest S _ (by omega) (by omega)]
    simp

/-- The last splice of a sorted batch replaces a span. -/
theorem simultaneous_span {es : List (Splice α)} {e : Splice α} {A S B : List α}
    (he : 0 < e.removeCount) (hA : A.length = e.startIdx) (hS : S.length = e.removeCount)
    (hfirst : ∀ f ∈ es, e.startIdx ≤ f.startIdx) (hapart : ∀ f ∈ es, Apart f e) :
    ∃ T, simultaneous (A ++ S ++ B) es = A ++ (insertedAt es e.startIdx ++ S) ++ T ∧
      simultaneous (A ++ S ++ B) (es ++ [e]) =
        A ++ (insertedAt es e.startIdx ++ e.newLines) ++ T := by
  have hbelow : outLines es 0 A = A := outLines_below fun f hf => by
    have := hfirst f hf
    omega
  have hbelow' : outLines (es ++ [e]) 0 A = A := outLines_below fun f hf => by
    rcases List.mem_append.mp hf with hf | hf
    · have := hfirst f hf
      omega
    · rw [List.mem_singleton.mp hf]
      omega
  refine ⟨outLines es (e.startIdx + e.removeCount) B ++ insertedAt es (A ++ S ++ B).length, ?_, ?_⟩
  · rw [simultaneous, outLines_append, outLines_append, hbelow, Nat.zero_add, hA,
      outLines_kept he hS hfirst hapart, List.length_append, hA, hS, Nat.zero_add,
      List.append_assoc (A ++ _)]
  · rw [simultaneous, outLines_append, outLines_append, hbelow', Nat.zero_add, hA,
      outLines_span he hS hapart, List.length_append, hA, hS, Nat.zero_add,
      outLines_above B le_rfl (by omega), insertedAt_append (by omega), List.append_assoc (A ++ _)]

/-! ## The machine -/

abbrev Descending (es : List (Splice α)) : Prop :=
  es.Pairwise fun a b => b.startIdx ≤ a.startIdx

theorem splice_append {A : List α} {e : Splice α} (hA : A.length = e.startIdx) (B : List α) :
    splice (A ++ B) e = A ++ e.newLines ++ B.drop e.removeCount := by
  rw [splice, ← hA, List.take_left, List.drop_length_add_append]

/-- What stands before all splices is not touched. -/
theorem foldl_splice_below {es : List (Splice α)} {A B : List α}
    (h : ∀ e ∈ es, A.length ≤ e.startIdx) : ∃ X, es.foldl splice (A ++ B) = A ++ X := by
  induction es using List.reverseRecOn with
  | nil => exact ⟨B, rfl⟩
  | append_singleton es e ih =>
    obtain ⟨X, hX⟩ := ih fun f hf => h f (List.mem_append_left _ hf)
    have he := h e (by simp)
    rw [List.foldl_append, hX, List.foldl_cons, List.foldl_nil, splice, List.take_append,
      List.take_of_length_le he, List.append_assoc, List.append_assoc]
    exact ⟨_, rfl⟩

/-- Before a span is replaced it still stands there, under what was inserted above it. -/
theorem foldl_splice_span {es : List (Splice α)} {e : Splice α} {A S B : List α}
    (hdesc : Descending es) (hpair : es.Pairwise Apart)
    (he : 0 < e.removeCount) (hA : A.length = e.startIdx) (hS : S.length = e.removeCount)
    (hfirst : ∀ f ∈ es, e.startIdx ≤ f.startIdx) (hapart : ∀ f ∈ es, Apart f e) :
    ∃ X, es.foldl splice (A ++ S ++ B) = A ++ (insertedAt es e.startIdx ++ S) ++ X := by
  have hfar : ∀ f ∈ es, (f.removeCount = 0 ∧ f.startIdx = e.startIdx) ∨
      e.startIdx + e.removeCount ≤ f.startIdx := by
    intro f hf
    have hap := hapart f hf
    have := hfirst f hf
    rw [Apart, lo, lo, hi, hi, if_neg (by omega : ¬ e.removeCount = 0)] at hap
    split_ifs at hap <;> omega
  induction es using List.reverseRecOn with
  | nil => exact ⟨B, rfl⟩
  | append_singleton es d _ =>
    have habove : (∀ f ∈ es, e.startIdx + e.removeCount ≤ f.startIdx) →
        ∃ X, es.foldl splice (A ++ S ++ B) = A ++ S ++ X := by
      intro h
      apply foldl_splice_below
      rw [List.length_append, hA, hS]
      exact h
    rcases hfar d (by simp) with ⟨hcount, hstart⟩ | hd
    · -- `d` inserts right above the span; the splices before it lie beyond the span.
      have hrest : ∀ f ∈ es, e.startIdx + e.removeCount ≤ f.startIdx := by
        intro f hf
        rcases hfar f (List.mem_append_left _ hf) with ⟨hcount', hstart'⟩ | hf'
        · have hap := (List.pairwise_append.mp hpair).2.2 f hf d (by simp)
          rw [Apart, lo, lo, hi, hi, if_pos hcount, if_pos hcount'] at hap
          omega
        · exact hf'
      obtain ⟨X, hX⟩ := habove hrest
      have hnone : es.find? (insertsAt e.startIdx) = none := by
        rw [List.find?_eq_none]
        intro f hf
        have := hrest f hf
        rw [insertsAt_iff]
        omega
      have hinserted : insertedAt (es ++ [d]) e.startIdx = d.newLines := by
        have hself : insertsAt e.startIdx d = true := insertsAt_iff.mpr ⟨hcount, hstart⟩
        rw [insertedAt, List.find?_append, hnone, List.find?_cons_of_pos hself]
        rfl
      refine ⟨X, ?_⟩
      rw [List.foldl_append, hX, List.foldl_cons, List.foldl_nil, List.append_assoc,
        splice_append (hA.trans hstart.symm), hinserted, hcount, List.drop_zero]
      simp only [List.append_assoc]
    · have hrest : ∀ f ∈ es ++ [d], e.startIdx + e.removeCount ≤ f.startIdx := by
        intro f hf
        rcases List.mem_append.mp hf with hf | hf
        · exact hd.trans ((List.pairwise_append.mp hdesc).2.2 f hf d (by simp))
        · rwa [List.mem_singleton.mp hf]
      have hnone : insertedAt (es ++ [d]) e.startIdx = [] := insertedAt_eq_nil fun f hf _ => by
        have := hrest f hf
        omega
      rw [hnone, List.nil_append]
      apply foldl_splice_below
      rw [List.length_append, hA, hS]
      exact hrest

/-- What the machine makes of a span with an insertion above it that came first: the first
lines of both together go, as many as the span has. -/
def Harmless (l : List α) (d e : Splice α) : Prop :=
  e.newLines ++ (d.newLines ++ (l.drop e.startIdx).take e.removeCount).drop e.removeCount =
    d.newLines ++ e.newLines

/-- No insertion came before the span right below it, unless it does no harm. -/
def NoClash (l : List α) (es : List (Splice α)) : Prop :=
  ∀ d e, [d, e].Sublist es → d.removeCount = 0 → 0 < e.removeCount → d.startIdx = e.startIdx →
    Harmless l d e

theorem append_inj_mid {A M N X T : List α} (hlen : M.length = N.length) :
    A ++ M ++ X = A ++ N ++ T ↔ M = N ∧ X = T := by
  rw [List.append_assoc, List.append_assoc, List.append_cancel_left_eq]
  constructor
  · intro h
    exact List.append_inj h hlen
  · rintro ⟨rfl, rfl⟩
    rfl

theorem noClash_append {l : List α} {es : List (Splice α)} {e : Splice α} :
    NoClash l (es ++ [e]) ↔ NoClash l es ∧ ∀ d ∈ es, d.removeCount = 0 → 0 < e.removeCount →
      d.startIdx = e.startIdx → Harmless l d e := by
  constructor
  · intro h
    refine ⟨fun d f hsub => h d f (hsub.trans (List.sublist_append_left _ _)), fun d hd => ?_⟩
    exact h d e ((List.singleton_sublist.mpr hd).append (List.Sublist.refl [e]))
  · rintro ⟨h, hlast⟩ d f hsub
    rcases List.sublist_append_iff.mp hsub with ⟨xs, ys, heq, hxs, hys⟩
    match xs, ys, heq, hxs, hys with
    | [], _, rfl, _, hys =>
      have := hys.length_le
      simp at this
    | [_], _, rfl, hxs, hys =>
      rw [List.singleton_sublist] at hxs
      have hf := hys.subset (List.mem_singleton_self f)
      rw [List.mem_singleton.mp hf]
      exact hlast _ hxs
    | [_, _], _, rfl, hxs, _ => exact h _ _ hxs
    | _ :: _ :: _ :: _, _, heq, _, _ => simp at heq

/-- The run on a sorted batch gives what the batch means as long as nothing clashes, and never
else; it always gives as many elements. -/
theorem foldl_splice_iff {l : List α} {es : List (Splice α)} (hdesc : Descending es)
    (hpair : es.Pairwise Apart) (hwithin : ∀ e ∈ es, Within l e) :
    (es.foldl splice l).length = (simultaneous l es).length ∧
      (es.foldl splice l = simultaneous l es ↔ NoClash l es) := by
  induction es using List.reverseRecOn with
  | nil =>
    have hid : ([] : List (Splice α)).foldl splice l = simultaneous l [] := by
      have hlines : outLines [] 0 l = l := outLines_below (by simp)
      rw [simultaneous, hlines]
      simp [insertedAt]
    refine ⟨congrArg List.length hid, iff_of_true hid fun d e hsub => ?_⟩
    have := hsub.length_le
    simp at this
  | append_singleton es e ih =>
    obtain ⟨hdesc', -, hfirst⟩ := List.pairwise_append.mp hdesc
    obtain ⟨hpair', -, hapart⟩ := List.pairwise_append.mp hpair
    replace hfirst : ∀ f ∈ es, e.startIdx ≤ f.startIdx := fun f hf => hfirst f hf e (by simp)
    replace hapart : ∀ f ∈ es, Apart f e := fun f hf => hapart f hf e (by simp)
    obtain ⟨hlen, hiff⟩ := ih hdesc' hpair' fun f hf => hwithin f (List.mem_append_left _ hf)
    have hin : e.startIdx + e.removeCount ≤ l.length := hwithin e (by simp)
    have hA : (l.take e.startIdx).length = e.startIdx := by
      rw [List.length_take]
      omega
    rw [List.foldl_append, noClash_append, ← hiff]
    by_cases he : e.removeCount = 0
    · obtain ⟨X, hX⟩ := foldl_splice_below (A := l.take e.startIdx) (B := l.drop e.startIdx)
        (show ∀ f ∈ es, (l.take e.startIdx).length ≤ f.startIdx by rwa [hA])
      obtain ⟨T, hT, hT'⟩ := simultaneous_insert (B := l.drop e.startIdx) he hA hfirst hapart
      rw [List.take_append_drop] at hX hT hT'
      rw [hX, hT] at hlen ⊢
      have hstep : [e].foldl splice (l.take e.startIdx ++ X) =
          l.take e.startIdx ++ e.newLines ++ X := by
        rw [List.foldl_cons, List.foldl_nil, splice_append hA, he, List.drop_zero]
      rw [hstep, hT', List.append_cancel_left_eq, List.append_cancel_left_eq]
      constructor
      · simp only [List.length_append] at hlen ⊢
        omega
      · constructor
        · exact fun h => ⟨h, fun d _ _ hpos => by omega⟩
        · exact And.left
    · have hpos : 0 < e.removeCount := Nat.pos_of_ne_zero he
      have hS : ((l.drop e.startIdx).take e.removeCount).length = e.removeCount := by
        rw [List.length_take, List.length_drop]
        omega
      have hsplit : l.take e.startIdx ++ (l.drop e.startIdx).take e.removeCount ++
          (l.drop e.startIdx).drop e.removeCount = l := by
        rw [List.append_assoc, List.take_append_drop, List.take_append_drop]
      obtain ⟨X, hX⟩ := foldl_splice_span (B := (l.drop e.startIdx).drop e.removeCount)
        hdesc' hpair' hpos hA hS hfirst hapart
      obtain ⟨T, hT, hT'⟩ := simultaneous_span (B := (l.drop e.startIdx).drop e.removeCount)
        hpos hA hS hfirst hapart
      rw [hsplit] at hX hT hT'
      generalize hspan : (l.drop e.startIdx).take e.removeCount = span at *
      generalize hins : insertedAt es e.startIdx = ins at *
      rw [hX, hT] at hlen ⊢
      have hle : e.removeCount ≤ (ins ++ span).length := by
        rw [List.length_append]
        omega
      have hstep : [e].foldl splice (l.take e.startIdx ++ (ins ++ span) ++ X) =
          l.take e.startIdx ++ (e.newLines ++ (ins ++ span).drop e.removeCount) ++ X := by
        rw [List.foldl_cons, List.foldl_nil, List.append_assoc, splice_append hA,
          List.drop_append_of_le_length hle]
        simp only [List.append_assoc]
      have hmid : (e.newLines ++ (ins ++ span).drop e.removeCount).length =
          (ins ++ e.newLines).length := by
        simp only [List.length_append, List.length_drop]
        omega
      have hclash : e.newLines ++ (ins ++ span).drop e.removeCount = ins ++ e.newLines ↔
          ∀ d ∈ es, d.removeCount = 0 → 0 < e.removeCount → d.startIdx = e.startIdx →
            Harmless l d e := by
        constructor
        · intro h d hd hcount _ hstart
          rw [Harmless, hspan, ← insertedAt_of_mem hpair' hd hcount, hstart, hins]
          exact h
        · intro h
          by_cases hd : ∃ d ∈ es, d.removeCount = 0 ∧ d.startIdx = e.startIdx
          · obtain ⟨d, hd, hcount, hstart⟩ := hd
            have hharm := h d hd hcount hpos hstart
            rwa [Harmless, hspan, ← insertedAt_of_mem hpair' hd hcount, hstart, hins] at hharm
          · have hnil : ins = [] := by
              rw [← hins]
              exact insertedAt_eq_nil fun d hd' hcount hstart => hd ⟨d, hd', hcount, hstart⟩
            rw [hnil, List.nil_append, List.nil_append, ← hS, List.drop_length, List.append_nil]
      rw [hstep, hT', append_inj_mid hmid, append_inj_mid rfl, hclash]
      constructor
      · simp only [List.length_append, List.length_drop] at hlen ⊢
        omega
      · tauto

theorem applyAll_length_eq {l : List α} {es : List (Splice α)} (hpair : es.Pairwise Apart)
    (hwithin : ∀ e ∈ es, Within l e) :
    (applyAll l es).length = (simultaneous l es).length ∧
      (applyAll l es = simultaneous l es ↔
        NoClash l (es.insertionSort fun a b => b.startIdx ≤ a.startIdx)) := by
  have hperm := List.perm_insertionSort (fun a b : Splice α => b.startIdx ≤ a.startIdx) es
  have hdesc : Descending (es.insertionSort fun a b => b.startIdx ≤ a.startIdx) :=
    List.pairwise_insertionSort _ es
  rw [← simultaneous_perm hperm hpair l]
  exact foldl_splice_iff hdesc (hperm.symm.pairwise hpair Or.symm)
    fun e he => hwithin e (hperm.mem_iff.mp he)

/-- Every order of a batch gives what the batch means exactly when no insertion right above a
span can do harm. -/
theorem applyAll_perm_iff {l : List α} {es : List (Splice α)} (hpair : es.Pairwise Apart)
    (hwithin : ∀ e ∈ es, Within l e) :
    (∀ es', es'.Perm es → applyAll l es' = simultaneous l es) ↔
      ∀ d ∈ es, ∀ e ∈ es, d.removeCount = 0 → 0 < e.removeCount → d.startIdx = e.startIdx →
        Harmless l d e := by
  have horder : ∀ es', es'.Perm es → (applyAll l es' = simultaneous l es ↔
      NoClash l (es'.insertionSort fun a b => b.startIdx ≤ a.startIdx)) := by
    intro es' hperm
    rw [← simultaneous_perm hperm hpair l]
    exact (applyAll_length_eq (hperm.symm.pairwise hpair Or.symm)
      fun e he => hwithin e (hperm.mem_iff.mp he)).2
  constructor
  · intro h d hd e he hcount hpos hstart
    -- The order that puts the insertion first.
    have hne : d ≠ e := by
      rintro rfl
      omega
    obtain ⟨as, bs, rfl⟩ := List.append_of_mem hd
    have he' : e ∈ as ++ bs := by
      rcases List.mem_append.mp he with he | he
      · exact List.mem_append_left _ he
      · exact List.mem_append_right _ ((List.mem_cons.mp he).resolve_left hne.symm)
    have hfirst := h (d :: (as ++ bs)) List.perm_middle.symm
    have hclash := (horder _ List.perm_middle.symm).mp hfirst
    apply hclash d e _ hcount hpos hstart
    apply List.pair_sublist_insertionSort
    · exact hstart.ge
    · exact (List.singleton_sublist.mpr he').cons_cons d
  · intro h es' hperm
    apply (horder es' hperm).mpr
    intro d e hsub
    have hmem := fun f hf => hperm.mem_iff.mp
      ((List.perm_insertionSort _ es').mem_iff.mp (hsub.subset (a := f) hf))
    exact h d (hmem d (by simp)) e (hmem e (by simp))

end Splice

end LeanCtx
