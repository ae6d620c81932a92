import LeanCtx.TextMarks

/-!
# Replacing what a scanner finds

A scanner is tried at every place from the front; where it finds something, the
replacement stands for it and the scan goes on behind. Some elements are ignored by
who reads the result, wherever they stand. When the replacement begins with an element
that no target holds behind its first, the result holds no target, ignored elements
taken out, that the scanner finds.
-/

namespace LeanCtx.ScanReplace

variable {α : Type} (find : List α → Option (List α)) (new : List α)

def replaceFrom : ℕ → List α → List α
  | 0, s => s
  | _ + 1, [] => []
  | n + 1, c :: s =>
    match find (c :: s) with
    | some rest => new ++ replaceFrom n rest
    | none => c :: replaceFrom n s

/-- `Regex::replace_all` for a pattern that never matches the empty text. -/
def replaceAll (s : List α) : List α := replaceFrom find new s.length s

/-- The runs of the scan. -/
inductive Replaced : List α → List α → Prop where
  | nil : Replaced [] []
  | found {c s rest r} (h : find (c :: s) = some rest) (hrest : Replaced rest r) :
    Replaced (c :: s) (new ++ r)
  | kept {c s r} (h : find (c :: s) = none) (hrest : Replaced s r) : Replaced (c :: s) (c :: r)

variable {find new}

/-- What a scanner leaves is behind what it found. -/
def Advances (find : List α → Option (List α)) : Prop :=
  ∀ c s rest, find (c :: s) = some rest → rest <:+ s

theorem replaced_replaceFrom (hfind : Advances find) (n : ℕ) {s : List α} (h : s.length ≤ n) :
    Replaced find new s (replaceFrom find new n s) := by
  induction n generalizing s with
  | zero =>
    obtain rfl := List.length_eq_zero_iff.mp (Nat.le_zero.mp h)
    exact .nil
  | succ n ih =>
    cases s with
    | nil => exact .nil
    | cons c s =>
      have hlen : s.length ≤ n := Nat.le_of_succ_le_succ h
      rw [replaceFrom]
      cases hfound : find (c :: s) with
      | none => exact .kept hfound (ih hlen)
      | some rest => exact .found hfound (ih ((hfind c s rest hfound).length_le.trans hlen))

theorem replaced_replaceAll (hfind : Advances find) (s : List α) :
    Replaced find new s (replaceAll find new s) :=
  replaced_replaceFrom hfind s.length (Nat.le_refl _)

theorem mem_of_replaced (hfind : Advances find) {s r : List α} (h : Replaced find new s r) {c : α}
    (hc : c ∈ r) : c ∈ s ∨ c ∈ new := by
  induction h with
  | nil => cases hc
  | @found d s rest r hfound _ ih =>
    rcases List.mem_append.mp hc with hc | hc
    · exact Or.inr hc
    · refine (ih hc).imp_left fun hrest => List.mem_cons_of_mem d ?_
      exact (hfind d s rest hfound).subset hrest
  | @kept d s r _ _ ih =>
    rcases List.mem_cons.mp hc with rfl | hc
    · exact Or.inl List.mem_cons_self
    · exact (ih hc).imp_left (List.mem_cons_of_mem d)

section Ignored

variable (ignored : α → Bool)

def strip (s : List α) : List α := s.filter fun c => !ignored c

variable {ignored}

theorem strip_cons_of_not {c : α} (h : ignored c = false) (s : List α) :
    strip ignored (c :: s) = c :: strip ignored s :=
  List.filter_cons_of_pos (by rw [h]; rfl)

theorem strip_cons_of_ignored {c : α} (h : ignored c = true) (s : List α) :
    strip ignored (c :: s) = strip ignored s :=
  List.filter_cons_of_neg (by rw [h]; decide)

/-- What is read at the front of the result without the head of a replacement was read there
before. -/
theorem prefix_of_replaced {h : α} {t : List α} (hh : ignored h = false) {s r x : List α}
    (hr : Replaced find (h :: t) s r) (hx : h ∉ x) (hpre : x <+: strip ignored r) :
    x <+: strip ignored s := by
  induction hr generalizing x with
  | nil => exact hpre
  | found =>
    rw [List.cons_append, strip_cons_of_not hh] at hpre
    rcases List.prefix_cons_iff.mp hpre with rfl | ⟨x', rfl, -⟩
    · exact List.nil_prefix
    · exact absurd List.mem_cons_self hx
  | @kept c s r _ _ ih =>
    cases hc : ignored c with
    | true =>
      rw [strip_cons_of_ignored hc] at hpre ⊢
      exact ih hx hpre
    | false =>
      rw [strip_cons_of_not hc] at hpre ⊢
      rcases List.prefix_cons_iff.mp hpre with rfl | ⟨x', rfl, htail⟩
      · exact List.nil_prefix
      · exact (List.prefix_cons_inj c).mpr (ih (fun h => hx (List.mem_cons_of_mem c h)) htail)

/-- What holds nothing of the replacement is read in the result only where it was before. -/
theorem infix_of_replaced {h : α} {t : List α} (hh : ignored h = false) (hfind : Advances find)
    {s r : List α} (hr : Replaced find (h :: t) s r) {a : α} {x : List α} (ha : a ∉ h :: t)
    (hx : h ∉ a :: x) (hin : (a :: x) <:+: strip ignored r) : (a :: x) <:+: strip ignored s := by
  induction hr with
  | nil => exact hin
  | @found c s rest r hfound _ ih =>
    have hnew : strip ignored (h :: t ++ r) = strip ignored (h :: t) ++ strip ignored r :=
      List.filter_append _ _
    rw [hnew] at hin
    have hstrip : a ∉ strip ignored (h :: t) := fun hmem => ha (List.mem_of_mem_filter hmem)
    have hrest : rest <:+ c :: s := (hfind c s rest hfound).trans (List.suffix_cons c s)
    exact (ih (TextMarks.infix_of_infix_append hstrip hin)).trans (hrest.filter _).isInfix
  | @kept c s r hnone hrest ih =>
    cases hc : ignored c with
    | true =>
      rw [strip_cons_of_ignored hc] at hin ⊢
      exact ih hin
    | false =>
      have hpre : (a :: x) <+: strip ignored (c :: r) → (a :: x) <+: strip ignored (c :: s) :=
        prefix_of_replaced hh (.kept hnone hrest) hx
      rw [strip_cons_of_not hc] at hin hpre
      rcases List.infix_cons_iff.mp hin with hin | hin
      · exact (hpre hin).isInfix
      · rw [strip_cons_of_not hc]
        exact (ih hin).trans (List.suffix_cons c _).isInfix

/-- No target is read in the result: the scanner finds each, and no replacement helps to make
one. -/
theorem absent_of_replaced {h : α} {t : List α} (hh : ignored h = false)
    (target : List α → Prop) (hhead : ∀ x, target x → ∃ a x', x = a :: x' ∧ h ∉ x')
    (hfound : ∀ c s x, ignored c = false → target x → x <+: strip ignored (c :: s) →
      find (c :: s) ≠ none)
    (hnew : ∀ x y, target x → x <:+: strip ignored (h :: t) ++ y → x <:+: y)
    {s r : List α} (hr : Replaced find (h :: t) s r) {x : List α} (hx : target x) :
    ¬ x <:+: strip ignored r := by
  obtain ⟨a, x', rfl, hmem⟩ := hhead x hx
  induction hr with
  | nil => exact fun hin => absurd (List.infix_nil.mp hin) (List.cons_ne_nil a x')
  | @found c s rest r _ _ ih =>
    intro hin
    have hsplit : strip ignored (h :: t ++ r) = strip ignored (h :: t) ++ strip ignored r :=
      List.filter_append _ _
    rw [hsplit] at hin
    exact ih (hnew _ _ hx hin)
  | @kept c s r hnone hrest ih =>
    intro hin
    cases hc : ignored c with
    | true =>
      rw [strip_cons_of_ignored hc] at hin
      exact ih hin
    | false =>
      rw [strip_cons_of_not hc] at hin
      rcases List.infix_cons_iff.mp hin with hpre | hin
      · obtain ⟨rfl, htail⟩ := List.cons_prefix_cons.mp hpre
        have hbefore := prefix_of_replaced hh hrest hmem htail
        refine hfound a s (a :: x') hc hx ?_ hnone
        rw [strip_cons_of_not hc]
        exact (List.prefix_cons_inj a).mpr hbefore
      · exact ih hin

/-- Ignored elements in front are skipped. -/
def skip (ignored : α → Bool) (s : List α) : List α := s.dropWhile ignored

theorem strip_skip (s : List α) : strip ignored (skip ignored s) = strip ignored s := by
  induction s with
  | nil => rfl
  | cons c s ih =>
    cases hc : ignored c with
    | true => rw [skip, List.dropWhile_cons_of_pos hc, ← skip, ih, strip_cons_of_ignored hc]
    | false => rw [skip, List.dropWhile_cons_of_neg (by rw [hc]; decide)]

theorem skip_eq_cons {s x : List α} {a : α} (h : strip ignored s = a :: x) :
    ∃ rest, skip ignored s = a :: rest ∧ strip ignored rest = x := by
  induction s with
  | nil => cases h
  | cons c s ih =>
    cases hc : ignored c with
    | true =>
      rw [strip_cons_of_ignored hc] at h
      rw [skip, List.dropWhile_cons_of_pos hc]
      exact ih h
    | false =>
      rw [strip_cons_of_not hc] at h
      obtain ⟨rfl, rfl⟩ := List.cons.inj h
      exact ⟨s, List.dropWhile_cons_of_neg (by rw [hc]; decide), rfl⟩

theorem skip_suffix (s : List α) : skip ignored s <:+ s := List.dropWhile_suffix _

end Ignored

end LeanCtx.ScanReplace
