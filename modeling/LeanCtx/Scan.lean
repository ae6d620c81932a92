import Mathlib.Algebra.Order.BigOperators.Group.List
import Mathlib.Algebra.Order.Group.Nat
import Mathlib.Algebra.Order.Ring.Nat
import Mathlib.Data.List.Basic
import Mathlib.Tactic.Common

/-!
# Searching a text from left to right

A matcher looks at a place of a text, sees what lies behind (nearest first) and
ahead, and may take a part of what is ahead. A scan asks it at every place from
left to right and goes on behind what it took. The pieces of a scan make up the
text, no two parts that were taken overlap (`eq_of_overlap`), and no place where
the matcher would take something is passed over (`exists_covering`).

A rewriting puts a marker in the place of some of the parts taken. Where an
element that no match sees past stands at both ends of the marker, the second
rewriting treats the texts between the markers one by one, and changes nothing
exactly when it changes none of them (`rewrite_idem_iff`).
-/

namespace LeanCtx.Scan

structure Matcher (α : Type) where
  find : List α → List α → Option (List α)
  find_prefix : ∀ {behind ahead m}, find behind ahead = some m → m <+: ahead
  find_ne_nil : ∀ {behind ahead m}, find behind ahead = some m → m ≠ []

/-- A part of a text with what lies behind it, nearest first, and ahead of it. -/
structure Found (α : Type) where
  behind : List α
  text : List α
  ahead : List α
deriving DecidableEq

inductive Piece (α : Type)
  | kept (c : α)
  | found (f : Found α)
deriving DecidableEq

def Piece.source {α : Type} : Piece α → List α
  | .kept c => [c]
  | .found f => f.text

namespace Found

variable {α : Type}

def start (f : Found α) : ℕ := f.behind.length

def stop (f : Found α) : ℕ := f.start + f.text.length

end Found

variable {α : Type} (M : Matcher α)

def scanFrom (behind : List α) : ℕ → List α → List (Piece α)
  | _, [] => []
  | skip + 1, c :: cs => scanFrom (c :: behind) skip cs
  | 0, c :: cs =>
    match M.find behind (c :: cs) with
    | some m =>
      .found ⟨behind, m, (c :: cs).drop m.length⟩ :: scanFrom (c :: behind) (m.length - 1) cs
    | none => .kept c :: scanFrom (c :: behind) 0 cs

def scan (text : List α) : List (Piece α) := scanFrom M [] 0 text

variable {M}

theorem scanFrom_nil (behind : List α) (skip : ℕ) : scanFrom M behind skip [] = [] := by
  cases skip <;> rfl

/-- Skipping leaves the places behind. -/
theorem scanFrom_skip (behind p : List α) (rest : List α) :
    scanFrom M behind p.length (p ++ rest) = scanFrom M (p.reverse ++ behind) 0 rest := by
  induction p generalizing behind with
  | nil => rfl
  | cons c p ih =>
    have hstep : scanFrom M behind (c :: p).length (c :: p ++ rest) =
      scanFrom M (c :: behind) p.length (p ++ rest) := rfl
    rw [hstep, ih, List.reverse_cons, List.append_assoc, List.singleton_append]

theorem scanFrom_cons (behind : List α) (c : α) (cs : List α) :
    scanFrom M behind 0 (c :: cs) = match M.find behind (c :: cs) with
      | some m =>
        .found ⟨behind, m, (c :: cs).drop m.length⟩ :: scanFrom M (c :: behind) (m.length - 1) cs
      | none => .kept c :: scanFrom M (c :: behind) 0 cs := rfl

theorem scanFrom_kept {behind rest : List α} {c : α} (h : M.find behind (c :: rest) = none) :
    scanFrom M behind 0 (c :: rest) = .kept c :: scanFrom M (c :: behind) 0 rest := by
  rw [scanFrom_cons, h]

theorem scanFrom_found {behind m rest : List α} (h : M.find behind (m ++ rest) = some m) :
    scanFrom M behind 0 (m ++ rest) =
      .found ⟨behind, m, rest⟩ :: scanFrom M (m.reverse ++ behind) 0 rest := by
  cases m with
  | nil => exact absurd rfl (M.find_ne_nil h)
  | cons c m =>
    rw [List.cons_append] at h ⊢
    have hdrop : (c :: (m ++ rest)).drop (c :: m).length = rest := List.drop_left
    have hlen : (c :: m).length - 1 = m.length := rfl
    rw [scanFrom_cons, h]
    dsimp only
    rw [hdrop, hlen, scanFrom_skip, List.reverse_cons, List.append_assoc, List.singleton_append]

/-- A scan ends, takes a part, or keeps an element. -/
theorem scan_induction {P : List α → List α → Prop} (hnil : ∀ behind, P behind [])
    (hkept : ∀ behind c rest, M.find behind (c :: rest) = none → P (c :: behind) rest →
      P behind (c :: rest))
    (hfound : ∀ behind m rest, M.find behind (m ++ rest) = some m → P (m.reverse ++ behind) rest →
      P behind (m ++ rest)) (behind text : List α) : P behind text := by
  induction hn : text.length using Nat.strongRecOn generalizing behind text with
  | _ n ih =>
    cases text with
    | nil => exact hnil behind
    | cons c rest =>
      cases hfind : M.find behind (c :: rest) with
      | none => exact hkept behind c rest hfind (ih rest.length (by rw [← hn]; simp) _ _ rfl)
      | some m =>
        obtain ⟨after, hafter⟩ := M.find_prefix hfind
        have hpos := List.length_pos_iff.mpr (M.find_ne_nil hfind)
        rw [← hafter] at hfind hn ⊢
        refine hfound behind m after hfind (ih after.length ?_ _ _ rfl)
        rw [← hn, List.length_append]
        omega

/-- The pieces make up the text. -/
theorem flatMap_source (behind text : List α) :
    (scanFrom M behind 0 text).flatMap Piece.source = text := by
  induction behind, text using @scan_induction _ M with
  | hnil behind => rfl
  | hkept behind c rest h ih =>
    rw [scanFrom_kept h, List.flatMap_cons, ih]
    rfl
  | hfound behind m rest h ih =>
    rw [scanFrom_found h, List.flatMap_cons, ih]
    rfl

/-- A part that was taken, and where. -/
theorem of_mem_scanFrom {behind text : List α} {f : Found α}
    (h : .found f ∈ scanFrom M behind 0 text) :
    ∃ front, f.behind = front.reverse ++ behind ∧ text = front ++ (f.text ++ f.ahead) ∧
      M.find f.behind (f.text ++ f.ahead) = some f.text := by
  induction behind, text using @scan_induction _ M with
  | hnil behind => cases h
  | hkept behind c rest hfind ih =>
    rw [scanFrom_kept hfind, List.mem_cons] at h
    rcases h with h | h
    · cases h
    · obtain ⟨front, hbehind, htext, hf⟩ := ih h
      refine ⟨c :: front, ?_, ?_, hf⟩
      · rw [hbehind, List.reverse_cons, List.append_assoc, List.singleton_append]
      · rw [htext, List.cons_append]
  | hfound behind m rest hfind ih =>
    rw [scanFrom_found hfind, List.mem_cons] at h
    rcases h with h | h
    · cases h
      exact ⟨[], rfl, rfl, hfind⟩
    · obtain ⟨front, hbehind, htext, hf⟩ := ih h
      refine ⟨m ++ front, ?_, ?_, hf⟩
      · rw [hbehind, List.reverse_append, List.append_assoc]
      · rw [htext, List.append_assoc]

theorem length_behind_le {behind text : List α} {f : Found α}
    (h : .found f ∈ scanFrom M behind 0 text) : behind.length ≤ f.start := by
  obtain ⟨front, hbehind, -, -⟩ := of_mem_scanFrom h
  rw [Found.start, hbehind, List.length_append]
  omega

/-- Two parts that share a place are one. -/
theorem eq_of_overlap {behind text : List α} {f g : Found α}
    (hf : .found f ∈ scanFrom M behind 0 text) (hg : .found g ∈ scanFrom M behind 0 text)
    (hfg : f.start < g.stop) (hgf : g.start < f.stop) : f = g := by
  induction behind, text using @scan_induction _ M with
  | hnil behind => cases hf
  | hkept behind c rest hfind ih =>
    rw [scanFrom_kept hfind, List.mem_cons] at hf hg
    rcases hf with hf | hf
    · cases hf
    · rcases hg with hg | hg
      · cases hg
      · exact ih hf hg
  | hfound behind m rest hfind ih =>
    rw [scanFrom_found hfind, List.mem_cons] at hf hg
    have hstop : (⟨behind, m, rest⟩ : Found α).stop = (m.reverse ++ behind).length := by
      rw [Found.stop, Found.start, List.length_append, List.length_reverse, Nat.add_comm]
    rcases hf with hf | hf
    · rcases hg with hg | hg
      · cases hf
        cases hg
        rfl
      · cases hf
        rw [hstop] at hgf
        exact absurd (length_behind_le hg) (by omega)
    · rcases hg with hg | hg
      · cases hg
        rw [hstop] at hfg
        exact absurd (length_behind_le hf) (by omega)
      · exact ih hf hg

/-- Where the matcher would take something, something is taken. -/
theorem exists_covering {behind front ahead m : List α}
    (h : M.find (front.reverse ++ behind) ahead = some m) :
    ∃ f, .found f ∈ scanFrom M behind 0 (front ++ ahead) ∧
      f.start ≤ (front.reverse ++ behind).length ∧ (front.reverse ++ behind).length < f.stop := by
  obtain ⟨text, htext⟩ : ∃ text, text = front ++ ahead := ⟨_, rfl⟩
  rw [← htext]
  induction behind, text using @scan_induction _ M generalizing front with
  | hnil behind =>
    obtain ⟨-, hahead⟩ := List.append_eq_nil_iff.mp htext.symm
    rw [hahead] at h
    exact absurd (List.prefix_nil.mp (M.find_prefix h)) (M.find_ne_nil h)
  | hkept behind c rest hfind ih =>
    cases front with
    | nil =>
      rw [List.reverse_nil, List.nil_append] at h
      rw [List.nil_append] at htext
      rw [htext, h] at hfind
      cases hfind
    | cons c' front =>
      rw [List.cons_append, List.cons.injEq] at htext
      obtain ⟨rfl, hrest⟩ := htext
      rw [List.reverse_cons, List.append_assoc, List.singleton_append] at h ⊢
      obtain ⟨f, hf, hplace⟩ := ih h hrest
      exact ⟨f, by rw [scanFrom_kept hfind]; exact List.mem_cons_of_mem _ hf, hplace⟩
  | hfound behind taken rest hfind ih =>
    rw [scanFrom_found hfind]
    by_cases hlt : front.length < taken.length
    · refine ⟨_, List.mem_cons_self, ?_, ?_⟩
      · simp only [Found.start, List.length_append]
        omega
      · simp only [Found.stop, Found.start, List.length_append, List.length_reverse]
        omega
    · obtain ⟨front', rfl⟩ : ∃ front', front = taken ++ front' := by
        have hprefix : taken <+: front := List.prefix_of_prefix_length_le
          (List.prefix_append taken rest) ⟨ahead, htext.symm⟩ (by omega)
        obtain ⟨front', hfront⟩ := hprefix
        exact ⟨front', hfront.symm⟩
      rw [List.append_assoc, List.append_cancel_left_eq] at htext
      rw [List.reverse_append, List.append_assoc] at h ⊢
      obtain ⟨f, hf, hplace⟩ := ih h htext
      exact ⟨f, List.mem_cons_of_mem _ hf, hplace⟩

/-! ## Rewriting -/

/-- What is printed for a piece: a marker for the parts that are to be hidden. -/
def Piece.printed (hide : Found α → Bool) (marker : List α) : Piece α → List α
  | .kept c => [c]
  | .found f => if hide f then marker else f.text

def rewriteFrom (M : Matcher α) (hide : Found α → Bool) (marker behind text : List α) : List α :=
  (scanFrom M behind 0 text).flatMap (Piece.printed hide marker)

/-- No match and no decision about one depends on what lies beyond the element. -/
structure Cut (M : Matcher α) (hide : Found α → Bool) (z : α) : Prop where
  find_ahead : ∀ behind x y, M.find behind (x ++ z :: y) = M.find behind x
  find_behind : ∀ x w y, M.find (x ++ z :: w) y = M.find x y
  hide_ahead : ∀ behind m x y, hide ⟨behind, m, x ++ z :: y⟩ = hide ⟨behind, m, x⟩
  hide_behind : ∀ x w m y, hide ⟨x ++ z :: w, m, y⟩ = hide ⟨x, m, y⟩

section Rewriting

variable {hide : Found α → Bool} {marker : List α}

theorem find_nil (behind : List α) : M.find behind [] = none := by
  cases h : M.find behind [] with
  | none => rfl
  | some m => exact absurd (List.prefix_nil.mp (M.find_prefix h)) (M.find_ne_nil h)

@[simp] theorem rewriteFrom_nil (behind : List α) : rewriteFrom M hide marker behind [] = [] := by
  rw [rewriteFrom, scanFrom_nil, List.flatMap_nil]

theorem rewriteFrom_kept {behind rest : List α} {c : α} (h : M.find behind (c :: rest) = none) :
    rewriteFrom M hide marker behind (c :: rest) =
      c :: rewriteFrom M hide marker (c :: behind) rest := by
  rw [rewriteFrom, scanFrom_kept h, List.flatMap_cons]
  rfl

theorem rewriteFrom_found {behind m rest : List α} (h : M.find behind (m ++ rest) = some m) :
    rewriteFrom M hide marker behind (m ++ rest) =
      (if hide ⟨behind, m, rest⟩ then marker else m) ++
        rewriteFrom M hide marker (m.reverse ++ behind) rest := by
  rw [rewriteFrom, scanFrom_found h, List.flatMap_cons]
  rfl

/-- What lies behind a cut does not matter. -/
theorem Cut.rewrite_behind {z : α} (hz : Cut M hide z) (w behind text : List α) :
    rewriteFrom M hide marker (behind ++ z :: w) text = rewriteFrom M hide marker behind text := by
  induction behind, text using @scan_induction _ M with
  | hnil behind => rw [rewriteFrom_nil, rewriteFrom_nil]
  | hkept behind c rest h ih =>
    rw [rewriteFrom_kept h, rewriteFrom_kept (by rw [hz.find_behind, h]), ← ih, List.cons_append]
  | hfound behind m rest h ih =>
    rw [rewriteFrom_found h, rewriteFrom_found (by rw [hz.find_behind, h]), hz.hide_behind, ← ih,
      List.append_assoc]

/-- A cut separates what is rewritten before and after it. -/
theorem Cut.rewrite_append {z : α} (hz : Cut M hide z) (y behind text : List α) :
    rewriteFrom M hide marker behind (text ++ z :: y) =
      rewriteFrom M hide marker behind text ++ z :: rewriteFrom M hide marker [] y := by
  induction behind, text using @scan_induction _ M with
  | hnil behind =>
    have hnone : M.find behind (z :: y) = none := by
      have hahead := hz.find_ahead behind [] y
      rwa [List.nil_append, find_nil] at hahead
    have hbehind : rewriteFrom M hide marker (z :: behind) y = rewriteFrom M hide marker [] y :=
      hz.rewrite_behind behind [] y
    rw [List.nil_append, rewriteFrom_kept hnone, hbehind, rewriteFrom_nil, List.nil_append]
  | hkept behind c rest h ih =>
    have hnone : M.find behind (c :: (rest ++ z :: y)) = none := by
      rw [← List.cons_append, hz.find_ahead, h]
    rw [rewriteFrom_kept h, List.cons_append, rewriteFrom_kept hnone, ih, List.cons_append]
  | hfound behind m rest h ih =>
    have hsome : M.find behind (m ++ (rest ++ z :: y)) = some m := by
      rw [← List.append_assoc, hz.find_ahead, h]
    rw [rewriteFrom_found h, List.append_assoc, rewriteFrom_found hsome, hz.hide_ahead, ih,
      List.append_assoc]

/-! ### Texts between markers -/

/-- The texts between the parts that are hidden. -/
def gaps (hide : Found α → Bool) : List (Piece α) → List (List α)
  | [] => [[]]
  | .kept c :: rest => (gaps hide rest).modifyHead (c :: ·)
  | .found f :: rest =>
    if hide f then [] :: gaps hide rest else (gaps hide rest).modifyHead (f.text ++ ·)

theorem gaps_ne_nil (hide : Found α → Bool) (pieces : List (Piece α)) : gaps hide pieces ≠ [] := by
  cases pieces with
  | nil => exact List.cons_ne_nil _ _
  | cons piece rest =>
    have ih := gaps_ne_nil hide rest
    cases piece with
    | kept c => simpa [gaps, List.modifyHead_eq_nil_iff] using ih
    | found f =>
      unfold gaps
      split
      · exact List.cons_ne_nil _ _
      · simpa [List.modifyHead_eq_nil_iff] using ih

theorem intercalate_modifyHead {sep p : List α} {texts : List (List α)} (h : texts ≠ []) :
    sep.intercalate (texts.modifyHead (p ++ ·)) = p ++ sep.intercalate texts := by
  cases texts with
  | nil => exact absurd rfl h
  | cons text texts =>
    cases texts with
    | nil => simp
    | cons text' texts => simp [List.intercalate_cons_cons]

theorem flatMap_printed (pieces : List (Piece α)) :
    pieces.flatMap (Piece.printed hide marker) = marker.intercalate (gaps hide pieces) := by
  induction pieces with
  | nil => rfl
  | cons piece rest ih =>
    rw [List.flatMap_cons, ih]
    cases piece with
    | kept c => exact (intercalate_modifyHead (p := [c]) (gaps_ne_nil hide rest)).symm
    | found f =>
      rw [gaps, Piece.printed]
      by_cases hhide : hide f = true
      · rw [if_pos hhide, if_pos hhide,
          List.intercalate_cons_of_ne_nil (gaps_ne_nil hide rest), List.nil_append]
      · rw [if_neg hhide, if_neg hhide, intercalate_modifyHead (gaps_ne_nil hide rest)]

/-- A marker that is found again as it is. -/
structure Fenced (M : Matcher α) (hide : Found α → Bool) (marker : List α) : Prop where
  ends : ∃ z inner z', marker = z :: (inner ++ [z']) ∧ Cut M hide z ∧ Cut M hide z' ∧
    rewriteFrom M hide marker [] inner = inner

theorem Fenced.rewrite_append (h : Fenced M hide marker) (text rest : List α) :
    rewriteFrom M hide marker [] (text ++ (marker ++ rest)) =
      rewriteFrom M hide marker [] text ++ (marker ++ rewriteFrom M hide marker [] rest) := by
  obtain ⟨z, inner, z', hmarker, hz, hz', hinner⟩ := h.ends
  have hsplit : marker ++ rest = z :: (inner ++ z' :: rest) := by
    rw [hmarker, List.cons_append, List.append_assoc, List.singleton_append]
  rw [hsplit, hz.rewrite_append, hz'.rewrite_append, hinner]
  nth_rewrite 4 [hmarker]
  rw [List.cons_append, List.append_assoc, List.singleton_append]

theorem Fenced.rewrite_intercalate (h : Fenced M hide marker) (texts : List (List α)) :
    rewriteFrom M hide marker [] (marker.intercalate texts) =
      marker.intercalate (texts.map (rewriteFrom M hide marker [])) := by
  induction texts with
  | nil => exact rewriteFrom_nil []
  | cons text texts ih =>
    cases texts with
    | nil => rw [List.map_singleton, List.intercalate_singleton, List.intercalate_singleton]
    | cons text' texts =>
      rw [List.intercalate_cons_cons, List.append_assoc, h.rewrite_append, ih]
      simp only [List.map_cons, List.intercalate_cons_cons, List.append_assoc]

/-! ### Weight -/

/-- Nothing in the text is to be hidden. -/
def Untouched (M : Matcher α) (hide : Found α → Bool) (behind text : List α) : Prop :=
  ∀ f, .found f ∈ scanFrom M behind 0 text → hide f = false

theorem Untouched.rewrite {behind text : List α} (h : Untouched M hide behind text) :
    rewriteFrom M hide marker behind text = text := by
  have hprinted : rewriteFrom M hide marker behind text =
      (scanFrom M behind 0 text).flatMap Piece.source := by
    apply List.flatMap_congr
    intro piece hpiece
    cases piece with
    | kept c => rfl
    | found f => rw [Piece.printed, h f hpiece, if_neg Bool.false_ne_true, Piece.source]
  rw [hprinted, flatMap_source]

variable {p : α → Bool}

variable (hide) in
theorem countP_flatMap_le (hmarker : marker.countP p = 0) (pieces : List (Piece α)) :
    (pieces.flatMap (Piece.printed hide marker)).countP p ≤
      (pieces.flatMap Piece.source).countP p := by
  induction pieces with
  | nil => exact le_rfl
  | cons piece rest ih =>
    rw [List.flatMap_cons, List.flatMap_cons, List.countP_append, List.countP_append]
    refine Nat.add_le_add ?_ ih
    cases piece with
    | kept c => exact le_rfl
    | found f =>
      rw [Piece.printed, Piece.source]
      by_cases hhide : hide f = true
      · rw [if_pos hhide, hmarker]
        exact Nat.zero_le _
      · rw [if_neg hhide]

/-- A hidden part takes its weight from the text. -/
theorem countP_flatMap_lt (hmarker : marker.countP p = 0) {pieces : List (Piece α)} {f : Found α}
    (hf : .found f ∈ pieces) (hhide : hide f = true) (hpos : 0 < f.text.countP p) :
    (pieces.flatMap (Piece.printed hide marker)).countP p <
      (pieces.flatMap Piece.source).countP p := by
  obtain ⟨before, after, rfl⟩ := List.append_of_mem hf
  have hbefore := countP_flatMap_le hide hmarker before
  have hafter := countP_flatMap_le hide hmarker after
  simp only [List.flatMap_append, List.flatMap_cons, List.countP_append, Piece.printed, hhide,
    if_true, hmarker, Piece.source]
  omega

theorem countP_intercalate (hmarker : marker.countP p = 0) (texts : List (List α)) :
    (marker.intercalate texts).countP p = (texts.map (List.countP p)).sum := by
  induction texts with
  | nil => rfl
  | cons text texts ih =>
    cases texts with
    | nil => simp
    | cons text' texts =>
      rw [List.intercalate_cons_cons, List.countP_append, List.countP_append, hmarker, ih,
        Nat.add_zero]
      simp only [List.map_cons, List.sum_cons]

/-- Rewriting again changes nothing exactly when the texts between the markers, each read on
its own, hold nothing to be hidden. -/
theorem rewrite_idem_iff (h : Fenced M hide marker) (hmarker : marker.countP p = 0)
    (hpos : ∀ f, hide f = true → 0 < f.text.countP p) (text : List α) :
    rewriteFrom M hide marker [] (rewriteFrom M hide marker [] text) =
        rewriteFrom M hide marker [] text ↔
      ∀ g ∈ gaps hide (scan M text), Untouched M hide [] g := by
  have hgaps : rewriteFrom M hide marker [] text = marker.intercalate (gaps hide (scan M text)) :=
    flatMap_printed _
  rw [hgaps, h.rewrite_intercalate]
  constructor
  · intro heq
    by_contra hcon
    obtain ⟨g, hg, htouched⟩ := not_forall₂.mp hcon
    obtain ⟨f, hf, hhide⟩ := not_forall₂.mp htouched
    rw [Bool.not_eq_false] at hhide
    have hlt : ((gaps hide (scan M text)).map fun g =>
        (rewriteFrom M hide marker [] g).countP p).sum <
        ((gaps hide (scan M text)).map (List.countP p)).sum := by
      apply List.sum_lt_sum
      · intro g' _
        have hle := countP_flatMap_le hide hmarker (scanFrom M [] 0 g')
        rwa [flatMap_source] at hle
      · have hless := countP_flatMap_lt hmarker hf hhide (hpos f hhide)
        rw [flatMap_source] at hless
        exact ⟨g, hg, hless⟩
    have hcount := congrArg (List.countP p) heq
    rw [countP_intercalate hmarker, countP_intercalate hmarker, List.map_map] at hcount
    exact absurd hcount (ne_of_lt hlt)
  · intro hall
    congr 1
    rw [List.map_congr_left (g := id) fun g hg => (hall g hg).rewrite, List.map_id]

end Rewriting

end LeanCtx.Scan
