import Mathlib.Data.List.DropRight
import Mathlib.Data.List.Infix
import Mathlib.Algebra.Order.BigOperators.Group.List
import Mathlib.Tactic.Common

/-!
# Replacing whole words

A pattern is replaced where the bytes around it end words and the run of
non-blank characters it stands in holds no slash. Every byte of a character
beyond ASCII ends a word, so the test is one of characters.
-/

namespace LeanCtx.Terse

abbrev Text := List Char

/-! ## The replacement -/

def isWordBoundary (c : Char) : Bool :=
  !c.isAlphanum && c != '-' && c != '_' && c != '\'' && c != '"'

/-- `u8::is_ascii_whitespace`. -/
def isAsciiWhitespace (c : Char) : Bool := [' ', '\t', '\n', '\x0c', '\r'].contains c

def isSlash (c : Char) : Bool := c == '/' || c == '\\'

def isInsidePath (before found after : Text) : Bool :=
  (before.rtakeWhile (fun c => !isAsciiWhitespace c) ++ found ++
    after.takeWhile (fun c => !isAsciiWhitespace c)).any isSlash

/-- An occurrence between two texts is replaced. -/
def isReplaced (before found after : Text) : Bool :=
  before.getLast?.all isWordBoundary && after.head?.all isWordBoundary &&
    !isInsidePath before found after

/-- The loop over the occurrences; the skipped characters are those of the last one. -/
def replaceFrom (pattern replacement : Text) : ℕ → Text → Text → Text
  | _, _, [] => []
  | skip + 1, before, c :: rest => replaceFrom pattern replacement skip (before ++ [c]) rest
  | 0, before, c :: rest =>
    if pattern.isPrefixOf (c :: rest) then
      (if isReplaced before pattern ((c :: rest).drop pattern.length) then replacement
        else pattern) ++
        replaceFrom pattern replacement (pattern.length - 1) (before ++ [c]) rest
    else c :: replaceFrom pattern replacement 0 (before ++ [c]) rest

def replaceWholeWord (text pattern replacement : Text) : Text :=
  if pattern = [] ∨ ¬pattern <:+: text then text else replaceFrom pattern replacement 0 [] text

section Replace

variable {pattern replacement before rest : Text}

theorem replaceFrom_kept {c : Char} (h : ¬pattern <+: c :: rest) :
    replaceFrom pattern replacement 0 before (c :: rest) =
      c :: replaceFrom pattern replacement 0 (before ++ [c]) rest := by
  rw [replaceFrom, if_neg (List.isPrefixOf_iff_prefix.not.mpr h)]

theorem replaceFrom_skip (skipped : Text) :
    replaceFrom pattern replacement skipped.length before (skipped ++ rest) =
      replaceFrom pattern replacement 0 (before ++ skipped) rest := by
  induction skipped generalizing before with
  | nil => rw [List.length_nil, List.nil_append, List.append_nil]
  | cons c skipped ih =>
    rw [List.length_cons, List.cons_append, replaceFrom, ih, List.append_assoc,
      List.singleton_append]

theorem replaceFrom_found (hpattern : pattern ≠ []) :
    replaceFrom pattern replacement 0 before (pattern ++ rest) =
      (if isReplaced before pattern rest then replacement else pattern) ++
        replaceFrom pattern replacement 0 (before ++ pattern) rest := by
  cases pattern with
  | nil => exact absurd rfl hpattern
  | cons c tail =>
    have hpre : (c :: tail).isPrefixOf (c :: (tail ++ rest)) = true :=
      List.isPrefixOf_iff_prefix.mpr (List.prefix_append (c :: tail) rest)
    have hdrop : (c :: (tail ++ rest)).drop (c :: tail).length = rest := List.drop_left
    rw [List.cons_append, replaceFrom, if_pos hpre, hdrop, List.length_cons,
      Nat.add_sub_cancel, replaceFrom_skip, List.append_assoc, List.singleton_append]

/-- Characters at which no occurrence begins are copied. -/
theorem replaceFrom_pass {part : Text}
    (h : ∀ v, v ≠ [] → v <:+ part → ¬pattern <+: v ++ rest) :
    replaceFrom pattern replacement 0 before (part ++ rest) =
      part ++ replaceFrom pattern replacement 0 (before ++ part) rest := by
  induction part generalizing before with
  | nil => rw [List.nil_append, List.append_nil, List.nil_append]
  | cons c part ih =>
    have hhead : ¬pattern <+: c :: (part ++ rest) :=
      h (c :: part) (List.cons_ne_nil _ _) List.suffix_rfl
    rw [List.cons_append, replaceFrom_kept hhead,
      ih fun v hv hsuffix => h v hv (hsuffix.trans (List.suffix_cons c part)),
      List.append_assoc, List.singleton_append, List.cons_append]

theorem replaceWholeWord_eq (hpattern : pattern ≠ []) (text : Text) :
    replaceWholeWord text pattern replacement = replaceFrom pattern replacement 0 [] text := by
  rw [replaceWholeWord]
  split_ifs with h
  · have hnot : ¬pattern <:+: text := h.resolve_left hpattern
    have hpass := @replaceFrom_pass pattern replacement [] [] text fun v _ hsuffix hpre => by
      rw [List.append_nil] at hpre
      exact hnot (hpre.isInfix.trans hsuffix.isInfix)
    rw [List.append_nil, List.nil_append, replaceFrom, List.append_nil] at hpass
    exact hpass.symm
  · rfl

/-- Where a run of word characters ends. -/
def EndsWord (isWord : Char → Bool) (c : Option Char) : Prop := ∀ d, c = some d → isWord d = false

/-- A run of word characters is copied when nothing in it is replaced. -/
theorem replaceFrom_word {isWord : Char → Bool} {run : Text} (hpattern : pattern ≠ [])
    (hword : ∀ c ∈ pattern, isWord c = true) (hrest : EndsWord isWord rest.head?)
    (hnot : ∀ x y, run = x ++ pattern ++ y → isReplaced (before ++ x) pattern (y ++ rest) = false) :
    replaceFrom pattern replacement 0 before (run ++ rest) =
      run ++ replaceFrom pattern replacement 0 (before ++ run) rest := by
  induction hn : run.length using Nat.strongRecOn generalizing before run with
  | _ n ih =>
    by_cases hpre : pattern <+: run ++ rest
    · have hinside : pattern <+: run := by
        obtain h | ⟨more, hmore⟩ := List.prefix_or_prefix_of_prefix hpre (List.prefix_append _ _)
        · exact h
        · cases more with
          | nil => rw [← hmore, List.append_nil]
          | cons c more =>
            obtain ⟨tail, htail⟩ := hpre
            rw [← hmore, List.append_assoc, List.append_cancel_left_eq] at htail
            have hc : isWord c = false := hrest c (by rw [← htail]; rfl)
            have hmem : c ∈ pattern := hmore ▸ List.mem_append_right _ List.mem_cons_self
            rw [hword c hmem] at hc
            cases hc
      obtain ⟨y, rfl⟩ := hinside
      have hfirst := hnot [] y rfl
      rw [List.append_nil] at hfirst
      have hlen : y.length < n := by
        have hpos := List.length_pos_iff.mpr hpattern
        rw [List.length_append] at hn
        omega
      rw [List.append_assoc, replaceFrom_found hpattern, hfirst, if_neg Bool.false_ne_true,
        ih y.length hlen (fun x z hz => ?_) rfl, List.append_assoc, List.append_assoc]
      rw [List.append_assoc]
      exact hnot (pattern ++ x) z (by rw [hz]; simp)
    · cases run with
      | nil => rw [List.nil_append, List.append_nil, List.nil_append]
      | cons c run =>
        have hlen : run.length < n := by
          rw [← hn]
          exact Nat.lt_succ_self _
        have hkept : ¬pattern <+: c :: (run ++ rest) := hpre
        rw [List.cons_append, replaceFrom_kept hkept, ih run.length hlen (fun x y hy => ?_) rfl,
          List.append_assoc, List.singleton_append, List.cons_append]
        rw [List.append_assoc]
        exact hnot (c :: x) y (by rw [hy]; rfl)

/-- The same for a pattern with its first character nowhere else, character by character. -/
theorem replaceFrom_head {c : Char} {tail : Text} (htail : c ∉ tail)
    (hnot : ∀ y, rest = tail ++ y → isReplaced before (c :: tail) y = false) :
    replaceFrom (c :: tail) replacement 0 before (c :: rest) =
      c :: replaceFrom (c :: tail) replacement 0 (before ++ [c]) rest := by
  by_cases hpre : c :: tail <+: c :: rest
  · obtain ⟨y, hy⟩ := hpre
    obtain rfl : tail ++ y = rest := (List.cons.inj hy).2
    have hpass : replaceFrom (c :: tail) replacement 0 (before ++ [c]) (tail ++ y) =
        tail ++ replaceFrom (c :: tail) replacement 0 (before ++ [c] ++ tail) y := by
      refine replaceFrom_pass fun v hv hsuffix hpre' => ?_
      cases v with
      | nil => exact hv rfl
      | cons d v =>
        obtain rfl := (List.cons_prefix_cons.mp hpre').1
        exact htail (hsuffix.mem List.mem_cons_self)
    have hfound := @replaceFrom_found (c :: tail) replacement before y (List.cons_ne_nil _ _)
    rw [hnot y rfl, if_neg Bool.false_ne_true] at hfound
    rw [← List.cons_append, hfound, hpass]
    simp
  · exact replaceFrom_kept hpre

end Replace

end LeanCtx.Terse
