import LeanCtx.Glob
import LeanCtx.Policy

/-!
# Model patterns are globs

The row of a model pattern is kept in place, as the source does, and it is the
row that the decisions of a policy read.
-/

namespace LeanCtx.Policy

open ByteText

def starByte : UInt8 := 42

/-- The dynamic programme with its row updated in place: upwards for a star, downwards for
another byte. -/
def modelPatternMatchesInPlace (pattern model : String) : Bool :=
  Glob.matched starByte (utf8 (trim pattern)) (utf8 (trim model))

theorem length_starRow (reached : Bool) (row : List Bool) :
    (starRow reached row).length = row.length := by
  induction row generalizing reached with
  | nil => rfl
  | cons m row ih => rw [starRow, List.length_cons, ih, List.length_cons]

theorem getD_starRow (reached : Bool) (row : List Bool) {i : ℕ} (hi : i < row.length) :
    (starRow reached row).getD i false = true ↔
      reached = true ∨ ∃ j ≤ i, row.getD j false = true := by
  induction row generalizing reached i with
  | nil => cases hi
  | cons m row ih =>
    rw [starRow]
    cases i with
    | zero =>
      rw [List.getD_cons_zero, Bool.or_eq_true]
      constructor
      · rintro (h | h)
        · exact .inl h
        · exact .inr ⟨0, Nat.le_refl 0, h⟩
      · rintro (h | ⟨j, hj, h⟩)
        · exact .inl h
        · obtain rfl := Nat.le_zero.mp hj
          exact .inr h
    | succ i =>
      rw [List.getD_cons_succ, ih _ (Nat.lt_of_succ_lt_succ hi), Bool.or_eq_true]
      constructor
      · rintro ((h | h) | ⟨j, hj, h⟩)
        · exact .inl h
        · exact .inr ⟨0, Nat.zero_le _, h⟩
        · exact .inr ⟨j + 1, Nat.succ_le_succ hj, h⟩
      · rintro (h | ⟨j, hj, h⟩)
        · exact .inl (.inl h)
        · cases j with
          | zero => exact .inl (.inr h)
          | succ j => exact .inr ⟨j, Nat.le_of_succ_le_succ hj, h⟩

theorem getD_literalRow (byte : UInt8) (model : Bytes) (row : List Bool) (i : ℕ) :
    (literalRow byte model row).getD (i + 1) false = (row.getD i false && model[i]? == some byte) := by
  rw [literalRow, List.getD_cons_succ, List.getD_eq_getElem?_getD, List.getElem?_zipWith,
    List.getD_eq_getElem?_getD]
  cases row[i]? with
  | none => rfl
  | some m => cases model[i]? with
    | none => simp
    | some b => simp

/-- The row a policy computes is the one kept in place. -/
theorem row_eq (byte : UInt8) (model : Bytes) {row : List Bool}
    (hrow : row.length = model.length + 1) :
    (if byte = 42 then starRow false row else literalRow byte model row) =
      Glob.step starByte model row byte := by
  unfold Glob.step starByte
  split_ifs with hbyte
  · obtain ⟨hlength, hspec⟩ := Glob.starUp_spec row (by omega : model.length < row.length)
    refine List.ext_getElem (by rw [length_starRow, hlength]) fun i hi hi' => ?_
    rw [Bool.eq_iff_iff, ← List.getD_eq_getElem _ false hi, ← List.getD_eq_getElem _ false hi']
    rw [length_starRow] at hi
    rw [getD_starRow false row hi, hspec i, if_pos (by omega)]
    simp
  · obtain ⟨hlength, hspec⟩ := Glob.letterDown_spec model byte row hrow
    have hlen : (literalRow byte model row).length = row.length := by
      rw [literalRow, List.length_cons, List.length_zipWith]
      omega
    refine List.ext_getElem (hlen.trans hlength.symm) fun i hi hi' => ?_
    rw [← List.getD_eq_getElem _ false hi, ← List.getD_eq_getElem _ false hi', hspec i]
    cases i with
    | zero => rfl
    | succ i =>
      rw [getD_literalRow, if_neg (Nat.succ_ne_zero i), if_pos (by omega), Nat.add_sub_cancel]

theorem modelPatternMatches_eq_inPlace (pattern model : String) :
    modelPatternMatches pattern model = modelPatternMatchesInPlace pattern model := by
  have hstart : (true :: List.replicate (utf8 (trim model)).length false) =
      Glob.start (utf8 (trim model)) := rfl
  have hrow : ∀ p : Bytes,
      (p.foldl (fun matched byte => if byte = 42 then starRow false matched
        else literalRow byte (utf8 (trim model)) matched)
        (true :: List.replicate (utf8 (trim model)).length false)) =
      p.foldl (Glob.step starByte (utf8 (trim model))) (Glob.start (utf8 (trim model))) := by
    intro p
    induction p using List.reverseRecOn with
    | nil => exact hstart
    | append_singleton p byte ih =>
      rw [List.foldl_append, List.foldl_append, ih, List.foldl_cons, List.foldl_nil,
        List.foldl_cons, List.foldl_nil]
      exact row_eq byte _ (Glob.row_foldl p _).length
  have hlast := (@Glob.row_foldl _ _ starByte (utf8 (trim pattern)) (utf8 (trim model))).length
  unfold modelPatternMatches modelPatternMatchesInPlace Glob.matched
  dsimp only
  rw [hrow, List.getLastD_eq_getLast?, List.getLast?_eq_getElem?, hlast, Nat.add_sub_cancel,
    List.getD_eq_getElem?_getD]

/-- A model pattern, with its row kept in place, matches exactly the models that the trimmed
pattern becomes when its stars are replaced by bytes; and so do the decisions of a policy. -/
theorem modelPattern_glob (pattern model : String) :
    (modelPatternMatchesInPlace pattern model = true ↔
      Glob.Matches starByte (utf8 (trim pattern)) (utf8 (trim model))) ∧
    modelPatternMatches pattern model = modelPatternMatchesInPlace pattern model :=
  ⟨Glob.matched_iff _ _, modelPatternMatches_eq_inPlace pattern model⟩

end LeanCtx.Policy
