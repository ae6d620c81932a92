import LeanCtx.TextDecode

/-!
# The lines of a decoded file

A newline byte is a newline in every encoding without a UTF-16 mark and stands in no other
character, so every line of a file is decoded on its own. What an editor saves as UTF-8 or
UTF-16 is read back.
-/

namespace LeanCtx.TextDecode

open Utf8 (encode encode_cons encode_append utf8EncodeChar_ascii eq_of_mem_utf8EncodeChar)

/-- A translation that keeps the separators and makes no others works piece by piece. -/
theorem splitOn_translated {α β : Type} [DecidableEq α] [DecidableEq β] {d : List α → List β}
    {x : α} {y : β} (hd : ∀ a b, d (a ++ x :: b) = d a ++ y :: d b)
    (hfree : ∀ a, x ∉ a → y ∉ d a) (s : List α) : (d s).splitOn y = (s.splitOn x).map d := by
  induction hlen : s.length using Nat.strong_induction_on generalizing s with
  | _ n ih =>
    by_cases hx : x ∈ s
    · obtain ⟨a, b, rfl, ha⟩ := List.eq_append_cons_of_mem hx
      have hb : b.length < n := by
        rw [← hlen, List.length_append, List.length_cons]
        omega
      rw [hd, List.splitOn_append_cons_self_of_not_mem (hfree a ha),
        List.splitOn_append_cons_self_of_not_mem ha, ih b.length hb b rfl, List.map_cons]
    · rw [List.splitOn_eq_singleton (hfree s hx), List.splitOn_eq_singleton hx]
      rfl

def newline : UInt8 := 10

/-! ## Windows-1252 -/

theorem decodeCp1252_newline (a b : Bytes) :
    decodeCp1252 (a ++ newline :: b) = decodeCp1252 a ++ '\n' :: decodeCp1252 b := by
  rw [decodeCp1252, List.map_append, List.map_cons]
  rfl

theorem not_mem_decodeCp1252 {a : Bytes} (h : newline ∉ a) : '\n' ∉ decodeCp1252 a := by
  intro hmem
  obtain ⟨b, hb, hcode⟩ := List.mem_map.mp hmem
  have hsame : cp1252Code b = cp1252Code newline := by
    have hnat := congrArg Char.toNat hcode
    rw [toNat_ofNat_of_lt (cp1252Code_range b).1] at hnat
    exact hnat
  exact h (cp1252Code_injective hsame ▸ hb)

/-! ## UTF-8 -/

theorem encode_newline (a b : Text) : encode (a ++ '\n' :: b) = encode a ++ newline :: encode b := by
  rw [encode_append, encode_cons]
  rfl

theorem mem_encode_newline {t : Text} (h : newline ∈ encode t) : '\n' ∈ t := by
  obtain ⟨c, hc, hmem⟩ := List.mem_flatMap.mp h
  have hten : c.toNat = newline.toNat := eq_of_mem_utf8EncodeChar hmem (by decide)
  have hnewline : c = '\n' := Char.toNat_inj.mp hten
  exact hnewline ▸ hc

theorem not_mem_encode {t : Text} (h : '\n' ∉ t) : newline ∉ encode t :=
  fun hmem => h (mem_encode_newline hmem)

theorem mem_encode_of_mem {t : Text} (h : '\n' ∈ t) : newline ∈ encode t := by
  obtain ⟨a, b, rfl⟩ := List.append_of_mem h
  rw [encode_newline]
  exact List.mem_append_right _ List.mem_cons_self

/-! ## Lossy UTF-8 -/

theorem isContinuation_low {b : ℕ} (h : b < 0x80) : isContinuation b = false :=
  decide_eq_false fun hb => absurd hb.1 (Nat.not_le.mpr h)

theorem isSecondOfThree_low (lead : ℕ) {b : ℕ} (h : b < 0x80) :
    isSecondOfThree lead b = false := by
  rw [isSecondOfThree, isContinuation_low h]
  split_ifs
  · exact decide_eq_false fun hb => by omega
  · exact decide_eq_false fun hb => by omega
  · rfl

theorem isSecondOfFour_low (lead : ℕ) {b : ℕ} (h : b < 0x80) : isSecondOfFour lead b = false := by
  rw [isSecondOfFour, isContinuation_low h]
  split_ifs
  · exact decide_eq_false fun hb => by omega
  · exact decide_eq_false fun hb => by omega
  · rfl

theorem toNat_newline : newline.toNat = 10 := rfl

/-- What `Utf8Chunks` takes next ends before a newline, and does not look past it. -/
theorem sequenceAt_newline {a : Bytes} (ha : a ≠ []) (b : Bytes) :
    sequenceAt (a ++ newline :: b) = sequenceAt a := by
  have hlow : (10 : ℕ) < 0x80 := by decide
  have hzero : (0 : ℕ) < 0x80 := by decide
  obtain ⟨x, a, rfl⟩ := List.exists_cons_of_ne_nil ha
  rcases a with _ | ⟨x₁, _ | ⟨x₂, _ | ⟨x₃, a⟩⟩⟩
  · simp only [sequenceAt, List.cons_append, List.nil_append, List.getD_cons_zero,
      List.getD_cons_succ, List.getD_nil, toNat_newline, UInt8.toNat_zero,
      isContinuation_low hlow, isContinuation_low hzero, isSecondOfThree_low _ hlow,
      isSecondOfThree_low _ hzero, isSecondOfFour_low _ hlow, isSecondOfFour_low _ hzero,
      Bool.false_eq_true, if_false]
  · simp only [sequenceAt, List.cons_append, List.nil_append, List.getD_cons_zero,
      List.getD_cons_succ, List.getD_nil, toNat_newline, UInt8.toNat_zero,
      isContinuation_low hlow, isContinuation_low hzero, Bool.false_eq_true, if_false]
  · simp only [sequenceAt, List.cons_append, List.nil_append, List.getD_cons_zero,
      List.getD_cons_succ, List.getD_nil, toNat_newline, UInt8.toNat_zero,
      isContinuation_low hlow, isContinuation_low hzero, Bool.false_eq_true, if_false]
  · rfl

theorem sequenceAt_length {a : Bytes} (ha : a ≠ []) :
    1 ≤ (sequenceAt a).1 ∧ (sequenceAt a).1 ≤ a.length := by
  have hzero : (0 : ℕ) < 0x80 := by decide
  obtain ⟨x, a, rfl⟩ := List.exists_cons_of_ne_nil ha
  rcases a with _ | ⟨x₁, _ | ⟨x₂, _ | ⟨x₃, a⟩⟩⟩
  · simp only [sequenceAt, List.getD_cons_zero, List.getD_cons_succ, List.getD_nil,
      UInt8.toNat_zero, isContinuation_low hzero, isSecondOfThree_low _ hzero,
      isSecondOfFour_low _ hzero, Bool.false_eq_true, if_false, List.length_cons, List.length_nil]
    split_ifs <;> decide
  · simp only [sequenceAt, List.getD_cons_zero, List.getD_cons_succ, List.getD_nil,
      UInt8.toNat_zero, isContinuation_low hzero, Bool.false_eq_true, if_false,
      List.length_cons, List.length_nil]
    split_ifs <;> decide
  · simp only [sequenceAt, List.getD_cons_zero, List.getD_cons_succ, List.getD_nil,
      UInt8.toNat_zero, isContinuation_low hzero, Bool.false_eq_true, if_false,
      List.length_cons, List.length_nil]
    split_ifs <;> decide
  · simp only [sequenceAt, List.getD_cons_zero, List.getD_cons_succ, List.length_cons]
    split_ifs <;> dsimp only <;> omega

theorem sequencesFrom_cons (fuel : ℕ) {a : Bytes} (ha : a ≠ []) :
    sequencesFrom (fuel + 1) a = (a.take (sequenceAt a).1, (sequenceAt a).2) ::
      sequencesFrom fuel (a.drop (sequenceAt a).1) := by
  rw [sequencesFrom, if_neg ha]

theorem length_drop_sequence {a : Bytes} (ha : a ≠ []) :
    (a.drop (sequenceAt a).1).length < a.length := by
  have h := sequenceAt_length ha
  rw [List.length_drop]
  omega

theorem sequencesFrom_eq {a : Bytes} {fuel : ℕ} (h : a.length ≤ fuel) :
    sequencesFrom fuel a = sequences a := by
  induction hn : a.length using Nat.strong_induction_on generalizing a fuel with
  | _ n ih =>
    by_cases ha : a = []
    · subst ha
      cases fuel <;> rfl
    · have hdrop := length_drop_sequence ha
      have hpos : 0 < a.length := List.length_pos_of_ne_nil ha
      obtain ⟨fuel, rfl⟩ := Nat.exists_eq_succ_of_ne_zero (n := fuel) (by omega)
      obtain ⟨m, hm⟩ := Nat.exists_eq_succ_of_ne_zero (n := a.length) (by omega)
      rw [sequences, hm, sequencesFrom_cons _ ha, sequencesFrom_cons _ ha,
        ih _ (hn ▸ hdrop) (by omega) rfl, ih _ (hn ▸ hdrop) (by omega) rfl]

theorem sequences_cons {a : Bytes} (ha : a ≠ []) :
    sequences a = (a.take (sequenceAt a).1, (sequenceAt a).2) ::
      sequences (a.drop (sequenceAt a).1) := by
  have hdrop := length_drop_sequence ha
  have hpos : 0 < a.length := List.length_pos_of_ne_nil ha
  obtain ⟨m, hm⟩ := Nat.exists_eq_succ_of_ne_zero (n := a.length) (by omega)
  rw [sequences, hm, sequencesFrom_cons _ ha, sequencesFrom_eq (by omega)]

theorem sequences_newline (a b : Bytes) :
    sequences (a ++ newline :: b) = sequences a ++ ([newline], true) :: sequences b := by
  induction hn : a.length using Nat.strong_induction_on generalizing a with
  | _ n ih =>
    by_cases ha : a = []
    · subst ha
      have hstep : sequenceAt (newline :: b) = (1, true) := rfl
      rw [List.nil_append, sequences_cons (List.cons_ne_nil _ _), hstep]
      rfl
    · have hdrop := length_drop_sequence ha
      have hlen := (sequenceAt_length ha).2
      rw [sequences_cons (List.append_ne_nil_of_left_ne_nil ha _), sequenceAt_newline ha,
        List.take_append_of_le_length hlen, List.drop_append_of_le_length hlen,
        ih _ (hn ▸ hdrop) _ rfl, sequences_cons ha, List.cons_append]

theorem mem_of_mem_sequences {a : Bytes} {s : Bytes × Bool} (hs : s ∈ sequences a) {b : UInt8}
    (hb : b ∈ s.1) : b ∈ a := by
  induction hn : a.length using Nat.strong_induction_on generalizing a with
  | _ n ih =>
    by_cases ha : a = []
    · subst ha
      cases hs
    · rw [sequences_cons ha, List.mem_cons] at hs
      rcases hs with rfl | hs
      · exact List.mem_of_mem_take hb
      · exact List.mem_of_mem_drop (ih _ (hn ▸ length_drop_sequence ha) hs rfl)

theorem fromUtf8Lossy_newline (a b : Bytes) :
    fromUtf8Lossy (a ++ newline :: b) = fromUtf8Lossy a ++ '\n' :: fromUtf8Lossy b := by
  have hone : fromUtf8 [newline] = some ['\n'] := fromUtf8_eq_some.mpr rfl
  rw [fromUtf8Lossy, sequences_newline, List.flatMap_append, List.flatMap_cons, if_pos rfl, hone]
  rfl

theorem not_mem_fromUtf8Lossy {a : Bytes} (h : newline ∉ a) : '\n' ∉ fromUtf8Lossy a := by
  intro hmem
  obtain ⟨s, hs, hc⟩ := List.mem_flatMap.mp hmem
  split_ifs at hc
  · cases hbytes : fromUtf8 s.1 with
    | none =>
      rw [hbytes] at hc
      cases hc
    | some t =>
      rw [hbytes] at hc
      rw [fromUtf8_eq_some] at hbytes
      exact h (mem_of_mem_sequences hs (hbytes ▸ mem_encode_of_mem hc))
  · exact absurd (List.mem_singleton.mp hc) (by decide)

/-! ## The lines -/

/-- One line in an encoding without a UTF-16 mark. -/
def decodeLine : Encoding → Bytes → Text
  | .windows1252 => decodeCp1252
  | .utf8Lossy => fromUtf8Lossy
  | _ => fun bytes => (fromUtf8 bytes).getD []

theorem decodeChecked_body {bytes : Bytes} (h : hasUtf16Bom bytes = false) :
    decodeChecked bytes = match fromUtf8 (body bytes) with
      | some text => ⟨text, if utf8Bom.isPrefixOf bytes then .utf8Bom else .utf8, none⟩
      | none =>
        if isMostlyUtf8 (body bytes) then
          ⟨fromUtf8Lossy (body bytes), .utf8Lossy, some .invalidUtf8⟩
        else ⟨decodeCp1252 (body bytes), .windows1252, none⟩ := by
  obtain ⟨hle, hbe⟩ := Bool.or_eq_false_iff.mp h
  rw [decodeChecked, hle, hbe]
  rfl

theorem lines_encode (t : Text) : t.splitOn '\n' =
    ((encode t).splitOn newline).map fun bytes => (fromUtf8 bytes).getD [] := by
  rw [splitOn_translated encode_newline fun a => not_mem_encode, List.map_map]
  refine (List.map_id _).symm.trans (List.map_congr_left fun piece _ => ?_)
  have hpiece : fromUtf8 (encode piece) = some piece := fromUtf8_eq_some.mpr rfl
  rw [Function.comp_apply, hpiece]
  rfl

/-- Every line of a text is the decoding of that line of the file, so line numbers are exact. -/
theorem lines_decodeChecked {bytes : Bytes} (h : hasUtf16Bom bytes = false) :
    (decodeChecked bytes).text.splitOn '\n' =
      ((body bytes).splitOn newline).map (decodeLine (decodeChecked bytes).encoding) := by
  rw [decodeChecked_body h]
  cases hbody : fromUtf8 (body bytes) with
  | some t =>
    dsimp only
    rw [fromUtf8_eq_some.mp hbody, lines_encode]
    split_ifs
    · rfl
    · rfl
  | none =>
    dsimp only
    split_ifs
    · exact splitOn_translated fromUtf8Lossy_newline (fun a => not_mem_fromUtf8Lossy) _
    · exact splitOn_translated decodeCp1252_newline (fun a => not_mem_decodeCp1252) _

/-- Two lines of a Windows-1252 file, with a letter that is not UTF-8. -/
theorem lines_decodeChecked_latin : hasUtf16Bom [0x61, 0x0A, 0xE4] = false ∧
    (decodeChecked [0x61, 0x0A, 0xE4]).text.splitOn '\n' =
      ((body [0x61, 0x0A, 0xE4]).splitOn newline).map
        (decodeLine (decodeChecked [0x61, 0x0A, 0xE4]).encoding) :=
  ⟨rfl, lines_decodeChecked rfl⟩

/-! ## What is saved is read back -/

theorem lt_of_mem_utf8EncodeChar {c : Char} {b : UInt8} (h : b ∈ String.utf8EncodeChar c) :
    b.toNat < 0xF8 := by
  unfold String.utf8EncodeChar at h
  dsimp only at h
  split_ifs at h with h₁ h₂ h₃
  all_goals
    simp only [List.mem_cons, List.not_mem_nil, or_false] at h
  · rw [h, UInt8.toNat_ofNat']
    omega
  · rcases h with rfl | rfl <;> rw [UInt8.toNat_ofNat'] <;> omega
  · rcases h with rfl | rfl | rfl <;> rw [UInt8.toNat_ofNat'] <;> omega
  · rcases h with rfl | rfl | rfl | rfl <;> rw [UInt8.toNat_ofNat'] <;> omega

theorem hasUtf16Bom_encode (t : Text) : hasUtf16Bom (encode t) = false := by
  cases hbytes : encode t with
  | nil => rfl
  | cons b rest =>
    have hmem : b ∈ encode t := hbytes ▸ List.mem_cons_self
    obtain ⟨c, -, hb⟩ := List.mem_flatMap.mp hmem
    have hlt := lt_of_mem_utf8EncodeChar hb
    have hne : (0xFF : UInt8) ≠ b ∧ (0xFE : UInt8) ≠ b := by
      constructor
      · rintro rfl
        exact absurd hlt (by decide)
      · rintro rfl
        exact absurd hlt (by decide)
    rw [hasUtf16Bom, utf16LeBom, utf16BeBom, List.isPrefixOf_cons_cons, List.isPrefixOf_cons_cons,
      beq_false_of_ne hne.1, beq_false_of_ne hne.2, Bool.false_and, Bool.false_and, Bool.or_false]

/-- Only the byte order mark is written as a UTF-8 mark. -/
theorem head_of_utf8Bom {t : Text} (h : utf8Bom.isPrefixOf (encode t) = true) :
    t.head? = some '\uFEFF' := by
  cases t with
  | nil => cases h
  | cons c s =>
    obtain ⟨rest, hrest⟩ := List.isPrefixOf_iff_prefix.mp h
    rw [encode_cons] at hrest
    have hcode : c.toNat = 0xFEFF := by
      change c.val.toNat = 0xFEFF
      unfold String.utf8EncodeChar at hrest
      dsimp only at hrest
      split_ifs at hrest with h₁ h₂ h₃
      · have hlead := congrArg UInt8.toNat (List.cons.inj hrest).1
        rw [UInt8.toNat_ofNat', show (0xEF : UInt8).toNat = 239 from rfl] at hlead
        omega
      · have hlead := congrArg UInt8.toNat (List.cons.inj hrest).1
        rw [UInt8.toNat_ofNat', show (0xEF : UInt8).toNat = 239 from rfl] at hlead
        omega
      · obtain ⟨hlead, hrest⟩ := List.cons.inj hrest
        obtain ⟨hsecond, hrest⟩ := List.cons.inj hrest
        have hthird := congrArg UInt8.toNat (List.cons.inj hrest).1
        have hlead := congrArg UInt8.toNat hlead
        have hsecond := congrArg UInt8.toNat hsecond
        rw [UInt8.toNat_ofNat', show (0xEF : UInt8).toNat = 239 from rfl] at hlead
        rw [UInt8.toNat_ofNat', show (0xBB : UInt8).toNat = 187 from rfl] at hsecond
        rw [UInt8.toNat_ofNat', show (0xBF : UInt8).toNat = 191 from rfl] at hthird
        omega
      · have hlead := congrArg UInt8.toNat (List.cons.inj hrest).1
        rw [UInt8.toNat_ofNat', show (0xEF : UInt8).toNat = 239 from rfl] at hlead
        omega
    rw [List.head?_cons, Char.toNat_inj.mp (hcode.trans (show 0xFEFF = '\uFEFF'.toNat from rfl))]

/-- A text that an editor saves as UTF-8 or UTF-16, with the mark of its encoding, is read back
without loss; as UTF-8 without a mark it may not begin with the character of the mark. -/
theorem decodeChecked_writes {encoding : Encoding} {t : Text} {bytes : Bytes}
    (h : Writes encoding t bytes) (hlossy : encoding ≠ .utf8Lossy)
    (hwindows : encoding ≠ .windows1252) (hmark : encoding = .utf8 → t.head? ≠ some '\uFEFF') :
    decodeChecked bytes = ⟨t, encoding, none⟩ := by
  have hread : fromUtf8 (encode t) = some t := fromUtf8_eq_some.mpr rfl
  cases encoding with
  | utf8 =>
    obtain rfl : bytes = encode t := h
    have hnot : utf8Bom.isPrefixOf (encode t) = false :=
      Bool.eq_false_iff.mpr fun hbom => hmark rfl (head_of_utf8Bom hbom)
    rw [decodeChecked_body (hasUtf16Bom_encode t), body_of_not_mark hnot, hread, hnot]
    rfl
  | utf8Bom =>
    obtain rfl : bytes = TextDecode.utf8Bom ++ encode t := h
    rw [decodeChecked_body (hasUtf16Bom_mark _), body_mark, hread]
    rfl
  | utf16Le =>
    obtain rfl : bytes = utf16LeBom ++ encodeUtf16 littleEndian t := h
    have hle : utf16LeBom.isPrefixOf (utf16LeBom ++ encodeUtf16 littleEndian t) = true := rfl
    rw [decodeChecked, if_pos hle]
    exact decodeUtf16_encodeUtf16 littleEndian t .utf16Le
  | utf16Be =>
    obtain rfl : bytes = utf16BeBom ++ encodeUtf16 bigEndian t := h
    have hle : utf16LeBom.isPrefixOf (utf16BeBom ++ encodeUtf16 bigEndian t) = false := rfl
    have hbe : utf16BeBom.isPrefixOf (utf16BeBom ++ encodeUtf16 bigEndian t) = true := rfl
    rw [decodeChecked, hle, hbe]
    exact decodeUtf16_encodeUtf16 bigEndian t .utf16Be
  | utf8Lossy => exact absurd rfl hlossy
  | windows1252 => exact absurd rfl hwindows

theorem decodeChecked_writes_surrogates :
    decodeChecked (utf16LeBom ++ encodeUtf16 littleEndian "a😀".toList) =
      ⟨"a😀".toList, .utf16Le, none⟩ :=
  decodeChecked_writes rfl (by decide) (by decide) nofun

end LeanCtx.TextDecode
