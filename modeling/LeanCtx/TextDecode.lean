import LeanCtx.ByteText
import LeanCtx.Utf8
import Mathlib.Data.Bool.AllAny
import Mathlib.Data.List.GetD
import Mathlib.Data.List.Infix
import Mathlib.Data.List.Nodup

/-!
# Decoding a source file

A byte order mark or the validity of the bytes chooses the encoding. What is decoded as
UTF-8 or UTF-16 without loss is the writing of its text; the fallback to Windows-1252
comes after a UTF-8 mark is taken off and does not tell that it was there.
-/

namespace LeanCtx.TextDecode

open Utf8 (encode)

abbrev Text := List Char

abbrev Bytes := List UInt8

/-! ## Windows-1252 -/

/-- The code points of the bytes from 128 to 159. -/
def cp1252High : List ℕ :=
  [0x20AC, 0x0081, 0x201A, 0x0192, 0x201E, 0x2026, 0x2020, 0x2021,
    0x02C6, 0x2030, 0x0160, 0x2039, 0x0152, 0x008D, 0x017D, 0x008F,
    0x0090, 0x2018, 0x2019, 0x201C, 0x201D, 0x2022, 0x2013, 0x2014,
    0x02DC, 0x2122, 0x0161, 0x203A, 0x0153, 0x009D, 0x017E, 0x0178]

def cp1252Code (b : UInt8) : ℕ :=
  if 128 ≤ b.toNat ∧ b.toNat < 160 then cp1252High.getD (b.toNat - 128) 0 else b.toNat

def decodeCp1252 (bytes : Bytes) : Text := bytes.map fun b => Char.ofNat (cp1252Code b)

/-! ## UTF-16 -/

/-- How two bytes make a code unit. -/
structure ByteOrder where
  unit : UInt8 × UInt8 → ℕ
  pair : ℕ → UInt8 × UInt8
  pair_unit : ∀ p, pair (unit p) = p
  unit_pair : ∀ u < 65536, unit (pair u) = u
  unit_lt : ∀ p, unit p < 65536

def chunks : Bytes → List (UInt8 × UInt8) × Bytes
  | a :: b :: rest => ((a, b) :: (chunks rest).1, (chunks rest).2)
  | tail => ([], tail)

def joinSurrogates (u v : ℕ) : ℕ := (u - 0xD800) * 1024 + (v - 0xDC00) + 0x10000

/-- `char::decode_utf16`, with `none` at an unpaired surrogate. -/
def decodeUnits : List ℕ → List (Option Char)
  | [] => []
  | [u] => [if u < 0xD800 ∨ 0xE000 ≤ u then some (Char.ofNat u) else none]
  | u :: v :: rest =>
    if u < 0xD800 ∨ 0xE000 ≤ u then some (Char.ofNat u) :: decodeUnits (v :: rest)
    else if u < 0xDC00 ∧ 0xDC00 ≤ v ∧ v < 0xE000 then
      some (Char.ofNat (joinSurrogates u v)) :: decodeUnits rest
    else none :: decodeUnits (v :: rest)

def replacement : Char := '\uFFFD'

/-! ## UTF-8 -/

def fromUtf8 (bytes : Bytes) : Option Text := (ByteText.fromUtf8 bytes).map String.toList

def isContinuation (b : ℕ) : Bool := decide (0x80 ≤ b ∧ b ≤ 0xBF)

/-- The second byte of a character of three bytes. -/
def isSecondOfThree (lead b : ℕ) : Bool :=
  if lead = 0xE0 then decide (0xA0 ≤ b ∧ b ≤ 0xBF)
  else if lead = 0xED then decide (0x80 ≤ b ∧ b ≤ 0x9F)
  else isContinuation b

def isSecondOfFour (lead b : ℕ) : Bool :=
  if lead = 0xF0 then decide (0x90 ≤ b ∧ b ≤ 0xBF)
  else if lead = 0xF4 then decide (0x80 ≤ b ∧ b ≤ 0x8F)
  else isContinuation b

/-- How many bytes of a text that is not empty `Utf8Chunks` takes next, and whether they are a
character. A byte behind the end counts as 0. -/
def sequenceAt (bytes : Bytes) : ℕ × Bool :=
  let byte (i : ℕ) : ℕ := (bytes.getD i 0).toNat
  if byte 0 < 0x80 then (1, true)
  else if 0xC2 ≤ byte 0 ∧ byte 0 ≤ 0xDF then
    if isContinuation (byte 1) then (2, true) else (1, false)
  else if 0xE0 ≤ byte 0 ∧ byte 0 ≤ 0xEF then
    if isSecondOfThree (byte 0) (byte 1) then
      if isContinuation (byte 2) then (3, true) else (2, false)
    else (1, false)
  else if 0xF0 ≤ byte 0 ∧ byte 0 ≤ 0xF4 then
    if isSecondOfFour (byte 0) (byte 1) then
      if isContinuation (byte 2) then
        if isContinuation (byte 3) then (4, true) else (3, false)
      else (2, false)
    else (1, false)
  else (1, false)

def sequencesFrom : ℕ → Bytes → List (Bytes × Bool)
  | 0, _ => []
  | fuel + 1, bytes =>
    if bytes = [] then []
    else
      let (taken, valid) := sequenceAt bytes
      (bytes.take taken, valid) :: sequencesFrom fuel (bytes.drop taken)

/-- The characters and the invalid sequences of `utf8_chunks` in their order. -/
def sequences (bytes : Bytes) : List (Bytes × Bool) := sequencesFrom bytes.length bytes

def isMostlyUtf8 (bytes : Bytes) : Bool :=
  let multibyte := (sequences bytes).countP fun s => s.2 && decide (1 < s.1.length)
  let invalid := (sequences bytes).countP fun s => !s.2
  decide (invalid < multibyte)

/-- `String::from_utf8_lossy`. -/
def fromUtf8Lossy (bytes : Bytes) : Text :=
  (sequences bytes).flatMap fun s => if s.2 then (fromUtf8 s.1).getD [] else [replacement]

/-! ## The decoder -/

inductive DecodeLoss where
  | invalidUtf8
  | utf16OddTail
  | utf16UnpairedSurrogate
deriving DecidableEq

inductive Encoding where
  | utf8
  | utf8Bom
  | utf16Le
  | utf16Be
  | utf8Lossy
  | windows1252
deriving DecidableEq

structure Decoded where
  text : Text
  encoding : Encoding
  loss : Option DecodeLoss
deriving DecidableEq

def utf8Bom : Bytes := [0xEF, 0xBB, 0xBF]

def utf16LeBom : Bytes := [0xFF, 0xFE]

def utf16BeBom : Bytes := [0xFE, 0xFF]

def hasUtf16Bom (bytes : Bytes) : Bool :=
  utf16LeBom.isPrefixOf bytes || utf16BeBom.isPrefixOf bytes

theorem toNat_ofNat_lt {n : ℕ} (h : n < 256) : (UInt8.ofNat n).toNat = n := by
  rw [UInt8.toNat_ofNat']
  exact Nat.mod_eq_of_lt h

/-- `u16::from_le_bytes`. -/
def littleEndian : ByteOrder where
  unit p := p.1.toNat + 256 * p.2.toNat
  pair u := (UInt8.ofNat (u % 256), UInt8.ofNat (u / 256))
  pair_unit p := by
    have h₁ := p.1.toNat_lt
    have h₂ := p.2.toNat_lt
    refine Prod.ext (UInt8.toNat_inj.mp ?_) (UInt8.toNat_inj.mp ?_)
    · rw [toNat_ofNat_lt (by omega)]
      omega
    · rw [toNat_ofNat_lt (by omega)]
      omega
  unit_pair u h := by
    rw [toNat_ofNat_lt (by omega), toNat_ofNat_lt (by omega)]
    omega
  unit_lt p := by
    have h₁ := p.1.toNat_lt
    have h₂ := p.2.toNat_lt
    omega

/-- `u16::from_be_bytes`. -/
def bigEndian : ByteOrder where
  unit p := 256 * p.1.toNat + p.2.toNat
  pair u := (UInt8.ofNat (u / 256), UInt8.ofNat (u % 256))
  pair_unit p := by
    have h₁ := p.1.toNat_lt
    have h₂ := p.2.toNat_lt
    refine Prod.ext (UInt8.toNat_inj.mp ?_) (UInt8.toNat_inj.mp ?_)
    · rw [toNat_ofNat_lt (by omega)]
      omega
    · rw [toNat_ofNat_lt (by omega)]
      omega
  unit_pair u h := by
    rw [toNat_ofNat_lt (by omega), toNat_ofNat_lt (by omega)]
    omega
  unit_lt p := by
    have h₁ := p.1.toNat_lt
    have h₂ := p.2.toNat_lt
    omega

def decodeUtf16 (body : Bytes) (order : ByteOrder) (encoding : Encoding) : Decoded :=
  let chars := decodeUnits ((chunks body).1.map order.unit)
  { text := chars.map fun c => c.getD replacement
    encoding
    loss :=
      if none ∈ chars then some .utf16UnpairedSurrogate
      else if (chunks body).2 = [] then none else some .utf16OddTail }

/-- The bytes without a UTF-8 mark. -/
def body (bytes : Bytes) : Bytes :=
  if utf8Bom.isPrefixOf bytes then bytes.drop utf8Bom.length else bytes

def decodeChecked (bytes : Bytes) : Decoded :=
  if utf16LeBom.isPrefixOf bytes then decodeUtf16 (bytes.drop 2) littleEndian .utf16Le
  else if utf16BeBom.isPrefixOf bytes then decodeUtf16 (bytes.drop 2) bigEndian .utf16Be
  else
    match fromUtf8 (body bytes) with
    | some text => ⟨text, if utf8Bom.isPrefixOf bytes then .utf8Bom else .utf8, none⟩
    | none =>
      if isMostlyUtf8 (body bytes) then
        ⟨fromUtf8Lossy (body bytes), .utf8Lossy, some .invalidUtf8⟩
      else ⟨decodeCp1252 (body bytes), .windows1252, none⟩

def detectSingleByteOrUtf8 (bytes : Bytes) : Encoding :=
  if (fromUtf8 bytes).isSome then .utf8
  else if isMostlyUtf8 bytes then .utf8Lossy
  else .windows1252

def detectEncoding (bytes : Bytes) : Encoding :=
  if utf16LeBom.isPrefixOf bytes then .utf16Le
  else if utf16BeBom.isPrefixOf bytes then .utf16Be
  else if utf8Bom.isPrefixOf bytes then
    match detectSingleByteOrUtf8 (bytes.drop utf8Bom.length) with
    | .utf8 => .utf8Bom
    | other => other
  else detectSingleByteOrUtf8 bytes

/-! ## Faithful decoding -/

def unitsOf (c : Char) : List ℕ :=
  if c.toNat < 0x10000 then [c.toNat]
  else [0xD800 + (c.toNat - 0x10000) / 1024, 0xDC00 + (c.toNat - 0x10000) % 1024]

def encodeUnits (t : Text) : List ℕ := t.flatMap unitsOf

def encodeUtf16 (order : ByteOrder) (t : Text) : Bytes :=
  (encodeUnits t).flatMap fun u => [(order.pair u).1, (order.pair u).2]

/-- The bytes of a text in an encoding that can be ill-formed. -/
def Writes (encoding : Encoding) (t : Text) (bytes : Bytes) : Prop :=
  match encoding with
  | .utf16Le => bytes = utf16LeBom ++ encodeUtf16 littleEndian t
  | .utf16Be => bytes = utf16BeBom ++ encodeUtf16 bigEndian t
  | .utf8Bom => bytes = utf8Bom ++ encode t
  | .utf8 => bytes = encode t
  | .utf8Lossy => body bytes = encode t
  | .windows1252 => decodeCp1252 bytes = t

/-- A decoding without loss tells its bytes, a loss is one, and the encoding is the detected one. -/
structure Faithful (bytes : Bytes) : Prop where
  recovered : (decodeChecked bytes).loss = none → ∀ other, (decodeChecked other).loss = none →
    (decodeChecked other).text = (decodeChecked bytes).text →
    (decodeChecked other).encoding = (decodeChecked bytes).encoding → other = bytes
  lossy : ∀ l, (decodeChecked bytes).loss = some l →
    ∀ t, ¬ Writes (decodeChecked bytes).encoding t bytes
  detected : detectEncoding bytes = (decodeChecked bytes).encoding

/-- The bytes fall back to Windows-1252, and so do the same bytes with a UTF-8 mark more or less. -/
def FallsBack (bytes : Bytes) : Prop :=
  hasUtf16Bom bytes = false ∧ fromUtf8 (body bytes) = none ∧ isMostlyUtf8 (body bytes) = false ∧
  (utf8Bom.isPrefixOf bytes = true →
    hasUtf16Bom (body bytes) = false ∧ utf8Bom.isPrefixOf (body bytes) = false)

/-! ## Windows-1252 tells its bytes -/

theorem cp1252High_range : ∀ n ∈ cp1252High, n < 0xD800 ∧ 128 ≤ n ∧ (n < 160 ∨ 256 ≤ n) :=
  List.all_iff_forall_prop.mp (by decide)

theorem cp1252Code_high {b : UInt8} (h : 128 ≤ b.toNat ∧ b.toNat < 160) :
    ∃ hlt : b.toNat - 128 < cp1252High.length,
      cp1252Code b = cp1252High.get ⟨b.toNat - 128, hlt⟩ := by
  have hlen : cp1252High.length = 32 := rfl
  have hlt : b.toNat - 128 < cp1252High.length := by omega
  refine ⟨hlt, ?_⟩
  rw [cp1252Code, if_pos h, List.getD_eq_getElem _ _ hlt]
  rfl

theorem cp1252Code_low {b : UInt8} (h : ¬ (128 ≤ b.toNat ∧ b.toNat < 160)) :
    cp1252Code b = b.toNat := if_neg h

theorem cp1252Code_range (b : UInt8) : cp1252Code b < 0xD800 ∧
    (128 ≤ b.toNat ∧ b.toNat < 160 ↔
      128 ≤ cp1252Code b ∧ (cp1252Code b < 160 ∨ 256 ≤ cp1252Code b)) := by
  have hb := b.toNat_lt
  by_cases h : 128 ≤ b.toNat ∧ b.toNat < 160
  · obtain ⟨hlt, hcode⟩ := cp1252Code_high h
    have hrange := cp1252High_range _ (List.get_mem cp1252High ⟨_, hlt⟩)
    rw [← hcode] at hrange
    exact ⟨hrange.1, fun _ => hrange.2, fun _ => h⟩
  · rw [cp1252Code_low h]
    refine ⟨by omega, ?_⟩
    omega

theorem cp1252Code_injective : Function.Injective cp1252Code := by
  intro a b hab
  have ha := (cp1252Code_range a).2
  have hb := (cp1252Code_range b).2
  rw [hab] at ha
  rw [← UInt8.toNat_inj]
  by_cases hhigh : 128 ≤ a.toNat ∧ a.toNat < 160
  · have hhigh' := hb.mpr (ha.mp hhigh)
    obtain ⟨hlta, hcodea⟩ := cp1252Code_high hhigh
    obtain ⟨hltb, hcodeb⟩ := cp1252Code_high hhigh'
    have hnodup : cp1252High.Nodup := by decide
    have hidx := hnodup.injective_get (hcodea.symm.trans (hab.trans hcodeb))
    have hval := congrArg Fin.val hidx
    dsimp only at hval
    omega
  · have hhigh' : ¬ (128 ≤ b.toNat ∧ b.toNat < 160) := fun h => hhigh (ha.mpr (hb.mp h))
    rw [cp1252Code_low hhigh, cp1252Code_low hhigh'] at hab
    exact hab

theorem toNat_ofNat_valid {n : ℕ} (h : n.isValidChar) : (Char.ofNat n).toNat = n := by
  rw [Char.ofNat, dif_pos h]
  rfl

theorem toNat_ofNat_of_lt {n : ℕ} (h : n < 0xD800) : (Char.ofNat n).toNat = n :=
  toNat_ofNat_valid (Or.inl h)

theorem decodeCp1252_injective : Function.Injective decodeCp1252 := by
  refine Function.Injective.list_map fun a b hab => cp1252Code_injective ?_
  have hnat := congrArg Char.toNat hab
  rwa [toNat_ofNat_of_lt (cp1252Code_range a).1, toNat_ofNat_of_lt (cp1252Code_range b).1] at hnat

/-! ## UTF-16 tells its bytes -/

theorem eq_chunks (bytes : Bytes) :
    bytes = (chunks bytes).1.flatMap (fun p => [p.1, p.2]) ++ (chunks bytes).2 := by
  induction bytes using chunks.induct with
  | case1 a b rest ih =>
    rw [chunks]
    conv_lhs => rw [ih]
    rfl
  | case2 tail h =>
    rw [chunks]
    · rfl
    · exact h

theorem chunks_flatMap (pairs : List (UInt8 × UInt8)) :
    chunks (pairs.flatMap fun p => [p.1, p.2]) = (pairs, []) := by
  induction pairs with
  | nil => rfl
  | cons p pairs ih =>
    rw [List.flatMap_cons, List.cons_append, List.cons_append, List.nil_append, chunks, ih]

theorem toNat_ofNat_scalar {u : ℕ} (hu : u < 65536) (h : u < 0xD800 ∨ 0xE000 ≤ u) :
    (Char.ofNat u).toNat = u := by
  refine toNat_ofNat_valid ?_
  rcases h with h | h
  · exact Or.inl h
  · exact Or.inr ⟨by omega, by omega⟩

theorem unitsOf_scalar {u : ℕ} (hu : u < 65536) (h : u < 0xD800 ∨ 0xE000 ≤ u) :
    unitsOf (Char.ofNat u) = [u] := by
  rw [unitsOf, toNat_ofNat_scalar hu h, if_pos hu]

theorem unitsOf_surrogates {u v : ℕ} (hu : 0xD800 ≤ u) (hu' : u < 0xDC00) (hv : 0xDC00 ≤ v)
    (hv' : v < 0xE000) : unitsOf (Char.ofNat (joinSurrogates u v)) = [u, v] := by
  have hjoin : (Char.ofNat (joinSurrogates u v)).toNat = joinSurrogates u v := by
    refine toNat_ofNat_valid (Or.inr ⟨?_, ?_⟩)
    · rw [joinSurrogates]
      omega
    · rw [joinSurrogates]
      omega
  have hhigh : 0xD800 + (joinSurrogates u v - 0x10000) / 1024 = u := by
    rw [joinSurrogates]
    omega
  have hlow : 0xDC00 + (joinSurrogates u v - 0x10000) % 1024 = v := by
    rw [joinSurrogates]
    omega
  have hlarge : ¬ joinSurrogates u v < 0x10000 := by
    rw [joinSurrogates]
    omega
  rw [unitsOf, hjoin, if_neg hlarge, hhigh, hlow]

/-- A text decoded without an unpaired surrogate is written as the units it came from. -/
theorem eq_encodeUnits {units : List ℕ} (hunits : ∀ u ∈ units, u < 65536) {t : Text}
    (h : decodeUnits units = t.map some) : units = encodeUnits t := by
  induction units using decodeUnits.induct generalizing t with
  | case1 =>
    have ht : t = [] := List.map_eq_nil_iff.mp h.symm
    rw [ht]
    rfl
  | case2 u =>
    have hu := hunits u List.mem_cons_self
    rw [decodeUnits] at h
    obtain ⟨c, t', rfl, hc, ht'⟩ := List.map_eq_cons_iff.mp h.symm
    split_ifs at hc with hscalar
    obtain rfl : t' = [] := List.map_eq_nil_iff.mp ht'
    rw [Option.some.inj hc, encodeUnits, List.flatMap_singleton, unitsOf_scalar hu hscalar]
  | case3 u v rest hscalar ih =>
    have hu := hunits u List.mem_cons_self
    rw [decodeUnits, if_pos hscalar] at h
    obtain ⟨c, t', rfl, hc, ht'⟩ := List.map_eq_cons_iff.mp h.symm
    rw [ih (fun w hw => hunits w (List.mem_cons_of_mem u hw)) ht'.symm, Option.some.inj hc,
      encodeUnits, encodeUnits, List.flatMap_cons, unitsOf_scalar hu hscalar]
    rfl
  | case4 u v rest hscalar hpair ih =>
    rw [decodeUnits, if_neg hscalar, if_pos hpair] at h
    obtain ⟨c, t', rfl, hc, ht'⟩ := List.map_eq_cons_iff.mp h.symm
    have hrest : ∀ w ∈ rest, w < 65536 := fun w hw =>
      hunits w (List.mem_cons_of_mem u (List.mem_cons_of_mem v hw))
    rw [ih hrest ht'.symm, Option.some.inj hc, encodeUnits, encodeUnits, List.flatMap_cons,
      unitsOf_surrogates (by omega) hpair.1 hpair.2.1 hpair.2.2]
    rfl
  | case5 u v rest hscalar hpair ih =>
    rw [decodeUnits, if_neg hscalar, if_neg hpair] at h
    obtain ⟨c, t', -, hc, -⟩ := List.map_eq_cons_iff.mp h.symm
    cases hc

theorem decodeUnits_scalar {u : ℕ} (h : u < 0xD800 ∨ 0xE000 ≤ u) (rest : List ℕ) :
    decodeUnits (u :: rest) = some (Char.ofNat u) :: decodeUnits rest := by
  cases rest with
  | nil =>
    show [if u < 0xD800 ∨ 0xE000 ≤ u then some (Char.ofNat u) else none] = [some (Char.ofNat u)]
    rw [if_pos h]
  | cons v rest => rw [decodeUnits, if_pos h]

theorem decodeUnits_unitsOf (c : Char) (rest : List ℕ) :
    decodeUnits (unitsOf c ++ rest) = some c :: decodeUnits rest := by
  have hvalid : c.toNat < 0xD800 ∨ 0xDFFF < c.toNat ∧ c.toNat < 0x110000 := c.valid
  rw [unitsOf]
  split_ifs with h
  · rw [List.singleton_append, decodeUnits_scalar (by omega), Char.ofNat_toNat]
  · have hjoin : joinSurrogates (0xD800 + (c.toNat - 0x10000) / 1024)
        (0xDC00 + (c.toNat - 0x10000) % 1024) = c.toNat := by
      rw [joinSurrogates]
      omega
    have hscalar : ¬ (0xD800 + (c.toNat - 0x10000) / 1024 < 0xD800 ∨
        0xE000 ≤ 0xD800 + (c.toNat - 0x10000) / 1024) := by omega
    have hpair : 0xD800 + (c.toNat - 0x10000) / 1024 < 0xDC00 ∧
        0xDC00 ≤ 0xDC00 + (c.toNat - 0x10000) % 1024 ∧
        0xDC00 + (c.toNat - 0x10000) % 1024 < 0xE000 := by omega
    rw [List.cons_append, List.singleton_append, decodeUnits, if_neg hscalar, if_pos hpair, hjoin,
      Char.ofNat_toNat]

theorem decodeUnits_encodeUnits (t : Text) : decodeUnits (encodeUnits t) = t.map some := by
  induction t with
  | nil => rfl
  | cons c t ih =>
    rw [encodeUnits, List.flatMap_cons, decodeUnits_unitsOf, List.map_cons, ← ih]
    rfl

theorem unitsOf_lt (c : Char) : ∀ u ∈ unitsOf c, u < 65536 := by
  have hvalid : c.toNat < 0xD800 ∨ 0xDFFF < c.toNat ∧ c.toNat < 0x110000 := c.valid
  intro u hu
  rw [unitsOf] at hu
  split_ifs at hu with h
  · rw [List.mem_singleton.mp hu]
    exact h
  · rcases List.mem_cons.mp hu with rfl | hu
    · omega
    · rw [List.mem_singleton.mp hu]
      omega

theorem map_unit_pair (order : ByteOrder) (t : Text) :
    ((encodeUnits t).map order.pair).map order.unit = encodeUnits t := by
  have hunit : ∀ u ∈ encodeUnits t, (order.unit ∘ order.pair) u = id u := by
    intro u hu
    obtain ⟨c, -, hu⟩ := List.mem_flatMap.mp hu
    exact order.unit_pair u (unitsOf_lt c u hu)
  rw [List.map_map, List.map_congr_left hunit, List.map_id]

theorem encodeUtf16_eq (order : ByteOrder) (t : Text) : encodeUtf16 order t =
    ((encodeUnits t).map order.pair).flatMap fun p => [p.1, p.2] := by
  rw [List.flatMap_map]
  rfl

theorem decodeUtf16_encodeUtf16 (order : ByteOrder) (t : Text) (encoding : Encoding) :
    decodeUtf16 (encodeUtf16 order t) order encoding = ⟨t, encoding, none⟩ := by
  have hchars : decodeUnits ((chunks (encodeUtf16 order t)).1.map order.unit) = t.map some := by
    rw [encodeUtf16_eq, chunks_flatMap, map_unit_pair, decodeUnits_encodeUnits]
  have htail : (chunks (encodeUtf16 order t)).2 = [] := by
    rw [encodeUtf16_eq, chunks_flatMap]
  have hnone : none ∉ t.map some := by simp
  have htext : (t.map some).map (fun c => c.getD replacement) = t := by
    rw [List.map_map]
    exact List.map_id t
  rw [decodeUtf16, hchars, htail, htext, if_neg hnone, if_pos rfl]

theorem eq_encodeUtf16 {order : ByteOrder} {bytes : Bytes} {encoding : Encoding}
    (h : (decodeUtf16 bytes order encoding).loss = none) :
    bytes = encodeUtf16 order (decodeUtf16 bytes order encoding).text := by
  rw [decodeUtf16] at h ⊢
  dsimp only at h ⊢
  split_ifs at h with hnone htail
  have hsome : decodeUnits ((chunks bytes).1.map order.unit) =
      ((decodeUnits ((chunks bytes).1.map order.unit)).map fun c => c.getD replacement).map
        some := by
    rw [List.map_map]
    conv_lhs => rw [← List.map_id (decodeUnits _)]
    refine List.map_congr_left fun c hc => ?_
    cases c with
    | none => exact absurd hc hnone
    | some c => rfl
  have hunits : ∀ u ∈ (chunks bytes).1.map order.unit, u < 65536 := by
    intro u hu
    obtain ⟨p, -, rfl⟩ := List.mem_map.mp hu
    exact order.unit_lt p
  have hpairs : ((chunks bytes).1.map order.unit).map order.pair = (chunks bytes).1 := by
    have hpair : ∀ p ∈ (chunks bytes).1, (order.pair ∘ order.unit) p = id p :=
      fun p _ => order.pair_unit p
    rw [List.map_map, List.map_congr_left hpair, List.map_id]
  rw [encodeUtf16_eq, ← eq_encodeUnits hunits hsome, hpairs]
  conv_lhs => rw [eq_chunks bytes, htail, List.append_nil]

/-! ## What the decoder does -/

theorem fromUtf8_eq_some {bytes : Bytes} {t : Text} :
    fromUtf8 bytes = some t ↔ bytes = encode t := by
  rw [fromUtf8, Option.map_eq_some_iff]
  constructor
  · rintro ⟨s, hs, rfl⟩
    exact ByteText.fromUtf8_eq_some.mp hs
  · intro h
    refine ⟨String.ofList t, ByteText.fromUtf8_eq_some.mpr ?_, String.toList_ofList⟩
    rw [h, ByteText.utf8, String.toList_ofList, encode]

/-- The branches of the decoder, with what each has found of the bytes. -/
inductive Outcome (bytes : Bytes) : Decoded → Prop where
  | utf16Le (rest : Bytes) (h : bytes = utf16LeBom ++ rest) :
    Outcome bytes (decodeUtf16 rest littleEndian .utf16Le)
  | utf16Be (rest : Bytes) (h : bytes = utf16BeBom ++ rest) :
    Outcome bytes (decodeUtf16 rest bigEndian .utf16Be)
  | utf8Bom (t : Text) (h : bytes = utf8Bom ++ encode t) : Outcome bytes ⟨t, .utf8Bom, none⟩
  | utf8 (t : Text) (h : bytes = encode t) : Outcome bytes ⟨t, .utf8, none⟩
  | lossy (hmark : hasUtf16Bom bytes = false) (hbody : fromUtf8 (body bytes) = none)
    (hmost : isMostlyUtf8 (body bytes) = true) :
    Outcome bytes ⟨fromUtf8Lossy (body bytes), .utf8Lossy, some .invalidUtf8⟩
  | windows (hmark : hasUtf16Bom bytes = false) (hbody : fromUtf8 (body bytes) = none)
    (hmost : isMostlyUtf8 (body bytes) = false) :
    Outcome bytes ⟨decodeCp1252 (body bytes), .windows1252, none⟩

theorem eq_append_of_isPrefixOf {mark bytes : Bytes} (h : mark.isPrefixOf bytes = true) :
    bytes = mark ++ bytes.drop mark.length := by
  obtain ⟨rest, rfl⟩ := List.isPrefixOf_iff_prefix.mp h
  rw [List.drop_left]

theorem outcome (bytes : Bytes) : Outcome bytes (decodeChecked bytes) := by
  rw [decodeChecked]
  by_cases hle : utf16LeBom.isPrefixOf bytes = true
  · rw [if_pos hle]
    exact .utf16Le _ (eq_append_of_isPrefixOf hle)
  · by_cases hbe : utf16BeBom.isPrefixOf bytes = true
    · rw [if_neg hle, if_pos hbe]
      exact .utf16Be _ (eq_append_of_isPrefixOf hbe)
    · rw [if_neg hle, if_neg hbe]
      have hmark : hasUtf16Bom bytes = false := by
        rw [hasUtf16Bom, eq_false_of_ne_true hle, eq_false_of_ne_true hbe, Bool.or_false]
      cases hbody : fromUtf8 (body bytes) with
      | none =>
        dsimp only
        split_ifs with hmost
        · exact .lossy hmark hbody hmost
        · exact .windows hmark hbody (eq_false_of_ne_true hmost)
      | some t =>
        rw [fromUtf8_eq_some, body] at hbody
        dsimp only
        split_ifs at hbody ⊢ with hutf8
        · refine .utf8Bom t ?_
          rw [← hbody]
          exact eq_append_of_isPrefixOf hutf8
        · exact .utf8 t hbody

theorem detectEncoding_eq (bytes : Bytes) :
    detectEncoding bytes = (decodeChecked bytes).encoding := by
  rw [detectEncoding, decodeChecked, body]
  cases utf16LeBom.isPrefixOf bytes with
  | true => rfl
  | false =>
    cases utf16BeBom.isPrefixOf bytes with
    | true => rfl
    | false =>
      cases utf8Bom.isPrefixOf bytes with
      | true =>
        simp only [Bool.false_eq_true, if_false, if_true, detectSingleByteOrUtf8]
        cases fromUtf8 (bytes.drop utf8Bom.length) with
        | none => cases isMostlyUtf8 (bytes.drop utf8Bom.length) <;> rfl
        | some t => rfl
      | false =>
        simp only [Bool.false_eq_true, if_false, detectSingleByteOrUtf8]
        cases fromUtf8 bytes with
        | none => cases isMostlyUtf8 bytes <;> rfl
        | some t => rfl

/-! ## What is decoded without loss -/

/-- A decoding without loss writes its bytes, or it fell back. -/
theorem writes_of_lossless {bytes : Bytes} (h : (decodeChecked bytes).loss = none) :
    ((decodeChecked bytes).encoding = .windows1252 ∧
      (decodeChecked bytes).text = decodeCp1252 (body bytes) ∧ hasUtf16Bom bytes = false ∧
      fromUtf8 (body bytes) = none ∧ isMostlyUtf8 (body bytes) = false) ∨
    ((decodeChecked bytes).encoding ≠ .windows1252 ∧ (decodeChecked bytes).encoding ≠ .utf8Lossy ∧
      Writes (decodeChecked bytes).encoding (decodeChecked bytes).text bytes) := by
  have hout := outcome bytes
  generalize decodeChecked bytes = d at h hout ⊢
  cases hout with
  | utf16Le rest hbytes =>
    refine Or.inr ⟨by simp [decodeUtf16], by simp [decodeUtf16], ?_⟩
    have henc : (decodeUtf16 rest littleEndian .utf16Le).encoding = .utf16Le := rfl
    rw [henc, Writes, ← eq_encodeUtf16 h, hbytes]
  | utf16Be rest hbytes =>
    refine Or.inr ⟨by simp [decodeUtf16], by simp [decodeUtf16], ?_⟩
    have henc : (decodeUtf16 rest bigEndian .utf16Be).encoding = .utf16Be := rfl
    rw [henc, Writes, ← eq_encodeUtf16 h, hbytes]
  | utf8Bom t hbytes => exact Or.inr ⟨nofun, nofun, hbytes⟩
  | utf8 t hbytes => exact Or.inr ⟨nofun, nofun, hbytes⟩
  | lossy => cases h
  | windows hmark hbody hmost => exact Or.inl ⟨rfl, rfl, hmark, hbody, hmost⟩

theorem writes_unique {encoding : Encoding} (hwin : encoding ≠ .windows1252)
    (hlossy : encoding ≠ .utf8Lossy) {t : Text} {a b : Bytes} (ha : Writes encoding t a)
    (hb : Writes encoding t b) : a = b := by
  cases encoding with
  | windows1252 => exact absurd rfl hwin
  | utf8Lossy => exact absurd rfl hlossy
  | utf8 => exact Eq.trans ha (Eq.symm hb)
  | utf8Bom => exact Eq.trans ha (Eq.symm hb)
  | utf16Le => exact Eq.trans ha (Eq.symm hb)
  | utf16Be => exact Eq.trans ha (Eq.symm hb)

/-- A loss is reported of bytes that write no text. -/
theorem not_writes_of_loss {bytes : Bytes} {l : DecodeLoss}
    (h : (decodeChecked bytes).loss = some l) (t : Text) :
    ¬ Writes (decodeChecked bytes).encoding t bytes := by
  have hout := outcome bytes
  generalize decodeChecked bytes = d at h hout ⊢
  intro hwrites
  cases hout with
  | utf16Le rest hbytes =>
    have hrest : rest = encodeUtf16 littleEndian t :=
      List.append_cancel_left (hbytes.symm.trans hwrites)
    rw [hrest, decodeUtf16_encodeUtf16] at h
    cases h
  | utf16Be rest hbytes =>
    have hrest : rest = encodeUtf16 bigEndian t :=
      List.append_cancel_left (hbytes.symm.trans hwrites)
    rw [hrest, decodeUtf16_encodeUtf16] at h
    cases h
  | utf8Bom => cases h
  | utf8 => cases h
  | windows => cases h
  | lossy hmark hbody hmost =>
    have hbytes : body bytes = encode t := hwrites
    rw [← fromUtf8_eq_some, hbody] at hbytes
    cases hbytes

/-! ## The fallback -/

theorem decodeChecked_fallback {bytes : Bytes} (hmark : hasUtf16Bom bytes = false)
    (hbody : fromUtf8 (body bytes) = none) (hmost : isMostlyUtf8 (body bytes) = false) :
    decodeChecked bytes = ⟨decodeCp1252 (body bytes), .windows1252, none⟩ := by
  obtain ⟨hle, hbe⟩ := Bool.or_eq_false_iff.mp hmark
  rw [decodeChecked, hle, hbe, hbody, hmost]
  rfl

theorem body_mark (bytes : Bytes) : body (utf8Bom ++ bytes) = bytes := by
  have h : utf8Bom.isPrefixOf (utf8Bom ++ bytes) = true :=
    List.isPrefixOf_iff_prefix.mpr (List.prefix_append _ _)
  rw [body, if_pos h, List.drop_left]

theorem body_of_not_mark {bytes : Bytes} (h : utf8Bom.isPrefixOf bytes = false) :
    body bytes = bytes := by
  rw [body, h]
  rfl

theorem hasUtf16Bom_mark (bytes : Bytes) : hasUtf16Bom (utf8Bom ++ bytes) = false := rfl

theorem not_faithful_of_fallsBack {bytes : Bytes} (h : FallsBack bytes) : ¬ Faithful bytes := by
  obtain ⟨hmark, hbody, hmost, hagain⟩ := h
  intro hfaithful
  have hdecode := decodeChecked_fallback hmark hbody hmost
  have hother : ∃ other, other.length ≠ bytes.length ∧
      decodeChecked other = decodeChecked bytes := by
    cases hutf8 : utf8Bom.isPrefixOf bytes with
    | true =>
      have hbytes := eq_append_of_isPrefixOf hutf8
      obtain ⟨hmark', hutf8'⟩ := hagain hutf8
      refine ⟨body bytes, ?_, ?_⟩
      · rw [body, if_pos hutf8]
        have hlen := congrArg List.length hbytes
        rw [List.length_append] at hlen
        have hpos : utf8Bom.length = 3 := rfl
        omega
      · have hsame := body_of_not_mark hutf8'
        rw [hdecode, decodeChecked_fallback hmark' (by rw [hsame, hbody]) (by rw [hsame, hmost]),
          hsame]
    | false =>
      have hsame := body_of_not_mark hutf8
      rw [hsame] at hbody hmost
      refine ⟨utf8Bom ++ bytes, ?_, ?_⟩
      · rw [List.length_append]
        have hpos : utf8Bom.length = 3 := rfl
        omega
      · rw [hdecode, decodeChecked_fallback (hasUtf16Bom_mark bytes) (by rw [body_mark, hbody])
          (by rw [body_mark, hmost]), body_mark, hsame]
  obtain ⟨other, hlen, heq⟩ := hother
  have hloss : (decodeChecked bytes).loss = none := by rw [hdecode]
  have hback := hfaithful.recovered hloss other (by rw [heq, hloss]) (by rw [heq]) (by rw [heq])
  exact hlen (congrArg List.length hback)

theorem recovered_of_not_fallsBack {bytes : Bytes} (h : ¬ FallsBack bytes)
    (hloss : (decodeChecked bytes).loss = none) {other : Bytes}
    (hother : (decodeChecked other).loss = none)
    (htext : (decodeChecked other).text = (decodeChecked bytes).text)
    (hencoding : (decodeChecked other).encoding = (decodeChecked bytes).encoding) :
    other = bytes := by
  rcases writes_of_lossless hloss with ⟨henc, htxt, hmark, hbody, hmost⟩ | ⟨hwin, hlossy, hwrites⟩
  · rcases writes_of_lossless hother with ⟨-, htxt', hmark', -, -⟩ | ⟨hwin', -, -⟩
    · have hsame : body other = body bytes :=
        decodeCp1252_injective (htxt'.symm.trans (htext.trans htxt))
      have hagain : ¬ (utf8Bom.isPrefixOf bytes = true →
          hasUtf16Bom (body bytes) = false ∧ utf8Bom.isPrefixOf (body bytes) = false) :=
        fun hagain => h ⟨hmark, hbody, hmost, hagain⟩
      obtain ⟨hutf8, hagain⟩ := Classical.not_imp.mp hagain
      cases hutf8' : utf8Bom.isPrefixOf other with
      | true =>
        rw [body, if_pos hutf8', body, if_pos hutf8] at hsame
        rw [eq_append_of_isPrefixOf hutf8', hsame, ← eq_append_of_isPrefixOf hutf8]
      | false =>
        rw [body_of_not_mark hutf8'] at hsame
        exact absurd ⟨hsame ▸ hmark', hsame ▸ hutf8'⟩ hagain
    · exact absurd (hencoding.trans henc) hwin'
  · rcases writes_of_lossless hother with ⟨henc', -, -, -, -⟩ | ⟨-, -, hwrites'⟩
    · exact absurd (hencoding.symm.trans henc') hwin
    · rw [hencoding, htext] at hwrites'
      exact writes_unique hwin hlossy hwrites' hwrites

/-- Decoding is faithful exactly where the fallback does not hide a UTF-8 mark. -/
theorem faithful_iff (bytes : Bytes) : Faithful bytes ↔ ¬ FallsBack bytes := by
  constructor
  · exact fun hfaithful h => not_faithful_of_fallsBack h hfaithful
  · intro h
    constructor
    · intro hloss other hother htext hencoding
      exact recovered_of_not_fallsBack h hloss hother htext hencoding
    · exact fun l hl t => not_writes_of_loss hl t
    · exact detectEncoding_eq bytes

/-- A letter of a Windows-1252 file and the same letter behind a UTF-8 mark. -/
theorem not_always_faithful : ¬ ∀ bytes, Faithful bytes :=
  fun h => @not_faithful_of_fallsBack [0xE4]
    ⟨rfl, by decide, by decide, fun hmark => absurd hmark (by decide)⟩ (h [0xE4])

end LeanCtx.TextDecode
