import LeanCtx.RabinKarpCuts
import LeanCtx.Utf8

/-!
# Reordering a text by its chunks

The chunks of a text that occur among those of an older text are put first. The
chunks are cut between bytes and taken as slices of the text, so a cut inside a
character stops the reordering.
-/

namespace LeanCtx.RabinKarp

/-! ## Reordering -/

/-- The places of the chunks whose hash is old, then the others. -/
def stableOrder (oldChunks newChunks : List Chunk) : List ℕ :=
  let oldHashes := oldChunks.map Chunk.hash
  (newChunks.zipIdx.filter fun (c, _) => c.hash ∈ oldHashes).map Prod.snd ++
    (newChunks.zipIdx.filter fun (c, _) => ¬c.hash ∈ oldHashes).map Prod.snd

/-- `str::is_char_boundary`. -/
def isCharBoundary (bytes : Bytes) (n : ℕ) : Bool :=
  n ≤ bytes.length && Utf8.startsChar (bytes.drop n)

/-- A slice of a text, which is taken between characters only. -/
def strSlice (bytes : Bytes) (start stop : ℕ) : Option Bytes :=
  if start ≤ stop ∧ isCharBoundary bytes start ∧ isCharBoundary bytes stop then
    some (slice bytes start stop)
  else none

def reorderContent (content oldContent : Bytes) : Option Bytes := do
  let oldChunks := chunk oldContent
  let newChunks := chunk content
  let parts ← (stableOrder oldChunks newChunks).mapM fun idx =>
    match newChunks[idx]? with
    | some c => strSlice content c.offset (min (c.offset + c.length) content.length)
    | none => some []
  return parts.flatten

/-! ## Chunks and their places -/

/-- The bytes of a chunk. -/
def Chunk.bytes (text : Bytes) (c : Chunk) : Bytes := slice text c.offset (c.offset + c.length)

/-- Chunks one behind another from one place to another. -/
def Adjacent : ℕ → List Chunk → ℕ → Prop
  | start, [], stop => start = stop
  | start, c :: rest, stop => c.offset = start ∧ 0 < c.length ∧
      Adjacent (c.offset + c.length) rest stop

/-- The chunks are the text in order, and all but the last are of the sizes that are asked. -/
structure Partition (text : Bytes) : Prop where
  adjacent : Adjacent 0 (chunk text) text.length
  bytes : (chunk text).flatMap (Chunk.bytes text) = text
  sizes : ∀ c ∈ (chunk text).dropLast, minChunk ≤ c.length ∧ c.length ≤ maxChunk

section Adjacent

variable {text : Bytes}

theorem slice_append_slice {a b c : ℕ} (hab : a ≤ b) (hbc : b ≤ c) :
    slice text a b ++ slice text b c = slice text a c := by
  have hfront : (text.take c).take b = text.take b := by rw [List.take_take, min_eq_left hbc]
  have hsplit : text.take c = text.take b ++ (text.take c).drop b := by
    rw [← hfront, List.take_append_drop]
  have hback : ((text.take c).drop b).drop (a - (text.take b).length) = (text.take c).drop b := by
    rcases Nat.lt_or_ge text.length b with hlt | hge
    · have hnil : (text.take c).drop b = [] := by
        rw [List.drop_eq_nil_iff, List.length_take]
        omega
      rw [hnil, List.drop_nil]
    · have hzero : a - (text.take b).length = 0 := by
        rw [List.length_take]
        omega
      rw [hzero, List.drop_zero]
  have hwhole := congrArg (List.drop a) hsplit
  rw [List.drop_append, hback] at hwhole
  exact hwhole.symm

theorem Adjacent.le {start stop : ℕ} {cs : List Chunk} (h : Adjacent start cs stop) :
    start ≤ stop := by
  induction cs generalizing start with
  | nil => exact le_of_eq h
  | cons c cs ih =>
    obtain ⟨hoffset, hpos, hrest⟩ := h
    have hle := ih hrest
    omega

theorem Adjacent.bytes {start stop : ℕ} {cs : List Chunk} (h : Adjacent start cs stop) :
    cs.flatMap (Chunk.bytes text) = slice text start stop := by
  induction cs generalizing start with
  | nil =>
    rw [Adjacent] at h
    rw [List.flatMap_nil, h, slice, List.drop_eq_nil_of_le]
    rw [List.length_take]
    exact Nat.min_le_left _ _
  | cons c cs ih =>
    obtain ⟨rfl, hpos, hrest⟩ := h
    rw [List.flatMap_cons, ih hrest, Chunk.bytes,
      slice_append_slice (Nat.le_add_right _ _) hrest.le]

theorem Adjacent.stop_le {start stop : ℕ} {cs : List Chunk} (h : Adjacent start cs stop)
    {c : Chunk} (hc : c ∈ cs) : c.offset + c.length ≤ stop := by
  induction cs generalizing start with
  | nil => cases hc
  | cons d cs ih =>
    obtain ⟨rfl, hpos, hrest⟩ := h
    rcases List.mem_cons.mp hc with rfl | hc
    · exact hrest.le
    · exact ih hrest hc

end Adjacent

/-! ## The chunks of a long text -/

section Long

variable (text : Bytes)

theorem adjacent_chunksFrom {i chunkStart : ℕ} (hi : i ≤ text.length) (hstart : chunkStart ≤ i)
    (hopen : chunkStart = i ∨ i < text.length) :
    Adjacent chunkStart (chunksFrom text i chunkStart) text.length := by
  induction hm : text.length - i generalizing i chunkStart with
  | zero =>
    rw [chunksFrom_of_le (by omega)]
    change chunkStart = text.length
    omega
  | succ m ih =>
    rw [chunksFrom_of_lt (by omega)]
    split_ifs with hends
    · have hstop : chunkStart + (i + 1 - chunkStart) = i + 1 := by omega
      refine ⟨rfl, ?_, ?_⟩
      · change 0 < i + 1 - chunkStart
        omega
      · change Adjacent (chunkStart + (i + 1 - chunkStart)) _ _
        rw [hstop]
        exact ih (by omega) (le_refl _) (.inl rfl) (by omega)
    · have hnot : i + 1 ≠ text.length := fun h => hends (.inr (.inr h))
      exact ih (by omega) (by omega) (.inr (by omega)) (by omega)

theorem sizes_chunksFrom {i chunkStart : ℕ} (hstart : chunkStart ≤ i)
    (hsize : i - chunkStart < maxChunk) :
    ∀ c ∈ (chunksFrom text i chunkStart).dropLast, minChunk ≤ c.length ∧ c.length ≤ maxChunk := by
  induction hm : text.length - i generalizing i chunkStart with
  | zero =>
    rw [chunksFrom_of_le (by omega)]
    exact fun c hc => absurd hc List.not_mem_nil
  | succ m ih =>
    rw [chunksFrom_of_lt (by omega)]
    split_ifs with hends
    · by_cases hlast : i + 1 = text.length
      · rw [chunksFrom_of_le (by omega), List.dropLast_singleton]
        exact fun c hc => absurd hc List.not_mem_nil
      · have hne : chunksFrom text (i + 1) (i + 1) ≠ [] := by
          intro h
          have hadjacent := adjacent_chunksFrom text (by omega : i + 1 ≤ text.length) (le_refl _)
            (.inl rfl)
          rw [h] at hadjacent
          exact hlast hadjacent
        have hmin : minChunk ≤ i + 1 - chunkStart := by
          rcases hends with h | h | h
          · exact h.1
          · exact le_trans (by decide) h
          · exact absurd h hlast
        rw [List.dropLast_cons_of_ne_nil hne, List.forall_mem_cons]
        refine ⟨⟨hmin, ?_⟩, ih (le_refl _) ?_ (by omega)⟩
        · change i + 1 - chunkStart ≤ maxChunk
          omega
        · rw [Nat.sub_self]
          decide
    · have hmax : ¬maxChunk ≤ i + 1 - chunkStart := fun h => hends (.inr (.inl h))
      exact ih (by omega) (by omega) (by omega)

end Long

theorem adjacent_chunk (text : Bytes) : Adjacent 0 (chunk text) text.length := by
  rcases Nat.lt_or_ge minChunk text.length with hlong | hshort
  · rw [chunk_eq hlong]
    exact adjacent_chunksFrom text (Nat.zero_le _) (le_refl 0) (.inl rfl)
  · rw [chunk]
    split_ifs with hempty
    · rw [hempty]
      rfl
    · exact ⟨rfl, List.length_pos_iff.mpr hempty, Nat.zero_add _⟩

/-- The chunks of every text partition it. -/
theorem partition_chunk (text : Bytes) : Partition text where
  adjacent := adjacent_chunk text
  bytes := by
    rw [(adjacent_chunk text).bytes, slice, List.take_length, List.drop_zero]
  sizes := by
    rcases Nat.lt_or_ge minChunk text.length with hlong | hshort
    · rw [chunk_eq hlong]
      exact sizes_chunksFrom text (le_refl 0) (by decide)
    · rw [chunk]
      split_ifs with hempty
      · exact fun c hc => absurd hc List.not_mem_nil
      · exact fun c hc => absurd hc List.not_mem_nil

/-! ## The order -/

/-- The chunks of the new text, those with an old hash first. -/
def ordered (oldChunks newChunks : List Chunk) : List Chunk :=
  (newChunks.filter fun c => c.hash ∈ oldChunks.map Chunk.hash) ++
    newChunks.filter fun c => ¬c.hash ∈ oldChunks.map Chunk.hash

theorem map_filter_zipIdx (p : Chunk → Bool) (front cs : List Chunk) :
    ((cs.zipIdx front.length).filter fun x => p x.1).map (fun x => (front ++ cs)[x.2]?) =
      (cs.filter p).map some := by
  induction cs generalizing front with
  | nil => rfl
  | cons c cs ih =>
    have hrest := ih (front ++ [c])
    rw [List.length_append, List.length_singleton, List.append_assoc, List.singleton_append]
      at hrest
    rw [List.zipIdx_cons]
    cases hp : p c with
    | true =>
      have hpair := List.filter_cons_of_pos (p := fun x : Chunk × ℕ => p x.1)
        (a := (c, front.length)) (l := cs.zipIdx (front.length + 1)) hp
      rw [hpair, List.filter_cons_of_pos hp, List.map_cons, List.map_cons,
        hrest, List.getElem?_append_right (le_refl _), Nat.sub_self, List.getElem?_cons_zero]
    | false =>
      have hnot : ¬p c = true := by rw [hp]; exact Bool.false_ne_true
      have hpair := List.filter_cons_of_neg (p := fun x : Chunk × ℕ => p x.1)
        (a := (c, front.length)) (l := cs.zipIdx (front.length + 1)) hnot
      rw [hpair, List.filter_cons_of_neg hnot, hrest]

theorem map_stableOrder (oldChunks newChunks : List Chunk) :
    (stableOrder oldChunks newChunks).map (newChunks[·]?) =
      (ordered oldChunks newChunks).map some := by
  have hold := map_filter_zipIdx (fun c => c.hash ∈ oldChunks.map Chunk.hash) [] newChunks
  have hnew := map_filter_zipIdx (fun c => ¬c.hash ∈ oldChunks.map Chunk.hash) [] newChunks
  rw [stableOrder, ordered, List.map_append, List.map_append, List.map_map, List.map_map]
  exact congrArg₂ (· ++ ·) hold hnew

theorem perm_ordered (oldChunks newChunks : List Chunk) :
    (ordered oldChunks newChunks).Perm newChunks := by
  have hperm := List.filter_append_perm (fun c => decide (c.hash ∈ oldChunks.map Chunk.hash))
    newChunks
  simp only [← decide_not] at hperm
  exact hperm

/-! ## Where the slices are taken -/

/-- The place of the last cut before a byte. -/
def lastCut (text : Bytes) : ℕ → ℕ
  | 0 => 0
  | i + 1 => if Ends text i (lastCut text i) then i + 1 else lastCut text i

/-- A character begins behind every byte where a long text is cut. -/
def CutsBetween (text : Bytes) : Prop :=
  minChunk < text.length → ∀ i < text.length, Ends text i (lastCut text i) →
    isCharBoundary text (i + 1) = true

theorem lastCut_le (text : Bytes) (i : ℕ) : lastCut text i ≤ i := by
  induction i with
  | zero => exact le_refl 0
  | succ i ih =>
    rw [lastCut]
    split_ifs
    · exact le_refl _
    · exact ih.trans (Nat.le_succ i)

theorem forall_chunksFrom (text : Bytes) (P : ℕ → Prop) (i : ℕ) :
    (∀ c ∈ chunksFrom text i (lastCut text i), P (c.offset + c.length)) ↔
      ∀ j, i ≤ j → j < text.length → Ends text j (lastCut text j) → P (j + 1) := by
  induction hm : text.length - i generalizing i with
  | zero =>
    rw [chunksFrom_of_le (by omega)]
    exact ⟨fun _ j hij hj => absurd hj (by omega), fun _ c hc => absurd hc List.not_mem_nil⟩
  | succ m ih =>
    have hrest := ih (i + 1) (by omega)
    have hsplit : (∀ j, i ≤ j → j < text.length → Ends text j (lastCut text j) → P (j + 1)) ↔
        (Ends text i (lastCut text i) → P (i + 1)) ∧
          ∀ j, i + 1 ≤ j → j < text.length → Ends text j (lastCut text j) → P (j + 1) := by
      refine ⟨fun h => ⟨h i (le_refl i) (by omega), fun j hj => h j (by omega)⟩, ?_⟩
      rintro ⟨hfirst, hlater⟩ j hij hj
      rcases Nat.eq_or_lt_of_le hij with rfl | hlt
      · exact hfirst
      · exact hlater j hlt hj
    rw [chunksFrom_of_lt (by omega), hsplit, ← hrest, lastCut]
    split_ifs with hends
    · have hstop : lastCut text i + (i + 1 - lastCut text i) = i + 1 := by
        have := lastCut_le text i
        omega
      rw [List.forall_mem_cons]
      change P (lastCut text i + (i + 1 - lastCut text i)) ∧ _ ↔ _
      rw [hstop]
      exact ⟨fun h => ⟨fun _ => h.1, h.2⟩, fun h => ⟨h.1 hends, h.2⟩⟩
    · exact ⟨fun h => ⟨fun hnot => absurd hnot hends, h⟩, fun h => h.2⟩

theorem isCharBoundary_length (text : Bytes) : isCharBoundary text text.length = true := by
  rw [isCharBoundary, List.drop_length]
  simp [Utf8.startsChar]

theorem cutsBetween_iff (text : Bytes) : CutsBetween text ↔
    ∀ c ∈ chunk text, isCharBoundary text (c.offset + c.length) = true := by
  rcases Nat.lt_or_ge minChunk text.length with hlong | hshort
  · rw [chunk_eq hlong]
    refine (Iff.trans ?_ (forall_chunksFrom text (fun n => isCharBoundary text n = true) 0).symm)
    exact ⟨fun h j _ => h hlong j, fun h _ j => h j (Nat.zero_le j)⟩
  · refine ⟨fun _ c hc => ?_, fun _ hlong => absurd hlong (by omega)⟩
    rw [chunk] at hc
    split_ifs at hc with hempty
    · cases hc
    · rw [List.mem_singleton.mp hc]
      change isCharBoundary text (0 + text.length) = true
      rw [Nat.zero_add]
      exact isCharBoundary_length text

/-! ## When the slices can be taken -/

theorem Adjacent.offset {start stop : ℕ} {cs : List Chunk} (h : Adjacent start cs stop)
    {P : ℕ → Prop} (hstart : P start) (hends : ∀ c ∈ cs, P (c.offset + c.length)) :
    ∀ c ∈ cs, P c.offset := by
  induction cs generalizing start with
  | nil => exact fun c hc => absurd hc List.not_mem_nil
  | cons d cs ih =>
    obtain ⟨rfl, -, hrest⟩ := h
    obtain ⟨hd, hcs⟩ := List.forall_mem_cons.mp hends
    exact List.forall_mem_cons.mpr ⟨hstart, ih hrest hd hcs⟩

/-- The slice of a chunk. -/
def chunkSlice (content : Bytes) (c : Chunk) : Option Bytes :=
  strSlice content c.offset (min (c.offset + c.length) content.length)

theorem reorderContent_eq (content oldContent : Bytes) : reorderContent content oldContent =
    ((ordered (chunk oldContent) (chunk content)).mapM (chunkSlice content)).map List.flatten := by
  have hmapM : (stableOrder (chunk oldContent) (chunk content)).mapM (fun idx =>
      match (chunk content)[idx]? with
      | some c => strSlice content c.offset (min (c.offset + c.length) content.length)
      | none => some []) =
        ((stableOrder (chunk oldContent) (chunk content)).map ((chunk content)[·]?)).mapM fun c? =>
          c?.elim (some []) (chunkSlice content) := by
    rw [List.mapM_map]
    congr 1
    funext idx
    dsimp only [Function.comp]
    cases (chunk content)[idx]? with
    | none => rfl
    | some c => rfl
  rw [reorderContent, hmapM, map_stableOrder, List.mapM_map]
  exact Option.map_eq_bind.symm

theorem mapM_option_eq_some {α β : Type} {f : α → Option β} {g : α → β} {l : List α}
    (h : ∀ a ∈ l, f a = some (g a)) : l.mapM f = some (l.map g) := by
  induction l with
  | nil => rfl
  | cons a l ih =>
    obtain ⟨ha, hl⟩ := List.forall_mem_cons.mp h
    rw [List.mapM_cons, ha, ih hl]
    rfl

theorem forall_of_mapM {α β : Type} {f : α → Option β} {l : List α} {r : List β}
    (h : l.mapM f = some r) : ∀ a ∈ l, ∃ b, f a = some b := by
  induction l generalizing r with
  | nil => exact fun a ha => absurd ha List.not_mem_nil
  | cons a l ih =>
    rw [List.mapM_cons] at h
    obtain ⟨b, hb, h⟩ := Option.bind_eq_some_iff.mp h
    obtain ⟨bs, hbs, -⟩ := Option.bind_eq_some_iff.mp h
    exact List.forall_mem_cons.mpr ⟨⟨b, hb⟩, ih hbs⟩

/-- The chunks of both texts partition them, and the reordering returns the chunks of the new text,
those of the old text first, exactly when no cut of the new text falls inside a character. -/
theorem reorderContent_iff (new old : Utf8.Text) :
    Partition (Utf8.encode new) ∧ Partition (Utf8.encode old) ∧
      (reorderContent (Utf8.encode new) (Utf8.encode old) =
          some ((ordered (chunk (Utf8.encode old)) (chunk (Utf8.encode new))).flatMap
            (Chunk.bytes (Utf8.encode new))) ↔
        CutsBetween (Utf8.encode new)) := by
  refine ⟨partition_chunk _, partition_chunk _, ?_⟩
  generalize hcontent : Utf8.encode new = content
  generalize Utf8.encode old = oldContent
  have hadjacent := adjacent_chunk content
  have hstop : ∀ c ∈ chunk content,
      min (c.offset + c.length) content.length = c.offset + c.length := fun c hc =>
    min_eq_left (hadjacent.stop_le hc)
  have hmem : ∀ c, c ∈ ordered (chunk oldContent) (chunk content) ↔ c ∈ chunk content :=
    fun c => (perm_ordered _ _).mem_iff
  have hzero : isCharBoundary content 0 = true := by
    rw [← hcontent, isCharBoundary, List.drop_zero, Utf8.startsChar_encode]
    rfl
  rw [cutsBetween_iff, reorderContent_eq]
  constructor
  · intro h c hc
    obtain ⟨parts, hparts, -⟩ := Option.map_eq_some_iff.mp h
    obtain ⟨part, hpart⟩ := forall_of_mapM hparts c ((hmem c).mpr hc)
    rw [chunkSlice, hstop c hc, strSlice] at hpart
    split_ifs at hpart with hslice
    exact hslice.2.2
  · intro h
    have hoffset := hadjacent.offset (P := fun n => isCharBoundary content n = true) hzero h
    have hslice : ∀ c ∈ ordered (chunk oldContent) (chunk content),
        chunkSlice content c = some (c.bytes content) := by
      intro c hc
      have hc := (hmem c).mp hc
      rw [chunkSlice, hstop c hc, strSlice,
        if_pos ⟨Nat.le_add_right _ _, hoffset c hc, h c hc⟩]
      rfl
    rw [mapM_option_eq_some hslice, Option.map_some, List.flatMap_def]

/-- A text whose rolling hash vanishes in its low bits at the first byte of a character. -/
def accented : Utf8.Text := List.replicate 60 'a' ++ "öäahàè".toList

theorem reorderContent_accented :
    reorderContent (Utf8.encode accented) (Utf8.encode accented) = none := by
  decide +kernel

end LeanCtx.RabinKarp
