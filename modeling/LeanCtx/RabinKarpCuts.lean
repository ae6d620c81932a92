import LeanCtx.RabinKarp

/-!
# Cuts by local content

If every tested value is the hash of its window, two texts with a common suffix
are cut alike after a common cut. The tested values are those of the windows
only for texts that are zero up to their last 48 bytes.
-/

namespace LeanCtx.RabinKarp

/-! ## The chunks from a place on -/

/-- The chunks that end after a place, the first of which starts at another. -/
def chunksFrom (bytes : Bytes) (i chunkStart : ℕ) : List Chunk :=
  chunkFrom bytes 48 pow i chunkStart (rollingAt bytes i) (bytes.drop i)

/-- Whether a chunk ends after the given byte. -/
def Ends (bytes : Bytes) (i chunkStart : ℕ) : Prop :=
  minChunk ≤ i + 1 - chunkStart ∧ rollingAt bytes (i + 1) &&& mask = 0 ∨
    maxChunk ≤ i + 1 - chunkStart ∨ i + 1 = bytes.length

instance (bytes : Bytes) (i chunkStart : ℕ) : Decidable (Ends bytes i chunkStart) :=
  inferInstanceAs (Decidable (_ ∧ _ ∨ _ ∨ _))

section Chunks

variable {bytes : Bytes} {i chunkStart : ℕ}

def chunkAt (bytes : Bytes) (chunkStart stop : ℕ) : Chunk where
  offset := chunkStart
  length := stop - chunkStart
  hash := fullHash (slice bytes chunkStart stop)

theorem chunksFrom_of_le (h : bytes.length ≤ i) : chunksFrom bytes i chunkStart = [] := by
  rw [chunksFrom, List.drop_eq_nil_of_le h, chunkFrom]

theorem chunksFrom_of_lt (h : i < bytes.length) : chunksFrom bytes i chunkStart =
    if Ends bytes i chunkStart then
      chunkAt bytes chunkStart (i + 1) :: chunksFrom bytes (i + 1) (i + 1)
    else chunksFrom bytes (i + 1) chunkStart := by
  have hlast : bytes.drop (i + 1) = [] ↔ i + 1 = bytes.length := by
    rw [List.drop_eq_nil_iff]
    omega
  have hget : bytes.getD i 0 = bytes[i] := by
    rw [List.getD_eq_getElem?_getD, List.getElem?_eq_getElem h, Option.getD_some]
  have hroll : roll bytes 48 pow i (rollingAt bytes i) bytes[i] = rollingAt bytes (i + 1) := by
    rw [rollingAt, hget]
  rw [chunksFrom, List.drop_eq_getElem_cons h, chunkFrom, hroll]
  simp only [hlast]
  rfl

theorem chunk_eq (h : minChunk < bytes.length) : chunk bytes = chunksFrom bytes 0 0 := by
  have hne : bytes ≠ [] := by
    rintro rfl
    exact absurd h (by decide)
  have hwindow : min 48 bytes.length = 48 := by
    rw [minChunk] at h
    omega
  rw [chunk, if_neg hne, if_neg (not_le.mpr h)]
  dsimp only
  rw [hwindow]
  rfl

/-- The chunks from a place on start there or later, and each ends after the place. -/
theorem offset_chunksFrom (hstart : chunkStart ≤ i) {c : Chunk}
    (hc : c ∈ chunksFrom bytes i chunkStart) :
    chunkStart ≤ c.offset ∧ i < c.offset + c.length := by
  induction hn : bytes.length - i generalizing i chunkStart with
  | zero =>
    rw [chunksFrom_of_le (by omega)] at hc
    cases hc
  | succ n ih =>
    rw [chunksFrom_of_lt (by omega)] at hc
    split_ifs at hc with hends
    · rcases List.mem_cons.mp hc with rfl | hc
      · refine ⟨le_refl _, ?_⟩
        change i < chunkStart + (i + 1 - chunkStart)
        omega
      · obtain ⟨hoffset, hend⟩ := ih (le_refl _) hc (by omega)
        exact ⟨by omega, by omega⟩
    · obtain ⟨hoffset, hend⟩ := ih (by omega) hc (by omega)
      exact ⟨hoffset, by omega⟩

/-- After a cut the chunks are those from the cut on. -/
theorem filter_chunksFrom (hstart : chunkStart ≤ i) {c : Chunk}
    (hc : c ∈ chunksFrom bytes i chunkStart) {n : ℕ} (hn : c.offset + c.length = n) :
    (chunksFrom bytes i chunkStart).filter (fun d => n ≤ d.offset) = chunksFrom bytes n n := by
  induction hm : bytes.length - i generalizing i chunkStart with
  | zero =>
    rw [chunksFrom_of_le (by omega)] at hc
    cases hc
  | succ m ih =>
    have hafter := (offset_chunksFrom hstart hc).2
    rw [chunksFrom_of_lt (by omega)] at hc ⊢
    split_ifs at hc ⊢ with hends
    · have hdrop : ¬decide (n ≤ (chunkAt bytes chunkStart (i + 1)).offset) = true := by
        rw [decide_eq_true_eq]
        change ¬n ≤ chunkStart
        omega
      rw [List.filter_cons_of_neg (p := fun d : Chunk => decide (n ≤ d.offset)) hdrop]
      rcases List.mem_cons.mp hc with rfl | hc
      · have hcut : n = i + 1 := by
          rw [← hn]
          change chunkStart + (i + 1 - chunkStart) = i + 1
          omega
        rw [hcut]
        refine List.filter_eq_self.mpr fun d hd => decide_eq_true ?_
        exact (offset_chunksFrom (le_refl _) hd).1
      · exact ih (le_refl _) hc (by omega)
    · exact ih (by omega) hc (by omega)

end Chunks

/-! ## Two texts with a common suffix -/

/-- Every tested value is the hash of the bytes of its window. -/
def Local (x : Bytes) : Prop :=
  ∀ i, 48 ≤ i → i < x.length → rollingAt x (i + 1) = windowHash x (i + 1)

def CutAt (x : Bytes) (n : ℕ) : Prop := ∃ c ∈ chunk x, c.offset + c.length = n

/-- The chunks from a cut on, as they are found from the start of a suffix. -/
def cutsAfter (x u : Bytes) (p : ℕ) : List (ℕ × ℕ × ℕ) :=
  ((chunk x).filter fun c => u.length + p ≤ c.offset).map fun c =>
    (c.offset - u.length, c.length, c.hash)

/-- After a common cut in a common suffix two texts have the same chunks. -/
def CutAlike (x y : Bytes) : Prop :=
  ∀ u v s p, x = u ++ s → y = v ++ s → 48 ≤ p → CutAt x (u.length + p) → CutAt y (v.length + p) →
    cutsAfter x u p = cutsAfter y v p

theorem slice_append (u s : Bytes) (a b : ℕ) :
    slice (u ++ s) (u.length + a) (u.length + b) = slice s a b := by
  rw [slice, slice, List.take_length_add_append, List.drop_length_add_append]

theorem windowHash_append (u s : Bytes) {q : ℕ} (hq : 48 ≤ q) :
    windowHash (u ++ s) (u.length + q) = windowHash s q := by
  have hstart : u.length + q - 48 = u.length + (q - 48) := by omega
  rw [windowHash, windowHash, hstart, slice_append]

section Suffix

variable {u v s : Bytes} (hu : Local (u ++ s)) (hv : Local (v ++ s))

theorem Local.rollingAt_suffix (hu : Local (u ++ s)) {q : ℕ} (hq : 48 ≤ q) (hlt : q < s.length) :
    rollingAt (u ++ s) (u.length + q + 1) = windowHash s (q + 1) := by
  rw [hu (u.length + q) (by omega) (by rw [List.length_append]; omega), Nat.add_assoc,
    windowHash_append u s (by omega)]

include hu hv

theorem Local.ends_iff {q a : ℕ} (hq : 48 ≤ q) (hlt : q < s.length) :
    Ends (u ++ s) (u.length + q) (u.length + a) ↔ Ends (v ++ s) (v.length + q) (v.length + a) := by
  have hlenu : u.length + q + 1 - (u.length + a) = q + 1 - a := by omega
  have hlenv : v.length + q + 1 - (v.length + a) = q + 1 - a := by omega
  have hlastu : u.length + q + 1 = u.length + s.length ↔ q + 1 = s.length := by omega
  have hlastv : v.length + q + 1 = v.length + s.length ↔ q + 1 = s.length := by omega
  rw [Ends, Ends, hu.rollingAt_suffix hq hlt, hv.rollingAt_suffix hq hlt, hlenu, hlenv,
    List.length_append, List.length_append, hlastu, hlastv]

theorem Local.chunksFrom_suffix {q a : ℕ} (hq : 48 ≤ q) :
    (chunksFrom (u ++ s) (u.length + q) (u.length + a)).map
        (fun c => (c.offset - u.length, c.length, c.hash)) =
      (chunksFrom (v ++ s) (v.length + q) (v.length + a)).map
        (fun c => (c.offset - v.length, c.length, c.hash)) := by
  have hkey : ∀ w a b, ((chunkAt (w ++ s) (w.length + a) (w.length + b)).offset - w.length,
      (chunkAt (w ++ s) (w.length + a) (w.length + b)).length,
      (chunkAt (w ++ s) (w.length + a) (w.length + b)).hash) =
        (a, b - a, fullHash (slice s a b)) := by
    intro w a b
    rw [chunkAt, slice_append]
    refine Prod.ext ?_ (Prod.ext ?_ rfl)
    · exact Nat.add_sub_cancel_left _ _
    · exact Nat.add_sub_add_left _ _ _
  induction hm : s.length - q generalizing q a with
  | zero =>
    rw [chunksFrom_of_le (by rw [List.length_append]; omega),
      chunksFrom_of_le (by rw [List.length_append]; omega)]
    rfl
  | succ m ih =>
    have hends := hu.ends_iff hv (a := a) hq (by omega)
    have hstepu := @chunksFrom_of_lt (u ++ s) (u.length + q) (u.length + a)
      (by rw [List.length_append]; omega)
    have hstepv := @chunksFrom_of_lt (v ++ s) (v.length + q) (v.length + a)
      (by rw [List.length_append]; omega)
    rw [hstepu, hstepv]
    by_cases h : Ends (u ++ s) (u.length + q) (u.length + a)
    · rw [if_pos h, if_pos (hends.mp h), List.map_cons, List.map_cons, Nat.add_assoc,
        Nat.add_assoc, hkey u, hkey v, ih (by omega) (by omega)]
    · rw [if_neg h, if_neg (hends.not.mp h), Nat.add_assoc, Nat.add_assoc, ih (by omega) (by omega)]

end Suffix

theorem Local.cutAlike {x y : Bytes} (hx : minChunk < x.length) (hy : minChunk < y.length)
    (hlocalx : Local x) (hlocaly : Local y) : CutAlike x y := by
  rintro u v s p rfl rfl hp ⟨c, hc, hcut⟩ ⟨d, hd, hdut⟩
  rw [chunk_eq hx] at hc
  rw [chunk_eq hy] at hd
  rw [cutsAfter, cutsAfter, chunk_eq hx, chunk_eq hy, filter_chunksFrom (le_refl 0) hc hcut,
    filter_chunksFrom (le_refl 0) hd hdut]
  exact hlocalx.chunksFrom_suffix hlocaly hp

/-! ## Texts that are zero before their last window -/

def ZeroFront (x : Bytes) : Prop := ∀ b ∈ x.take (x.length - 48), b = 0

theorem fullHash_zero {data : Bytes} (h : ∀ b ∈ data, b = 0) : fullHash data = 0 := by
  induction data using List.reverseRecOn with
  | nil => rfl
  | append_singleton data b ih =>
    have hb : b = 0 := h b (List.mem_append_right _ (List.mem_singleton_self b))
    rw [fullHash_concat, ih fun c hc => h c (List.mem_append_left _ hc), hb]
    rfl

theorem zero_of_fullHash {x : Bytes} {n : ℕ} (h : ∀ m ≤ n, fullHash (x.take m) = 0) :
    ∀ b ∈ x.take n, b = 0 := by
  induction n with
  | zero =>
    intro b hb
    rw [List.take_zero] at hb
    cases hb
  | succ n ih =>
    have hfront := ih fun m hm => h m (by omega)
    rcases Nat.lt_or_ge n x.length with hlt | hge
    · have hlast := h (n + 1) (le_refl _)
      rw [List.take_succ_eq_append_getElem hlt, fullHash_concat, h n (by omega),
        push_eq (by decide), Nat.zero_mul, Nat.zero_add,
        Nat.mod_eq_of_lt (x[n].toNat_lt.trans (by decide))] at hlast
      rw [List.take_succ_eq_append_getElem hlt, List.forall_mem_append]
      refine ⟨hfront, fun b hb => ?_⟩
      rw [List.mem_singleton.mp hb]
      exact UInt8.toNat_inj.mp hlast
    · rw [List.take_of_length_le (by omega)]
      rwa [List.take_of_length_le hge] at hfront

theorem local_iff (x : Bytes) : Local x ↔ ZeroFront x := by
  have hvalue : ∀ i, 48 ≤ i → i < x.length →
      (rollingAt x (i + 1) = windowHash x (i + 1) ↔ fullHash (x.take (i + 1 - 48)) = 0) :=
    fun i hi hlt => rollingAt_eq_iff hlt (by omega)
  constructor
  · intro h
    refine zero_of_fullHash fun m hm => ?_
    rcases Nat.eq_zero_or_pos m with rfl | hpos
    · rfl
    · have hat := (hvalue (m + 47) (by omega) (by omega)).mp (h (m + 47) (by omega) (by omega))
      rwa [show m + 47 + 1 - 48 = m by omega] at hat
  · intro h i hi hlt
    refine (hvalue i hi hlt).mpr (fullHash_zero fun b hb => h b ?_)
    exact List.take_subset_take_left x (by omega) hb

/-- No hash overflows, and the values that are tested are those of the windows, so that cuts are
made by local content, exactly for texts that are zero before their last 48 bytes. -/
theorem cut_by_local_content_iff {x y : Bytes} (hx : minChunk < x.length)
    (hy : minChunk < y.length) : NoOverflow x ∧ NoOverflow y ∧
      (Local x ∧ Local y ∧ CutAlike x y ↔ ZeroFront x ∧ ZeroFront y) := by
  refine ⟨noOverflow x, noOverflow y, ?_⟩
  rw [← local_iff, ← local_iff]
  exact ⟨fun h => ⟨h.1, h.2.1⟩, fun h => ⟨h.1, h.2, h.1.cutAlike hx hy h.2⟩⟩

def zeroText : Bytes := List.replicate 20 0 ++ List.replicate 48 97

theorem cut_by_local_content_zeroText : NoOverflow zeroText ∧ NoOverflow zeroText ∧
    (Local zeroText ∧ Local zeroText ∧ CutAlike zeroText zeroText ↔
      ZeroFront zeroText ∧ ZeroFront zeroText) :=
  cut_by_local_content_iff (by decide) (by decide)

def ascii (s : String) : Bytes := s.toList.map fun c => UInt8.ofNat c.toNat

def sharedEnd : Bytes :=
  List.replicate 61 97 ++ ascii "qvf" ++
    ascii "qgdtmhqpzzfdibulmciyrhxouarlnvcqyzfyvcatoufxkpjiztttcwgbbsvwlypkqqz"

/-- Two texts that differ in their first three bytes and are cut after the same 64 bytes. -/
def before : Bytes := ascii "ztt" ++ sharedEnd

def after : Bytes := ascii "eci" ++ sharedEnd

/-- The first tested value behind the window is not its hash, and the texts are cut differently
behind the common cut. -/
theorem not_cut_by_local_content : ¬Local before ∧ ¬CutAlike before after := by
  refine ⟨fun h => ?_, fun h => ?_⟩
  · have hvalue : rollingAt before 49 ≠ windowHash before 49 := by decide +kernel
    exact hvalue (h 48 (le_refl _) (by decide +kernel))
  · have hcut : CutAt before 67 := ⟨chunkAt before 0 67, by decide +kernel, rfl⟩
    have hcut' : CutAt after 67 := ⟨chunkAt after 0 67, by decide +kernel, rfl⟩
    have hcuts : cutsAfter before (ascii "ztt") 64 ≠ cutsAfter after (ascii "eci") 64 := by
      decide +kernel
    exact hcuts (h (ascii "ztt") (ascii "eci") sharedEnd 64 rfl rfl (by decide) hcut hcut')

end LeanCtx.RabinKarp
