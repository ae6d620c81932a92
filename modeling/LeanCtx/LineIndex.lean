import LeanCtx.BloomFilter
import LeanCtx.PostingList
import Mathlib.Data.List.Dedup
import Mathlib.Data.List.Infix
import Mathlib.Data.List.Sort
import Mathlib.Data.Nat.Log
import Mathlib.Data.Nat.Bitwise

/-!
# The resident line-search index

A build walks a project and keeps the word trigrams of every readable file. A
literal query is narrowed to the files that can contain it by one of two tiers:
posting lists while they fit their budget, one Bloom filter a file beyond it.
-/

namespace LeanCtx.LineIndex

open PostingList (Ascending)

abbrev Bytes := List UInt8

def MAX_FILES : ℕ := 200_000

def MAX_POSTING_ENTRIES : ℕ := 12_000_000

def MAX_TOTAL_ENTRIES : ℕ := 48_000_000

def BLOOM_BITS_PER_ITEM : ℕ := 12

def BLOOM_K : ℕ := 7

def BLOOM_MIN_BITS : ℕ := 64

def BLOOM_MAX_BITS : ℕ := 2 ^ 20

/-! ## Trigrams -/

def isWordByte (b : UInt8) : Bool :=
  (48 ≤ b && b ≤ 57) || (65 ≤ b && b ≤ 90) || (97 ≤ b && b ≤ 122) || b == 95

structure Trigram where
  b0 : UInt8
  b1 : UInt8
  b2 : UInt8
  deriving DecidableEq

def Trigram.pack (t : Trigram) : UInt32 :=
  t.b0.toUInt32 <<< 16 ||| t.b1.toUInt32 <<< 8 ||| t.b2.toUInt32

def Trigram.isWord (t : Trigram) : Bool := isWordByte t.b0 && isWordByte t.b1 && isWordByte t.b2

/-- `bytes.windows(3)`. -/
def windows3 : Bytes → List Trigram
  | b0 :: b1 :: b2 :: rest => ⟨b0, b1, b2⟩ :: windows3 (b1 :: b2 :: rest)
  | _ => []

/-- The word trigrams of a file, sorted and without repetitions. -/
def fileTrigrams (content : Bytes) : List UInt32 :=
  (((windows3 content).filter Trigram.isWord).map Trigram.pack).dedup.insertionSort (· ≤ ·)

def literalTrigrams (literal : Bytes) : List UInt32 :=
  (((windows3 literal).map Trigram.pack).insertionSort (· ≤ ·)).destutter (· ≠ ·)

theorem shift_or_shift {a b c : ℕ} (hb : b < 256) (hc : c < 256) :
    a <<< 16 ||| b <<< 8 ||| c = a * 65536 + b * 256 + c := by
  have hlow : b <<< 8 + c < 2 ^ 16 := by
    rw [Nat.shiftLeft_eq]
    omega
  have hc' : c < 2 ^ 8 := hc
  rw [Nat.or_assoc, ← Nat.shiftLeft_add_eq_or_of_lt hc', ← Nat.shiftLeft_add_eq_or_of_lt hlow,
    Nat.shiftLeft_eq, Nat.shiftLeft_eq]
  omega

theorem toNat_shift {b : UInt8} {n : UInt32} (hn : n.toNat ≤ 16) :
    (b.toUInt32 <<< n).toNat = b.toNat <<< n.toNat := by
  have hb := b.toNat_lt
  have hlt : b.toNat <<< n.toNat < 2 ^ 32 := by
    rw [Nat.shiftLeft_eq]
    calc b.toNat * 2 ^ n.toNat
      _ ≤ b.toNat * 2 ^ 16 := Nat.mul_le_mul_left _ (Nat.pow_le_pow_right (by omega) hn)
      _ < 2 ^ 32 := by omega
  rw [UInt32.toNat_shiftLeft, UInt8.toNat_toUInt32, Nat.mod_eq_of_lt (by omega : n.toNat < 32),
    Nat.mod_eq_of_lt hlt]

theorem Trigram.toNat_pack (t : Trigram) :
    t.pack.toNat = t.b0.toNat * 65536 + t.b1.toNat * 256 + t.b2.toNat := by
  have h16 : (16 : UInt32).toNat = 16 := by decide
  have h8 : (8 : UInt32).toNat = 8 := by decide
  rw [pack, UInt32.toNat_or, UInt32.toNat_or, toNat_shift (by omega), toNat_shift (by omega),
    UInt8.toNat_toUInt32, h16, h8]
  exact shift_or_shift t.b1.toNat_lt t.b2.toNat_lt

theorem Trigram.pack_injective : Function.Injective Trigram.pack := by
  intro s t h
  have hnat := congrArg UInt32.toNat h
  rw [toNat_pack, toNat_pack] at hnat
  have hs1 := s.b1.toNat_lt
  have hs2 := s.b2.toNat_lt
  have ht1 := t.b1.toNat_lt
  have ht2 := t.b2.toNat_lt
  have h0 : s.b0 = t.b0 := UInt8.toNat_inj.mp (by omega)
  have h1 : s.b1 = t.b1 := UInt8.toNat_inj.mp (by omega)
  have h2 : s.b2 = t.b2 := UInt8.toNat_inj.mp (by omega)
  cases s
  cases t
  simp_all

theorem mem_windows3 {bytes : Bytes} {t : Trigram} :
    t ∈ windows3 bytes ↔ [t.b0, t.b1, t.b2] <:+: bytes := by
  fun_induction windows3 bytes with
  | case1 b0 b1 b2 rest ih =>
    rw [List.mem_cons, ih, @List.infix_cons_iff _ _ _ (b1 :: b2 :: rest)]
    apply or_congr_left
    cases t
    simp
  | case2 bytes hshort =>
    simp only [List.not_mem_nil, false_iff]
    intro h
    have hlen := h.length_le
    match bytes, hshort, hlen with
    | b0 :: b1 :: b2 :: rest, hshort, _ => exact hshort b0 b1 b2 rest rfl

theorem exists_mem_windows3 {bytes : Bytes} (h : 3 ≤ bytes.length) : ∃ t, t ∈ windows3 bytes := by
  match bytes, h with
  | b0 :: b1 :: b2 :: rest, _ => exact ⟨⟨b0, b1, b2⟩, by simp [windows3]⟩

theorem nodup_fileTrigrams (content : Bytes) : (fileTrigrams content).Nodup :=
  (List.perm_insertionSort (· ≤ ·) _).nodup_iff.mpr (List.nodup_dedup _)

theorem pack_mem_fileTrigrams {content : Bytes} {t : Trigram} (ht : t.isWord = true) :
    t.pack ∈ fileTrigrams content ↔ t ∈ windows3 content := by
  rw [fileTrigrams, (List.perm_insertionSort (· ≤ ·) _).mem_iff, List.mem_dedup,
    List.mem_map_of_injective Trigram.pack_injective, List.mem_filter, and_iff_left ht]

theorem mem_literalTrigrams {literal : Bytes} {tri : UInt32} :
    tri ∈ literalTrigrams literal ↔ ∃ t ∈ windows3 literal, t.pack = tri := by
  rw [literalTrigrams, PostingList.mem_destutter_ne, (List.perm_insertionSort (· ≤ ·) _).mem_iff,
    List.mem_map]

theorem isWord_of_mem_windows3 {literal : Bytes} (hword : literal.all isWordByte = true)
    {t : Trigram} (ht : t ∈ windows3 literal) : t.isWord = true := by
  have hsub := (mem_windows3.mp ht).subset
  rw [List.all_eq_true] at hword
  have h0 := hword t.b0 (hsub (by simp))
  have h1 := hword t.b1 (hsub (by simp))
  have h2 := hword t.b2 (hsub (by simp))
  rw [Trigram.isWord, h0, h1, h2]
  rfl

/-- All of the literal's trigrams stand in the file. -/
def HasTrigrams (literal content : Bytes) : Prop := ∀ t ∈ windows3 literal, t ∈ windows3 content

theorem HasTrigrams.of_infix {literal content : Bytes} (h : literal <:+: content) :
    HasTrigrams literal content := by
  intro t ht
  rw [mem_windows3] at ht ⊢
  exact ht.trans h

theorem hasTrigrams_iff {literal : Bytes} (hword : literal.all isWordByte = true) (content : Bytes) :
    HasTrigrams literal content ↔ ∀ tri ∈ literalTrigrams literal, tri ∈ fileTrigrams content := by
  constructor
  · intro h tri htri
    obtain ⟨t, ht, rfl⟩ := mem_literalTrigrams.mp htri
    exact (pack_mem_fileTrigrams (isWord_of_mem_windows3 hword ht)).mpr (h t ht)
  · intro h t ht
    have hpack := h t.pack (mem_literalTrigrams.mpr ⟨t, ht, rfl⟩)
    exact (pack_mem_fileTrigrams (isWord_of_mem_windows3 hword ht)).mp hpack

/-! ## Filters -/

def mix64 (x : UInt64) : UInt64 :=
  let x := x + 0x9E3779B97F4A7C15
  let x := (x ^^^ (x >>> 30)) * 0xBF58476D1CE4E5B9
  let x := (x ^^^ (x >>> 27)) * 0x94D049BB133111EB
  x ^^^ (x >>> 31)

/-- The probes of a trigram in a filter of `words` words: double hashing under a mask. -/
def probes (words : ℕ) (tri : UInt32) : List ℕ :=
  let mask := UInt64.ofNat (words * 64) - 1
  let h := mix64 tri.toUInt64
  let h1 := h &&& 0xFFFFFFFF
  let h2 := (h >>> 32) ||| 1
  (List.range BLOOM_K).map fun i => ((h1 + UInt64.ofNat i * h2) &&& mask).toNat

/-- A filter has between one word and the clamp's `2 ^ 20` bits. -/
structure FileBloom where
  bits : List UInt64
  sized : 0 < bits.length ∧ bits.length * 64 ≤ BLOOM_MAX_BITS

def nextPowerOfTwo (n : ℕ) : ℕ := 2 ^ Nat.clog 2 n

def targetBits (distinct : ℕ) : ℕ :=
  max BLOOM_MIN_BITS (min (nextPowerOfTwo (distinct * BLOOM_BITS_PER_ITEM)) BLOOM_MAX_BITS)

theorem targetBits_bounds (distinct : ℕ) :
    64 ≤ targetBits distinct ∧ targetBits distinct ≤ BLOOM_MAX_BITS := by
  constructor
  · exact le_max_left _ _
  · exact max_le (by decide) (min_le_right _ _)

def FileBloom.withCapacity (distinct : ℕ) : FileBloom where
  bits := List.replicate (targetBits distinct / 64) 0
  sized := by
    obtain ⟨hmin, hmax⟩ := targetBits_bounds distinct
    rw [List.length_replicate]
    omega

theorem probes_lt {words : ℕ} (hpos : 0 < words) (hmax : words * 64 ≤ BLOOM_MAX_BITS)
    (tri : UInt32) : ∀ p ∈ probes words tri, p < words * 64 := by
  intro p hp
  obtain ⟨i, -, rfl⟩ := List.mem_map.mp hp
  have hbig : words * 64 < 2 ^ 64 := lt_of_le_of_lt hmax (by decide)
  have hnat : (UInt64.ofNat (words * 64)).toNat = words * 64 := UInt64.toNat_ofNat_of_lt' hbig
  have hle : (1 : UInt64) ≤ UInt64.ofNat (words * 64) := by
    rw [UInt64.le_iff_toNat_le, hnat, UInt64.toNat_one]
    omega
  have hmask : (UInt64.ofNat (words * 64) - 1).toNat = words * 64 - 1 := by
    rw [UInt64.toNat_sub_of_le _ _ hle, hnat, UInt64.toNat_one]
  rw [UInt64.toNat_and, hmask]
  exact lt_of_le_of_lt Nat.and_le_right (by omega)

def FileBloom.insert (bloom : FileBloom) (tri : UInt32) : FileBloom where
  bits := BloomFilter.insert probes bloom.bits tri
  sized := by
    rw [BloomFilter.length_insert]
    exact bloom.sized

def FileBloom.maybeContains (bloom : FileBloom) (tri : UInt32) : Bool :=
  BloomFilter.maybeContains probes bloom.bits tri

def FileBloom.ofTrigrams (tris : List UInt32) : FileBloom :=
  tris.foldl FileBloom.insert (FileBloom.withCapacity tris.length)

theorem FileBloom.bits_foldl (tris : List UInt32) (bloom : FileBloom) :
    (tris.foldl FileBloom.insert bloom).bits =
      BloomFilter.insertAll probes bloom.bits tris := by
  induction tris generalizing bloom with
  | nil => rfl
  | cons tri tris ih => exact ih (bloom.insert tri)

/-- No trigram of the file is missed, whatever the width of its filter. -/
theorem FileBloom.maybeContains_ofTrigrams {tris : List UInt32} {tri : UInt32} (h : tri ∈ tris) :
    (FileBloom.ofTrigrams tris).maybeContains tri = true := by
  rw [maybeContains, ofTrigrams, bits_foldl]
  apply BloomFilter.maybeContains_insertAll _ h
  intro tri'
  exact probes_lt (withCapacity tris.length).sized.1 (withCapacity tris.length).sized.2 tri'

/-! ## The tiers -/

inductive Narrowing where
  | postings (lists : PostingList.Lists UInt32)
  | blooms (filters : List FileBloom)

/-- `fid as u32`. -/
def fileId (fid : ℕ) : ℕ := fid % 2 ^ 32

def postingLists (perFile : List (List UInt32)) : PostingList.Lists UInt32 :=
  perFile.zipIdx.foldl (fun lists doc => PostingList.addDoc (fileId doc.2) lists doc.1) ∅

def fileBlooms (perFile : List (List UInt32)) : List FileBloom := perFile.map FileBloom.ofTrigrams

def buildNarrowing (perFile : List (List UInt32)) (totalEntries : ℕ) : Narrowing :=
  if totalEntries ≤ MAX_POSTING_ENTRIES then .postings (postingLists perFile)
  else .blooms (fileBlooms perFile)

/-- The lists of all the trigrams; `none` when one has no list. -/
def gather (lists : PostingList.Lists UInt32) : List UInt32 → Option (List (List ℕ))
  | [] => some []
  | tri :: tris =>
    match lists[tri]? with
    | none => none
    | some list => (gather lists tris).map (list :: ·)

def postingsIntersect (lists : PostingList.Lists UInt32) (tris : List UInt32) : List ℕ :=
  match gather lists tris with
  | none => []
  | some found =>
    match found.insertionSort (fun a b => a.length ≤ b.length) with
    | [] => []
    | first :: rest => PostingList.intersectRest first rest

def bloomScan (filters : List FileBloom) (tris : List UInt32) : List ℕ :=
  (filters.zipIdx.filter fun doc => tris.all doc.1.maybeContains).map fun doc => fileId doc.2

def Narrowing.candidates (narrowing : Narrowing) (tris : List UInt32) : List ℕ :=
  match narrowing with
  | .postings lists => postingsIntersect lists tris
  | .blooms filters => bloomScan filters tris

theorem gather_eq_some {lists : PostingList.Lists UInt32} {tris : List UInt32} {found : List (List ℕ)}
    (h : gather lists tris = some found) :
    (∀ tri ∈ tris, ∃ list ∈ found, lists[tri]? = some list) ∧
      (∀ list ∈ found, ∃ tri ∈ tris, lists[tri]? = some list) ∧ found.length = tris.length := by
  induction tris generalizing found with
  | nil =>
    cases h
    simp
  | cons tri tris ih =>
    rw [gather] at h
    split at h
    · cases h
    · rename_i list hlist
      obtain ⟨found', hfound, rfl⟩ := Option.map_eq_some_iff.mp h
      obtain ⟨hin, hout, hlen⟩ := ih hfound
      refine ⟨?_, ?_, by simp [hlen]⟩
      · rintro t ht
        rcases List.mem_cons.mp ht with rfl | ht
        · exact ⟨list, by simp, hlist⟩
        · obtain ⟨l, hl, hget⟩ := hin t ht
          exact ⟨l, List.mem_cons_of_mem _ hl, hget⟩
      · intro l hl
        rcases List.mem_cons.mp hl with rfl | hl
        · exact ⟨tri, by simp, hlist⟩
        · obtain ⟨t, ht, hget⟩ := hout l hl
          exact ⟨t, List.mem_cons_of_mem _ ht, hget⟩

theorem gather_eq_none {lists : PostingList.Lists UInt32} {tris : List UInt32} (h : gather lists tris = none) :
    ∃ tri ∈ tris, lists[tri]? = none := by
  induction tris with
  | nil => cases h
  | cons tri tris ih =>
    rw [gather] at h
    split at h
    · rename_i hnone
      exact ⟨tri, by simp, hnone⟩
    · obtain ⟨t, ht, hnone⟩ := ih (Option.map_eq_none_iff.mp h)
      exact ⟨t, List.mem_cons_of_mem _ ht, hnone⟩

theorem represents_postingLists {perFile : List (List UInt32)} (hsize : perFile.length ≤ 2 ^ 32)
    (hnodup : ∀ tris ∈ perFile, tris.Nodup) :
    PostingList.Represents (postingLists perFile) perFile := by
  induction perFile using List.reverseRecOn with
  | nil => exact PostingList.represents_empty
  | append_singleton perFile tris ih =>
    rw [List.length_append, List.length_singleton] at hsize
    have hid : fileId perFile.length = perFile.length := Nat.mod_eq_of_lt (by omega)
    rw [postingLists, List.zipIdx_append, List.foldl_append, ← postingLists]
    have hstep := PostingList.represents_addDoc
      (ih (by omega) fun t ht => hnodup t (List.mem_append_left _ ht)) (hnodup tris (by simp))
    simpa [hid] using hstep

theorem postingsIntersect_spec {lists : PostingList.Lists UInt32} {perFile : List (List UInt32)}
    (h : PostingList.Represents lists perFile) {tris : List UInt32} (htris : tris ≠ []) :
    Ascending (postingsIntersect lists tris) ∧ ∀ i, i ∈ postingsIntersect lists tris ↔
      ∃ doc, perFile[i]? = some doc ∧ ∀ tri ∈ tris, tri ∈ doc := by
  cases hgather : gather lists tris with
  | none =>
    obtain ⟨tri, htri, hnone⟩ := gather_eq_none hgather
    simp only [postingsIntersect, hgather]
    refine ⟨List.Pairwise.nil, fun i => ?_⟩
    simp only [List.not_mem_nil, false_iff]
    rintro ⟨doc, hdoc, hall⟩
    have hentry := h.entry doc (List.mem_of_getElem? hdoc) tri (hall tri htri)
    rw [OrdMap.mem_iff, hnone] at hentry
    obtain ⟨list, hlist⟩ := hentry
    cases hlist
  | some found =>
    obtain ⟨hin, hout, hlen⟩ := gather_eq_some hgather
    have hperm := List.perm_insertionSort (fun a b : List ℕ => a.length ≤ b.length) found
    simp only [postingsIntersect, hgather]
    cases hsort : found.insertionSort (fun a b => a.length ≤ b.length) with
    | nil =>
      rw [hsort] at hperm
      have := hperm.length_eq
      have := List.length_pos_of_ne_nil htris
      simp at *
      omega
    | cons first rest =>
      rw [hsort] at hperm
      have hasc : ∀ list ∈ first :: rest, Ascending list := by
        intro list hlist
        obtain ⟨tri, -, hget⟩ := hout list (hperm.mem_iff.mp hlist)
        exact h.ascending tri list hget
      have hfirst := hasc first (by simp)
      have hrest := fun list hlist => hasc list (List.mem_cons_of_mem first hlist)
      refine ⟨PostingList.ascending_intersectRest hrest hfirst, fun i => ?_⟩
      show i ∈ PostingList.intersectRest first rest ↔ _
      rw [PostingList.mem_intersectRest hrest hfirst,
        ← List.forall_mem_cons (p := fun list => i ∈ list)]
      constructor
      · intro hall
        -- The document is read off the list of any one trigram.
        have hdoc : ∀ tri ∈ tris, ∃ doc, perFile[i]? = some doc ∧ tri ∈ doc := by
          intro tri htri
          obtain ⟨list, hlist, hget⟩ := hin tri htri
          exact (h.mem tri list hget i).mp (hall list (hperm.mem_iff.mpr hlist))
        obtain ⟨tri, htri⟩ := List.exists_mem_of_ne_nil tris htris
        obtain ⟨doc, hget, -⟩ := hdoc tri htri
        refine ⟨doc, hget, fun tri' htri' => ?_⟩
        obtain ⟨doc', hget', hmem⟩ := hdoc tri' htri'
        rw [hget, Option.some.injEq] at hget'
        exact hget' ▸ hmem
      · rintro ⟨doc, hget, hall⟩ list hlist
        obtain ⟨tri, htri, hlist⟩ := hout list (hperm.mem_iff.mp hlist)
        exact (h.mem tri list hlist i).mpr ⟨doc, hget, hall tri htri⟩

theorem mem_bloomScan {perFile : List (List UInt32)} (hsize : perFile.length ≤ 2 ^ 32)
    {tris : List UInt32} {i : ℕ} {doc : List UInt32} (hdoc : perFile[i]? = some doc)
    (hall : ∀ tri ∈ tris, tri ∈ doc) : i ∈ bloomScan (fileBlooms perFile) tris := by
  have hi := (List.getElem?_eq_some_iff.mp hdoc).1
  refine List.mem_map.mpr ⟨(FileBloom.ofTrigrams doc, i), List.mem_filter.mpr ⟨?_, ?_⟩, ?_⟩
  · rw [List.mem_zipIdx_iff_getElem?, fileBlooms, List.getElem?_map, hdoc]
    rfl
  · rw [List.all_eq_true]
    exact fun tri htri => FileBloom.maybeContains_ofTrigrams (hall tri htri)
  · exact Nat.mod_eq_of_lt (by omega)

/-! ## The index -/

section Index

variable {P : Type}

structure SearchIndex (P : Type) where
  files : List P
  narrowing : Narrowing

/-- What a build has read so far. -/
structure Scan (P : Type) where
  files : List P
  perFileTrigrams : List (List UInt32)
  totalEntries : ℕ

/-- The visits of a walk in order, with the text of each file that admission lets through;
`none` when the tree is too large. -/
def Scan.visitAll (scan : Scan P) : List (P × Option Bytes) → Option (Scan P)
  | [] => some scan
  | (_, none) :: walk => scan.visitAll walk
  | (path, some content) :: walk =>
    if MAX_FILES ≤ scan.files.length then none
    else
      let tris := fileTrigrams content
      let total := scan.totalEntries + tris.length
      if MAX_TOTAL_ENTRIES < total then none
      else
        Scan.visitAll ⟨scan.files ++ [path], scan.perFileTrigrams ++ [tris], total⟩ walk

def SearchIndex.build (walk : List (P × Option Bytes)) : Option (SearchIndex P) :=
  (Scan.visitAll ⟨[], [], 0⟩ walk).map fun scan =>
    { files := scan.files, narrowing := buildNarrowing scan.perFileTrigrams scan.totalEntries }

def SearchIndex.literalCandidates (index : SearchIndex P) (pattern : Bytes) : Option (List ℕ) :=
  if pattern.length < 3 || !pattern.all isWordByte then none
  else some (index.narrowing.candidates (literalTrigrams pattern))

inductive CandidateSet (P : Type) where
  | narrowed (paths : List P)
  | fullList (paths : List P)

/-- `globMatches` tells whether a path passes the `include` filter of the query. -/
def SearchIndex.candidatePaths (index : SearchIndex P) (pattern : Bytes) (globMatches : P → Bool) :
    CandidateSet P :=
  match index.literalCandidates pattern with
  | some ids => .narrowed ((ids.filterMap fun id => index.files[id]?).filter globMatches)
  | none => .fullList (index.files.filter globMatches)

/-- The files of a walk that an index of it holds, with their texts. -/
def indexed (walk : List (P × Option Bytes)) : List (P × Bytes) :=
  walk.filterMap fun file => file.2.map (file.1, ·)

theorem visitAll_eq_some {walk : List (P × Option Bytes)} {scan scan' : Scan P}
    (h : scan.visitAll walk = some scan') :
    scan'.files = scan.files ++ (indexed walk).map Prod.fst ∧
      scan'.perFileTrigrams =
        scan.perFileTrigrams ++ (indexed walk).map (fun file => fileTrigrams file.2) ∧
      (scan.files.length ≤ MAX_FILES → scan'.files.length ≤ MAX_FILES) := by
  induction walk generalizing scan with
  | nil =>
    cases h
    simp [indexed]
  | cons file walk ih =>
    obtain ⟨path, _ | content⟩ := file
    · exact ih h
    · simp only [Scan.visitAll] at h
      split_ifs at h with hfiles htotal
      obtain ⟨hpaths, htris, hcount⟩ := ih h
      refine ⟨?_, ?_, fun _ => hcount ?_⟩
      · rw [hpaths]
        simp [indexed]
      · rw [htris]
        simp [indexed]
      · rw [List.length_append, List.length_singleton]
        omega

/-- What a build that succeeds has read. -/
theorem build_eq_some {walk : List (P × Option Bytes)} {index : SearchIndex P}
    (h : SearchIndex.build walk = some index) :
    index.files = (indexed walk).map Prod.fst ∧ (indexed walk).length ≤ MAX_FILES ∧
      ∃ total, index.narrowing =
        buildNarrowing ((indexed walk).map fun file => fileTrigrams file.2) total := by
  obtain ⟨scan, hscan, rfl⟩ := Option.map_eq_some_iff.mp h
  obtain ⟨hfiles, htris, hcount⟩ := visitAll_eq_some hscan
  rw [List.nil_append] at hfiles htris
  refine ⟨hfiles, ?_, scan.totalEntries, by rw [htris]⟩
  have hle := hcount (by simp)
  rwa [hfiles, List.length_map] at hle

/-- Narrowing misses no file, in either tier. The posting lists hold exactly the files with all
the trigrams of the literal, the filters those and perhaps more; a literal with another byte is
not narrowed at all. -/
theorem narrowing_complete {walk : List (P × Option Bytes)} {index : SearchIndex P}
    (hbuild : SearchIndex.build walk = some index) {literal : Bytes} (hlen : 3 ≤ literal.length) :
    let files := indexed walk
    let perFile := files.map fun file => fileTrigrams file.2
    let exact := postingsIntersect (postingLists perFile) (literalTrigrams literal)
    let scanned := bloomScan (fileBlooms perFile) (literalTrigrams literal)
    index.files = files.map Prod.fst ∧
      (literal.all isWordByte = true →
        (index.literalCandidates literal = some exact ∨
          index.literalCandidates literal = some scanned) ∧
        (∀ i file, files[i]? = some file → literal <:+: file.2 → i ∈ exact ∧ i ∈ scanned) ∧
        (∀ i, i ∈ exact ↔ ∃ file, files[i]? = some file ∧ HasTrigrams literal file.2) ∧
        Ascending exact ∧ exact.Nodup ∧ exact ⊆ scanned) ∧
      (literal.all isWordByte = false → index.literalCandidates literal = none ∧
        ∀ globMatches, index.candidatePaths literal globMatches =
          .fullList ((files.map Prod.fst).filter globMatches)) := by
  intro files perFile exact scanned
  obtain ⟨hfiles, hcount, total, hnarrowing⟩ := build_eq_some hbuild
  have hsize : perFile.length ≤ 2 ^ 32 := by
    have hmax : MAX_FILES ≤ 2 ^ 32 := by decide
    rw [List.length_map]
    exact hcount.trans hmax
  have hnodup : ∀ tris ∈ perFile, tris.Nodup := by
    intro tris htris
    obtain ⟨file, -, rfl⟩ := List.mem_map.mp htris
    exact nodup_fileTrigrams file.2
  refine ⟨hfiles, fun hword => ?_, fun hword => ?_⟩
  · have htris : literalTrigrams literal ≠ [] := by
      obtain ⟨t, ht⟩ := exists_mem_windows3 hlen
      exact List.ne_nil_of_mem (mem_literalTrigrams.mpr ⟨t, ht, rfl⟩)
    obtain ⟨hasc, hmem⟩ :=
      postingsIntersect_spec (represents_postingLists hsize hnodup) htris
    have hexact : ∀ i, i ∈ exact ↔ ∃ file, files[i]? = some file ∧ HasTrigrams literal file.2 := by
      intro i
      rw [hmem, List.getElem?_map]
      cases hget : files[i]? with
      | none => simp
      | some file => simp [hasTrigrams_iff hword]
    have hsub : exact ⊆ scanned := by
      intro i hi
      obtain ⟨doc, hdoc, hall⟩ := (hmem i).mp hi
      exact mem_bloomScan hsize hdoc hall
    refine ⟨?_, fun i file hget hin => ?_, hexact, hasc, hasc.imp fun hlt => hlt.ne, hsub⟩
    · rw [SearchIndex.literalCandidates, if_neg (by simp [hword, hlen]), hnarrowing, buildNarrowing]
      split_ifs
      · exact Or.inl rfl
      · exact Or.inr rfl
    · have hi := (hexact i).mpr ⟨file, hget, HasTrigrams.of_infix hin⟩
      exact ⟨hi, hsub hi⟩
  · have hnone : index.literalCandidates literal = none := by
      rw [SearchIndex.literalCandidates, if_pos (by simp [hword])]
    refine ⟨hnone, fun globMatches => ?_⟩
    rw [SearchIndex.candidatePaths, hnone, hfiles]

/-- Of an empty file and one with `abcabc`, the second is found for `abc`. -/
theorem narrowing_complete_two : ∃ index ids,
    SearchIndex.build [(0, some []), (1, none), (2, some "abcabc".toUTF8.toList)] = some index ∧
      index.literalCandidates "abc".toUTF8.toList = some ids ∧ 1 ∈ ids := by
  have hbuilt : (SearchIndex.build
      [(0, some []), (1, none), (2, some "abcabc".toUTF8.toList)]).isSome = true := by
    decide +kernel
  obtain ⟨index, hindex⟩ := Option.isSome_iff_exists.mp hbuilt
  have hcomplete := narrowing_complete hindex
    (by decide +kernel : 3 ≤ ("abc".toUTF8.toList).length)
  obtain ⟨htier, hfound, -⟩ := hcomplete.2.1 (by decide +kernel)
  obtain ⟨hexact, hscanned⟩ :=
    hfound 1 (2, "abcabc".toUTF8.toList) (by decide +kernel) (by decide +kernel)
  rcases htier with htier | htier
  · exact ⟨index, _, hindex, htier, hexact⟩
  · exact ⟨index, _, hindex, htier, hscanned⟩

end Index

end LeanCtx.LineIndex
