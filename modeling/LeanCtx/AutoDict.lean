import LeanCtx.WordPieces
import LeanCtx.KnowledgeRecall
import Mathlib.Data.Bool.AllAny
import Mathlib.Data.List.Sort

/-!
# Abbreviating repeated words

Long words that repeat in a text are replaced by short codes, and a legend line
in front says what the codes stand for. The legend is read back from the first
line, and the codes are replaced by their words.
-/

namespace LeanCtx.Terse

open Knowledge (len)

/-! ## Mining -/

/-- The classes of characters of the standard library's Unicode tables. -/
structure Env where
  isAlphanumeric : Char → Bool
  isAlphabetic : Char → Bool
  isAlphanumeric_ascii : ∀ c : Char, c.toNat < 128 → isAlphanumeric c = c.isAlphanum

def minPhraseLen : ℕ := 10

def minRepeats : ℕ := 3

def maxCandidates : ℕ := 8

/-- The bytes of the wrapper around the entries of a legend. -/
def legendWrapperOverhead : ℤ := 9

structure Candidate where
  token : Text
  count : ℕ
  firstIdx : ℕ

section Mining

variable (env : Env)

def isWord (c : Char) : Bool := env.isAlphanumeric c || c == '_'

def tokens (text : Text) : List Text :=
  (text.splitOnP fun c => !isWord env c).filter fun tok =>
    decide (minPhraseLen ≤ len tok) && tok.any env.isAlphabetic

/-- The elements in the order in which they are first seen. -/
def firstSeen (toks : List Text) : List Text :=
  toks.foldl (fun seen tok => if seen.contains tok then seen else seen ++ [tok]) []

def candidates (text : Text) : List Candidate :=
  ((firstSeen (tokens env text)).zipIdx.map fun (token, firstIdx) =>
    { token, count := (tokens env text).count token, firstIdx }).filter fun c =>
      minRepeats ≤ c.count

def byFirst (a b : Candidate) : Prop :=
  a.firstIdx < b.firstIdx ∨ a.firstIdx = b.firstIdx ∧ a.token ≤ b.token

instance : DecidableRel byFirst := fun _ _ =>
  inferInstanceAs (Decidable (_ ∨ _ ∧ _))

/-- The biggest savings first, then by first occurrence. -/
def bySavings (a b : Candidate) : Prop :=
  len b.token * b.count < len a.token * a.count ∨
    len b.token * b.count = len a.token * a.count ∧ byFirst a b

instance : DecidableRel bySavings := fun _ _ =>
  inferInstanceAs (Decidable (_ ∨ _ ∧ _))

/-- The selected candidates in the order in which they are numbered. -/
def mined (text : Text) : List Candidate :=
  (((candidates env text).insertionSort bySavings).take maxCandidates).insertionSort byFirst

end Mining

/-! ## Abbreviating -/

def shortCode (idx : ℕ) : Text := "@D".toList ++ idx.repr.toList

def entryCost (c : Candidate) (idx : ℕ) : ℤ := len (shortCode idx) + 1 + len c.token + 2

def savings (c : Candidate) (idx : ℕ) : ℤ :=
  c.count * ((len c.token : ℤ) - len (shortCode idx)) - entryCost c idx

structure Progress where
  output : Text
  legend : List Entry
  totalSavings : ℤ

def abbreviate (s : Progress) : Candidate × ℕ → Progress
  | (c, idx) =>
    if savings c idx ≤ 0 then s
    else
      { output := replaceWholeWord s.output c.token (shortCode idx)
        legend := s.legend ++ [(shortCode idx, c.token)]
        totalSavings := s.totalSavings + savings c idx }

def legendEntry (e : Entry) : Text := e.1 ++ '=' :: e.2

def legendLine (legend : List Entry) : Text :=
  "[dict: ".toList ++ ", ".toList.intercalate (legend.map legendEntry) ++ "]\n".toList

def apply (env : Env) (text : Text) : Option Text :=
  let result := (mined env text).zipIdx.foldl abbreviate
    { output := text, legend := [], totalSavings := 0 }
  if result.legend = [] ∨ result.totalSavings ≤ legendWrapperOverhead then none
  else some (legendLine result.legend ++ result.output)

/-! ## Expanding -/

/-- `str::split_once` with a character. -/
def splitOnce (c : Char) (s : Text) : Option (Text × Text) :=
  if c ∈ s then some (s.takeWhile (· ≠ c), (s.dropWhile (· ≠ c)).tail) else none

def stripPrefix (pre s : Text) : Option Text :=
  if pre <+: s then some (s.drop pre.length) else none

def stripSuffix (c : Char) (s : Text) : Option Text :=
  if s.getLast? = some c then some s.dropLast else none

/-- `str::split` with a text. -/
def splitFrom (sep : Text) : ℕ → Text → Text → List Text
  | _, current, [] => [current]
  | skip + 1, current, _ :: rest => splitFrom sep skip current rest
  | 0, current, c :: rest =>
    if sep.isPrefixOf (c :: rest) then current :: splitFrom sep (sep.length - 1) [] rest
    else splitFrom sep 0 (current ++ [c]) rest

def split (sep s : Text) : List Text := splitFrom sep 0 [] s

def byLength (a b : Entry) : Prop := len b.1 ≤ len a.1

instance : DecidableRel byLength := fun a b => inferInstanceAs (Decidable (len b.1 ≤ len a.1))

def expand (text : Text) : Option Text := do
  let (first, rest) ← splitOnce '\n' text
  let entries ← stripSuffix ']' (← stripPrefix "[dict: ".toList first)
  let legend ← (split ", ".toList entries).mapM (splitOnce '=')
  if legend.any fun e => !"@D".toList.isPrefixOf e.1 then none
  else
    -- longest code first
    some ((legend.insertionSort byLength).foldl (fun out e => replaceWholeWord out e.1 e.2) rest)

/-! ## The dictionary of a text -/

section Dictionary

variable (env : Env) (text : Text)

/-- The codes and words of the candidates that save something. -/
def dictionary : List Entry :=
  ((mined env text).zipIdx.filter fun (c, idx) => 0 < savings c idx).map fun (c, idx) =>
    (shortCode idx, c.token)

theorem foldl_abbreviate (numbered : List (Candidate × ℕ)) (s : Progress) :
    let used := (numbered.filter fun (c, idx) => 0 < savings c idx).map fun (c, idx) =>
      (shortCode idx, c.token)
    (numbered.foldl abbreviate s).legend = s.legend ++ used ∧
      (numbered.foldl abbreviate s).output =
        used.foldl (fun out e => replaceWholeWord out e.2 e.1) s.output := by
  induction numbered generalizing s with
  | nil => simp
  | cons c numbered ih =>
    obtain ⟨c, idx⟩ := c
    obtain ⟨hlegend, houtput⟩ := ih (abbreviate s (c, idx))
    rw [List.foldl_cons]
    dsimp only at hlegend houtput ⊢
    by_cases hsaves : 0 < savings c idx
    · have hnext : abbreviate s (c, idx) =
          { output := replaceWholeWord s.output c.token (shortCode idx)
            legend := s.legend ++ [(shortCode idx, c.token)]
            totalSavings := s.totalSavings + savings c idx } := if_neg (not_le.mpr hsaves)
      rw [List.filter_cons_of_pos (by simpa using hsaves), List.map_cons, List.foldl_cons, hlegend,
        houtput, hnext]
      simp
    · have hnext : abbreviate s (c, idx) = s := if_pos (not_lt.mp hsaves)
      rw [List.filter_cons_of_neg (by simpa using hsaves), hlegend, houtput, hnext]
      exact ⟨rfl, rfl⟩

/-- What `apply` returns is the legend of the dictionary and the text with its words replaced. -/
theorem apply_eq_some {u : Text} (h : apply env text = some u) :
    dictionary env text ≠ [] ∧ u = legendLine (dictionary env text) ++
      (dictionary env text).foldl (fun out e => replaceWholeWord out e.2 e.1) text := by
  obtain ⟨hlegend, houtput⟩ := foldl_abbreviate (mined env text).zipIdx
    { output := text, legend := [], totalSavings := 0 }
  rw [List.nil_append] at hlegend
  unfold apply at h
  dsimp only at h hlegend houtput
  rw [hlegend, houtput] at h
  split_ifs at h with hnone
  rw [Option.some.injEq] at h
  exact ⟨fun hnil => hnone (.inl hnil), h.symm⟩

/-! ## Its words and codes -/

theorem firstSeen_spec (toks : List Text) :
    (firstSeen toks).Nodup ∧ ∀ tok ∈ firstSeen toks, tok ∈ toks := by
  have hfold : ∀ (toks seen : List Text), seen.Nodup →
      (toks.foldl (fun seen tok => if seen.contains tok then seen else seen ++ [tok]) seen).Nodup ∧
      ∀ tok ∈ toks.foldl (fun seen tok => if seen.contains tok then seen else seen ++ [tok]) seen,
        tok ∈ seen ∨ tok ∈ toks := by
    intro toks
    induction toks with
    | nil => exact fun seen h => ⟨h, fun tok htok => .inl htok⟩
    | cons tok toks ih =>
      intro seen hseen
      rw [List.foldl_cons]
      by_cases hmem : tok ∈ seen
      · rw [if_pos (List.contains_iff_mem.mpr hmem)]
        obtain ⟨hnodup, hfrom⟩ := ih seen hseen
        exact ⟨hnodup, fun t ht => (hfrom t ht).imp_right (List.mem_cons_of_mem _)⟩
      · rw [if_neg fun h => hmem (List.contains_iff_mem.mp h)]
        have hnext : (seen ++ [tok]).Nodup :=
          List.nodup_append.mpr ⟨hseen, List.nodup_singleton tok, by
            intro a ha b hb
            rw [List.mem_singleton.mp hb]
            exact fun heq => hmem (heq ▸ ha)⟩
        obtain ⟨hnodup, hfrom⟩ := ih (seen ++ [tok]) hnext
        refine ⟨hnodup, fun t ht => ?_⟩
        obtain h | h := hfrom t ht
        · obtain h | h := List.mem_append.mp h
          · exact .inl h
          · exact .inr (List.mem_singleton.mp h ▸ List.mem_cons_self)
        · exact .inr (List.mem_cons_of_mem _ h)
  obtain ⟨hnodup, hfrom⟩ := hfold toks [] List.nodup_nil
  exact ⟨hnodup, fun tok htok => (hfrom tok htok).resolve_left List.not_mem_nil⟩

theorem mined_perm : ∃ selected, selected.Sublist ((candidates env text).insertionSort bySavings) ∧
    (mined env text).Perm selected ∧ selected.length ≤ maxCandidates :=
  ⟨_, List.take_sublist _ _, List.perm_insertionSort _ _, List.length_take_le _ _⟩

theorem candidates_token :
    ((candidates env text).map Candidate.token).Sublist (firstSeen (tokens env text)) := by
  have hzip : (((firstSeen (tokens env text)).zipIdx.map fun (token, firstIdx) =>
      { token, count := (tokens env text).count token, firstIdx : Candidate }).map
        Candidate.token) = firstSeen (tokens env text) := by
    rw [List.map_map]
    exact List.zipIdx_map_fst 0 _
  have hsub := (List.filter_sublist (p := fun c : Candidate => minRepeats ≤ c.count)
    (l := (firstSeen (tokens env text)).zipIdx.map fun (token, firstIdx) =>
      { token, count := (tokens env text).count token, firstIdx })).map Candidate.token
  rw [hzip] at hsub
  exact hsub

/-- The mined words are distinct tokens, at most eight. -/
theorem mined_spec : ((mined env text).map Candidate.token).Nodup ∧
    (∀ c ∈ mined env text, c.token ∈ tokens env text) ∧
    (mined env text).length ≤ maxCandidates := by
  obtain ⟨hnodup, hfrom⟩ := firstSeen_spec (tokens env text)
  obtain ⟨selected, hsub, hperm, hlen⟩ := mined_perm env text
  have hsorted := List.perm_insertionSort bySavings (candidates env text)
  refine ⟨?_, fun c hc => ?_, hperm.length_eq ▸ hlen⟩
  · have hall : (((candidates env text).insertionSort bySavings).map Candidate.token).Nodup :=
      (hsorted.map Candidate.token).nodup_iff.mpr (hnodup.sublist (candidates_token env text))
    exact (hperm.map Candidate.token).nodup_iff.mpr (hall.sublist (hsub.map Candidate.token))
  · have hmem : c ∈ candidates env text := hsorted.mem_iff.mp (hsub.mem (hperm.mem_iff.mp hc))
    exact hfrom c.token ((candidates_token env text).mem (List.mem_map_of_mem hmem))

theorem mem_dictionary {e : Entry} (he : e ∈ dictionary env text) :
    ∃ c idx, (mined env text)[idx]? = some c ∧ idx < 8 ∧ e = (shortCode idx, c.token) := by
  obtain ⟨⟨c, idx⟩, hmem, rfl⟩ := List.mem_map.mp he
  have hat : (mined env text)[idx]? = some c :=
    List.mk_mem_zipIdx_iff_getElem?.mp (List.mem_filter.mp hmem).1
  obtain ⟨hlt, -⟩ := List.getElem?_eq_some_iff.mp hat
  exact ⟨c, idx, hat, hlt.trans_le (mined_spec env text).2.2, rfl⟩

theorem shortCode_eq : ∀ idx < 8, shortCode idx = ['@', 'D', idx.digitChar] ∧
    idx.digitChar.isDigit = true := by
  decide

theorem shortCode_inj : ∀ i < 8, ∀ j < 8, shortCode i = shortCode j → i = j := by
  decide

theorem len_shortCode : ∀ idx < 8, len (shortCode idx) = 3 := by
  decide

theorem len_le (s : Text) : len s ≤ 4 * s.length := by
  induction s with
  | nil => exact Nat.le_refl 0
  | cons c s ih =>
    have hc : c.utf8Size ≤ 4 := Char.utf8Size_le_four c
    change c.utf8Size + len s ≤ 4 * (s.length + 1)
    omega

variable {env}

theorem isWord_ascii {c : Char} (h : c.toNat < 128) :
    isWord env c = (c.isAlphanum || c == '_') := by
  rw [isWord, env.isAlphanumeric_ascii c h]

theorem isWord_quiet {c : Char} (h : isWord env c = true) :
    isAsciiWhitespace c = false ∧ isSlash c = false := by
  have hnot : ∀ d : Char, d.toNat < 128 → (d.isAlphanum || d == '_') = false → c ≠ d := by
    rintro d hascii hd rfl
    rw [isWord_ascii hascii, hd] at h
    cases h
  have hblank : ∀ d ∈ [' ', '\t', '\n', '\x0c', '\r', '/', '\\'],
      d.toNat < 128 ∧ (d.isAlphanum || d == '_') = false :=
    List.all_iff_forall_prop.mp (by decide)
  have hne : c ∉ [' ', '\t', '\n', '\x0c', '\r', '/', '\\'] := fun hmem =>
    hnot c (hblank c hmem).1 (hblank c hmem).2 rfl
  simp only [List.mem_cons, not_or] at hne
  simp [isAsciiWhitespace, isSlash, hne]

variable (env)

theorem codes_dictionary : Codes (isWord env) (dictionary env text) where
  quiet _ := isWord_quiet
  at_sign := isWord_ascii (by decide)
  letter := isWord_ascii (by decide)
  digit d hd := by
    have hascii : d.toNat < 128 := by
      have hbounds : 48 ≤ d.toNat ∧ d.toNat ≤ 57 := by
        simpa [Char.isDigit, UInt32.le_iff_toNat_le] using hd
      exact hbounds.2.trans_lt (by decide)
    rw [isWord_ascii hascii, Char.isAlphanum, hd, Bool.or_true, Bool.true_or]
  short e he := by
    obtain ⟨c, idx, -, hidx, rfl⟩ := mem_dictionary env text he
    exact ⟨idx.digitChar, shortCode_eq idx hidx⟩
  long e he := by
    obtain ⟨c, idx, hat, -, rfl⟩ := mem_dictionary env text he
    obtain ⟨hpiece, hlong⟩ := List.mem_filter.mp
      ((mined_spec env text).2.1 c (List.mem_of_getElem? hat))
    refine ⟨?_, fun d hd => ?_⟩
    · have hbytes : minPhraseLen ≤ len c.token :=
        of_decide_eq_true (Bool.and_eq_true_iff.mp hlong).1
      have hlen := len_le c.token
      change 10 ≤ _ at hbytes
      change 3 ≤ c.token.length
      omega
    · have hcut := Knowledge.not_of_mem_splitOnP hpiece d hd
      rwa [Bool.not_eq_false'] at hcut
  short_inj e he f hf heq := by
    obtain ⟨c, idx, hat, hidx, rfl⟩ := mem_dictionary env text he
    obtain ⟨c', idx', hat', hidx', rfl⟩ := mem_dictionary env text hf
    have hsame : idx = idx' := shortCode_inj idx hidx idx' hidx' heq
    subst hsame
    rw [hat, Option.some.injEq] at hat'
    rw [hat']
  long_inj e he f hf heq := by
    obtain ⟨c, idx, hat, hidx, rfl⟩ := mem_dictionary env text he
    obtain ⟨c', idx', hat', hidx', rfl⟩ := mem_dictionary env text hf
    have hsame : idx = idx' := by
      refine (List.getElem?_inj ?_ (mined_spec env text).1).mp ?_
      · rw [List.length_map]
        exact (List.getElem?_eq_some_iff.mp hat).1
      · rw [List.getElem?_map, List.getElem?_map, hat, hat']
        exact congrArg some heq
    subst hsame
    rw [hat, Option.some.injEq] at hat'
    rw [hat']

end Dictionary

end LeanCtx.Terse
