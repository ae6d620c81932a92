import LeanCtx.AutoDictLegend

/-!
# The dictionary is reversible

A text whose codes and words agree with its cut is given back by expanding what
abbreviating returns. What it saves is counted over the occurrences that are
replaced, which need not be those that were counted when the dictionary was
mined.
-/

namespace LeanCtx.Terse

open Knowledge (len)

theorem len_append (s s' : Text) : len (s ++ s') = len s + len s' := by
  rw [len, List.map_append, List.sum_append, len, len]

theorem len_cons (c : Char) (s : Text) : len (c :: s) = c.utf8Size + len s := by
  rw [len, List.map_cons, List.sum_cons, len]

/-! ## What the codes save -/

section Size

variable {isWord : Char → Bool} {used : List Entry}

def gain (e : Entry) : ℤ := len e.2 - len e.1

theorem sum_gain_place {ps : List Piece} {f : Entry} (hnodup : used.Nodup) (hf : f ∈ used) :
    (used.map fun e => ((Piece.place f :: ps).count (.place e) : ℤ) * gain e).sum =
      (used.map fun e => (ps.count (.place e) : ℤ) * gain e).sum + gain f := by
  have hsingle : (used.map fun e => if e = f then gain e else 0).sum = gain f := by
    rw [List.sum_map_eq_nsmul_single f _ fun e hne _ => if_neg hne, if_pos rfl,
      @List.count_eq_one_of_mem _ instBEqOfDecidableEq _ _ _ hnodup hf, one_nsmul]
  rw [← hsingle, ← List.sum_map_add]
  refine congrArg List.sum (List.map_congr_left fun e _ => ?_)
  by_cases hfe : e = f
  · subst hfe
    rw [List.count_cons_self, if_pos rfl]
    push_cast
    ring
  · rw [List.count_cons_of_ne (by simp [Ne.symm hfe]), if_neg hfe, add_zero]

theorem len_plain {before : Text} {ps : List Piece} (hnodup : used.Nodup)
    (hcut : Cut isWord used before ps) :
    (len (plain ps) : ℤ) = len (flat (fun f => decide (f ∈ used)) ps) +
      (used.map fun e => (ps.count (.place e) : ℤ) * gain e).sum := by
  induction ps generalizing before with
  | nil => simp [flat, len]
  | cons p ps ih =>
    cases p with
    | separator c =>
      have hsame : ∀ e, (Piece.separator c :: ps).count (.place e) = ps.count (.place e) :=
        fun e => List.count_cons_of_ne (by simp)
      change ((len (c :: plain ps) : ℕ) : ℤ) = len (c :: flat _ ps) + _
      simp only [hsame, len_cons]
      push_cast
      rw [ih hcut.2]
      ring
    | word w =>
      have hsame : ∀ e, (Piece.word w :: ps).count (.place e) = ps.count (.place e) :=
        fun e => List.count_cons_of_ne (by simp)
      change ((len (w ++ plain ps) : ℕ) : ℤ) = len (w ++ flat _ ps) + _
      simp only [hsame, len_append]
      push_cast
      rw [ih hcut.2.2.2]
      ring
    | place f =>
      obtain ⟨hf, -, -, hps⟩ := hcut
      change ((len (f.2 ++ plain ps) : ℕ) : ℤ) =
        len ((if decide (f ∈ used) = true then f.1 else f.2) ++ flat _ ps) + _
      rw [if_pos (decide_eq_true hf), sum_gain_place hnodup hf, len_append, len_append]
      push_cast
      rw [ih hps, gain]
      ring

end Size

/-! ## The length of a legend -/

def entrySize (e : Entry) : ℤ := len e.1 + 1 + len e.2 + 2

theorem len_legendEntry (e : Entry) : (len (legendEntry e) : ℤ) = entrySize e - 2 := by
  have hsign : Char.utf8Size '=' = 1 := by decide
  rw [legendEntry, len_append, len_cons, hsign, entrySize]
  push_cast
  ring

theorem len_intercalate {sep : Text} (hsep : len sep = 2) {d : List Entry} (hne : d ≠ []) :
    (len (sep.intercalate (d.map legendEntry)) : ℤ) = (d.map entrySize).sum - 2 := by
  induction d with
  | nil => exact absurd rfl hne
  | cons e d ih =>
    cases d with
    | nil =>
      rw [List.map_singleton, List.intercalate_singleton, len_legendEntry, List.map_singleton,
        List.sum_singleton]
    | cons f d =>
      have hrest := ih (List.cons_ne_nil f d)
      rw [List.map_cons (f := legendEntry)] at hrest
      rw [List.map_cons, List.map_cons, List.intercalate_cons_cons, len_append, len_append, hsep,
        List.map_cons, List.sum_cons]
      push_cast
      rw [hrest, len_legendEntry]
      ring

theorem len_line {opening sep close : Text} (hopen : len opening = 7) (hsep : len sep = 2)
    (hclose : len close = 2) {d : List Entry} (hne : d ≠ []) :
    (len (opening ++ sep.intercalate (d.map legendEntry) ++ close) : ℤ) =
      legendWrapperOverhead - 2 + (d.map entrySize).sum := by
  rw [len_append, len_append, hopen, hclose]
  push_cast
  rw [len_intercalate hsep hne, legendWrapperOverhead]
  ring

theorem len_legendLine {d : List Entry} (hne : d ≠ []) :
    (len (legendLine d) : ℤ) = legendWrapperOverhead - 2 + (d.map entrySize).sum :=
  len_line (by decide) (by decide) (by decide) hne

/-! ## Abbreviating and expanding -/

section RoundTrip

variable (env : Env) (text : Text)

theorem nodup_dictionary : (dictionary env text).Nodup := by
  have hwords : ((dictionary env text).map Prod.snd).Sublist
      ((mined env text).map Candidate.token) := by
    have hzip : (mined env text).zipIdx.map (Candidate.token ∘ Prod.fst) =
        (mined env text).map Candidate.token := by
      rw [← List.map_map, List.zipIdx_map_fst]
    rw [dictionary, List.map_map, ← hzip]
    exact List.filter_sublist.map _
  exact List.Nodup.of_map _ ((mined_spec env text).1.sublist hwords)

/-- The savings of the words that are replaced, less the sizes of the entries. -/
def replacedSavings : ℤ :=
  ((dictionary env text).map fun e =>
    (standing e.2 [] text : ℤ) * gain e - entrySize e).sum

variable {env text} {u : Text} (h : apply env text = some u)
  (hagrees : ∀ e ∈ dictionary env text, Agrees (isWord env) e.2 [] text)
include h hagrees

theorem len_apply :
    (len text : ℤ) - len u = replacedSavings env text - (legendWrapperOverhead - 2) := by
  obtain ⟨hne, rfl⟩ := apply_eq_some env text h
  obtain ⟨ps, hplain, hcut⟩ := @exists_cut (isWord env) (dictionary env text) [] text
  have hcodes := codes_dictionary env text
  have hnodup := nodup_dictionary env text
  have hagrees' : ∀ e ∈ dictionary env text, Agrees (isWord env) e.2 [] (plain ps) :=
    fun e he => by rw [hplain]; exact hagrees e he
  have hcount : ∀ e ∈ dictionary env text, standing e.2 [] text = ps.count (.place e) := by
    intro e he
    rw [← hplain]
    exact standing_plain hcodes he hcut (hagrees' e he)
  have hreplaced : (dictionary env text).foldl (fun out e => replaceWholeWord out e.2 e.1) text =
      flat (fun f => decide (f ∈ dictionary env text)) ps := by
    have hall := foldl_replace_long hcodes hcut (fun _ he => he) hnodup (fun _ _ => rfl) hagrees'
    simp only [Bool.false_or] at hall
    rw [← hall, ← hplain]
  have hlen := len_plain hnodup hcut
  have hsavings : replacedSavings env text =
      ((dictionary env text).map fun e => (ps.count (.place e) : ℤ) * gain e).sum -
        ((dictionary env text).map entrySize).sum := by
    refine eq_sub_of_add_eq ?_
    rw [replacedSavings, ← List.sum_map_add]
    exact congrArg List.sum (List.map_congr_left fun e he => by rw [hcount e he, sub_add_cancel])
  have hlegend := len_legendLine hne
  rw [hplain] at hlen
  rw [len_append, hreplaced]
  push_cast
  rw [hlen, hlegend, hsavings]
  ring

/-- Abbreviating is undone by expanding and pays for itself, where every occurrence of a word that
is replaced stands alone, no code of the legend stands in the text, and the occurrences that are
replaced save more than the legend takes. -/
theorem expand_apply (habsent : ∀ e ∈ dictionary env text, Absent e.1 [] text) :
    expand u = some text ∧
      (len u < len text ↔ legendWrapperOverhead - 2 < replacedSavings env text) := by
  have hlen := len_apply h hagrees
  refine ⟨?_, by omega⟩
  obtain ⟨hne, rfl⟩ := apply_eq_some env text h
  obtain ⟨ps, hplain, hcut⟩ := @exists_cut (isWord env) (dictionary env text) [] text
  subst hplain
  rw [expand_legendLine env _ hne, foldl_replace_back (codes_dictionary env _) hcut
    (nodup_dictionary env _) hagrees habsent]

end RoundTrip

/-! ## Texts with codes and paths -/

def asciiEnv : Env where
  isAlphanumeric := Char.isAlphanum
  isAlphabetic := Char.isAlpha
  isAlphanumeric_ascii _ _ := rfl

def factoryLog : Text :=
  "ConfigurationFile a, ConfigurationFile b, ConfigurationFile c, ConfigurationFile".toList

def factoryLogShort : Text := "[dict: @D0=ConfigurationFile]\n@D0 a, @D0 b, @D0 c, @D0".toList

theorem expand_apply_factoryLog : expand factoryLogShort = some factoryLog ∧
    (len factoryLogShort < len factoryLog ↔
      legendWrapperOverhead - 2 < replacedSavings asciiEnv factoryLog) :=
  @expand_apply asciiEnv factoryLog factoryLogShort (by decide +kernel) (by decide +kernel)
    (by decide +kernel)

/-- A code that stands in the text. -/
def codeLog : Text :=
  "@D0 ConfigurationFile ConfigurationFile ConfigurationFile ConfigurationFile".toList

/-- Words that are counted but stand in paths. -/
def pathLog : Text :=
  "a/ConfigurationFile b/ConfigurationFile c/ConfigurationFile d/ConfigurationFile".toList

/-- The code in the first text is expanded as well, and the second text grows by its legend. -/
theorem not_always_reversible :
    (∃ u, apply asciiEnv codeLog = some u ∧ expand u ≠ some codeLog) ∧
      ∃ u, apply asciiEnv pathLog = some u ∧ len pathLog < len u :=
  ⟨⟨"[dict: @D0=ConfigurationFile]\n@D0 @D0 @D0 @D0 @D0".toList, by decide +kernel,
      by decide +kernel⟩,
    ⟨"[dict: @D0=ConfigurationFile]\n".toList ++ pathLog, by decide +kernel, by decide +kernel⟩⟩

end LeanCtx.Terse
