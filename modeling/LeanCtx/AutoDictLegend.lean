import LeanCtx.AutoDict
import LeanCtx.WordCut

/-!
# Reading the legend

The legend line of a dictionary is read back to the dictionary, so expanding a
legend in front of a text replaces the codes of the text by their words.
-/

namespace LeanCtx.Terse

open Knowledge (len)

/-! ## Splitting -/

theorem splitOnce_append {c : Char} {s : Text} (h : c ∉ s) (rest : Text) :
    splitOnce c (s ++ c :: rest) = some (s, rest) := by
  have hs : ∀ d ∈ s, decide (d ≠ c) = true := fun d hd =>
    decide_eq_true fun heq => h (heq ▸ hd)
  have htake : (s ++ c :: rest).takeWhile (· ≠ c) = s := by
    rw [List.takeWhile_append_of_pos hs, List.takeWhile_cons_of_neg (by simp), List.append_nil]
  have hdrop : (s ++ c :: rest).dropWhile (· ≠ c) = c :: rest := by
    rw [List.dropWhile_append_of_pos hs, List.dropWhile_cons_of_neg (by simp)]
  rw [splitOnce, if_pos (by simp), htake, hdrop, List.tail_cons]

theorem splitFrom_skip (sep current skipped rest : Text) :
    splitFrom sep skipped.length current (skipped ++ rest) = splitFrom sep 0 current rest := by
  induction skipped with
  | nil => rfl
  | cons c skipped ih => rw [List.length_cons, List.cons_append, splitFrom, ih]

theorem splitFrom_separator (c : Char) (tail current rest : Text) :
    splitFrom (c :: tail) 0 current (c :: tail ++ rest) =
      current :: splitFrom (c :: tail) 0 [] rest := by
  have hpre : (c :: tail).isPrefixOf (c :: (tail ++ rest)) = true :=
    List.isPrefixOf_iff_prefix.mpr (List.prefix_append (c :: tail) rest)
  rw [List.cons_append, splitFrom, if_pos hpre, List.length_cons, Nat.add_sub_cancel,
    splitFrom_skip]

theorem splitFrom_part {c : Char} {part : Text} (h : c ∉ part) (tail current rest : Text) :
    splitFrom (c :: tail) 0 current (part ++ rest) =
      splitFrom (c :: tail) 0 (current ++ part) rest := by
  induction part generalizing current with
  | nil => rw [List.nil_append, List.append_nil]
  | cons d part ih =>
    obtain ⟨hcd, hpart⟩ := not_or.mp (List.mem_cons.not.mp h)
    have hpre : ¬(c :: tail).isPrefixOf (d :: (part ++ rest)) = true := fun hpre =>
      hcd (List.cons_prefix_cons.mp (List.isPrefixOf_iff_prefix.mp hpre)).1
    rw [List.cons_append, splitFrom, if_neg hpre, ih hpart, List.append_assoc,
      List.singleton_append]

theorem split_intercalate {c : Char} (tail : Text) {parts : List Text} (hne : parts ≠ [])
    (h : ∀ p ∈ parts, c ∉ p) : split (c :: tail) ((c :: tail).intercalate parts) = parts := by
  induction parts with
  | nil => exact absurd rfl hne
  | cons p parts ih =>
    obtain ⟨hp, hparts⟩ := List.forall_mem_cons.mp h
    cases parts with
    | nil =>
      have hlast := splitFrom_part hp tail [] []
      rw [List.append_nil, List.nil_append, splitFrom] at hlast
      rw [List.intercalate_singleton, split, hlast]
    | cons q parts =>
      have hrest : splitFrom (c :: tail) 0 [] ((c :: tail).intercalate (q :: parts)) =
          q :: parts := ih (List.cons_ne_nil q parts) hparts
      rw [List.intercalate_cons_cons, split, List.append_assoc, splitFrom_part hp,
        List.nil_append, splitFrom_separator, hrest]

theorem splitOnce_line {opening entries : Text} (hopen : '\n' ∉ opening) (hline : '\n' ∉ entries)
    (rest : Text) :
    splitOnce '\n' (opening ++ entries ++ [']', '\n'] ++ rest) =
      some (opening ++ (entries ++ [']']), rest) := by
  have hfirst : '\n' ∉ opening ++ (entries ++ [']']) := by
    rw [List.mem_append, List.mem_append, List.mem_singleton]
    exact fun hmem => hmem.elim hopen fun h => h.elim hline (by decide)
  have hwritten : opening ++ entries ++ [']', '\n'] ++ rest =
      opening ++ (entries ++ [']']) ++ '\n' :: rest := by simp
  rw [hwritten, splitOnce_append hfirst]

theorem stripPrefix_append (pre rest : Text) : stripPrefix pre (pre ++ rest) = some rest := by
  rw [stripPrefix, if_pos (List.prefix_append pre rest), List.drop_left]

theorem stripSuffix_concat (c : Char) (s : Text) : stripSuffix c (s ++ [c]) = some s := by
  rw [stripSuffix, if_pos List.getLast?_concat, List.dropLast_concat]

/-! ## The legend of a dictionary -/

theorem not_mem_intercalate {c : Char} {sep : Text} (hsep : c ∉ sep) {parts : List Text}
    (h : ∀ p ∈ parts, c ∉ p) : c ∉ sep.intercalate parts := by
  induction parts with
  | nil => exact List.not_mem_nil
  | cons p parts ih =>
    obtain ⟨hp, hparts⟩ := List.forall_mem_cons.mp h
    cases parts with
    | nil => rwa [List.intercalate_singleton]
    | cons q parts =>
      rw [List.intercalate_cons_cons, List.mem_append, List.mem_append]
      exact fun hmem => hmem.elim (fun h => h.elim hp hsep) (ih hparts)

theorem legendLine_eq (legend : List Entry) : legendLine legend =
    "[dict: ".toList ++ ", ".toList.intercalate (legend.map legendEntry) ++ [']', '\n'] := by
  have hclose : "]\n".toList = [']', '\n'] := by decide
  rw [← hclose]
  rfl

theorem expand_eq (t : Text) : expand t = (splitOnce '\n' t).bind fun p =>
    (stripPrefix "[dict: ".toList p.1).bind fun inner =>
    (stripSuffix ']' inner).bind fun entries =>
    ((split ", ".toList entries).mapM (splitOnce '=')).bind fun legend =>
      if legend.any fun e => !"@D".toList.isPrefixOf e.1 then none
      else some ((legend.insertionSort byLength).foldl
        (fun out e => replaceWholeWord out e.1 e.2) p.2) := rfl

section Legend

variable (env : Env) (text : Text)

/-- A code or a word of a dictionary holds no other ASCII character than its own. -/
theorem not_mem_entry {e : Entry} (he : e ∈ dictionary env text) {c : Char}
    (hascii : c.toNat < 128) (hword : (c.isAlphanum || c == '_') = false) (hat : c ≠ '@') :
    c ∉ e.1 ∧ c ∉ e.2 := by
  have hcodes := codes_dictionary env text
  have hnot : isWord env c = false := by rw [isWord_ascii hascii, hword]
  refine ⟨fun hmem => ?_, fun hmem => ?_⟩
  · obtain ⟨d, hshort, hd⟩ := hcodes.short e he
    rw [hshort, List.mem_cons, List.mem_cons, List.mem_singleton] at hmem
    obtain rfl | rfl | rfl := hmem
    · exact hat rfl
    · rw [hcodes.letter] at hnot
      cases hnot
    · rw [hcodes.digit c hd] at hnot
      cases hnot
  · rw [(hcodes.long e he).2 c hmem] at hnot
    cases hnot

theorem not_mem_legendEntry {p : Text} (hp : p ∈ (dictionary env text).map legendEntry) {c : Char}
    (hascii : c.toNat < 128) (hword : (c.isAlphanum || c == '_') = false) (hat : c ≠ '@')
    (heq : c ≠ '=') : c ∉ p := by
  obtain ⟨e, he, rfl⟩ := List.mem_map.mp hp
  obtain ⟨hcode, hlong⟩ := not_mem_entry env text he hascii hword hat
  rw [legendEntry, List.mem_append, List.mem_cons]
  exact fun hmem => hmem.elim hcode fun h => h.elim heq hlong

theorem mapM_splitOnce {l : List Entry} (h : ∀ e ∈ l, '=' ∉ e.1) :
    (l.map legendEntry).mapM (splitOnce '=') = some l := by
  induction l with
  | nil => rfl
  | cons e l ih =>
    obtain ⟨he, hl⟩ := List.forall_mem_cons.mp h
    rw [List.map_cons, List.mapM_cons, legendEntry, splitOnce_append he, ih hl]
    rfl

/-- The codes are all of one length, so they are expanded in the order of the legend. -/
theorem insertionSort_dictionary :
    (dictionary env text).insertionSort byLength = dictionary env text := by
  have hlen : ∀ e ∈ dictionary env text, len e.1 = 3 := by
    intro e he
    obtain ⟨c, idx, -, hidx, rfl⟩ := mem_dictionary env text he
    exact len_shortCode idx hidx
  refine List.Pairwise.insertionSort_eq (List.pairwise_of_forall_mem_list fun e he f hf => ?_)
  change len f.1 ≤ len e.1
  rw [hlen e he, hlen f hf]

theorem read_entries (hne : dictionary env text ≠ []) :
    (split ", ".toList (", ".toList.intercalate ((dictionary env text).map legendEntry))).mapM
      (splitOnce '=') = some (dictionary env text) := by
  have hparts : (dictionary env text).map legendEntry ≠ [] := fun h =>
    hne (List.map_eq_nil_iff.mp h)
  have hsep : ", ".toList = [',', ' '] := by decide
  have hsplit := split_intercalate [' '] hparts fun p hp =>
    not_mem_legendEntry env text hp (c := ',') (by decide) (by decide) (by decide) (by decide)
  rw [hsep, hsplit]
  exact mapM_splitOnce fun e he =>
    (not_mem_entry env text he (by decide) (by decide) (by decide)).1

theorem codes_start :
    (dictionary env text).any (fun e => !"@D".toList.isPrefixOf e.1) = false := by
  have hat : ∀ d, (!"@D".toList.isPrefixOf ['@', 'D', d]) = false := fun d => by rfl
  refine List.any_eq_false.mpr fun e he => ?_
  obtain ⟨d, hshort, -⟩ := (codes_dictionary env text).short e he
  rw [hshort, hat]
  exact Bool.false_ne_true

theorem splitOnce_legendLine (out : Text) :
    splitOnce '\n' (legendLine (dictionary env text) ++ out) = some
      ("[dict: ".toList ++
        (", ".toList.intercalate ((dictionary env text).map legendEntry) ++ [']']), out) := by
  have hopen : '\n' ∉ "[dict: ".toList := by decide
  have hsep : '\n' ∉ ", ".toList := by decide
  have hline : '\n' ∉ ", ".toList.intercalate ((dictionary env text).map legendEntry) :=
    not_mem_intercalate hsep fun p hp =>
      not_mem_legendEntry env text hp (by decide) (by decide) (by decide) (by decide)
  rw [legendLine_eq]
  exact splitOnce_line hopen hline out

theorem expand_legendLine (hne : dictionary env text ≠ []) (out : Text) :
    expand (legendLine (dictionary env text) ++ out) = some
      ((dictionary env text).foldl (fun out e => replaceWholeWord out e.1 e.2) out) := by
  have hcodes : ¬ ((dictionary env text).any fun e => !"@D".toList.isPrefixOf e.1) = true := by
    rw [codes_start]
    exact Bool.false_ne_true
  rw [expand_eq, splitOnce_legendLine env text out, Option.bind_some, stripPrefix_append,
    Option.bind_some, stripSuffix_concat, Option.bind_some, read_entries env text hne,
    Option.bind_some, if_neg hcodes, insertionSort_dictionary]

end Legend

end LeanCtx.Terse
