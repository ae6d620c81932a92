import LeanCtx.WordPieces

/-!
# Cutting a text

Every text has a cut: its runs of word characters, with the runs that are used
words and are replaced where they stand as places. The places of an entry are
the occurrences of its word that are replaced.
-/

namespace LeanCtx.Terse

variable (isWord : Char → Bool) (used : List Entry)

/-! ## The runs of a text -/

def runs : Text → List Piece
  | [] => []
  | c :: rest =>
    if isWord c then
      match runs rest with
      | .word w :: ps => .word (c :: w) :: ps
      | ps => .word [c] :: ps
    else .separator c :: runs rest

variable {isWord}

theorem Cut.append_word {before : Text} {c : Char} {w : Text} {ps : List Piece}
    (hc : isWord c = true) (h : Cut isWord [] (before ++ [c]) (.word w :: ps)) :
    Cut isWord [] before (.word (c :: w) :: ps) := by
  obtain ⟨⟨-, hw⟩, hsep, -, hps⟩ := h
  refine ⟨⟨List.cons_ne_nil c w, List.forall_mem_cons.mpr ⟨hc, hw⟩⟩, hsep, fun e he => ?_, ?_⟩
  · exact absurd he List.not_mem_nil
  · rwa [List.append_assoc, List.singleton_append] at hps

theorem Cut.singleton_word {before : Text} {c : Char} {ps : List Piece} (hc : isWord c = true)
    (hsep : startsWithSeparator ps) (h : Cut isWord [] (before ++ [c]) ps) :
    Cut isWord [] before (.word [c] :: ps) := by
  refine ⟨⟨List.cons_ne_nil c [], fun d hd => ?_⟩, hsep, fun e he => ?_, h⟩
  · rw [List.mem_singleton.mp hd, hc]
  · exact absurd he List.not_mem_nil

theorem runs_spec (before text : Text) :
    plain (runs isWord text) = text ∧ Cut isWord [] before (runs isWord text) := by
  induction text generalizing before with
  | nil => exact ⟨rfl, trivial⟩
  | cons c rest ih =>
    obtain ⟨hplain, hcut⟩ := ih (before ++ [c])
    rw [runs]
    cases hc : isWord c with
    | false =>
      rw [if_neg Bool.false_ne_true]
      exact ⟨by rw [plain, flat, ← plain, hplain], hc, hcut⟩
    | true =>
      rw [if_pos rfl]
      cases hruns : runs isWord rest with
      | nil =>
        rw [hruns] at hplain hcut
        exact ⟨congrArg (c :: ·) hplain, Cut.singleton_word hc trivial hcut⟩
      | cons p ps =>
        rw [hruns] at hplain hcut
        cases p with
        | separator d => exact ⟨congrArg (c :: ·) hplain, Cut.singleton_word hc trivial hcut⟩
        | word w => exact ⟨congrArg (c :: ·) hplain, hcut.append_word hc⟩
        | place e => exact absurd hcut.1 List.not_mem_nil

/-! ## Its places -/

def place? (before w after : Text) : Option Entry :=
  used.find? fun e => decide (w = e.2) && isReplaced before w after

def mark : Text → List Piece → List Piece
  | _, [] => []
  | before, .separator c :: ps => .separator c :: mark (before ++ [c]) ps
  | before, .word w :: ps =>
    ((place? used before w (plain ps)).elim (.word w) .place) :: mark (before ++ w) ps
  | before, .place e :: ps => .place e :: mark (before ++ e.2) ps

variable {used}

theorem place?_eq_some {before w after : Text} {e : Entry}
    (h : place? used before w after = some e) :
    e ∈ used ∧ w = e.2 ∧ isReplaced before w after = true := by
  have hfound := List.find?_some h
  rw [Bool.and_eq_true, decide_eq_true_eq] at hfound
  exact ⟨List.mem_of_find?_eq_some h, hfound⟩

theorem place?_eq_none {before w after : Text} (h : place? used before w after = none) :
    ∀ e ∈ used, w = e.2 → isReplaced before w after = false := by
  intro e he heq
  have hnot := List.find?_eq_none.mp h e he
  rw [decide_eq_true heq, Bool.true_and, Bool.not_eq_true] at hnot
  exact hnot

theorem plain_mark (before : Text) (ps : List Piece) : plain (mark used before ps) = plain ps := by
  induction ps generalizing before with
  | nil => rfl
  | cons p ps ih =>
    cases p with
    | separator c => exact congrArg (c :: ·) (ih _)
    | place e => exact congrArg (e.2 ++ ·) (ih _)
    | word w =>
      rw [mark]
      cases hplace : place? used before w (plain ps) with
      | none => exact congrArg (w ++ ·) (ih _)
      | some e =>
        obtain ⟨-, rfl, -⟩ := place?_eq_some hplace
        exact congrArg (e.2 ++ ·) (ih _)

theorem startsWithSeparator_mark {before : Text} {ps : List Piece} (h : startsWithSeparator ps) :
    startsWithSeparator (mark used before ps) := by
  cases ps with
  | nil => trivial
  | cons p ps =>
    cases p with
    | separator c => trivial
    | word w => exact h.elim
    | place e => exact h.elim

theorem cut_mark {before : Text} {ps : List Piece} (h : Cut isWord [] before ps) :
    Cut isWord used before (mark used before ps) := by
  induction ps generalizing before with
  | nil => trivial
  | cons p ps ih =>
    cases p with
    | separator c => exact ⟨h.1, ih h.2⟩
    | place e => exact absurd h.1 List.not_mem_nil
    | word w =>
      obtain ⟨hw, hsep, -, hps⟩ := h
      have hplain := @plain_mark used (before ++ w) ps
      rw [mark]
      cases hplace : place? used before w (plain ps) with
      | none =>
        refine ⟨hw, startsWithSeparator_mark hsep, fun e he heq => ?_, ih hps⟩
        rw [hplain]
        exact place?_eq_none hplace e he heq
      | some e =>
        obtain ⟨he, rfl, hreplaced⟩ := place?_eq_some hplace
        exact ⟨he, startsWithSeparator_mark hsep, hplain.symm ▸ hreplaced, ih hps⟩

theorem exists_cut (before text : Text) :
    ∃ ps, plain ps = text ∧ Cut isWord used before ps := by
  obtain ⟨hplain, hcut⟩ := @runs_spec isWord before text
  exact ⟨mark used before (runs isWord text), by rw [plain_mark, hplain], cut_mark hcut⟩

/-! ## Counting occurrences -/

/-- The occurrences of a word that are replaced. -/
def standing (word : Text) : Text → Text → ℕ
  | _, [] => 0
  | before, c :: rest =>
    (if word.isPrefixOf (c :: rest) && isReplaced before word ((c :: rest).drop word.length)
      then 1 else 0) + standing word (before ++ [c]) rest

theorem standing_cons_eq {word before rest : Text} {c : Char}
    (h : ∀ y, c :: rest = word ++ y → isReplaced before word y = false) :
    standing word before (c :: rest) = standing word (before ++ [c]) rest := by
  rw [standing, if_neg, Nat.zero_add]
  intro hfound
  rw [Bool.and_eq_true, List.isPrefixOf_iff_prefix] at hfound
  obtain ⟨⟨y, hy⟩, hreplaced⟩ := hfound
  rw [← hy, List.drop_left, h y hy.symm] at hreplaced
  cases hreplaced

theorem standing_found {word before rest : Text} (hword : word ≠ [])
    (h : isReplaced before word rest = true) :
    ∃ c w, word = c :: w ∧
      standing word before (word ++ rest) = 1 + standing word (before ++ [c]) (w ++ rest) := by
  obtain ⟨c, w, rfl⟩ := List.exists_cons_of_ne_nil hword
  refine ⟨c, w, rfl, ?_⟩
  have hpre : (c :: w).isPrefixOf (c :: (w ++ rest)) = true :=
    List.isPrefixOf_iff_prefix.mpr (List.prefix_append (c :: w) rest)
  have hdrop : (c :: (w ++ rest)).drop (c :: w).length = rest := List.drop_left
  rw [List.cons_append, standing, hpre, hdrop, h]
  rfl

theorem standing_pass {word before part rest : Text}
    (h : ∀ u v y, part = u ++ v → v ≠ [] → v ++ rest = word ++ y →
      isReplaced (before ++ u) word y = false) :
    standing word before (part ++ rest) = standing word (before ++ part) rest := by
  induction part generalizing before with
  | nil => rw [List.nil_append, List.append_nil]
  | cons c part ih =>
    have hhead : ∀ y, c :: (part ++ rest) = word ++ y → isReplaced before word y = false := by
      intro y hy
      have := h [] (c :: part) y rfl (List.cons_ne_nil c part) hy
      rwa [List.append_nil] at this
    rw [List.cons_append, standing_cons_eq hhead, ih, List.append_assoc, List.singleton_append]
    intro u v y hpart hv hy
    rw [List.append_assoc]
    exact h (c :: u) v y (congrArg (c :: ·) hpart) hv hy

section Count

variable (hcodes : Codes isWord used) {e : Entry} (he : e ∈ used)
include hcodes he

/-- An occurrence of a word that begins in a run of word characters lies in it. -/
theorem inside_run {v rest y : Text} (hrest : EndsWord isWord rest.head?)
    (h : v ++ rest = e.2 ++ y) : ∃ z, v = e.2 ++ z ∧ y = z ++ rest := by
  obtain ⟨z, hz, hy⟩ | ⟨z, hz, hy⟩ := List.append_eq_append_iff.mp h
  · cases z with
    | nil => exact ⟨[], by rw [hz, List.append_nil, List.append_nil], hy.symm⟩
    | cons c z =>
      have hc := hrest c (by rw [hy]; rfl)
      rw [(hcodes.long e he).2 c (by rw [hz]; simp)] at hc
      cases hc
  · exact ⟨z, hz, hy⟩

/-- The places of an entry are the occurrences of its word that are replaced. -/
theorem standing_plain {before : Text} {ps : List Piece} (hcut : Cut isWord used before ps)
    (hagrees : Agrees isWord e.2 before (plain ps)) :
    standing e.2 before (plain ps) = ps.count (.place e) := by
  have hne := long_ne_nil hcodes he
  have hcontext : ∀ before, Context before before := fun before => ⟨rfl, .inl rfl⟩
  have hempty : ∀ {before w ps}, Cut isWord used (before ++ w) ps → startsWithSeparator ps →
      (∀ c ∈ w, isWord c = true) → Agrees isWord e.2 before (w ++ plain ps) →
      (w = e.2 → isReplaced before w (plain ps) = false) →
      standing e.2 before (w ++ plain ps) = standing e.2 (before ++ w) (plain ps) := by
    intro before w ps hps hsep hword hagrees hwhole
    refine standing_pass fun u v y hw hv hy => ?_
    obtain ⟨z, rfl, rfl⟩ := inside_run hcodes he (endsWord_flat hps hsep _) hy
    exact not_isReplaced_inside hcodes hps hsep hword (hcontext before) hagrees hwhole
      (by rw [hw, List.append_assoc])
  induction ps generalizing before with
  | nil => rfl
  | cons p ps ih =>
    cases p with
    | separator c =>
      obtain ⟨hc, hps⟩ := hcut
      change standing e.2 before (c :: plain ps) = _
      rw [standing_cons_eq, ih hps hagrees.tail, List.count_cons_of_ne (by simp)]
      intro y hy
      obtain ⟨d, w, hword⟩ := List.exists_cons_of_ne_nil hne
      have hd := (hcodes.long e he).2 d (by rw [hword]; exact List.mem_cons_self)
      rw [hword] at hy
      rw [← (List.cons.inj hy).1, hc] at hd
      cases hd
    | word w =>
      obtain ⟨⟨-, hword⟩, hsep, hwhole, hps⟩ := hcut
      change standing e.2 before (w ++ plain ps) = _
      rw [hempty hps hsep hword hagrees (hwhole e he), ih hps hagrees.tail,
        List.count_cons_of_ne (by simp)]
    | place f =>
      obtain ⟨hf, hsep, hplace, hps⟩ := hcut
      change standing e.2 before (f.2 ++ plain ps) = _
      by_cases hfe : f = e
      · subst hfe
        obtain ⟨c, w, hword, hcount⟩ := standing_found hne hplace
        have hpass : standing f.2 (before ++ [c]) (w ++ plain ps) =
            standing f.2 (before ++ [c] ++ w) (plain ps) := by
          -- a second occurrence would be longer than what is left of the first
          refine standing_pass fun u v y hw _ hy => ?_
          obtain ⟨z, rfl, -⟩ := inside_run hcodes he (endsWord_flat hps hsep _) hy
          have hlen := congrArg List.length hw
          rw [hword] at hlen
          simp only [List.length_append, List.length_cons] at hlen
          omega
        have hfront : before ++ [c] ++ w = before ++ f.2 := by rw [hword]; simp
        rw [hcount, List.count_cons_self, ← ih hps hagrees.tail, hpass, hfront, Nat.add_comm]
      · rw [hempty hps hsep (hcodes.long f hf).2 hagrees fun heq =>
          absurd (hcodes.long_inj f hf e he heq) hfe, ih hps hagrees.tail,
          List.count_cons_of_ne (by simp [hfe])]

end Count

/-! ## Deciding what is asked of a text -/

theorem forall_occurrence {P : Text → Text → Prop} (word text : Text) :
    (∀ a b, text = a ++ word ++ b → P a b) ↔
      ∀ n ≤ text.length, word <+: text.drop n →
        P (text.take n) (text.drop (n + word.length)) := by
  constructor
  · rintro h n - ⟨b, hb⟩
    have hdrop : text.drop (n + word.length) = b := by
      rw [← List.drop_drop, ← hb, List.drop_left]
    rw [hdrop]
    exact h _ b (by rw [List.append_assoc, hb, List.take_append_drop])
  · rintro h a b rfl
    have hat := h a.length (by simp) (by simp)
    rw [← List.length_append, List.drop_left, List.append_assoc, List.take_left] at hat
    exact hat

instance (isWord : Char → Bool) (c : Option Char) : Decidable (EndsWord isWord c) :=
  match c with
  | none => isTrue fun _ hd => nomatch hd
  | some d => decidable_of_iff (isWord d = false)
    ⟨fun h _ hd => Option.some.inj hd ▸ h, fun h => h d rfl⟩

instance (isWord : Char → Bool) (word before text : Text) :
    Decidable (Agrees isWord word before text) :=
  decidable_of_iff' _ (forall_occurrence word text)

instance (code before text : Text) : Decidable (Absent code before text) :=
  decidable_of_iff' _ (forall_occurrence code text)

/-! ## All entries in turn -/

section Entries

variable (hcodes : Codes isWord used) {coded : Entry → Bool} {ps : List Piece}
  (hcut : Cut isWord used [] ps)
include hcodes hcut

theorem foldl_replace_long {l : List Entry} (hl : ∀ e ∈ l, e ∈ used) (hnodup : l.Nodup)
    (hnot : ∀ e ∈ l, coded e = false) (hagrees : ∀ e ∈ l, Agrees isWord e.2 [] (plain ps)) :
    l.foldl (fun out e => replaceWholeWord out e.2 e.1) (flat coded ps) =
      flat (fun f => coded f || decide (f ∈ l)) ps := by
  induction l generalizing coded with
  | nil => simp
  | cons e l ih =>
    obtain ⟨he, hl'⟩ := List.forall_mem_cons.mp hl
    obtain ⟨hfresh, hnodup'⟩ := List.nodup_cons.mp hnodup
    obtain ⟨hnote, hnot'⟩ := List.forall_mem_cons.mp hnot
    obtain ⟨hagreese, hagrees'⟩ := List.forall_mem_cons.mp hagrees
    have hstep : replaceWholeWord (flat coded ps) e.2 e.1 =
        flat (fun f => coded f || decide (f = e)) ps := by
      rw [replaceWholeWord_eq (long_ne_nil hcodes he)]
      exact replace_long hcodes he hnote hcut hagreese ⟨rfl, .inl rfl⟩ fun _ => rfl
    have hstay : ∀ f ∈ l, (coded f || decide (f = e)) = false := by
      intro f hf
      have hfe : f ≠ e := fun heq => hfresh (heq ▸ hf)
      simp [hnot' f hf, hfe]
    rw [List.foldl_cons, hstep, ih hl' hnodup' hstay hagrees']
    congr 1
    funext f
    simp [Bool.or_assoc]

theorem foldl_replace_short {l : List Entry} (hl : ∀ e ∈ l, e ∈ used) (hnodup : l.Nodup)
    (hcoded : ∀ e ∈ l, coded e = true) (habsent : ∀ e ∈ l, Absent e.1 [] (plain ps)) :
    l.foldl (fun out e => replaceWholeWord out e.1 e.2) (flat coded ps) =
      flat (fun f => coded f && !decide (f ∈ l)) ps := by
  induction l generalizing coded with
  | nil => simp
  | cons e l ih =>
    obtain ⟨he, hl'⟩ := List.forall_mem_cons.mp hl
    obtain ⟨hfresh, hnodup'⟩ := List.nodup_cons.mp hnodup
    obtain ⟨hcodede, hcoded'⟩ := List.forall_mem_cons.mp hcoded
    obtain ⟨habsente, habsent'⟩ := List.forall_mem_cons.mp habsent
    have hne : e.1 ≠ [] := by
      obtain ⟨d, hshort, -⟩ := hcodes.short e he
      rw [hshort]
      exact List.cons_ne_nil _ _
    have hstep : replaceWholeWord (flat coded ps) e.1 e.2 =
        flat (fun f => coded f && !decide (f = e)) ps := by
      rw [replaceWholeWord_eq hne]
      exact replace_short hcodes he hcodede hcut habsente ⟨rfl, .inl rfl⟩ fun _ => rfl
    have hstay : ∀ f ∈ l, (coded f && !decide (f = e)) = true := by
      intro f hf
      have hfe : f ≠ e := fun heq => hfresh (heq ▸ hf)
      simp [hcoded' f hf, hfe]
    rw [List.foldl_cons, hstep, ih hl' hnodup' hstay habsent']
    congr 1
    funext f
    simp [Bool.and_assoc]

/-- Replacing the words by their codes and the codes by their words gives the text back. -/
theorem foldl_replace_back (hnodup : used.Nodup)
    (hagrees : ∀ e ∈ used, Agrees isWord e.2 [] (plain ps))
    (habsent : ∀ e ∈ used, Absent e.1 [] (plain ps)) :
    used.foldl (fun out e => replaceWholeWord out e.1 e.2)
      (used.foldl (fun out e => replaceWholeWord out e.2 e.1) (plain ps)) = plain ps := by
  have hall : ∀ e ∈ used, e ∈ used := fun _ he => he
  rw [foldl_replace_long hcodes hcut hall hnodup (fun _ _ => rfl) hagrees,
    foldl_replace_short hcodes hcut hall hnodup (fun e he => by simp [he]) habsent]
  congr 1
  funext f
  simp

end Entries

end LeanCtx.Terse
