import LeanCtx.CardText
import Mathlib.Data.List.Chain

/-!
# Which card numbers are masked

A card number between characters that belong to no word is masked exactly when
the pattern can match it and no candidate of the text takes a part of it without
being a card around it. A neighbouring group of digits, one space away, can make
such a candidate. Masking again changes nothing exactly when the texts between
the masked cards hold no card of their own.
-/

namespace LeanCtx.Pii

variable (env : Env)

/-! ## The shape of a candidate -/

/-- Digits with at most one separator between two of them, behind a character. -/
structure Body (last : Char) (s : Text) : Prop where
  chars : ∀ c ∈ s, env.isDigit c = true ∨ isSeparator c = true
  joined : (last :: s).IsChain fun x y => env.isDigit x = true ∨ env.isDigit y = true
  ends : env.isDigit (s.getLastD last) = true

/-- 13 to 19 digits with at most one separator between two of them. -/
structure CardShaped (s : Text) : Prop where
  chars : ∀ c ∈ s, env.isDigit c = true ∨ isSeparator c = true
  joined : s.IsChain fun x y => env.isDigit x = true ∨ env.isDigit y = true
  starts : ∀ c ∈ s.head?, env.isDigit c = true
  ends : ∀ c ∈ s.getLast?, env.isDigit c = true
  count : 13 ≤ s.countP env.isDigit ∧ s.countP env.isDigit ≤ 19

theorem isDigit_of_ascii {c : Char} (h : c.isDigit = true) : env.isDigit c = true := by
  rw [env.isDigit_ascii c, h]
  simp only [Char.isDigit, Bool.and_eq_true, decide_eq_true_eq, UInt32.le_iff_toNat_le] at h
  have hle : c.toNat ≤ 57 := h.2
  omega

theorem isDigit_separator {c : Char} (h : isSeparator c = true) : env.isDigit c = false := by
  simp only [isSeparator, Bool.or_eq_true, beq_iff_eq] at h
  rcases h with rfl | rfl
  · rw [env.isDigit_ascii _ (by decide)]
    decide
  · rw [env.isDigit_ascii _ (by decide)]
    decide

theorem isWord_of_digit {c : Char} (h : c.isDigit = true) : isWord c = true := by
  simp [isWord, Char.isAlphanum, h]

theorem digitStep_digit {c : Char} (rest : Text) (h : env.isDigit c = true) :
    digitStep env (c :: rest) = some ([], c, rest) := by
  cases rest <;> simp only [digitStep, h, if_true]

theorem digitStep_separator {c d : Char} (rest : Text) (hc : isSeparator c = true)
    (hd : env.isDigit d = true) : digitStep env (c :: d :: rest) = some ([c], d, rest) := by
  simp only [digitStep, isDigit_separator env hc, hc, hd, if_true, Bool.false_eq_true, if_false]

variable {env}

theorem Body.cons {last d : Char} {sep s : Text} (hlast : env.isDigit last = true)
    (hd : env.isDigit d = true) (hsep : sep = [] ∨ ∃ c, sep = [c] ∧ isSeparator c = true)
    (h : Body env d s) : Body env last (sep ++ d :: s) := by
  rcases hsep with rfl | ⟨c, rfl, hc⟩
  · refine ⟨?_, ?_, ?_⟩
    · intro x hx
      rcases List.mem_cons.mp hx with rfl | hx
      · exact .inl hd
      · exact h.chars x hx
    · exact List.isChain_cons_cons.mpr ⟨.inl hlast, h.joined⟩
    · rw [List.nil_append, List.getLastD_cons]
      exact h.ends
  · refine ⟨?_, ?_, ?_⟩
    · intro x hx
      rcases List.mem_cons.mp hx with rfl | hx
      · exact .inr hc
      · rcases List.mem_cons.mp hx with rfl | hx
        · exact .inl hd
        · exact h.chars x hx
    · exact List.isChain_cons_cons.mpr ⟨.inl hlast, List.isChain_cons_cons.mpr ⟨.inr hd, h.joined⟩⟩
    · rw [List.singleton_append, List.getLastD_cons, List.getLastD_cons]
      exact h.ends

theorem countP_step {d : Char} {sep : Text} (hd : env.isDigit d = true)
    (hsep : sep = [] ∨ ∃ c, sep = [c] ∧ isSeparator c = true) (s : Text) :
    (sep ++ d :: s).countP env.isDigit = s.countP env.isDigit + 1 := by
  rcases hsep with rfl | ⟨c, rfl, hc⟩
  · simp [hd]
  · simp [hd, isDigit_separator env hc]

theorem Body.nil {last : Char} (h : env.isDigit last = true) : Body env last [] :=
  ⟨by simp, List.IsChain.singleton _, h⟩

theorem repeats_sound {low high : ℕ} {last : Char} {rest m : Text}
    (hlast : env.isDigit last = true) (h : repeats env low high last rest = some m) :
    Body env last m ∧ low ≤ m.countP env.isDigit ∧ m.countP env.isDigit ≤ high := by
  have hstop : ∀ {low : ℕ} {last : Char} {rest m : Text} {high : ℕ}, env.isDigit last = true →
      (if low = 0 ∧ boundary (some last) rest.head? then some [] else none) = some m →
      Body env last m ∧ low ≤ m.countP env.isDigit ∧ m.countP env.isDigit ≤ high := by
    intro low last rest m high hlast h
    split_ifs at h with hcond
    cases h
    rw [hcond.1]
    exact ⟨Body.nil hlast, Nat.zero_le _, Nat.zero_le _⟩
  induction high generalizing low last rest m with
  | zero => exact hstop hlast h
  | succ high ih =>
    unfold repeats at h
    dsimp only at h
    split at h
    · rename_i sep d after hstep
      obtain ⟨-, hd, hsep⟩ := digitStep_eq_some env hstep
      rw [Option.or_eq_some_iff] at h
      rcases h with h | ⟨-, h⟩
      · obtain ⟨m', hm', rfl⟩ := Option.map_eq_some_iff.mp h
        obtain ⟨hbody, hlow, hhigh⟩ := ih hd hm'
        rw [countP_step hd hsep]
        exact ⟨hbody.cons hlast hd hsep, by omega, by omega⟩
      · exact hstop hlast h
    · exact hstop hlast h

theorem Body.eq_nil {last : Char} {s : Text} (h : Body env last s)
    (hcount : s.countP env.isDigit = 0) : s = [] := by
  cases s with
  | nil => rfl
  | cons c s =>
    have hends := h.ends
    rw [List.getLastD_cons] at hends
    have hmem : s.getLastD c ∈ c :: s := List.getLastD_mem_cons
    exact absurd hends (List.countP_eq_zero.mp hcount _ hmem)

theorem Body.tail {last c : Char} {s : Text} (h : Body env last (c :: s)) : Body env c s := by
  have hends := h.ends
  rw [List.getLastD_cons] at hends
  exact ⟨fun x hx => h.chars x (List.mem_cons_of_mem _ hx),
    (List.isChain_cons_cons.mp h.joined).2, hends⟩

/-- A body that is not empty begins with a step of the pattern. -/
theorem Body.step {last : Char} {s : Text} (h : Body env last s) (hs : s ≠ []) (after : Text) :
    ∃ sep d s', s = sep ++ d :: s' ∧ env.isDigit d = true ∧
      (sep = [] ∨ ∃ c, sep = [c] ∧ isSeparator c = true) ∧
      digitStep env (s ++ after) = some (sep, d, s' ++ after) ∧ Body env d s' := by
  cases s with
  | nil => exact absurd rfl hs
  | cons c s =>
    by_cases hc : env.isDigit c = true
    · exact ⟨[], c, s, rfl, hc, .inl rfl, digitStep_digit env _ hc, h.tail⟩
    · have hsep := (h.chars c List.mem_cons_self).resolve_left hc
      cases s with
      | nil =>
        have hends := h.ends
        rw [List.getLastD_cons] at hends
        exact absurd hends hc
      | cons d s =>
        have hd := (List.isChain_cons_cons.mp h.tail.joined).1.resolve_left hc
        exact ⟨[c], d, s, rfl, hd, .inr ⟨c, rfl, hsep⟩, digitStep_separator env _ hsep hd,
          h.tail.tail⟩

theorem repeats_complete {low high : ℕ} {last : Char} {s after : Text} (h : Body env last s)
    (hlow : low ≤ s.countP env.isDigit) (hhigh : s.countP env.isDigit ≤ high)
    (hend : boundary (some (s.getLastD last)) after.head? = true) :
    ∃ m, repeats env low high last (s ++ after) = some m ∧ s <+: m := by
  induction high generalizing low last s with
  | zero =>
    have hcount : s.countP env.isDigit = 0 := by omega
    rw [h.eq_nil hcount] at hlow hend ⊢
    rw [List.countP_nil] at hlow
    refine ⟨[], ?_, List.prefix_rfl⟩
    rw [List.nil_append, repeats, if_pos ⟨by omega, hend⟩]
  | succ high ih =>
    by_cases hs : s = []
    · subst hs
      rw [List.countP_nil] at hlow
      have hstop : low = 0 ∧ boundary (some last) after.head? = true := ⟨by omega, hend⟩
      rw [List.nil_append]
      unfold repeats
      dsimp only
      rw [if_pos hstop]
      split
      · rename_i sep d rest hstep
        cases repeats env (low - 1) high d rest with
        | none => exact ⟨[], rfl, List.prefix_rfl⟩
        | some m => exact ⟨sep ++ d :: m, rfl, List.nil_prefix⟩
      · exact ⟨[], rfl, List.prefix_rfl⟩
    · obtain ⟨sep, d, s', rfl, hd, hsep, hstep, hbody⟩ := h.step hs after
      rw [countP_step hd hsep] at hlow hhigh
      have hlast : (sep ++ d :: s').getLastD last = s'.getLastD d := by
        rcases hsep with rfl | ⟨c, rfl, -⟩
        · rw [List.nil_append, List.getLastD_cons]
        · rw [List.singleton_append, List.getLastD_cons, List.getLastD_cons]
      rw [hlast] at hend
      obtain ⟨m, hm, hprefix⟩ := ih hbody (by omega : low - 1 ≤ _) (by omega) hend
      refine ⟨sep ++ d :: m, ?_, ?_⟩
      · unfold repeats
        dsimp only
        rw [hstep]
        dsimp only
        rw [hm]
        rfl
      · rw [List.prefix_append_right_inj, List.cons_prefix_cons]
        exact ⟨rfl, hprefix⟩

theorem CardShaped.cons_iff {d : Char} {s : Text} (hd : env.isDigit d = true) :
    CardShaped env (d :: s) ↔
      Body env d s ∧ 12 ≤ s.countP env.isDigit ∧ s.countP env.isDigit ≤ 18 := by
  have hcount : (d :: s).countP env.isDigit = s.countP env.isDigit + 1 := by simp [hd]
  have hlast : (d :: s).getLast? = some (s.getLastD d) := by
    rw [List.getLast?_cons, List.getLastD_eq_getLast?]
  constructor
  · intro h
    have hbounds := h.count
    rw [hcount] at hbounds
    exact ⟨⟨fun x hx => h.chars x (List.mem_cons_of_mem _ hx), h.joined, h.ends _ hlast⟩,
      by omega, by omega⟩
  · rintro ⟨hbody, hlow, hhigh⟩
    refine ⟨?_, hbody.joined, ?_, ?_, by omega⟩
    · intro x hx
      rcases List.mem_cons.mp hx with rfl | hx
      · exact .inl hd
      · exact hbody.chars x hx
    · intro x hx
      cases hx
      exact hd
    · intro x hx
      rw [hlast] at hx
      cases hx
      exact hbody.ends

theorem cardShaped_of_find {behind ahead m : Text}
    (h : findCandidate env behind ahead = some m) : CardShaped env m := by
  obtain ⟨d, rest, m', -, rfl, hd, -, hm'⟩ := findCandidate_eq_some env h
  exact (CardShaped.cons_iff hd).mpr (repeats_sound hd hm')

/-- A text of the shape, between word boundaries, is the beginning of a match. -/
theorem findCandidate_of_cardShaped {behind c after : Text} (h : CardShaped env c)
    (hstart : boundary behind.head? c.head? = true)
    (hend : boundary c.getLast? after.head? = true) :
    ∃ m, findCandidate env behind (c ++ after) = some m ∧ c <+: m := by
  cases c with
  | nil => exact absurd h.count.1 (by simp)
  | cons d s =>
    have hd := h.starts d rfl
    obtain ⟨hbody, hlow, hhigh⟩ := (CardShaped.cons_iff hd).mp h
    rw [List.getLast?_cons, ← List.getLastD_eq_getLast?] at hend
    obtain ⟨m, hm, hprefix⟩ := repeats_complete hbody hlow hhigh hend
    refine ⟨d :: m, ?_, List.cons_prefix_cons.mpr ⟨rfl, hprefix⟩⟩
    have hboth : (env.isDigit d && boundary behind.head? (some d)) = true := by
      rw [hd]
      exact hstart
    rw [List.cons_append, findCandidate, if_pos hboth, hm]
    rfl

/-- A part of the shape that begins and ends in digits and has enough of them. -/
theorem CardShaped.part {m x c y : Text} (h : CardShaped env m) (hm : m = x ++ (c ++ y))
    (hstarts : ∀ d ∈ c.head?, env.isDigit d = true)
    (hends : ∀ d ∈ c.getLast?, env.isDigit d = true) (hcount : 13 ≤ c.countP env.isDigit) :
    CardShaped env c := by
  subst hm
  have hmost := h.count.2
  rw [List.countP_append, List.countP_append] at hmost
  refine ⟨?_, h.joined.infix ⟨x, y, by simp⟩, hstarts, hends, hcount, by omega⟩
  intro d hd
  exact h.chars d (List.mem_append_right _ (List.mem_append_left _ hd))

/-! ## Card numbers begin and end in digits -/

theorem groupsPlausible_ends {groups : List ℕ} (h : groupsPlausible groups = true) :
    groups.head? = some 4 ∧ ∃ last, groups.getLast? = some last ∧ 1 ≤ last := by
  simp only [groupsPlausible, Bool.or_eq_true, beq_iff_eq, Bool.and_eq_true, decide_eq_true_eq,
    Option.any_eq_true_iff_get] at h
  rcases h with (rfl | rfl) | ⟨⟨hlen, hfours⟩, hsome, hlast⟩
  · exact ⟨rfl, 4, rfl, by omega⟩
  · exact ⟨rfl, 5, rfl, by omega⟩
  · refine ⟨?_, _, (Option.some_get hsome).symm, hlast.1⟩
    cases groups with
    | nil => cases hsome
    | cons g groups =>
      cases groups with
      | nil => simp at hlen
      | cons g' groups =>
        have hfour := List.all_eq_true.mp hfours g List.mem_cons_self
        rw [beq_iff_eq] at hfour
        rw [hfour]
        rfl

/-- What is no digit in a plausible layout is its separator. -/
theorem layout_separator {s : Text} (h : cardLayoutPlausible s = true) :
    (∀ c ∈ s, c.isDigit = true) ∨ ∃ sep, (∀ c ∈ s, c.isDigit = true ∨ c = sep) ∧
      groupsPlausible ((s.splitOn sep).map List.length) = true := by
  unfold cardLayoutPlausible at h
  split at h
  · rename_i hfilter
    left
    intro c hc
    simpa using List.filter_eq_nil_iff.mp hfilter c hc
  · rename_i sep others hfilter
    rw [Bool.and_eq_true] at h
    right
    refine ⟨sep, ?_, h.2⟩
    intro c hc
    by_cases hdigit : c.isDigit = true
    · exact .inl hdigit
    · have hmem : c ∈ sep :: others := by
        rw [← hfilter]
        exact List.mem_filter.mpr ⟨hc, by simpa using hdigit⟩
      rcases List.mem_cons.mp hmem with hsep | hothers
      · exact .inr hsep
      · exact .inr (beq_iff_eq.mp (List.all_eq_true.mp h.1 c hothers))

theorem layout_ends {s : Text} (h : cardLayoutPlausible s = true) :
    (∀ c ∈ s.head?, c.isDigit = true) ∧ ∀ c ∈ s.getLast?, c.isDigit = true := by
  rcases layout_separator h with hall | ⟨sep, hchars, hgroups⟩
  · exact ⟨fun c hc => hall c (List.mem_of_mem_head? hc),
      fun c hc => hall c (List.mem_of_mem_getLast? hc)⟩
  · obtain ⟨hfirst, last, hlast, hpos⟩ := groupsPlausible_ends hgroups
    constructor
    · intro c hc
      refine (hchars c (List.mem_of_mem_head? hc)).resolve_right ?_
      rintro rfl
      obtain ⟨rest, hrest⟩ := List.head?_eq_some_iff.mp hc
      have hsplit : s.splitOn c = [[]] ++ rest.splitOn c := by
        rw [hrest]
        exact List.splitOn_append_cons_self [] rest
      rw [hsplit] at hfirst
      cases hfirst
    · intro c hc
      refine (hchars c (List.mem_of_mem_getLast? hc)).resolve_right ?_
      rintro rfl
      obtain ⟨front, hfront⟩ := List.getLast?_eq_some_iff.mp hc
      have hsplit : s.splitOn c = front.splitOn c ++ [[]] := by
        rw [hfront]
        exact List.splitOn_append_cons_self front []
      rw [hsplit, List.map_append, List.map_singleton, List.getLast?_concat] at hlast
      cases hlast
      exact absurd hpos (by decide)

theorem length_digits (s : Text) : (digits s).length = s.countP Char.isDigit := by
  induction s with
  | nil => rfl
  | cons c s ih =>
    rw [digits, List.filterMap_cons]
    by_cases hc : c.isDigit = true
    · rw [if_pos hc, List.countP_cons_of_pos hc, ← ih]
      rfl
    · rw [if_neg hc, List.countP_cons_of_neg hc, ← ih]
      rfl

variable (env) in
theorem countP_isDigit_le (s : Text) : s.countP Char.isDigit ≤ s.countP env.isDigit :=
  List.countP_mono_left fun _ _ hc => isDigit_of_ascii env hc

/-- What a valid card number is known to be. -/
structure CardEnds (c : Text) : Prop where
  starts : ∀ d ∈ c.head?, d.isDigit = true
  ends : ∀ d ∈ c.getLast?, d.isDigit = true
  count : 13 ≤ c.countP Char.isDigit

theorem CardEnds.of_valid {c : Text} (h : cardValid env c = true) : CardEnds c := by
  simp only [cardValid, Bool.and_eq_true] at h
  obtain ⟨⟨⟨hlayout, hluhn⟩, -⟩, -⟩ := h
  simp only [luhnValid, Bool.and_eq_true, decide_eq_true_eq] at hluhn
  rw [length_digits] at hluhn
  exact ⟨(layout_ends hlayout).1, (layout_ends hlayout).2, hluhn.1.1⟩

theorem CardEnds.ne_nil {c : Text} (h : CardEnds c) : c ≠ [] := by
  rintro rfl
  exact absurd h.count (by simp)

/-! ## Characters that end every candidate -/

/-- A character that neither a candidate nor a version stamp looks past. -/
structure Bar (env : Env) (z : Char) : Prop where
  digit : env.isDigit z = false
  word : isWord z = false
  separator : isSeparator z = false
  dot : z ≠ '.'

theorem boundary_some_of_bar {x : Option Char} {z : Char} (hz : isWord z = false) :
    boundary x (some z) = boundary x none ∧ boundary (some z) x = boundary none x := by
  simp [boundary, hz]

theorem Bar.digitStep_append {z : Char} (hz : Bar env z) (text y : Text) :
    digitStep env (text ++ z :: y) =
      (digitStep env text).map fun step => (step.1, step.2.1, step.2.2 ++ z :: y) := by
  match text with
  | [] => cases y <;> simp [digitStep, hz.digit, hz.separator]
  | [c] =>
    by_cases hc : env.isDigit c = true
    · simp [digitStep, hc]
    · by_cases hs : isSeparator c = true
      · simp [digitStep, hc, hs, hz.digit]
      · simp [digitStep, hc, hs]
  | c :: c' :: text =>
    simp only [List.cons_append, digitStep]
    split_ifs <;> simp

theorem Bar.boundary_append {z : Char} (hz : Bar env z) (x : Option Char) (text y : Text) :
    boundary x (text ++ z :: y).head? = boundary x text.head? := by
  cases text with
  | nil => exact (boundary_some_of_bar hz.word).1
  | cons c text => rfl

theorem Bar.repeats_append {z : Char} (hz : Bar env z) (y : Text) (low high : ℕ) (last : Char)
    (text : Text) : repeats env low high last (text ++ z :: y) = repeats env low high last text := by
  induction high generalizing low last text with
  | zero => rw [repeats, repeats, hz.boundary_append]
  | succ high ih =>
    unfold repeats
    dsimp only
    rw [hz.boundary_append, hz.digitStep_append]
    cases digitStep env text with
    | none => rfl
    | some step =>
      dsimp only [Option.map_some]
      rw [ih]

theorem Bar.glued_append {z : Char} (hz : Bar env z) (text y : Text) :
    glued (text ++ z :: y) = glued text := by
  have hz' : z ≠ '-' := by
    rintro rfl
    exact absurd hz.separator (by decide)
  have hword : z.isAlphanum = false := by
    have hboth := hz.word
    rw [isWord, Bool.or_eq_false_iff] at hboth
    exact hboth.1
  match text with
  | [] => cases y <;> simp [glued, hz', hz.dot]
  | [c] => simp [glued, hword]
  | c :: c' :: text => rfl

theorem Bar.cut {z : Char} (hz : Bar env z) : Scan.Cut (candidates env) (isCard env) z where
  find_ahead behind x y := by
    cases x with
    | nil =>
      have hnone : findCandidate env behind (z :: y) = none := by
        rw [findCandidate, hz.digit]
        rfl
      exact hnone
    | cons d x =>
      have hrepeats := hz.repeats_append y 12 18 d x
      have hfind : findCandidate env behind (d :: (x ++ z :: y)) =
          findCandidate env behind (d :: x) := by
        rw [findCandidate, findCandidate, hrepeats]
      exact hfind
  find_behind x w y := by
    cases y with
    | nil => rfl
    | cons d y =>
      have hstart : boundary (x ++ z :: w).head? (some d) = boundary x.head? (some d) := by
        cases x with
        | nil => exact (boundary_some_of_bar hz.word).2
        | cons c x => rfl
      have hfind : findCandidate env (x ++ z :: w) (d :: y) = findCandidate env x (d :: y) := by
        rw [findCandidate, findCandidate, hstart]
      exact hfind
  hide_ahead behind m x y := by
    rw [isCard, isCard, insideVersionToken, insideVersionToken, hz.glued_append]
  hide_behind x w m y := by
    rw [isCard, isCard, insideVersionToken, insideVersionToken, hz.glued_append]

variable (env) in
theorem bar_of_ascii {z : Char} (hlt : z.toNat < 128) (hdigit : z.isDigit = false)
    (hword : isWord z = false) (hsep : isSeparator z = false) (hdot : z ≠ '.') : Bar env z :=
  ⟨by rw [env.isDigit_ascii z hlt, hdigit], hword, hsep, hdot⟩

theorem untouched_of_few {behind text : Text} (h : text.countP env.isDigit < 13) :
    Scan.Untouched (candidates env) (isCard env) behind text := by
  intro f hf
  obtain ⟨front, -, htext, hfind⟩ := Scan.of_mem_scanFrom hf
  have hcount := (cardShaped_of_find hfind).count.1
  rw [htext, List.countP_append, List.countP_append] at h
  omega

variable (env) in
theorem marker_fenced : Scan.Fenced (candidates env) (isCard env) marker := by
  refine ⟨'[', "REDACTED:card".toList, ']', by decide,
    (bar_of_ascii env (by decide) (by decide) (by decide) (by decide) (by decide)).cut,
    (bar_of_ascii env (by decide) (by decide) (by decide) (by decide) (by decide)).cut, ?_⟩
  have hascii : ∀ c ∈ "REDACTED:card".toList, c.toNat < 128 ∧ c.isDigit = false :=
    @of_decide_eq_true _ (List.decidableBAll _ _) (by decide)
  have hcount : "REDACTED:card".toList.countP env.isDigit = 0 := by
    apply List.countP_eq_zero.mpr
    intro c hc
    rw [env.isDigit_ascii c (hascii c hc).1, (hascii c hc).2]
    exact Bool.false_ne_true
  exact (untouched_of_few (by omega)).rewrite

/-! ## Masked card numbers -/

section Masked

variable (env)

/-- A place between which and a card number no word, number or token goes on. -/
def Clean (x : Option Char) : Prop := ∀ c ∈ x, isWord c = false ∧ c ≠ '-' ∧ c ≠ '.'

instance : (x : Option Char) → Decidable (Clean x)
  | none => isTrue fun _ hc => nomatch hc
  | some c => decidable_of_iff (isWord c = false ∧ c ≠ '-' ∧ c ≠ '.') (by simp [Clean])

/-- The match reaches over the whole of `c` behind `a`. -/
def Covers (a c : Text) (f : Scan.Found Char) : Prop :=
  f.start ≤ a.length ∧ a.length + c.length ≤ f.stop

/-- The match has a character of `c` behind `a`. -/
def Overlaps (a c : Text) (f : Scan.Found Char) : Prop :=
  f.start < a.length + c.length ∧ a.length < f.stop

def printed (parts : List (Scan.Piece Char)) : Text :=
  parts.flatMap (Scan.Piece.printed (isCard env) marker)

/-- One match takes in the whole of `c`, and the output has a marker where it was. -/
def Masked (a c b : Text) : Prop :=
  ∃ front f back, pieces env (a ++ c ++ b) = front ++ .found f :: back ∧ Covers a c f ∧
    (redactChecksummed env (a ++ c ++ b)).1 = printed env front ++ marker ++ printed env back

/-- The card number is masked, and redacting the output changes nothing. -/
def Screened (a c b : Text) : Prop :=
  Masked env a c b ∧
    (redactChecksummed env (redactChecksummed env (a ++ c ++ b)).1).1 =
      (redactChecksummed env (a ++ c ++ b)).1

/-- The pattern can match `c`, no candidate of the text takes a part of it without being a card
around it, and the texts between the cards hold no card when they are read on their own. -/
structure Clear (a c b : Text) : Prop where
  shaped : CardShaped env c
  alone : ∀ f, .found f ∈ pieces env (a ++ c ++ b) → Overlaps a c f →
    Covers a c f ∧ cardValid env f.text = true
  settled : ∀ g ∈ Scan.gaps (isCard env) (pieces env (a ++ c ++ b)), ∀ f,
    .found f ∈ pieces env g → isCard env f = false

theorem redactChecksummed_fst (text : Text) :
    (redactChecksummed env text).1 =
      Scan.rewriteFrom (candidates env) (isCard env) marker [] text := by
  rw [redactChecksummed]
  split_ifs with h
  · rfl
  · have hnone : Scan.Untouched (candidates env) (isCard env) [] text := by
      intro f hf
      refine absurd ?_ h
      exact List.any_eq_true.mpr ⟨_, hf, rfl⟩
    exact hnone.rewrite.symm

theorem redact_idem_iff (text : Text) :
    (redactChecksummed env (redactChecksummed env text).1).1 = (redactChecksummed env text).1 ↔
      ∀ g ∈ Scan.gaps (isCard env) (pieces env text), ∀ f, .found f ∈ pieces env g →
        isCard env f = false := by
  rw [redactChecksummed_fst, redactChecksummed_fst]
  refine Scan.rewrite_idem_iff (marker_fenced env) (by decide : marker.countP Char.isDigit = 0)
    ?_ text
  intro f hf
  rw [isCard, Bool.and_eq_true] at hf
  have hcount := (CardEnds.of_valid hf.1).count
  omega

variable {env}

/-- A covering match, and what of the text before and after the card number it takes. -/
theorem Covers.split {a c b : Text} {f : Scan.Found Char} {front : Text}
    (h : Covers a c f) (hfront : f.start = front.length)
    (htext : a ++ c ++ b = front ++ (f.text ++ f.ahead)) :
    ∃ x y, f.text = x ++ (c ++ y) ∧ a = front ++ x ∧ b = y ++ f.ahead := by
  obtain ⟨hstart, hstop⟩ := h
  rw [Scan.Found.stop, hfront] at hstop
  rw [hfront] at hstart
  obtain ⟨x, rfl⟩ : front <+: a := List.prefix_of_prefix_length_le ⟨_, htext.symm⟩
    ⟨c ++ b, (List.append_assoc _ _ _).symm⟩ hstart
  rw [List.append_assoc, List.append_assoc, List.append_cancel_left_eq, ← List.append_assoc] at htext
  rw [List.length_append] at hstop
  obtain ⟨y, hy⟩ : x ++ c <+: f.text := List.prefix_of_prefix_length_le ⟨_, htext⟩
    (List.prefix_append _ _) (by rw [List.length_append]; omega)
  simp only [← hy, List.append_assoc, List.append_cancel_left_eq] at htext
  exact ⟨x, y, by rw [← hy, List.append_assoc], rfl, htext⟩

/-- A match of the pieces of a text, with the text before it. -/
theorem of_mem_pieces {text : Text} {f : Scan.Found Char} (h : .found f ∈ pieces env text) :
    ∃ front, f.behind = front.reverse ∧ text = front ++ (f.text ++ f.ahead) ∧
      findCandidate env f.behind (f.text ++ f.ahead) = some f.text := by
  obtain ⟨front, hbehind, htext, hfind⟩ := Scan.of_mem_scanFrom h
  rw [List.append_nil] at hbehind
  exact ⟨front, hbehind, htext, hfind⟩

/-- Between clean places a match around a card number is no version stamp. -/
theorem not_insideVersionToken {a c b : Text} {f : Scan.Found Char}
    (ha : Clean a.getLast?) (hf : .found f ∈ pieces env (a ++ c ++ b)) (hcovers : Covers a c f) :
    insideVersionToken f = false := by
  obtain ⟨front, hbehind, htext, -⟩ := of_mem_pieces hf
  have hstart : f.start = front.length := by
    rw [Scan.Found.start, hbehind, List.length_reverse]
  obtain ⟨x, y, hm, hax, -⟩ := hcovers.split hstart htext
  rw [insideVersionToken, Bool.and_eq_false_iff, Bool.and_eq_false_iff]
  by_cases hx : x = []
  · left
    right
    rw [hbehind, ← List.append_nil front, ← hx, ← hax]
    cases hlast : a.reverse with
    | nil => rfl
    | cons last rest =>
      have hclean := ha last (by rw [← List.head?_reverse, hlast]; rfl)
      cases rest with
      | nil => rfl
      | cons c' rest => simp [glued, hclean.2.1, hclean.2.2]
  · left
    left
    by_contra hstamp
    rw [Bool.not_eq_false] at hstamp
    simp only [isPseudoVersionStamp, Bool.and_eq_true] at hstamp
    have hall := hstamp.1.1.1.1.1.1.2
    have hmem : x.getLast hx ∈ f.text := by
      rw [hm]
      exact List.mem_append_left _ (List.getLast_mem hx)
    have hlast : a.getLast? = some (x.getLast hx) := by
      rw [hax, List.getLast?_append_of_ne_nil _ hx, List.getLast?_eq_some_getLast hx]
    have hdigit := List.all_eq_true.mp hall _ hmem
    exact absurd (isWord_of_digit hdigit) (by rw [(ha _ hlast).1]; decide)

theorem masked_iff_exists {a c b : Text} :
    Masked env a c b ↔
      ∃ f, .found f ∈ pieces env (a ++ c ++ b) ∧ Covers a c f ∧ isCard env f = true := by
  constructor
  · rintro ⟨front, f, back, hpieces, hcovers, hout⟩
    refine ⟨f, by rw [hpieces]; simp, hcovers, ?_⟩
    by_contra hcard
    have hprinted : (redactChecksummed env (a ++ c ++ b)).1 =
        printed env front ++ f.text ++ printed env back := by
      have hscan : Scan.scanFrom (candidates env) [] 0 (a ++ c ++ b) =
        front ++ .found f :: back := hpieces
      rw [redactChecksummed_fst, Scan.rewriteFrom, hscan, List.flatMap_append, List.flatMap_cons,
        Scan.Piece.printed, if_neg hcard, ← List.append_assoc]
      rfl
    rw [hprinted, List.append_cancel_right_eq, List.append_cancel_left_eq] at hout
    obtain ⟨-, -, -, hfind⟩ := of_mem_pieces (by rw [hpieces]; simp : .found f ∈ pieces env _)
    have hbracket := (cardShaped_of_find hfind).starts '[' (by rw [hout]; rfl)
    rw [env.isDigit_ascii _ (by decide)] at hbracket
    exact absurd hbracket (by decide)
  · rintro ⟨f, hf, hcovers, hcard⟩
    obtain ⟨front, back, hpieces⟩ := List.append_of_mem hf
    refine ⟨front, f, back, hpieces, hcovers, ?_⟩
    have hscan : Scan.scanFrom (candidates env) [] 0 (a ++ c ++ b) =
      front ++ .found f :: back := hpieces
    rw [redactChecksummed_fst, Scan.rewriteFrom, hscan, List.flatMap_append, List.flatMap_cons,
      Scan.Piece.printed, if_pos hcard, ← List.append_assoc]
    rfl

/-- Where a number of the shape stands between clean places, the pattern finds something. -/
theorem find_at_card {a c b : Text} (hc : CardEnds c) (hshape : CardShaped env c)
    (ha : Clean a.getLast?) (hb : Clean b.head?) :
    ∃ m, findCandidate env a.reverse (c ++ b) = some m ∧ c <+: m := by
  have hword : ∀ {x : Option Char}, Clean x → x.any isWord = false := by
    intro x hx
    cases x with
    | none => rfl
    | some d => exact (hx d rfl).1
  apply findCandidate_of_cardShaped hshape
  · obtain ⟨d, hd⟩ := Option.ne_none_iff_exists'.mp (List.head?_eq_none_iff.not.mpr hc.ne_nil)
    rw [boundary, List.head?_reverse, hword ha, hd, Option.any_some,
      isWord_of_digit (hc.starts d hd)]
    rfl
  · obtain ⟨d, hd⟩ := Option.ne_none_iff_exists'.mp (List.getLast?_eq_none_iff.not.mpr hc.ne_nil)
    rw [boundary, hword hb, hd, Option.any_some, isWord_of_digit (hc.ends d hd)]
    rfl

theorem exists_overlapping {a c b : Text} (hc : CardEnds c) (hshape : CardShaped env c)
    (ha : Clean a.getLast?) (hb : Clean b.head?) :
    ∃ f, .found f ∈ pieces env (a ++ c ++ b) ∧ f.start ≤ a.length ∧ a.length < f.stop := by
  obtain ⟨m, hm, -⟩ := find_at_card hc hshape ha hb
  have hfind : (candidates env).find (a.reverse ++ []) (c ++ b) = some m := by
    rw [List.append_nil]
    exact hm
  obtain ⟨f, hf, hstart, hstop⟩ := Scan.exists_covering hfind
  rw [List.append_nil, List.length_reverse] at hstart hstop
  rw [List.append_assoc]
  exact ⟨f, hf, hstart, hstop⟩

theorem Clear.masked {a c b : Text} (h : Clear env a c b) (hc : CardEnds c)
    (ha : Clean a.getLast?) (hb : Clean b.head?) : Masked env a c b := by
  obtain ⟨f, hf, hstart, hstop⟩ := exists_overlapping hc h.shaped ha hb
  have hlen := List.length_pos_iff.mpr hc.ne_nil
  obtain ⟨hcovers, hvalid⟩ := h.alone f hf ⟨by omega, hstop⟩
  refine masked_iff_exists.mpr ⟨f, hf, hcovers, ?_⟩
  rw [isCard, hvalid, not_insideVersionToken ha hf hcovers]
  rfl

theorem Masked.shaped {a c b : Text} (h : Masked env a c b) (hc : CardEnds c) :
    CardShaped env c := by
  obtain ⟨f, hf, hcovers, -⟩ := masked_iff_exists.mp h
  obtain ⟨front, hbehind, htext, hfind⟩ := of_mem_pieces hf
  have hstart : f.start = front.length := by
    rw [Scan.Found.start, hbehind, List.length_reverse]
  obtain ⟨x, y, hm, -, -⟩ := hcovers.split hstart htext
  have hcount := countP_isDigit_le env c
  refine (cardShaped_of_find hfind).part hm ?_ ?_ (by have := hc.count; omega)
  · exact fun d hd => isDigit_of_ascii env (hc.starts d hd)
  · exact fun d hd => isDigit_of_ascii env (hc.ends d hd)

theorem Masked.alone {a c b : Text} (h : Masked env a c b) {g : Scan.Found Char}
    (hg : .found g ∈ pieces env (a ++ c ++ b)) (hover : Overlaps a c g) :
    Covers a c g ∧ cardValid env g.text = true := by
  obtain ⟨f, hf, hcovers, hcard⟩ := masked_iff_exists.mp h
  have hsame : g = f := by
    obtain ⟨hstart, hstop⟩ := hcovers
    obtain ⟨hgstart, hgstop⟩ := hover
    exact Scan.eq_of_overlap hg hf (by omega) (by omega)
  rw [isCard, Bool.and_eq_true] at hcard
  exact hsame ▸ ⟨hcovers, hcard.1⟩

variable (env) in
/-- For every valid card number between clean places: it is masked for good exactly when the
pattern can match it, no candidate takes a part of it without being a card around it, and the
texts between the cards hold none of their own. -/
theorem screened_iff_clear {a c b : Text} (hvalid : cardValid env c = true)
    (ha : Clean a.getLast?) (hb : Clean b.head?) : Screened env a c b ↔ Clear env a c b := by
  have hc := CardEnds.of_valid hvalid
  constructor
  · rintro ⟨hmasked, hidem⟩
    exact ⟨hmasked.shaped hc, fun g hg hover => hmasked.alone hg hover,
      (redact_idem_iff env _).mp hidem⟩
  · intro h
    exact ⟨h.masked hc ha hb, (redact_idem_iff env _).mpr h.settled⟩

/-! ### Card numbers apart from other digits -/

variable (env) in
/-- No digit stands right before, or before one space. -/
def ApartLeft (a : Text) : Prop :=
  ∀ front d, a = front ++ [d] ∨ a = front ++ [d, ' '] → env.isDigit d = false

variable (env) in
def ApartRight (b : Text) : Prop :=
  ∀ d rest, b = d :: rest ∨ b = ' ' :: d :: rest → env.isDigit d = false

theorem eq_space {c : Char} (h : isSeparator c = true) (hc : c ≠ '-') : c = ' ' := by
  simp only [isSeparator, Bool.or_eq_true, beq_iff_eq] at h
  exact h.resolve_right hc

theorem isDigit_space : env.isDigit ' ' = false := isDigit_separator env rfl

/-- No shape begins before the place and goes on behind it. -/
theorem CardShaped.not_across_left {a front x y : Text} (h : CardShaped env (x ++ y))
    (hax : a = front ++ x) (hx : x ≠ []) (ha : Clean a.getLast?) (hapart : ApartLeft env a) :
    False := by
  obtain ⟨x', l, rfl⟩ := List.eq_nil_or_concat' x |>.resolve_left hx
  have hclean := ha l (by rw [hax, ← List.append_assoc, List.getLast?_concat]; rfl)
  have hl := h.chars l (by simp)
  rcases hl with hl | hl
  · have hnone := hapart (front ++ x') l (.inl (by rw [hax, List.append_assoc]))
    exact Bool.false_ne_true (hnone.symm.trans hl)
  · obtain rfl := eq_space hl hclean.2.1
    rcases List.eq_nil_or_concat' x' with rfl | ⟨x'', d, rfl⟩
    · have hfirst := h.starts ' ' rfl
      exact Bool.false_ne_true (isDigit_space.symm.trans hfirst)
    · have hnone := hapart (front ++ x'') d (.inr (by rw [hax]; simp))
      have hchain : [d, ' '].IsChain fun x y => env.isDigit x = true ∨ env.isDigit y = true :=
        h.joined.infix ⟨x'', y, by simp⟩
      rcases (List.isChain_cons_cons.mp hchain).1 with hd | hd
      · exact Bool.false_ne_true (hnone.symm.trans hd)
      · exact Bool.false_ne_true (isDigit_space.symm.trans hd)

theorem CardShaped.not_across_right {b c w after : Text} (h : CardShaped env (c ++ w))
    (hbw : b = w ++ after) (hb : Clean b.head?) (hapart : ApartRight env b) : w = [] := by
  cases w with
  | nil => rfl
  | cons e w =>
    have hclean := hb e (by rw [hbw]; rfl)
    have he := h.chars e (by simp)
    rcases he with he | he
    · have hnone := hapart e (w ++ after) (.inl hbw)
      exact absurd (hnone.symm.trans he) Bool.false_ne_true
    · obtain rfl := eq_space he hclean.2.1
      cases w with
      | nil =>
        have hlast := h.ends ' ' (by rw [List.getLast?_concat]; rfl)
        exact absurd (isDigit_space.symm.trans hlast) Bool.false_ne_true
      | cons d w =>
        have hnone := hapart d (w ++ after) (.inr hbw)
        have hchain : [' ', d].IsChain fun x y => env.isDigit x = true ∨ env.isDigit y = true :=
          h.joined.infix ⟨c, w, by simp⟩
        rcases (List.isChain_cons_cons.mp hchain).1 with hd | hd
        · exact absurd (isDigit_space.symm.trans hd) Bool.false_ne_true
        · exact absurd (hnone.symm.trans hd) Bool.false_ne_true

/-- A match that reaches the card number begins no earlier than it. -/
theorem le_start_of_apart {a c b : Text} {f : Scan.Found Char}
    (hf : .found f ∈ pieces env (a ++ c ++ b)) (hstop : a.length < f.stop)
    (ha : Clean a.getLast?) (hapart : ApartLeft env a) : a.length ≤ f.start := by
  obtain ⟨front, hbehind, htext, hfind⟩ := of_mem_pieces hf
  have hstart : f.start = front.length := by
    rw [Scan.Found.start, hbehind, List.length_reverse]
  by_contra hlt
  rw [hstart] at hlt
  obtain ⟨x, hx⟩ : front <+: a := List.prefix_of_prefix_length_le ⟨_, htext.symm⟩
    ⟨c ++ b, (List.append_assoc _ _ _).symm⟩ (by omega)
  have hxne : x ≠ [] := by
    rintro rfl
    rw [List.append_nil] at hx
    exact hlt (by rw [hx])
  rw [← hx, List.append_assoc, List.append_assoc, List.append_cancel_left_eq] at htext
  rw [← hx, List.length_append, Scan.Found.stop, hstart] at hstop
  obtain ⟨y, hy⟩ : x <+: f.text := List.prefix_of_prefix_length_le ⟨_, htext⟩
    (List.prefix_append _ _) (by omega)
  have hshape := cardShaped_of_find hfind
  rw [← hy] at hshape
  exact hshape.not_across_left hx.symm hxne ha hapart

theorem text_eq_of_apart {a c b : Text} (hc : CardEnds c) (hshape : CardShaped env c)
    (ha : Clean a.getLast?) (hb : Clean b.head?) (haleft : ApartLeft env a)
    (hbright : ApartRight env b) {f : Scan.Found Char}
    (hf : .found f ∈ pieces env (a ++ c ++ b)) (hover : Overlaps a c f) :
    f.start = a.length ∧ f.text = c := by
  obtain ⟨g, hg, hgstart, hgstop⟩ := exists_overlapping hc hshape ha hb
  have hge := le_start_of_apart hg hgstop ha haleft
  obtain ⟨m, hm, w, hw⟩ := find_at_card hc hshape ha hb
  obtain ⟨front, hbehind, htext, hfind⟩ := of_mem_pieces hg
  have hfront : front = a := by
    have hlen : front.length = a.length := by
      rw [Scan.Found.start, hbehind, List.length_reverse] at hgstart hge
      omega
    rw [List.append_assoc] at htext
    exact ((List.append_inj htext.symm hlen).1)
  rw [hfront, List.append_assoc, List.append_cancel_left_eq] at htext
  rw [hbehind, hfront, ← htext, hm, Option.some.injEq] at hfind
  rw [← hfind, ← hw, List.append_assoc, List.append_cancel_left_eq] at htext
  have hgshape := cardShaped_of_find hm
  rw [← hw] at hgshape
  have hwnil := hgshape.not_across_right htext hb hbright
  have hgtext : g.text = c := by rw [← hfind, ← hw, hwnil, List.append_nil]
  have hfg : f = g := by
    apply Scan.eq_of_overlap hf hg
    · have hlt := hover.1
      rw [Scan.Found.stop, hgtext]
      omega
    · have hlt := hover.2
      omega
  rw [hfg]
  exact ⟨by omega, hgtext⟩

variable (env) in
/-- A card number the pattern can match is masked wherever no digit stands next to it or one
space away from it. -/
theorem masked_of_apart {a c b : Text} (hvalid : cardValid env c = true)
    (hshape : CardShaped env c) (ha : Clean a.getLast?) (hb : Clean b.head?)
    (haleft : ApartLeft env a) (hbright : ApartRight env b) : Masked env a c b := by
  have hc := CardEnds.of_valid hvalid
  obtain ⟨f, hf, hstart, hstop⟩ := exists_overlapping hc hshape ha hb
  have hlen := List.length_pos_iff.mpr hc.ne_nil
  obtain ⟨heq, htext⟩ := text_eq_of_apart hc hshape ha hb haleft hbright hf ⟨by omega, hstop⟩
  have hcovers : Covers a c f := ⟨hstart, by rw [Scan.Found.stop, heq, htext]⟩
  refine masked_iff_exists.mpr ⟨f, hf, hcovers, ?_⟩
  rw [isCard, htext, hvalid, not_insideVersionToken ha hf hcovers]
  rfl

end Masked

/-! ## Cards that stay readable -/

def isLeapYear (year : ℕ) : Bool := year % 4 == 0 && (year % 100 != 0 || year % 400 == 0)

def daysInMonth (year month : ℕ) : ℕ :=
  if month = 2 then if isLeapYear year then 29 else 28
  else if month = 4 ∨ month = 6 ∨ month = 9 ∨ month = 11 then 30 else 31

/-- The year of fourteen digits that are a date and a time of day. -/
def calendarYear (s : Text) : Option ℕ :=
  let year := number (s.take 4)
  let month := number ((s.drop 4).take 2)
  let day := number ((s.drop 6).take 2)
  if (1 ≤ month ∧ month ≤ 12) ∧ (1 ≤ day ∧ day ≤ daysInMonth year month) ∧
      number ((s.drop 8).take 2) < 24 ∧ number ((s.drop 10).take 2) < 60 ∧
      number ((s.drop 12).take 2) ≤ 60 then some year
  else none

/-- A detector that knows the digits of ASCII and the calendar. -/
def asciiEnv : Env where
  isDigit := Char.isDigit
  isDigit_ascii _ _ := rfl
  stampYear := calendarYear

def visa : Text := "4111111111111111".toList

theorem screened_iff_clear_visa :
    Screened asciiEnv "pay ".toList visa " now".toList ↔
      Clear asciiEnv "pay ".toList visa " now".toList :=
  screened_iff_clear asciiEnv (by decide +kernel) (by decide +kernel) (by decide +kernel)

theorem Masked.marker_mem {env : Env} {a c b : Text} (h : Masked env a c b) :
    '[' ∈ (redactChecksummed env (a ++ c ++ b)).1 := by
  obtain ⟨front, f, back, -, -, hout⟩ := h
  rw [hout]
  exact List.mem_append_left _ (List.mem_append_right _ (by decide))

/-- A quantity before the number hides it from the detector; and a stamp that was left alone next
to a card is replaced when the output is redacted again. -/
theorem card_stays_readable :
    (cardValid asciiEnv visa = true ∧ Clean ("2 ".toList).getLast? ∧ Clean ("".toList).head? ∧
        ¬ Screened asciiEnv "2 ".toList visa "".toList ∧
        (redactChecksummed asciiEnv ("2 ".toList ++ visa ++ "".toList)).1 =
          "2 4111111111111111".toList) ∧
      (Clean (" 4111111111111111-20260231045200-abc".toList).head? ∧
        ¬ Screened asciiEnv [] visa " 4111111111111111-20260231045200-abc".toList) := by
  have hquantity : (redactChecksummed asciiEnv ("2 ".toList ++ visa ++ "".toList)).1 =
      "2 4111111111111111".toList := by
    decide +kernel
  refine ⟨⟨by decide +kernel, by decide +kernel, by decide +kernel, ?_, hquantity⟩,
    by decide +kernel, ?_⟩
  · intro h
    have hmem := h.1.marker_mem
    rw [hquantity] at hmem
    exact absurd hmem (by decide)
  · intro h
    exact absurd h.2 (by decide +kernel)

end LeanCtx.Pii
