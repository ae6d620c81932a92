import LeanCtx.WordReplace

/-!
# Texts with words marked by codes

A text is cut into separators, words that stay, and places that can be written
with a word or with its code. Where the replacement and the cut agree on what a
word is, replacing a word by its code turns its places into codes, and
replacing the code by the word turns them back.
-/

namespace LeanCtx.Terse

/-- A code and the word it stands for. -/
abbrev Entry := Text × Text

inductive Piece
  | separator (c : Char)
  | word (w : Text)
  | place (e : Entry)
  deriving DecidableEq

/-- The text with some entries written as codes. -/
def flat (coded : Entry → Bool) : List Piece → Text
  | [] => []
  | .separator c :: ps => c :: flat coded ps
  | .word w :: ps => w ++ flat coded ps
  | .place e :: ps => (if coded e then e.1 else e.2) ++ flat coded ps

/-- The text with words alone. -/
abbrev plain (ps : List Piece) : Text := flat (fun _ => false) ps

/-! ## What the replacement looks at -/

def slashTail (before : Text) : Bool :=
  (before.rtakeWhile fun c => !isAsciiWhitespace c).any isSlash

def slashHead (after : Text) : Bool := (after.takeWhile fun c => !isAsciiWhitespace c).any isSlash

theorem isReplaced_eq_true {before found after : Text} :
    isReplaced before found after = true ↔
      before.getLast?.all isWordBoundary = true ∧ after.head?.all isWordBoundary = true ∧
        slashTail before = false ∧ found.any isSlash = false ∧ slashHead after = false := by
  simp only [isReplaced, isInsidePath, slashTail, slashHead, List.any_append, Bool.and_eq_true,
    Bool.not_eq_true', Bool.or_eq_false_iff, and_assoc]

/-- Neither blank nor a slash. -/
def Quiet (s : Text) : Prop := ∀ c ∈ s, isAsciiWhitespace c = false ∧ isSlash c = false

theorem Quiet.any_isSlash {s : Text} (h : Quiet s) : s.any isSlash = false :=
  List.any_eq_false.mpr fun c hc => by rw [(h c hc).2]; exact Bool.false_ne_true

theorem slashHead_cons (c : Char) (after : Text) :
    slashHead (c :: after) = (!isAsciiWhitespace c && (isSlash c || slashHead after)) := by
  rw [slashHead, List.takeWhile_cons]
  cases isAsciiWhitespace c with
  | true => rfl
  | false => rfl

theorem slashHead_quiet {s : Text} (h : Quiet s) (after : Text) :
    slashHead (s ++ after) = slashHead after := by
  induction s with
  | nil => rfl
  | cons c s ih =>
    obtain ⟨⟨hblank, hslash⟩, hs⟩ := List.forall_mem_cons.mp h
    rw [List.cons_append, slashHead_cons, hblank, hslash, ih hs]
    rfl

theorem slashTail_concat (before : Text) (c : Char) :
    slashTail (before ++ [c]) = (!isAsciiWhitespace c && (slashTail before || isSlash c)) := by
  rw [slashTail, List.rtakeWhile_concat]
  cases isAsciiWhitespace c with
  | true => rfl
  | false =>
    rw [Bool.not_false, if_pos rfl, List.any_append, slashTail]
    simp

theorem slashTail_quiet {s : Text} (h : Quiet s) (before : Text) :
    slashTail (before ++ s) = slashTail before := by
  induction s generalizing before with
  | nil => rw [List.append_nil]
  | cons c s ih =>
    obtain ⟨⟨hblank, hslash⟩, hs⟩ := List.forall_mem_cons.mp h
    rw [← List.singleton_append, ← List.append_assoc, ih hs, slashTail_concat, hblank, hslash]
    simp

/-! ## Cut texts -/

/-- What is asked of words and codes. -/
structure Codes (isWord : Char → Bool) (used : List Entry) : Prop where
  quiet : ∀ c, isWord c = true → isAsciiWhitespace c = false ∧ isSlash c = false
  at_sign : isWord '@' = false
  letter : isWord 'D' = true
  digit : ∀ d, Char.isDigit d = true → isWord d = true
  short : ∀ e ∈ used, ∃ d, e.1 = ['@', 'D', d] ∧ Char.isDigit d = true
  long : ∀ e ∈ used, 3 ≤ e.2.length ∧ ∀ c ∈ e.2, isWord c = true
  short_inj : ∀ e ∈ used, ∀ f ∈ used, e.1 = f.1 → e = f
  long_inj : ∀ e ∈ used, ∀ f ∈ used, e.2 = f.2 → e = f

def startsWithSeparator : List Piece → Prop
  | [] => True
  | .separator _ :: _ => True
  | _ => False

variable {isWord : Char → Bool} {used : List Entry}

/-- The cut of a text: runs of word characters between separators, and a run is a place exactly
when it is a used word that is replaced where it stands. -/
def Cut (isWord : Char → Bool) (used : List Entry) : Text → List Piece → Prop
  | _, [] => True
  | before, .separator c :: ps => isWord c = false ∧ Cut isWord used (before ++ [c]) ps
  | before, .word w :: ps =>
    (w ≠ [] ∧ ∀ c ∈ w, isWord c = true) ∧ startsWithSeparator ps ∧
      (∀ e ∈ used, w = e.2 → isReplaced before w (plain ps) = false) ∧
      Cut isWord used (before ++ w) ps
  | before, .place e :: ps =>
    e ∈ used ∧ startsWithSeparator ps ∧ isReplaced before e.2 (plain ps) = true ∧
      Cut isWord used (before ++ e.2) ps

namespace Codes

variable (hcodes : Codes isWord used)
include hcodes

theorem quiet_long {e : Entry} (he : e ∈ used) : Quiet e.2 := fun c hc =>
  hcodes.quiet c ((hcodes.long e he).2 c hc)

theorem quiet_short {e : Entry} (he : e ∈ used) : Quiet e.1 := by
  obtain ⟨d, hshort, hd⟩ := hcodes.short e he
  rw [hshort]
  intro c hc
  obtain rfl | rfl | rfl : c = '@' ∨ c = 'D' ∨ c = d := by simpa using hc
  · decide
  · decide
  · exact hcodes.quiet c (hcodes.digit c hd)

theorem quiet_written {e : Entry} (he : e ∈ used) (coded : Bool) :
    Quiet (if coded then e.1 else e.2) := by
  cases coded with
  | true => exact hcodes.quiet_short he
  | false => exact hcodes.quiet_long he

theorem slashHead_flat {before : Text} {ps : List Piece} (hcut : Cut isWord used before ps)
    (coded : Entry → Bool) : slashHead (flat coded ps) = slashHead (plain ps) := by
  induction ps generalizing before with
  | nil => rfl
  | cons p ps ih =>
    cases p with
    | separator c => rw [flat, plain, flat, slashHead_cons, slashHead_cons, ih hcut.2]
    | word w =>
      obtain ⟨⟨-, hw⟩, -, -, hps⟩ := hcut
      have hquiet : Quiet w := fun c hc => hcodes.quiet c (hw c hc)
      rw [flat, plain, flat, slashHead_quiet hquiet, slashHead_quiet hquiet, ih hps]
    | place e =>
      obtain ⟨he, -, -, hps⟩ := hcut
      rw [flat, plain, flat, slashHead_quiet (hcodes.quiet_written he _),
        slashHead_quiet (hcodes.quiet_written he _), ih hps]

end Codes

theorem head_flat {ps : List Piece} (h : startsWithSeparator ps) (coded : Entry → Bool) :
    (flat coded ps).head? = (plain ps).head? := by
  cases ps with
  | nil => rfl
  | cons p ps =>
    cases p with
    | separator c => rfl
    | word w => exact h.elim
    | place e => exact h.elim

theorem endsWord_flat {before : Text} {ps : List Piece} (hcut : Cut isWord used before ps)
    (h : startsWithSeparator ps) (coded : Entry → Bool) :
    EndsWord isWord (flat coded ps).head? := by
  intro d hd
  cases ps with
  | nil => cases hd
  | cons p ps =>
    cases p with
    | separator c =>
      cases hd
      exact hcut.1
    | word w => exact h.elim
    | place e => exact h.elim

/-! ## Marking and unmarking -/

/-- The text before a piece as it is written: it holds the same slashes, and its last character is
the same or ends no word. -/
def Context (before written : Text) : Prop :=
  slashTail written = slashTail before ∧
    (written.getLast? = before.getLast? ∨
      ∃ d, written.getLast? = some d ∧ isWordBoundary d = false)

theorem Context.concat {before written : Text} (h : Context before written) (c : Char) :
    Context (before ++ [c]) (written ++ [c]) := by
  refine ⟨by rw [slashTail_concat, slashTail_concat, h.1], .inl ?_⟩
  rw [List.getLast?_concat, List.getLast?_concat]

theorem Context.append {before written s : Text} (h : Context before written) (hs : Quiet s)
    (hne : s ≠ []) : Context (before ++ s) (written ++ s) := by
  refine ⟨by rw [slashTail_quiet hs, slashTail_quiet hs, h.1], .inl ?_⟩
  rw [List.getLast?_append_of_ne_nil _ hne, List.getLast?_append_of_ne_nil _ hne]

theorem Context.coded {before written code word : Text} (h : Context before written)
    (hcode : Quiet code) (hword : Quiet word) {d : Char} (hlast : code.getLast? = some d)
    (hd : isWordBoundary d = false) : Context (before ++ word) (written ++ code) := by
  refine ⟨by rw [slashTail_quiet hcode, slashTail_quiet hword, h.1], .inr ⟨d, ?_, hd⟩⟩
  rw [List.getLast?_append, hlast]
  rfl

/-- What is replaced in the text as it is written would be replaced in the plain text. -/
theorem Context.isReplaced {before written found after after' s : Text}
    (h : Context before written) (hs : Quiet s) (hhead : after.head? = after'.head?)
    (hslash : slashHead after = slashHead after')
    (hfound : isReplaced (written ++ s) found after = true) :
    isReplaced (before ++ s) found after' = true := by
  obtain ⟨hlast, hnext, htail, hinside, hafter⟩ := isReplaced_eq_true.mp hfound
  rw [slashTail_quiet hs, h.1, ← slashTail_quiet hs] at htail
  refine isReplaced_eq_true.mpr ⟨?_, hhead ▸ hnext, htail, hinside, hslash ▸ hafter⟩
  cases s with
  | nil =>
    rw [List.append_nil] at hlast ⊢
    obtain heq | ⟨d, hd, hboundary⟩ := h.2
    · rwa [heq] at hlast
    · rw [hd, Option.all_some, hboundary] at hlast
      cases hlast
  | cons c s =>
    rw [List.getLast?_append_of_ne_nil _ (List.cons_ne_nil _ _)] at hlast ⊢
    exact hlast

/-- Every occurrence that is replaced stands alone among word characters. -/
def Agrees (isWord : Char → Bool) (word before text : Text) : Prop :=
  ∀ a b, text = a ++ word ++ b → isReplaced (before ++ a) word b = true →
    EndsWord isWord (before ++ a).getLast? ∧ EndsWord isWord b.head?

theorem Agrees.tail {word before front text : Text}
    (h : Agrees isWord word before (front ++ text)) :
    Agrees isWord word (before ++ front) text := by
  intro a b htext hreplaced
  rw [List.append_assoc] at hreplaced ⊢
  exact h (front ++ a) b (by rw [htext]; simp) hreplaced

/-- No occurrence of a code is replaced. -/
def Absent (code before text : Text) : Prop :=
  ∀ a b, text = a ++ code ++ b → isReplaced (before ++ a) code b = false

theorem Absent.tail {code before front text : Text} (h : Absent code before (front ++ text)) :
    Absent code (before ++ front) text := by
  intro a b htext
  rw [List.append_assoc]
  exact h (front ++ a) b (by rw [htext]; simp)

theorem not_boundary_of_digit {d : Char} (hd : d.isDigit = true) : isWordBoundary d = false := by
  simp [isWordBoundary, Char.isAlphanum, hd]

section Steps

variable (hcodes : Codes isWord used) {e : Entry} (he : e ∈ used) {coded : Entry → Bool}
include hcodes he

theorem long_ne_nil : e.2 ≠ [] := by
  have hlen := (hcodes.long e he).1
  rintro hnil
  rw [hnil] at hlen
  exact absurd hlen (by decide)

omit he in
/-- Inside a run of word characters only the whole run is replaced. -/
theorem not_isReplaced_inside {before written run x y : Text} {ps : List Piece}
    (hcut : Cut isWord used (before ++ run) ps) (hsep : startsWithSeparator ps)
    (hrun : ∀ c ∈ run, isWord c = true) (hctx : Context before written)
    (hagrees : Agrees isWord e.2 before (run ++ plain ps))
    (hwhole : run = e.2 → isReplaced before run (plain ps) = false)
    (hsplit : run = x ++ e.2 ++ y) :
    isReplaced (written ++ x) e.2 (y ++ flat coded ps) = false := by
  by_contra h
  rw [Bool.not_eq_false] at h
  have hx : ∀ c ∈ x, isWord c = true := fun c hc => hrun c (by rw [hsplit]; simp [hc])
  have hy : ∀ c ∈ y, isWord c = true := fun c hc => hrun c (by rw [hsplit]; simp [hc])
  have hquietx : Quiet x := fun c hc => hcodes.quiet c (hx c hc)
  have hquiety : Quiet y := fun c hc => hcodes.quiet c (hy c hc)
  have hhead : (y ++ flat coded ps).head? = (y ++ plain ps).head? := by
    rw [List.head?_append, List.head?_append, head_flat hsep]
  have hslash : slashHead (y ++ flat coded ps) = slashHead (y ++ plain ps) := by
    rw [slashHead_quiet hquiety, slashHead_quiet hquiety, hcodes.slashHead_flat hcut]
  have hplain := hctx.isReplaced hquietx hhead hslash h
  obtain ⟨hlast, hnext⟩ := hagrees x (y ++ plain ps) (by rw [hsplit]; simp) hplain
  have hxnil : x = [] := by
    rcases List.eq_nil_or_concat x with hnil | ⟨x', c, rfl⟩
    · exact hnil
    · have hc := hlast c (by rw [List.concat_eq_append, ← List.append_assoc, List.getLast?_concat])
      rw [hx c (by simp)] at hc
      cases hc
  have hynil : y = [] := by
    cases y with
    | nil => rfl
    | cons c y =>
      have hc := hnext c rfl
      rw [hy c List.mem_cons_self] at hc
      cases hc
  rw [hxnil, hynil, List.nil_append, List.append_nil] at hsplit
  rw [hxnil, hynil, List.append_nil, List.nil_append, ← hsplit, hwhole hsplit] at hplain
  cases hplain

omit he in
/-- What is written at a place is replaced like its word. -/
theorem isReplaced_place {before written found found' front : Text} {ps : List Piece}
    (hplace : isReplaced before found (plain ps) = true) (hfound : Quiet found')
    (hps : Cut isWord used front ps) (hsep : startsWithSeparator ps)
    (hctx : Context before written) (hlast : written.getLast? = before.getLast?) :
    isReplaced written found' (flat coded ps) = true := by
  obtain ⟨hbefore, hafter, htail, -, hhead⟩ := isReplaced_eq_true.mp hplace
  refine isReplaced_eq_true.mpr ⟨?_, ?_, ?_, hfound.any_isSlash, ?_⟩
  · rw [hlast]
    exact hbefore
  · rw [head_flat hsep]
    exact hafter
  · rw [hctx.1]
    exact htail
  · rw [hcodes.slashHead_flat hps]
    exact hhead

/-- No occurrence of a word begins in a code before a separator. -/
theorem not_prefix_code {v rest : Text} (hrest : EndsWord isWord rest.head?) {f : Entry}
    (hf : f ∈ used) (hsuffix : v <:+ f.1) : ¬e.2 <+: v ++ rest := by
  intro hpre
  obtain ⟨hlen, hword⟩ := hcodes.long e he
  obtain ⟨d, hshort, -⟩ := hcodes.short f hf
  rw [hshort] at hsuffix
  have hsize : v.length ≤ 3 := hsuffix.length_le
  obtain h | ⟨more, hmore⟩ := List.prefix_or_prefix_of_prefix hpre (List.prefix_append _ _)
  · -- as long as the code, it would begin with the `@`
    have heq : v = ['@', 'D', d] :=
      hsuffix.eq_of_length_le (hlen.trans h.length_le)
    rw [heq] at h
    have hhead : e.2.head? = some '@' := by
      have hne := long_ne_nil hcodes he
      obtain ⟨c, w, hcw⟩ := List.exists_cons_of_ne_nil hne
      rw [hcw] at h ⊢
      rw [(List.cons_prefix_cons.mp h).1]
      rfl
    have hat := hword '@' (List.mem_of_mem_head? hhead)
    rw [hcodes.at_sign] at hat
    cases hat
  · cases more with
    | nil =>
      rw [List.append_nil] at hmore
      have heq : v = ['@', 'D', d] := hsuffix.eq_of_length_le (hmore ▸ hlen)
      have hat := hword '@' (by rw [← hmore, heq]; exact List.mem_cons_self)
      rw [hcodes.at_sign] at hat
      cases hat
    | cons c more =>
      obtain ⟨tail, htail⟩ := hpre
      rw [← hmore, List.append_assoc, List.append_cancel_left_eq] at htail
      have hc := hrest c (by rw [← htail]; rfl)
      rw [hword c (hmore ▸ List.mem_append_right _ List.mem_cons_self)] at hc
      cases hc

/-- Replacing a word by its code turns its places into codes and leaves the rest. -/
theorem replace_long (hnot : coded e = false) {before written : Text} {ps : List Piece}
    (hcut : Cut isWord used before ps) (hagrees : Agrees isWord e.2 before (plain ps))
    (hctx : Context before written)
    (hlast : ¬startsWithSeparator ps → written.getLast? = before.getLast?) :
    replaceFrom e.2 e.1 0 written (flat coded ps) =
      flat (fun f => coded f || decide (f = e)) ps := by
  have hne := long_ne_nil hcodes he
  induction ps generalizing before written with
  | nil => rfl
  | cons p ps ih =>
    cases p with
    | separator c =>
      obtain ⟨hc, hps⟩ := hcut
      have hkept : ¬e.2 <+: c :: flat coded ps := by
        intro hpre
        obtain ⟨d, w, hdw⟩ := List.exists_cons_of_ne_nil hne
        rw [hdw] at hpre
        have hd := (hcodes.long e he).2 d (by rw [hdw]; exact List.mem_cons_self)
        rw [(List.cons_prefix_cons.mp hpre).1, hc] at hd
        cases hd
      rw [flat, flat, replaceFrom_kept hkept, ih hps (hagrees.tail) (hctx.concat c) fun _ => by
        rw [List.getLast?_concat, List.getLast?_concat]]
    | word w =>
      obtain ⟨⟨hw, hword⟩, hsep, hwhole, hps⟩ := hcut
      have hinside : ∀ x y, w = x ++ e.2 ++ y →
          isReplaced (written ++ x) e.2 (y ++ flat coded ps) = false := fun x y =>
        not_isReplaced_inside hcodes hps hsep hword hctx hagrees (hwhole e he)
      have hquiet : Quiet w := fun c hc => hcodes.quiet c (hword c hc)
      rw [flat, flat, replaceFrom_word hne (hcodes.long e he).2 (endsWord_flat hps hsep coded)
        hinside, ih hps hagrees.tail (hctx.append hquiet hw) fun h => absurd hsep h]
    | place f =>
      obtain ⟨hf, hsep, hplace, hps⟩ := hcut
      have hquiet := hcodes.quiet_long hf
      have hfne := long_ne_nil hcodes hf
      have hends := endsWord_flat hps hsep coded
      by_cases hfe : f = e
      · subst hfe
        have hreplaced : isReplaced written f.2 (flat coded ps) = true :=
          isReplaced_place hcodes hplace hquiet hps hsep hctx (hlast id)
        rw [flat, flat, hnot, if_neg Bool.false_ne_true, replaceFrom_found hne, hreplaced,
          if_pos rfl, ih hps hagrees.tail (hctx.append hquiet hfne) fun h => absurd hsep h]
        simp
      · have hsame : (coded f || decide (f = e)) = coded f := by simp [hfe]
        rw [flat, flat, hsame]
        cases hcoded : coded f with
        | true =>
          obtain ⟨d, hshort, hd⟩ := hcodes.short f hf
          have hctx' : Context (before ++ f.2) (written ++ f.1) :=
            hctx.coded (hcodes.quiet_short hf) hquiet (by rw [hshort]; rfl)
              (not_boundary_of_digit hd)
          rw [if_pos rfl, replaceFrom_pass fun v _ hsuffix =>
            not_prefix_code hcodes he hends hf hsuffix,
            ih hps hagrees.tail hctx' fun h => absurd hsep h]
        | false =>
          have hinside : ∀ x y, f.2 = x ++ e.2 ++ y →
              isReplaced (written ++ x) e.2 (y ++ flat coded ps) = false := fun x y =>
            not_isReplaced_inside hcodes hps hsep (hcodes.long f hf).2 hctx hagrees fun heq =>
              absurd (hcodes.long_inj f hf e he heq) hfe
          rw [if_neg Bool.false_ne_true, replaceFrom_word hne (hcodes.long e he).2 hends hinside,
            ih hps hagrees.tail (hctx.append hquiet hfne) fun h => absurd hsep h]

omit he in
/-- What reads as the end of a code behind its `@` reads so in the plain text. -/
theorem plain_of_flat {before y : Text} {d : Char} {ps : List Piece}
    (hd : d.isDigit = true) (hcut : Cut isWord used before ps)
    (h : flat coded ps = 'D' :: d :: y) :
    ∃ y', plain ps = 'D' :: d :: y' ∧ y.head? = y'.head? ∧ slashHead y = slashHead y' := by
  have hrun : ∀ {before : Text} {run : Text} {ps : List Piece},
      Cut isWord used before ps → startsWithSeparator ps → run ≠ [] →
      (∀ c ∈ run, isWord c = true) → run ++ flat coded ps = 'D' :: d :: y →
      ∃ y', run ++ plain ps = 'D' :: d :: y' ∧ y.head? = y'.head? ∧
        slashHead y = slashHead y' := by
    intro before run ps hps hsep hne hword heq
    cases run with
    | nil => exact absurd rfl hne
    | cons c run =>
      cases run with
      | nil =>
        have hnext : flat coded ps = d :: y := (List.cons.inj heq).2
        have hc := endsWord_flat hps hsep coded d (by rw [hnext]; rfl)
        rw [hcodes.digit d hd] at hc
        cases hc
      | cons c' run =>
        obtain ⟨hfirst, hrest⟩ := List.cons.inj heq
        obtain ⟨hsecond, hy⟩ := List.cons.inj hrest
        have hquiet : Quiet run := fun x hx =>
          hcodes.quiet x (hword x (List.mem_cons_of_mem _ (List.mem_cons_of_mem _ hx)))
        refine ⟨run ++ plain ps, by rw [hfirst, hsecond]; rfl, ?_, ?_⟩
        · rw [← hy]
          exact (List.head?_append).trans ((head_flat hsep coded) ▸ List.head?_append.symm)
        · rw [← hy]
          exact (slashHead_quiet hquiet _).trans
            ((hcodes.slashHead_flat hps coded).trans (slashHead_quiet hquiet _).symm)
  cases ps with
  | nil => cases h
  | cons p ps =>
    cases p with
    | separator c =>
      have hc := hcut.1
      rw [(List.cons.inj h).1, hcodes.letter] at hc
      cases hc
    | word w =>
      obtain ⟨⟨hw, hword⟩, hsep, -, hps⟩ := hcut
      exact hrun hps hsep hw hword h
    | place f =>
      obtain ⟨hf, hsep, -, hps⟩ := hcut
      rw [flat] at h
      cases hcoded : coded f with
      | true =>
        obtain ⟨d', hshort, -⟩ := hcodes.short f hf
        rw [hcoded, if_pos rfl, hshort] at h
        exact absurd (List.cons.inj h).1 (by decide)
      | false =>
        rw [hcoded, if_neg Bool.false_ne_true] at h
        exact hrun hps hsep (long_ne_nil hcodes hf) (hcodes.long f hf).2 h

/-- Replacing a code by its word turns its places back and leaves the rest. -/
theorem replace_short (hcoded : coded e = true) {before written : Text} {ps : List Piece}
    (hcut : Cut isWord used before ps) (habsent : Absent e.1 before (plain ps))
    (hctx : Context before written)
    (hlast : ¬startsWithSeparator ps → written.getLast? = before.getLast?) :
    replaceFrom e.1 e.2 0 written (flat coded ps) =
      flat (fun f => coded f && !decide (f = e)) ps := by
  obtain ⟨d, hshort, hd⟩ := hcodes.short e he
  have htail : '@' ∉ ['D', d] := by
    have hne : '@' ≠ d := by
      rintro rfl
      exact absurd hd (by decide)
    simp [hne]
  have hpass : ∀ {run rest : Text}, (∀ c ∈ run, isWord c = true) →
      ∀ v, v ≠ [] → v <:+ run → ¬e.1 <+: v ++ rest := by
    intro run rest hrun v hv hsuffix hpre
    cases v with
    | nil => exact hv rfl
    | cons c v =>
      rw [hshort] at hpre
      have hc := hrun c (hsuffix.mem List.mem_cons_self)
      rw [← (List.cons_prefix_cons.mp hpre).1, hcodes.at_sign] at hc
      cases hc
  induction ps generalizing before written with
  | nil => rfl
  | cons p ps ih =>
    cases p with
    | separator c =>
      obtain ⟨hc, hps⟩ := hcut
      have hrest := ih hps habsent.tail (hctx.concat c) fun _ => by
        rw [List.getLast?_concat, List.getLast?_concat]
      by_cases hat : c = '@'
      · subst hat
        have hnot : ∀ y, flat coded ps = ['D', d] ++ y →
            isReplaced written ('@' :: ['D', d]) y = false := by
          intro y hy
          obtain ⟨y', hplain, hhead, hslash⟩ := plain_of_flat hcodes hd hps hy
          by_contra h
          rw [Bool.not_eq_false, ← hshort, ← List.append_nil written] at h
          have hempty : Quiet [] := fun c hc => absurd hc List.not_mem_nil
          have hreplaced := hctx.isReplaced hempty hhead hslash h
          have hoccurs : plain (.separator '@' :: ps) = [] ++ e.1 ++ y' := by
            change '@' :: plain ps = _
            rw [hplain, hshort]
            rfl
          rw [habsent [] y' hoccurs] at hreplaced
          cases hreplaced
        rw [flat, flat]
        rw [hshort] at hrest ⊢
        rw [replaceFrom_head htail hnot, hrest]
      · have hkept : ¬e.1 <+: c :: flat coded ps := by
          rw [hshort]
          exact fun hpre => hat (List.cons_prefix_cons.mp hpre).1.symm
        rw [flat, flat, replaceFrom_kept hkept, hrest]
    | word w =>
      obtain ⟨⟨hw, hword⟩, hsep, -, hps⟩ := hcut
      have hquiet : Quiet w := fun c hc => hcodes.quiet c (hword c hc)
      rw [flat, flat, replaceFrom_pass (hpass hword), ih hps habsent.tail (hctx.append hquiet hw)
        fun h => absurd hsep h]
    | place f =>
      obtain ⟨hf, hsep, hplace, hps⟩ := hcut
      have hquiet := hcodes.quiet_long hf
      have hfne := long_ne_nil hcodes hf
      obtain ⟨d', hshort', hd'⟩ := hcodes.short f hf
      have hctx' : Context (before ++ f.2) (written ++ f.1) :=
        hctx.coded (hcodes.quiet_short hf) hquiet (by rw [hshort']; rfl) (not_boundary_of_digit hd')
      rw [flat, flat]
      by_cases hfe : f = e
      · subst hfe
        have hreplaced : isReplaced written f.1 (flat coded ps) = true :=
          isReplaced_place hcodes hplace (hcodes.quiet_short hf) hps hsep hctx (hlast id)
        have hne : f.1 ≠ [] := by
          rw [hshort']
          exact List.cons_ne_nil _ _
        rw [hcoded, if_pos rfl, replaceFrom_found hne, hreplaced, if_pos rfl,
          ih hps habsent.tail hctx' fun h => absurd hsep h]
        simp
      · have hsame : (coded f && !decide (f = e)) = coded f := by simp [hfe]
        rw [hsame]
        cases hcodedf : coded f with
        | true =>
          have hcode : ∀ v, v ≠ [] → v <:+ f.1 → ¬e.1 <+: v ++ flat coded ps := by
            intro v hv hsuffix hpre
            rw [hshort'] at hsuffix
            obtain rfl | hinside := List.suffix_cons_iff.mp hsuffix
            · rw [hshort] at hpre
              simp only [List.cons_append, List.nil_append, List.cons_prefix_cons] at hpre
              exact hfe (hcodes.short_inj f hf e he (by rw [hshort', hshort, hpre.2.2.1]))
            · refine hpass (fun c hc => ?_) v hv hinside hpre
              obtain rfl | rfl : c = 'D' ∨ c = d' := by simpa using hc
              · exact hcodes.letter
              · exact hcodes.digit _ hd'
          rw [if_pos rfl, replaceFrom_pass hcode, ih hps habsent.tail hctx' fun h => absurd hsep h]
        | false =>
          rw [if_neg Bool.false_ne_true, replaceFrom_pass (hpass (hcodes.long f hf).2),
            ih hps habsent.tail (hctx.append hquiet hfne) fun h => absurd hsep h]

end Steps

end LeanCtx.Terse
