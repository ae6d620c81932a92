import LeanCtx.ToolDedup
import LeanCtx.LineEnds
import LeanCtx.JsonText

/-!
# Rebuilding replaced tool outputs

A stub says from which earlier output the replaced one is rebuilt, and the step
keeps that output in the request. The text of a delta says which lines are
meant: for one id no two deltas have the same text.
-/

namespace LeanCtx.ToolDedup

open TextFile (lines lineChars)

/-! ## Texts and their lines -/

/-- Lines as they are put together again. -/
def rejoin (ls : List String) (trailing : Bool) : String :=
  "\n".intercalate ls ++ if trailing then "\n" else ""

def Delta.apply (delta : Delta) (content : String) : String :=
  rejoin ((lines content).take delta.before ++ delta.inserted ++
    (lines content).drop (delta.before + delta.removed)) (endsInNewline content)

theorem stripReturn_eq {line : List Char} (h : '\r' ∉ line) : TextFile.stripReturn line = line := by
  rw [TextFile.stripReturn, if_neg]
  intro hlast
  exact h (List.mem_of_getLast? hlast)

theorem toList_rejoin_lines (content : String) :
    (rejoin (lines content) (endsInNewline content)).toList =
      List.intercalate ['\n'] (lineChars content.toList) ++
        if endsInNewline content then ['\n'] else [] := by
  have hlines : (lines content).map String.toList = lineChars content.toList := by
    rw [lines, List.map_map]
    exact (List.map_congr_left fun line _ => String.toList_ofList).trans (List.map_id _)
  rw [rejoin, String.toList_append, String.toList_intercalate, hlines]
  congr 1
  split_ifs <;> rfl

/-- A text without carriage returns is its lines and whether it ends in a newline. -/
theorem rejoin_lines {content : String} (h : '\r' ∉ content.toList) :
    rejoin (lines content) (endsInNewline content) = content := by
  apply String.toList_inj.mp
  obtain ⟨front, last, hsplit, hcontent, hlast⟩ := LineEnds.splitOn_newline content.toList
  have hstrip : front.map TextFile.stripReturn = front := by
    refine (List.map_congr_left fun piece hpiece => stripReturn_eq fun hr => h ?_).trans
      (List.map_id front)
    rw [hcontent, List.mem_append, List.mem_flatMap]
    exact .inl ⟨piece, hpiece, List.mem_append_left _ hr⟩
  have hlines : lineChars content.toList = front ++ [last].filter (· ≠ []) := by
    rw [lineChars, hsplit, List.dropLast_concat, List.getLast?_concat, hstrip, Option.toList_some]
  rw [toList_rejoin_lines, hlines]
  by_cases hnil : last = []
  · rw [hnil, List.append_nil] at hcontent
    rw [hnil, List.filter_cons_of_neg (by simp), List.filter_nil, List.append_nil]
    rcases List.eq_nil_or_concat front with rfl | ⟨before, piece, rfl⟩
    · rw [endsInNewline, hcontent]
      rfl
    · have hends : endsInNewline content = true := by
        rw [endsInNewline, hcontent]
        simp
      rw [hends, if_pos rfl, List.concat_eq_append, LineEnds.intercalate_newline (by simp),
        hcontent]
      simp
  · have hends : endsInNewline content = false := by
      rw [endsInNewline, hcontent, List.getLast?_append_of_ne_nil _ hnil]
      refine beq_eq_false_iff_ne.mpr fun heq => hlast (List.mem_of_getLast? heq)
    rw [hends, if_neg Bool.false_ne_true, List.append_nil,
      List.filter_cons_of_pos (by simpa using hnil), List.filter_nil,
      LineEnds.intercalate_newline (by simp), List.dropLast_concat, List.getLast_concat, ← hcontent]

/-! ## The changed block -/

/-- What is counted as common is common. -/
theorem common_spec (n : ℕ) (old new : List String) {k : ℕ}
    (hk : (((old.zip new).take n).takeWhile fun (a, b) => a == b).length = k) :
    old.take k = new.take k ∧ k ≤ old.length ∧ k ≤ new.length ∧ k ≤ n := by
  induction n generalizing old new k with
  | zero =>
    obtain rfl : 0 = k := hk
    simp
  | succ n ih =>
    cases old with
    | nil =>
      obtain rfl : 0 = k := hk
      simp
    | cons a old =>
      cases new with
      | nil =>
        obtain rfl : 0 = k := hk
        simp
      | cons b new =>
        rw [List.zip_cons_cons, List.take_succ_cons, List.takeWhile_cons] at hk
        split_ifs at hk with hab
        · obtain ⟨htake, hold, hnew, hn⟩ := ih old new rfl
          obtain rfl : a = b := beq_iff_eq.mp hab
          rw [List.length_cons] at hk
          subst hk
          rw [List.take_succ_cons, List.take_succ_cons, htake]
          exact ⟨rfl, Nat.succ_le_succ hold, Nat.succ_le_succ hnew, Nat.succ_le_succ hn⟩
        · obtain rfl : 0 = k := hk
          simp

theorem commonLength_spec (old new : List String) :
    old.take (commonLength old new) = new.take (commonLength old new) ∧
      commonLength old new ≤ old.length ∧ commonLength old new ≤ new.length := by
  have hall : (old.zip new).take (old.zip new).length = old.zip new := List.take_length
  obtain ⟨htake, hold, hnew, -⟩ := common_spec (old.zip new).length old new (by rw [hall])
  exact ⟨htake, hold, hnew⟩

theorem drop_of_take_reverse {old new : List String} {k : ℕ}
    (h : old.reverse.take k = new.reverse.take k) :
    old.drop (old.length - k) = new.drop (new.length - k) := by
  rw [List.take_reverse, List.take_reverse] at h
  exact List.reverse_injective h

/-- The new lines are the old ones with the changed block replaced. -/
theorem changedBlock_spec (old new : List String) :
    old.take (changedBlock old new).before ++ (changedBlock old new).inserted ++
      old.drop ((changedBlock old new).before + (changedBlock old new).removed) = new := by
  obtain ⟨hfront, hold, hnew⟩ := commonLength_spec old new
  set before := commonLength old new with hbefore
  set suffix := (((old.reverse.zip new.reverse).take (min old.length new.length -
    before)).takeWhile fun (a, b) => a == b).length with hsuffix
  obtain ⟨htail, -, -, hmax⟩ := common_spec _ old.reverse new.reverse hsuffix.symm
  have hback := drop_of_take_reverse htail
  have hremoved : before + (changedBlock old new).removed = old.length - suffix := by
    have hlen : (changedBlock old new).removed =
        ((old.take (old.length - suffix)).drop before).length := rfl
    rw [hlen, List.length_drop, List.length_take]
    omega
  have hinserted : (changedBlock old new).inserted = (new.take (new.length - suffix)).drop before :=
    rfl
  have hsame : (changedBlock old new).before = before := rfl
  rw [hsame, hremoved, hinserted, hback, hfront]
  have hmiddle : new.take before ++ (new.take (new.length - suffix)).drop before =
      new.take (new.length - suffix) := by
    have hpre : new.take before = (new.take (new.length - suffix)).take before := by
      rw [List.take_take]
      congr 1
      omega
    rw [hpre, List.take_append_drop]
  rw [hmiddle, List.take_append_drop]

/-- A delta stub tells how its text is made of the earlier one. -/
theorem deltaStub_spec {canonical : Canonical} {content stub : String}
    (h : deltaStub canonical content = some stub) :
    ∃ delta : Delta, delta.text canonical.id = some stub ∧
      (∀ l ∈ delta.inserted, '\n' ∉ l.toList) ∧ delta.apply canonical.content = content := by
  unfold deltaStub at h
  split_ifs at h with hguard
  simp only [not_or, not_not] at hguard
  obtain ⟨-, hreturn, hends⟩ := hguard
  refine ⟨_, h, fun l hl => ?_, ?_⟩
  · exact TextFile.newline_not_mem_of_mem_lines (List.mem_of_mem_take (List.mem_of_mem_drop hl))
  · rw [Delta.apply, changedBlock_spec, hends, rejoin_lines hreturn]

/-! ## Reading a delta -/

section Text

open JsonText (repr_append_inj)

def spanChars (before removed : ℕ) (rest : List Char) : List Char :=
  if removed = 1 then "line ".toList ++ ((before + 1).repr.toList ++ ' ' :: ("is".toList ++ rest))
  else "lines ".toList ++ ((before + 1).repr.toList ++ '–' ::
    ((before + removed).repr.toList ++ ' ' :: ("are".toList ++ rest)))

theorem toList_lineSpan (before removed : ℕ) :
    (lineSpan before removed "is" "are").toList = spanChars before removed [] := by
  rw [lineSpan, spanChars]
  split_ifs
  · simp
  · simp

theorem spanChars_append (before removed : ℕ) (rest : List Char) :
    spanChars before removed [] ++ rest = spanChars before removed rest := by
  unfold spanChars
  split_ifs
  · simp
  · simp

/-- Texts that differ where both have a character are told apart there. -/
theorem append_ne_of_getElem? {l m r r' : List Char} (n : ℕ) (hl : n < l.length)
    (hm : n < m.length) (hne : l[n]? ≠ m[n]?) : l ++ r ≠ m ++ r' := by
  intro h
  have hn := congrArg (fun t => t[n]?) h
  rw [List.getElem?_append_left hl, List.getElem?_append_left hm] at hn
  exact hne hn

theorem spanChars_inj {before removed before' removed' : ℕ} {rest rest' : List Char}
    (h : spanChars before removed rest = spanChars before' removed' rest') :
    before = before' ∧ removed = removed' ∧ rest = rest' := by
  have hspace : Char.isDigit ' ' = false := by decide
  have hdash : Char.isDigit '–' = false := by decide
  have hnumber : ∀ r r' : List Char, "line ".toList ++ r ≠ "lines ".toList ++ r' := fun _ _ =>
    append_ne_of_getElem? 4 (by decide) (by decide) (by decide)
  unfold spanChars at h
  split_ifs at h with hone hone' hone'
  · have hfirst := List.append_cancel_left h
    obtain ⟨heq, -⟩ := repr_append_inj hspace hspace hfirst
    rw [heq] at hfirst
    have hrest := (List.cons.inj (List.append_cancel_left hfirst)).2
    exact ⟨by omega, by omega, List.append_cancel_left hrest⟩
  · exact absurd h (hnumber _ _)
  · exact absurd h.symm (hnumber _ _)
  · have hfirst := List.append_cancel_left h
    obtain ⟨heq, -⟩ := repr_append_inj hdash hdash hfirst
    rw [heq] at hfirst
    have hlast := (List.cons.inj (List.append_cancel_left hfirst)).2
    obtain ⟨heq', -⟩ := repr_append_inj hspace hspace hlast
    rw [heq'] at hlast
    have hrest := (List.cons.inj (List.append_cancel_left hlast)).2
    exact ⟨by omega, by omega, List.append_cancel_left hrest⟩

/-- Inserted lines as they stand in a stub. -/
def bodyChars (ls : List String) : List Char :=
  ":\n".toList ++ (List.intercalate "\n".toList (ls.map String.toList) ++ "\n]".toList)

theorem bodyChars_inj {ls ls' : List String} (hne : ls ≠ []) (hne' : ls' ≠ [])
    (hls : ∀ l ∈ ls, '\n' ∉ l.toList) (hls' : ∀ l ∈ ls', '\n' ∉ l.toList)
    (h : bodyChars ls = bodyChars ls') : ls = ls' := by
  have hjoined := List.append_cancel_right (List.append_cancel_left h)
  have hsplit : ∀ ls : List String, ls ≠ [] → (∀ l ∈ ls, '\n' ∉ l.toList) →
      (List.intercalate "\n".toList (ls.map String.toList)).splitOn '\n' =
        ls.map String.toList := by
    intro ls hne hls
    rw [show "\n".toList = ['\n'] by decide]
    refine List.splitOn_intercalate '\n' ?_ (by simpa using hne)
    intro l hl
    obtain ⟨s, hs, rfl⟩ := List.mem_map.mp hl
    exact hls s hs
  have hmap : ls.map String.toList = ls'.map String.toList := by
    rw [← hsplit ls hne hls, hjoined, hsplit ls' hne' hls']
  exact List.map_injective_iff.mpr (fun _ _ => String.toList_inj.mp) hmap

theorem repr_bodyChars_inj {m n : ℕ} {ls ls' : List String}
    (h : m.repr.toList ++ bodyChars ls = n.repr.toList ++ bodyChars ls') :
    m = n ∧ bodyChars ls = bodyChars ls' := by
  have hcolon : Char.isDigit ':' = false := by decide
  have hbody : ∀ ls : List String, ∃ rest, bodyChars ls = ':' :: rest := fun _ => ⟨_, rfl⟩
  obtain ⟨rest, hrest⟩ := hbody ls
  obtain ⟨rest', hrest'⟩ := hbody ls'
  have hm : m = n := by
    rw [hrest, hrest'] at h
    exact (repr_append_inj hcolon hcolon h).1
  rw [hm] at h
  exact ⟨hm, List.append_cancel_left h⟩

/-- What stands in a stub after the id. -/
def Delta.change (delta : Delta) : List Char :=
  if delta.removed = 0 then
    if delta.before = 0 then
      "these lines are inserted at the start".toList ++ bodyChars delta.inserted
    else
      "these lines are inserted after line ".toList ++
        (delta.before.repr.toList ++ bodyChars delta.inserted)
  else
    spanChars delta.before delta.removed <|
      if delta.inserted = [] then " removed]".toList
      else " replaced by".toList ++ bodyChars delta.inserted

def stubStart (id : String) : List Char :=
  "[lean-ctx: tool result ".toList ++ (id.toList ++ " above, except ".toList)

theorem toList_join (start id except change colon close : String) (ls : List String) :
    (start ++ id ++ except ++ change ++ colon ++ "\n".intercalate ls ++ close).toList =
      start.toList ++ (id.toList ++ except.toList) ++ (change.toList ++ (colon.toList ++
        (List.intercalate "\n".toList (ls.map String.toList) ++ close.toList))) := by
  simp only [String.toList_append, String.toList_intercalate, List.append_assoc]

theorem toList_removed (start id except span close : String) :
    (start ++ id ++ except ++ span ++ close).toList =
      start.toList ++ (id.toList ++ except.toList) ++ (span.toList ++ close.toList) := by
  simp only [String.toList_append, List.append_assoc]

theorem toList_withLines (id change : String) (ls : List String) :
    ("[lean-ctx: tool result " ++ id ++ " above, except " ++ change ++ ":\n" ++
      "\n".intercalate ls ++ "\n]").toList = stubStart id ++ (change.toList ++ bodyChars ls) :=
  toList_join _ _ _ _ _ _ _

theorem toList_text {id stub : String} {delta : Delta} (h : delta.text id = some stub) :
    stub.toList = stubStart id ++ delta.change ∧ (delta.removed = 0 → delta.inserted ≠ []) := by
  unfold Delta.text at h
  dsimp only at h
  split at h
  · cases h
  · rename_i hremoved hinserted
    have hremoved := of_decide_eq_true hremoved
    refine ⟨?_, fun _ heq => by simp [heq] at hinserted⟩
    rw [Delta.change, if_pos hremoved]
    split_ifs at h ⊢
    · rw [Option.some.injEq] at h
      exact h ▸ toList_withLines id _ _
    · rw [Option.some.injEq] at h
      have hchange := toList_withLines id
        ("these lines are inserted after line " ++ delta.before.repr) delta.inserted
      have hnumber := String.toList_append
        (s := "these lines are inserted after line ") (t := delta.before.repr)
      rw [hnumber, List.append_assoc] at hchange
      exact h ▸ hchange
  · rename_i hremoved hinserted
    have hremoved := of_decide_eq_false hremoved
    refine ⟨?_, fun heq => absurd heq hremoved⟩
    rw [Option.some.injEq] at h
    rw [Delta.change, if_neg hremoved, if_pos (List.isEmpty_iff.mp hinserted), ← spanChars_append,
      ← toList_lineSpan]
    exact h ▸ toList_removed _ id _ _ _
  · rename_i hremoved hinserted
    have hremoved := of_decide_eq_false hremoved
    refine ⟨?_, fun heq => absurd heq hremoved⟩
    rw [Option.some.injEq] at h
    rw [Delta.change, if_neg hremoved, if_neg (by simpa using hinserted), ← spanChars_append,
      ← toList_lineSpan]
    have hchange := toList_withLines id
      (lineSpan delta.before delta.removed "is" "are" ++ " replaced by") delta.inserted
    have hspan := String.toList_append
      (s := lineSpan delta.before delta.removed "is" "are") (t := " replaced by")
    rw [hspan, List.append_assoc] at hchange
    exact h ▸ hchange

/-- A span starts with an `l`, the text of an insertion with a `t`. -/
theorem spanChars_getElem?_zero (before removed : ℕ) (rest : List Char) :
    (spanChars before removed rest)[0]? = some 'l' := by
  rw [spanChars]
  split_ifs <;> rfl

theorem ne_spanChars {l r : List Char} (hl : 0 < l.length) (hne : l[0]? ≠ some 'l')
    (before removed : ℕ) (rest : List Char) : l ++ r ≠ spanChars before removed rest := by
  intro h
  have hzero := congrArg (fun t => t[0]?) h
  rw [List.getElem?_append_left hl, spanChars_getElem?_zero] at hzero
  exact hne hzero

attribute [ext] Delta

theorem change_inj {d d' : Delta} (hd : d.removed = 0 → d.inserted ≠ [])
    (hd' : d'.removed = 0 → d'.inserted ≠ []) (hls : ∀ l ∈ d.inserted, '\n' ∉ l.toList)
    (hls' : ∀ l ∈ d'.inserted, '\n' ∉ l.toList) (h : d.change = d'.change) : d = d' := by
  have hat : ∀ r r' : List Char, "these lines are inserted at the start".toList ++ r ≠
      "these lines are inserted after line ".toList ++ r' := fun _ _ =>
    append_ne_of_getElem? 26 (by decide) (by decide) (by decide)
  have hstart : ∀ (r : List Char) (before removed : ℕ) (rest : List Char),
      "these lines are inserted at the start".toList ++ r ≠ spanChars before removed rest :=
    fun _ => ne_spanChars (by decide) (by decide)
  have hafter : ∀ (r : List Char) (before removed : ℕ) (rest : List Char),
      "these lines are inserted after line ".toList ++ r ≠ spanChars before removed rest :=
    fun _ => ne_spanChars (by decide) (by decide)
  have hspan : ∀ r : List Char, " removed]".toList ≠ " replaced by".toList ++ r := fun r heq =>
    append_ne_of_getElem? (r := []) 3 (by decide) (by decide) (by decide)
      ((List.append_nil _).trans heq)
  unfold Delta.change at h
  by_cases hr : d.removed = 0
  · rw [if_pos hr] at h
    by_cases hr' : d'.removed = 0
    · rw [if_pos hr'] at h
      split_ifs at h with hb hb' hb'
      · have hbody : bodyChars d.inserted = bodyChars d'.inserted := List.append_cancel_left h
        exact Delta.ext (hb.trans hb'.symm) (hr.trans hr'.symm)
          (bodyChars_inj (hd hr) (hd' hr') hls hls' hbody)
      · exact absurd h (hat _ _)
      · exact absurd h.symm (hat _ _)
      · have hnumber : d.before.repr.toList ++ bodyChars d.inserted =
            d'.before.repr.toList ++ bodyChars d'.inserted := List.append_cancel_left h
        obtain ⟨heq, hbody⟩ := repr_bodyChars_inj hnumber
        exact Delta.ext heq (hr.trans hr'.symm) (bodyChars_inj (hd hr) (hd' hr') hls hls' hbody)
    · rw [if_neg hr'] at h
      by_cases hb : d.before = 0
      · rw [if_pos hb] at h
        exact absurd h (hstart _ _ _ _)
      · rw [if_neg hb] at h
        exact absurd h (hafter _ _ _ _)
  · rw [if_neg hr] at h
    by_cases hr' : d'.removed = 0
    · rw [if_pos hr'] at h
      by_cases hb : d'.before = 0
      · rw [if_pos hb] at h
        exact absurd h.symm (hstart _ _ _ _)
      · rw [if_neg hb] at h
        exact absurd h.symm (hafter _ _ _ _)
    · rw [if_neg hr'] at h
      obtain ⟨hbefore, hremoved, hrest⟩ := spanChars_inj h
      refine Delta.ext hbefore hremoved ?_
      split_ifs at hrest with hi hi' hi'
      · exact hi.trans hi'.symm
      · exact absurd hrest (hspan _)
      · exact absurd hrest.symm (hspan _)
      · exact bodyChars_inj hi hi' hls hls' (List.append_cancel_left hrest)

/-- A text of a delta stub is read in one way only. -/
theorem text_inj {id stub : String} {d d' : Delta} (hd : d.text id = some stub)
    (hd' : d'.text id = some stub) (hls : ∀ l ∈ d.inserted, '\n' ∉ l.toList)
    (hls' : ∀ l ∈ d'.inserted, '\n' ∉ l.toList) : d = d' := by
  obtain ⟨hchars, hne⟩ := toList_text hd
  obtain ⟨hchars', hne'⟩ := toList_text hd'
  rw [hchars] at hchars'
  exact change_inj hne hne' hls hls' (List.append_cancel_left hchars')

end Text

end LeanCtx.ToolDedup
