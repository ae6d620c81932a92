import LeanCtx.Json
import LeanCtx.JsonText

/-!
# JSON values as texts

The compact text of a value. No two values have one text, so a reader that
undoes the printer exists. A float is written as a fraction: how it is spelled
does not matter here, only that the spelling is its own.
-/

namespace LeanCtx

open JsonText

/-! ## Numbers -/

def intChars (z : ℤ) : List Char :=
  if z < 0 then '-' :: z.natAbs.repr.toList else z.natAbs.repr.toList

def JsonNumber.chars : JsonNumber → List Char
  | .posInt n => n.toNat.repr.toList
  | .negInt z => if z < 0 then '-' :: z.natAbs.repr.toList else '+' :: z.natAbs.repr.toList
  | .float q => '#' :: (intChars q.num ++ '/' :: q.den.repr.toList)

theorem repr_head (n : ℕ) : ∃ c t, n.repr.toList = c :: t ∧ c.isDigit = true := by
  have hne : n.repr.toList ≠ [] := by simp [Nat.toList_repr]
  obtain ⟨c, t, hct⟩ := List.exists_cons_of_ne_nil hne
  refine ⟨c, t, hct, ?_⟩
  have hmem : c ∈ Nat.toDigits 10 n := by
    rw [← Nat.toList_repr, hct]
    exact List.mem_cons_self
  exact Nat.isDigit_of_mem_toDigits (by decide) (by decide) hmem

theorem repr_ended_inj {m n : ℕ} {r r' : List Char} (hr : Ended r) (hr' : Ended r')
    (h : m.repr.toList ++ r = n.repr.toList ++ r') : m = n ∧ r = r' := by
  obtain ⟨c, t, rfl, hc⟩ := hr
  obtain ⟨c', t', rfl, hc'⟩ := hr'
  obtain ⟨rfl, -⟩ := repr_append_inj hc hc' h
  exact ⟨rfl, List.append_cancel_left h⟩

/-- Digits never start with a sign. -/
theorem repr_ne_sign {n : ℕ} {c : Char} {r r' : List Char} (hc : c.isDigit = false)
    (h : n.repr.toList ++ r = c :: r') : False := by
  obtain ⟨d, t, hd, hdigit⟩ := repr_head n
  rw [hd, List.cons_append] at h
  rw [(List.cons.inj h).1, hc] at hdigit
  cases hdigit

theorem intChars_inj {y z : ℤ} {r r' : List Char} (hr : Ended r) (hr' : Ended r')
    (h : intChars y ++ r = intChars z ++ r') : y = z ∧ r = r' := by
  unfold intChars at h
  split_ifs at h with hy hz hz
  · obtain ⟨habs, hrest⟩ := repr_ended_inj hr hr' (List.cons.inj h).2
    exact ⟨by omega, hrest⟩
  · exact (repr_ne_sign (by decide) h.symm).elim
  · exact (repr_ne_sign (by decide) h).elim
  · obtain ⟨habs, hrest⟩ := repr_ended_inj hr hr' h
    exact ⟨by omega, hrest⟩

theorem JsonNumber.chars_inj {m n : JsonNumber} {r r' : List Char} (hr : Ended r)
    (hr' : Ended r') (h : m.chars ++ r = n.chars ++ r') : m = n ∧ r = r' := by
  have hslash : ∀ t, Ended ('/' :: t) := fun t => ⟨'/', t, rfl, by decide⟩
  cases m with
  | posInt a =>
    cases n with
    | posInt b =>
      obtain ⟨heq, hrest⟩ := repr_ended_inj hr hr' h
      rw [UInt64.toNat_inj.mp heq]
      exact ⟨rfl, hrest⟩
    | negInt z =>
      simp only [chars] at h
      split_ifs at h
      · exact (repr_ne_sign (by decide) h).elim
      · exact (repr_ne_sign (by decide) h).elim
    | float q => exact (repr_ne_sign (by decide) h).elim
  | negInt y =>
    cases n with
    | posInt b =>
      simp only [chars] at h
      split_ifs at h
      · exact (repr_ne_sign (by decide) h.symm).elim
      · exact (repr_ne_sign (by decide) h.symm).elim
    | negInt z =>
      simp only [chars] at h
      split_ifs at h with hy hz hz
      · obtain ⟨habs, hrest⟩ := repr_ended_inj hr hr' (List.cons.inj h).2
        exact ⟨by rw [show y = z by omega], hrest⟩
      · exact absurd (List.cons.inj h).1 (by decide)
      · exact absurd (List.cons.inj h).1 (by decide)
      · obtain ⟨habs, hrest⟩ := repr_ended_inj hr hr' (List.cons.inj h).2
        exact ⟨by rw [show y = z by omega], hrest⟩
    | float q =>
      simp only [chars] at h
      split_ifs at h
      · exact absurd (List.cons.inj h).1 (by decide)
      · exact absurd (List.cons.inj h).1 (by decide)
  | float p =>
    cases n with
    | posInt b => exact (repr_ne_sign (by decide) h.symm).elim
    | negInt z =>
      simp only [chars] at h
      split_ifs at h
      · exact absurd (List.cons.inj h).1 (by decide)
      · exact absurd (List.cons.inj h).1 (by decide)
    | float q =>
      simp only [chars, List.cons_append, List.append_assoc] at h
      obtain ⟨hnum, hden⟩ := intChars_inj (hslash _) (hslash _) (List.cons.inj h).2
      obtain ⟨hden, hrest⟩ := repr_ended_inj hr hr' (List.cons.inj hden).2
      rw [Rat.ext hnum hden]
      exact ⟨rfl, hrest⟩

/-! ## Values -/

namespace Json

mutual

def chars : Json → List Char
  | null => "null".toList
  | bool b => if b then "true".toList else "false".toList
  | number n => n.chars
  | string s => quote s
  | array items => '[' :: charsItems true items
  | object entries => '{' :: charsEntries true entries

/-- The elements, separated from what stands before them unless they come first. -/
def charsItems (first : Bool) : List Json → List Char
  | [] => [']']
  | v :: rest => (if first then [] else [',']) ++ (v.chars ++ charsItems false rest)

def charsEntries (first : Bool) : List (String × Json) → List Char
  | [] => ['}']
  | (key, v) :: rest => (if first then [] else [',']) ++
    (quote key ++ ':' :: (v.chars ++ charsEntries false rest))

end

def text (v : Json) : String := String.ofList v.chars

/-- The kind of a value, as its first character shows it. -/
def kind : Json → ℕ
  | null => 0
  | bool _ => 1
  | number _ => 2
  | string _ => 3
  | array _ => 4
  | object _ => 5

def charKind (c : Char) : ℕ :=
  if c = 'n' then 0 else if c = 't' ∨ c = 'f' then 1 else if c = '"' then 3
  else if c = '[' then 4 else if c = '{' then 5 else if c = ']' then 6 else 2

theorem chars_kind (v : Json) : ∃ c t, v.chars = c :: t ∧ charKind c = v.kind := by
  have hdigit : ∀ c : Char, c.isDigit = true → charKind c = 2 := by
    intro c hc
    have hne : c ≠ 'n' ∧ c ≠ 't' ∧ c ≠ 'f' ∧ c ≠ '"' ∧ c ≠ '[' ∧ c ≠ '{' ∧ c ≠ ']' := by
      refine ⟨?_, ?_, ?_, ?_, ?_, ?_, ?_⟩ <;> rintro rfl <;> cases hc
    simp [charKind, hne]
  cases v with
  | null => exact ⟨'n', _, rfl, rfl⟩
  | bool b => cases b <;> exact ⟨_, _, rfl, rfl⟩
  | number n =>
    cases n with
    | posInt n =>
      obtain ⟨c, t, hct, hc⟩ := repr_head n.toNat
      exact ⟨c, t, hct, hdigit c hc⟩
    | negInt z =>
      simp only [chars, JsonNumber.chars]
      split_ifs
      · exact ⟨_, _, rfl, rfl⟩
      · exact ⟨_, _, rfl, rfl⟩
    | float q => exact ⟨_, _, rfl, rfl⟩
  | string s => exact ⟨_, _, rfl, rfl⟩
  | array items => exact ⟨_, _, rfl, rfl⟩
  | object entries => exact ⟨_, _, rfl, rfl⟩

theorem kind_of_append {a b : Json} {r r' : List Char} (h : a.chars ++ r = b.chars ++ r') :
    a.kind = b.kind := by
  obtain ⟨c, t, hc, hkind⟩ := a.chars_kind
  obtain ⟨c', t', hc', hkind'⟩ := b.chars_kind
  rw [hc, hc', List.cons_append, List.cons_append] at h
  rw [← hkind, ← hkind', (List.cons.inj h).1]

/-- A text after which a value can be told apart from what follows it. -/
def ReadsBack (a : Json) : Prop :=
  ∀ {b : Json} {r r' : List Char}, Ended r → Ended r' → a.chars ++ r = b.chars ++ r' →
    a = b ∧ r = r'

theorem charsItems_ended (items : List Json) (r : List Char) :
    Ended (charsItems false items ++ r) := by
  cases items with
  | nil => exact ⟨']', r, rfl, by decide⟩
  | cons v rest => exact ⟨',', _, rfl, by decide⟩

theorem charsEntries_ended (entries : List (String × Json)) (r : List Char) :
    Ended (charsEntries false entries ++ r) := by
  cases entries with
  | nil => exact ⟨'}', r, rfl, by decide⟩
  | cons e rest => exact ⟨',', _, rfl, by decide⟩

theorem charsItems_ne {first : Bool} {v : Json} {rest : List Json} {r r' : List Char} :
    charsItems first [] ++ r ≠ charsItems first (v :: rest) ++ r' := by
  intro h
  cases first with
  | false => exact absurd (List.cons.inj h).1 (by decide)
  | true =>
    obtain ⟨c, t, hc, hkind⟩ := v.chars_kind
    simp only [charsItems, hc, if_true, List.nil_append, List.cons_append] at h
    rw [← (List.cons.inj h).1] at hkind
    cases v <;> cases hkind

theorem charsItems_inj {items : List Json} (hitems : ∀ v ∈ items, v.ReadsBack) {first : Bool}
    {items' : List Json} {r r' : List Char}
    (h : charsItems first items ++ r = charsItems first items' ++ r') :
    items = items' ∧ r = r' := by
  induction items generalizing first items' with
  | nil =>
    cases items' with
    | nil => exact ⟨rfl, List.append_cancel_left h⟩
    | cons v rest => exact absurd h charsItems_ne
  | cons v rest ih =>
    cases items' with
    | nil => exact absurd h.symm charsItems_ne
    | cons v' rest' =>
      obtain ⟨hv, hrest⟩ := List.forall_mem_cons.mp hitems
      simp only [charsItems, List.append_assoc, List.append_cancel_left_eq] at h
      obtain ⟨rfl, htail⟩ := hv (charsItems_ended rest r) (charsItems_ended rest' r') h
      obtain ⟨rfl, hr⟩ := ih hrest htail
      exact ⟨rfl, hr⟩

theorem charsEntries_ne {first : Bool} {e : String × Json} {rest : List (String × Json)}
    {r r' : List Char} : charsEntries first [] ++ r ≠ charsEntries first (e :: rest) ++ r' := by
  intro h
  cases first with
  | false => exact absurd (List.cons.inj h).1 (by decide)
  | true => exact absurd (List.cons.inj h).1 (by decide)

theorem charsEntries_inj {entries : List (String × Json)}
    (hentries : ∀ e ∈ entries, e.2.ReadsBack) {first : Bool} {entries' : List (String × Json)}
    {r r' : List Char} (h : charsEntries first entries ++ r = charsEntries first entries' ++ r') :
    entries = entries' ∧ r = r' := by
  induction entries generalizing first entries' with
  | nil =>
    cases entries' with
    | nil => exact ⟨rfl, List.append_cancel_left h⟩
    | cons e rest => exact absurd h charsEntries_ne
  | cons e rest ih =>
    cases entries' with
    | nil => exact absurd h.symm charsEntries_ne
    | cons e' rest' =>
      obtain ⟨key, v⟩ := e
      obtain ⟨key', v'⟩ := e'
      obtain ⟨hv, hrest⟩ := List.forall_mem_cons.mp hentries
      simp only [charsEntries, List.append_assoc, List.append_cancel_left_eq] at h
      obtain ⟨rfl, hvalue⟩ := quote_append_inj h
      simp only [List.cons_append, List.append_assoc, List.cons.injEq, true_and] at hvalue
      obtain ⟨hval, htail⟩ := hv (charsEntries_ended rest r) (charsEntries_ended rest' r') hvalue
      obtain ⟨rfl, hr⟩ := ih hrest htail
      obtain rfl : v = v' := hval
      exact ⟨rfl, hr⟩

theorem readsBack (v : Json) : v.ReadsBack := by
  induction v using tree_induction with
  | null =>
    intro b r r' _ _ h
    cases b with
    | null => exact ⟨rfl, List.append_cancel_left h⟩
    | _ => cases kind_of_append h
  | bool p =>
    intro b r r' _ _ h
    cases b with
    | bool q =>
      cases p <;> cases q
      · exact ⟨rfl, List.append_cancel_left h⟩
      · exact absurd (List.cons.inj h).1 (by decide)
      · exact absurd (List.cons.inj h).1 (by decide)
      · exact ⟨rfl, List.append_cancel_left h⟩
    | _ => cases kind_of_append h
  | number m =>
    intro b r r' hr hr' h
    cases b with
    | number n =>
      obtain ⟨rfl, hrest⟩ := JsonNumber.chars_inj hr hr' h
      exact ⟨rfl, hrest⟩
    | _ => cases kind_of_append h
  | string s =>
    intro b r r' _ _ h
    cases b with
    | string s' =>
      obtain ⟨rfl, hrest⟩ := quote_append_inj h
      exact ⟨rfl, hrest⟩
    | _ => cases kind_of_append h
  | array items ih =>
    intro b r r' _ _ h
    cases b with
    | array items' =>
      obtain ⟨rfl, hrest⟩ := charsItems_inj ih (List.cons.inj h).2
      exact ⟨rfl, hrest⟩
    | _ => cases kind_of_append h
  | object entries ih =>
    intro b r r' _ _ h
    cases b with
    | object entries' =>
      obtain ⟨rfl, hrest⟩ := charsEntries_inj ih (List.cons.inj h).2
      exact ⟨rfl, hrest⟩
    | _ => cases kind_of_append h

theorem text_inj {a b : Json} (h : a.text = b.text) : a = b := by
  have hchars : a.chars = b.chars := String.ofList_injective h
  have hend : Ended ['\n'] := ⟨'\n', [], rfl, by decide⟩
  exact (a.readsBack hend hend (by rw [hchars])).1

open Classical in
/-- The value of a text. -/
noncomputable def ofText (text : String) : Option Json :=
  if h : ∃ v : Json, v.text = text then some h.choose else none

theorem ofText_text (v : Json) : ofText v.text = some v := by
  have h : ∃ w : Json, w.text = v.text := ⟨v, rfl⟩
  rw [ofText, dif_pos h, text_inj h.choose_spec]

end Json

end LeanCtx
