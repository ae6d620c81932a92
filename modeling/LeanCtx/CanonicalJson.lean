import LeanCtx.ByteText
import LeanCtx.JsonText
import LeanCtx.KeyedList

/-!
# Canonical JSON

A value has its members in the order they were given in. Its canonical form
lists them by key, at every depth, and the compact text of that form is the one
byte string of the value. The engine and the offline verifier each have their
own code for it; the verifier accepts only canonical bytes.
-/

namespace LeanCtx.CanonicalJson

open KeyedList JsonText ByteText

variable {ν : Type}

/-! ## Values -/

/-- A value over numbers of some kind. -/
inductive Value (ν : Type)
  | null
  | bool (value : Bool)
  | number (value : ν)
  | string (value : String)
  | array (items : List (Value ν))
  | object (entries : List (String × Value ν))

/-- What a value stands for: an object is a map from keys to values. -/
inductive Meaning (ν : Type)
  | null
  | bool (value : Bool)
  | number (value : ν)
  | string (value : String)
  | array (items : List (Meaning ν))
  | object (members : String → Option (Meaning ν))

namespace Value

/-- Induction over a value: the parts of an array and of an object come before it. -/
@[elab_as_elim]
theorem value_induction {motive : Value ν → Prop} (null : motive null)
    (bool : ∀ b, motive (bool b)) (number : ∀ n, motive (number n))
    (string : ∀ s, motive (string s))
    (array : ∀ items, (∀ v ∈ items, motive v) → motive (array items))
    (object : ∀ entries, (∀ e ∈ entries, motive e.2) → motive (object entries)) (v : Value ν) :
    motive v :=
  @Value.rec ν motive (fun items => ∀ v ∈ items, motive v)
    (fun entries => ∀ e ∈ entries, motive e.2) (fun e => motive e.2) null bool number string array
    object nofun (fun _ _ hv hrest => List.forall_mem_cons.mpr ⟨hv, hrest⟩) nofun
    (fun _ _ he hrest => List.forall_mem_cons.mpr ⟨he, hrest⟩) (fun _ _ h => h) v

mutual

def meaning : Value ν → Meaning ν
  | null => .null
  | bool b => .bool b
  | number n => .number n
  | string s => .string s
  | array items => .array (meaningItems items)
  | object entries => .object fun key => (meaningEntries entries).lookup key

def meaningItems : List (Value ν) → List (Meaning ν)
  | [] => []
  | v :: rest => v.meaning :: meaningItems rest

def meaningEntries : List (String × Value ν) → List (String × Meaning ν)
  | [] => []
  | (key, v) :: rest => (key, v.meaning) :: meaningEntries rest

end

mutual

/-- No object inside has a key twice. -/
def Distinct : Value ν → Prop
  | array items => DistinctItems items
  | object entries => (entries.map Prod.fst).Nodup ∧ DistinctEntries entries
  | _ => True

def DistinctItems : List (Value ν) → Prop
  | [] => True
  | v :: rest => v.Distinct ∧ DistinctItems rest

def DistinctEntries : List (String × Value ν) → Prop
  | [] => True
  | (_, v) :: rest => v.Distinct ∧ DistinctEntries rest

end

end Value

open Value

/-! ## The engine -/

mutual

def sortJson : Value ν → Value ν
  | .object entries => .object (putAll [] (sortJsonEntries entries))
  | .array values => .array (sortJsonItems values)
  | scalar => scalar

def sortJsonItems : List (Value ν) → List (Value ν)
  | [] => []
  | v :: rest => sortJson v :: sortJsonItems rest

def sortJsonEntries : List (String × Value ν) → List (String × Value ν)
  | [] => []
  | (key, v) :: rest => (key, sortJson v) :: sortJsonEntries rest

end

def canonicalValue (value : Value ν) : Value ν := sortJson value

/-- How numbers are written: each in its own way, with the characters of numbers. -/
structure Numbers (ν : Type) where
  text : ν → List Char
  text_inj : Function.Injective text
  text_ne_nil : ∀ n, text n ≠ []
  text_chars : ∀ n, ∀ c ∈ text n, c.isDigit = true ∨ c ∈ ['+', '-', '.', 'e', 'E']
  isFloat : ν → Bool

variable (num : Numbers ν)

mutual

/-- The compact text of a value. -/
def chars : Value ν → List Char
  | .null => "null".toList
  | .bool b => if b then "true".toList else "false".toList
  | .number n => num.text n
  | .string s => quote s
  | .array items => '[' :: charsItems true items
  | .object entries => '{' :: charsEntries true entries

def charsItems (first : Bool) : List (Value ν) → List Char
  | [] => [']']
  | v :: rest => (if first then [] else [',']) ++ (chars v ++ charsItems false rest)

def charsEntries (first : Bool) : List (String × Value ν) → List Char
  | [] => ['}']
  | (key, v) :: rest => (if first then [] else [',']) ++
    (quote key ++ ':' :: (chars v ++ charsEntries false rest))

end

def toVec (value : Value ν) : Bytes := utf8 (String.ofList (chars num value))

def canonicalJsonBytes (value : Value ν) : Bytes := toVec num (sortJson value)

/-! ## The verifier -/

mutual

def sortValue : Value ν → Value ν
  | .array values => .array (sortValueItems values)
  | .object values => .object (putAll [] (sortValueEntries values))
  | scalar => scalar

def sortValueItems : List (Value ν) → List (Value ν)
  | [] => []
  | v :: rest => sortValue v :: sortValueItems rest

def sortValueEntries : List (String × Value ν) → List (String × Value ν)
  | [] => []
  | (key, v) :: rest => (key, sortValue v) :: sortValueEntries rest

end

def canonicalBytes (value : Value ν) : Bytes := toVec num (sortValue value)

mutual

/-- What the strict visitor makes of what was read: no floats, and no key twice. -/
def strict : Value ν → Option (Value ν)
  | .number n => if num.isFloat n then none else some (.number n)
  | .array items => (strictItems items).map .array
  | .object entries => (strictEntries [] entries).map .object
  | scalar => some scalar

def strictItems : List (Value ν) → Option (List (Value ν))
  | [] => some []
  | v :: rest => (strict v).bind fun v' => (strictItems rest).map (v' :: ·)

def strictEntries (values : List (String × Value ν)) :
    List (String × Value ν) → Option (List (String × Value ν))
  | [] => some values
  | (key, v) :: rest =>
    if (values.lookup key).isSome then none
    else (strict v).bind fun v' => strictEntries (put key v' values) rest

end

namespace Value

mutual

/-- Nested at most so deep. -/
def within : ℕ → Value ν → Bool
  | 0, array _ | 0, object _ => false
  | depth + 1, array items => withinItems depth items
  | depth + 1, object entries => withinEntries depth entries
  | _, _ => true

def withinItems : ℕ → List (Value ν) → Bool
  | _, [] => true
  | depth, v :: rest => within depth v && withinItems depth rest

def withinEntries : ℕ → List (String × Value ν) → Bool
  | _, [] => true
  | depth, (_, v) :: rest => within depth v && withinEntries depth rest

end

end Value

mutual

def floatFree : Value ν → Bool
  | .number n => !num.isFloat n
  | .array items => floatFreeItems items
  | .object entries => floatFreeEntries entries
  | _ => true

def floatFreeItems : List (Value ν) → Bool
  | [] => true
  | v :: rest => floatFree v && floatFreeItems rest

def floatFreeEntries : List (String × Value ν) → Bool
  | [] => true
  | (_, v) :: rest => floatFree v && floatFreeEntries rest

end

/-- `serde_json` as a reader: the members in the order of the text, nested up to its limit, and
what was written without floats is read back. -/
structure Reader where
  limit : ℕ
  read : Bytes → Option (Value ν)
  read_within : ∀ raw v, read raw = some v → v.within limit = true
  read_toVec : ∀ v : Value ν, v.within limit = true → floatFree num v = true →
    read (toVec num v) = some v

variable {num} (reader : Reader num)

def Reader.strictParse (raw : Bytes) : Option (Value ν) := (reader.read raw).bind (strict num)

/-- The reader's own message follows the first of the two errors. -/
def Reader.parseCanonicalJson (raw : Bytes) (label : String) : Except String (Value ν) :=
  match reader.strictParse raw with
  | none => .error (label ++ " is not strict JSON: ")
  | some value =>
    if raw ≠ canonicalBytes num value then
      .error (label ++ " is not canonical compact sorted UTF-8 JSON")
    else .ok value

/-! ## Canonical form -/

theorem meaningItems_eq (items : List (Value ν)) : meaningItems items = items.map meaning := by
  induction items with
  | nil => rfl
  | cons v items ih => rw [meaningItems, ih, List.map_cons]

theorem meaningEntries_eq (entries : List (String × Value ν)) :
    meaningEntries entries = mapValues meaning entries := by
  induction entries with
  | nil => rfl
  | cons e entries ih => rw [meaningEntries, ih]; rfl

theorem sortJsonItems_eq (items : List (Value ν)) : sortJsonItems items = items.map sortJson := by
  induction items with
  | nil => rfl
  | cons v items ih => rw [sortJsonItems, ih, List.map_cons]

theorem sortJsonEntries_eq (entries : List (String × Value ν)) :
    sortJsonEntries entries = mapValues sortJson entries := by
  induction entries with
  | nil => rfl
  | cons e entries ih => rw [sortJsonEntries, ih]; rfl

theorem distinctItems_iff {items : List (Value ν)} :
    DistinctItems items ↔ ∀ v ∈ items, v.Distinct := by
  induction items with
  | nil => simp [DistinctItems]
  | cons v items ih => rw [DistinctItems, ih, List.forall_mem_cons]

theorem distinctEntries_iff {entries : List (String × Value ν)} :
    DistinctEntries entries ↔ ∀ e ∈ entries, e.2.Distinct := by
  induction entries with
  | nil => simp [DistinctEntries]
  | cons e entries ih => rw [DistinctEntries, ih, List.forall_mem_cons]

/-- The two sides sort alike. -/
theorem sortValue_eq (v : Value ν) : sortValue v = sortJson v := by
  induction v using value_induction with
  | array items ih =>
    have hitems : sortValueItems items = sortJsonItems items := by
      induction items with
      | nil => rfl
      | cons v items ih' =>
        obtain ⟨hv, hitems⟩ := List.forall_mem_cons.mp ih
        rw [sortValueItems, hv, ih' hitems, sortJsonItems]
    rw [sortValue, hitems, sortJson]
  | object entries ih =>
    have hentries : sortValueEntries entries = sortJsonEntries entries := by
      induction entries with
      | nil => rfl
      | cons e entries ih' =>
        obtain ⟨he, hentries⟩ := List.forall_mem_cons.mp ih
        rw [sortValueEntries, he, ih' hentries, sortJsonEntries]
    rw [sortValue, hentries, sortJson]
  | _ => rfl

theorem keys_mapValues {α β : Type} (f : α → β) (l : List (String × α)) :
    (mapValues f l).map Prod.fst = l.map Prod.fst := by
  rw [mapValues, List.map_map]
  rfl

mutual

/-- Every object lists its keys in order. -/
def Sorted : Value ν → Prop
  | .array items => SortedItems items
  | .object entries => Ascending entries ∧ SortedEntries entries
  | _ => True

def SortedItems : List (Value ν) → Prop
  | [] => True
  | v :: rest => Sorted v ∧ SortedItems rest

def SortedEntries : List (String × Value ν) → Prop
  | [] => True
  | (_, v) :: rest => Sorted v ∧ SortedEntries rest

end

theorem sortedItems_iff {items : List (Value ν)} : SortedItems items ↔ ∀ v ∈ items, Sorted v := by
  induction items with
  | nil => simp [SortedItems]
  | cons v items ih => rw [SortedItems, ih, List.forall_mem_cons]

theorem sortedEntries_iff {entries : List (String × Value ν)} :
    SortedEntries entries ↔ ∀ e ∈ entries, Sorted e.2 := by
  induction entries with
  | nil => simp [SortedEntries]
  | cons e entries ih => rw [SortedEntries, ih, List.forall_mem_cons]

theorem sorted_sortJson (v : Value ν) : Sorted (sortJson v) := by
  induction v using value_induction with
  | array items ih =>
    rw [sortJson, Sorted, sortedItems_iff, sortJsonItems_eq, List.forall_mem_map]
    exact ih
  | object entries ih =>
    rw [sortJson, Sorted, sortedEntries_iff, sortJsonEntries_eq]
    refine ⟨Ascending.putAll List.Pairwise.nil, ?_⟩
    intro e he
    rcases mem_putAll he with he | he
    · cases he
    · obtain ⟨e', he', rfl⟩ := List.mem_map.mp he
      exact ih e' he'
  | _ => trivial

/-- Sorting changes nothing where everything is in order. -/
theorem Sorted.sortJson_eq {v : Value ν} (h : Sorted v) : sortJson v = v := by
  induction v using value_induction with
  | array items ih =>
    rw [Sorted, sortedItems_iff] at h
    rw [sortJson, sortJsonItems_eq, List.map_congr_left fun v hv => ih v hv (h v hv), List.map_id']
  | object entries ih =>
    rw [Sorted, sortedEntries_iff] at h
    have hentries : mapValues sortJson entries = entries := by
      rw [mapValues, List.map_congr_left fun e he => by rw [ih e he (h.2 e he)], List.map_id']
    rw [sortJson, sortJsonEntries_eq, hentries, putAll_nil h.1]
  | _ => rfl

/-- The canonical form of a value stands for the same as the value. -/
theorem meaning_sortJson {v : Value ν} (h : v.Distinct) : (sortJson v).meaning = v.meaning := by
  induction v using value_induction with
  | array items ih =>
    rw [Distinct, distinctItems_iff] at h
    rw [sortJson, meaning, meaning, meaningItems_eq, meaningItems_eq, sortJsonItems_eq,
      List.map_map]
    congr 1
    apply List.map_congr_left
    exact fun v hv => ih v hv (h v hv)
  | object entries ih =>
    rw [Distinct, distinctEntries_iff] at h
    rw [sortJson, meaning, meaning, meaningEntries_eq, meaningEntries_eq, sortJsonEntries_eq]
    congr 1
    funext key
    rw [lookup_mapValues, lookup_mapValues, lookup_putAll_nil (by rw [keys_mapValues]; exact h.1),
      lookup_mapValues]
    cases hv : entries.lookup key with
    | none => rfl
    | some v => exact congrArg some (ih _ (mem_of_lookup hv) (h.2 _ (mem_of_lookup hv)))
  | _ => rfl

theorem map_inj_of_forall {α β : Type} {f : α → β} {l m : List α}
    (hinj : ∀ a ∈ l, ∀ b ∈ m, f a = f b → a = b) (h : l.map f = m.map f) : l = m := by
  induction l generalizing m with
  | nil => exact (List.map_eq_nil_iff.mp h.symm).symm
  | cons a l ih =>
    cases m with
    | nil => cases h
    | cons b m =>
      obtain ⟨hab, hrest⟩ := List.cons.inj h
      rw [hinj a List.mem_cons_self b List.mem_cons_self hab]
      congr 1
      exact ih (fun a ha b hb => hinj a (List.mem_cons_of_mem _ ha) b (List.mem_cons_of_mem _ hb))
        hrest

/-- Values in canonical form that stand for the same are the same. -/
theorem Sorted.meaning_inj {a b : Value ν} (ha : Sorted a) (hb : Sorted b)
    (h : a.meaning = b.meaning) : a = b := by
  induction a using value_induction generalizing b with
  | array items ih =>
    cases b with
    | array items' =>
      rw [Sorted, sortedItems_iff] at ha hb
      rw [meaning, meaning, meaningItems_eq, meaningItems_eq] at h
      congr 1
      refine map_inj_of_forall (fun v hv w hw => ?_) (Meaning.array.inj h)
      exact ih v hv (ha v hv) (hb w hw)
    | _ => cases h
  | object entries ih =>
    cases b with
    | object entries' =>
      rw [Sorted, sortedEntries_iff] at ha hb
      rw [meaning, meaning, meaningEntries_eq, meaningEntries_eq] at h
      have hmembers := Meaning.object.inj h
      congr 1
      apply Ascending.ext ha.1 hb.1
      intro key
      have hkey := congrFun hmembers key
      rw [lookup_mapValues, lookup_mapValues] at hkey
      cases hv : entries.lookup key with
      | none =>
        rw [hv, Option.map_none] at hkey
        exact (Option.map_eq_none_iff.mp hkey.symm).symm
      | some v =>
        rw [hv, Option.map_some] at hkey
        obtain ⟨v', hv', hmeaning⟩ := Option.map_eq_some_iff.mp hkey.symm
        rw [hv']
        exact congrArg some (ih _ (mem_of_lookup hv) (ha.2 _ (mem_of_lookup hv))
          (hb.2 _ (mem_of_lookup hv')) hmeaning.symm)
    | _ => cases h
  | _ => cases b <;> cases h; rfl

/-! ## The text is the value's own -/

def isNumeric (c : Char) : Bool := c.isDigit || ['+', '-', '.', 'e', 'E'].contains c

/-- What may follow a value: no character of a number. -/
def Ends (r : List Char) : Prop := ∀ c ∈ r.head?, isNumeric c = false

theorem numeric_text (n : ν) : ∀ c ∈ num.text n, isNumeric c = true := by
  intro c hc
  have h := num.text_chars n c hc
  rw [isNumeric, Bool.or_eq_true, List.contains_iff_mem]
  exact h

theorem text_append_inj {m n : ν} {r r' : List Char} (hr : Ends r) (hr' : Ends r')
    (h : num.text m ++ r = num.text n ++ r') : m = n ∧ r = r' := by
  have hspan : ∀ (k : ν) (t : List Char), Ends t →
      (num.text k ++ t).takeWhile isNumeric = num.text k := by
    intro k t ht
    rw [List.takeWhile_append_of_pos (numeric_text k)]
    cases t with
    | nil => rw [List.takeWhile_nil, List.append_nil]
    | cons c t =>
      rw [List.takeWhile_cons_of_neg (by rw [ht c rfl]; decide), List.append_nil]
  have htake := congrArg (List.takeWhile isNumeric) h
  rw [hspan m r hr, hspan n r' hr'] at htake
  obtain rfl := num.text_inj htake
  exact ⟨rfl, List.append_cancel_left h⟩

/-- The kind of a value, as its first character shows it. -/
def kind : Value ν → ℕ
  | .null => 0
  | .bool _ => 1
  | .number _ => 2
  | .string _ => 3
  | .array _ => 4
  | .object _ => 5

def charKind (c : Char) : ℕ :=
  if c = 'n' then 0 else if c = 't' ∨ c = 'f' then 1 else if c = '"' then 3
  else if c = '[' then 4 else if c = '{' then 5 else if c = ']' then 6 else 2

theorem chars_kind (num : Numbers ν) (v : Value ν) :
    ∃ c t, chars num v = c :: t ∧ charKind c = kind v := by
  cases v with
  | null => exact ⟨'n', _, rfl, rfl⟩
  | bool b => cases b <;> exact ⟨_, _, rfl, rfl⟩
  | number n =>
    obtain ⟨c, t, hct⟩ := List.exists_cons_of_ne_nil (num.text_ne_nil n)
    refine ⟨c, t, hct, ?_⟩
    have hc : isNumeric c = true := numeric_text n c (by rw [hct]; exact List.mem_cons_self)
    have hne : c ≠ 'n' ∧ c ≠ 't' ∧ c ≠ 'f' ∧ c ≠ '"' ∧ c ≠ '[' ∧ c ≠ '{' ∧ c ≠ ']' := by
      refine ⟨?_, ?_, ?_, ?_, ?_, ?_, ?_⟩ <;> rintro rfl <;> cases hc
    simp [charKind, hne, kind]
  | string s => exact ⟨_, _, rfl, rfl⟩
  | array items => exact ⟨_, _, rfl, rfl⟩
  | object entries => exact ⟨_, _, rfl, rfl⟩

theorem kind_of_append {a b : Value ν} {r r' : List Char}
    (h : chars num a ++ r = chars num b ++ r') : kind a = kind b := by
  obtain ⟨c, t, hc, hkind⟩ := chars_kind num a
  obtain ⟨c', t', hc', hkind'⟩ := chars_kind num b
  rw [hc, hc', List.cons_append, List.cons_append] at h
  rw [← hkind, ← hkind', (List.cons.inj h).1]

/-- A value whose text can be told apart from what follows it. -/
def ReadsBack (num : Numbers ν) (a : Value ν) : Prop :=
  ∀ {b : Value ν} {r r' : List Char}, Ends r → Ends r' →
    chars num a ++ r = chars num b ++ r' → a = b ∧ r = r'

theorem charsItems_ends (items : List (Value ν)) (r : List Char) :
    Ends (charsItems num false items ++ r) := by
  cases items with
  | nil => exact fun c hc => Option.some.inj hc ▸ rfl
  | cons v rest => exact fun c hc => Option.some.inj hc ▸ rfl

theorem charsEntries_ends (entries : List (String × Value ν)) (r : List Char) :
    Ends (charsEntries num false entries ++ r) := by
  cases entries with
  | nil => exact fun c hc => Option.some.inj hc ▸ rfl
  | cons e rest => exact fun c hc => Option.some.inj hc ▸ rfl

/-- An empty array ends where another goes on. -/
theorem charsItems_ne {first : Bool} {v : Value ν} {rest : List (Value ν)} {r r' : List Char} :
    charsItems num first [] ++ r ≠ charsItems num first (v :: rest) ++ r' := by
  intro h
  cases first with
  | false => exact absurd (List.cons.inj h).1 (by decide)
  | true =>
    obtain ⟨c, t, hc, hkind⟩ := chars_kind num v
    simp only [charsItems, hc, if_true, List.nil_append, List.cons_append] at h
    rw [← (List.cons.inj h).1] at hkind
    cases v <;> cases hkind

theorem charsItems_inj {items : List (Value ν)} (hitems : ∀ v ∈ items, ReadsBack num v)
    {first : Bool} {items' : List (Value ν)} {r r' : List Char}
    (h : charsItems num first items ++ r = charsItems num first items' ++ r') :
    items = items' ∧ r = r' := by
  induction items generalizing first items' with
  | nil =>
    cases items' with
    | nil => exact ⟨rfl, List.append_cancel_left h⟩
    | cons v rest => exact absurd h charsItems_ne
  | cons v rest ih =>
    cases items' with
    | nil => exact absurd h.symm charsItems_ne
    | cons v' rest' =>
      obtain ⟨hv, hrest⟩ := List.forall_mem_cons.mp hitems
      simp only [charsItems, List.append_assoc, List.append_cancel_left_eq] at h
      obtain ⟨rfl, htail⟩ := hv (charsItems_ends rest r) (charsItems_ends rest' r') h
      obtain ⟨rfl, hr⟩ := ih hrest htail
      exact ⟨rfl, hr⟩

theorem charsEntries_ne {first : Bool} {e : String × Value ν} {rest : List (String × Value ν)}
    {r r' : List Char} :
    charsEntries num first [] ++ r ≠ charsEntries num first (e :: rest) ++ r' := by
  intro h
  cases first with
  | false => exact absurd (List.cons.inj h).1 (by decide)
  | true => exact absurd (List.cons.inj h).1 (by decide)

theorem charsEntries_inj {entries : List (String × Value ν)}
    (hentries : ∀ e ∈ entries, ReadsBack num e.2) {first : Bool}
    {entries' : List (String × Value ν)} {r r' : List Char}
    (h : charsEntries num first entries ++ r = charsEntries num first entries' ++ r') :
    entries = entries' ∧ r = r' := by
  induction entries generalizing first entries' with
  | nil =>
    cases entries' with
    | nil => exact ⟨rfl, List.append_cancel_left h⟩
    | cons e rest => exact absurd h charsEntries_ne
  | cons e rest ih =>
    cases entries' with
    | nil => exact absurd h.symm charsEntries_ne
    | cons e' rest' =>
      obtain ⟨key, v⟩ := e
      obtain ⟨key', v'⟩ := e'
      obtain ⟨hv, hrest⟩ := List.forall_mem_cons.mp hentries
      simp only [charsEntries, List.append_assoc, List.append_cancel_left_eq] at h
      obtain ⟨rfl, hvalue⟩ := quote_append_inj h
      simp only [List.cons_append, List.append_assoc, List.cons.injEq, true_and] at hvalue
      obtain ⟨hval, htail⟩ := hv (charsEntries_ends rest r) (charsEntries_ends rest' r') hvalue
      obtain ⟨rfl, hr⟩ := ih hrest htail
      obtain rfl : v = v' := hval
      exact ⟨rfl, hr⟩

theorem readsBack (num : Numbers ν) (v : Value ν) : ReadsBack num v := by
  induction v using value_induction with
  | null =>
    intro b r r' _ _ h
    cases b with
    | null => exact ⟨rfl, List.append_cancel_left h⟩
    | _ => cases kind_of_append h
  | bool p =>
    intro b r r' _ _ h
    cases b with
    | bool q =>
      cases p <;> cases q
      · exact ⟨rfl, List.append_cancel_left h⟩
      · exact absurd (List.cons.inj h).1 (by decide)
      · exact absurd (List.cons.inj h).1 (by decide)
      · exact ⟨rfl, List.append_cancel_left h⟩
    | _ => cases kind_of_append h
  | number m =>
    intro b r r' hr hr' h
    cases b with
    | number n =>
      obtain ⟨rfl, hrest⟩ := text_append_inj hr hr' h
      exact ⟨rfl, hrest⟩
    | _ => cases kind_of_append h
  | string s =>
    intro b r r' _ _ h
    cases b with
    | string s' =>
      obtain ⟨rfl, hrest⟩ := quote_append_inj h
      exact ⟨rfl, hrest⟩
    | _ => cases kind_of_append h
  | array items ih =>
    intro b r r' _ _ h
    cases b with
    | array items' =>
      obtain ⟨rfl, hrest⟩ := charsItems_inj ih (List.cons.inj h).2
      exact ⟨rfl, hrest⟩
    | _ => cases kind_of_append h
  | object entries ih =>
    intro b r r' _ _ h
    cases b with
    | object entries' =>
      obtain ⟨rfl, hrest⟩ := charsEntries_inj ih (List.cons.inj h).2
      exact ⟨rfl, hrest⟩
    | _ => cases kind_of_append h

theorem toVec_inj {a b : Value ν} (h : toVec num a = toVec num b) : a = b := by
  have hchars : chars num a = chars num b := String.ofList_injective (utf8_inj h)
  have hend : Ends [] := nofun
  exact (readsBack num a hend hend (by rw [hchars])).1

/-- The canonical bytes are equal exactly for values that stand for the same. -/
theorem canonicalJsonBytes_eq_iff {a b : Value ν} (ha : a.Distinct) (hb : b.Distinct) :
    canonicalJsonBytes num a = canonicalJsonBytes num b ↔ a.meaning = b.meaning := by
  constructor
  · intro h
    rw [← meaning_sortJson ha, ← meaning_sortJson hb, toVec_inj h]
  · intro h
    rw [← meaning_sortJson ha, ← meaning_sortJson hb] at h
    rw [canonicalJsonBytes, canonicalJsonBytes,
      (sorted_sortJson a).meaning_inj (sorted_sortJson b) h]

theorem canonicalBytes_eq (v : Value ν) : canonicalBytes num v = canonicalJsonBytes num v := by
  rw [canonicalBytes, sortValue_eq, canonicalJsonBytes]

/-! ## What the verifier accepts -/

theorem withinItems_iff {depth : ℕ} {items : List (Value ν)} :
    withinItems depth items = true ↔ ∀ v ∈ items, v.within depth = true := by
  induction items with
  | nil => simp [withinItems]
  | cons v items ih => rw [withinItems, Bool.and_eq_true, ih, List.forall_mem_cons]

theorem withinEntries_iff {depth : ℕ} {entries : List (String × Value ν)} :
    withinEntries depth entries = true ↔ ∀ e ∈ entries, e.2.within depth = true := by
  induction entries with
  | nil => simp [withinEntries]
  | cons e entries ih => rw [withinEntries, Bool.and_eq_true, ih, List.forall_mem_cons]

theorem floatFreeItems_iff {items : List (Value ν)} :
    floatFreeItems num items = true ↔ ∀ v ∈ items, floatFree num v = true := by
  induction items with
  | nil => simp [floatFreeItems]
  | cons v items ih => rw [floatFreeItems, Bool.and_eq_true, ih, List.forall_mem_cons]

theorem floatFreeEntries_iff {entries : List (String × Value ν)} :
    floatFreeEntries num entries = true ↔ ∀ e ∈ entries, floatFree num e.2 = true := by
  induction entries with
  | nil => simp [floatFreeEntries]
  | cons e entries ih => rw [floatFreeEntries, Bool.and_eq_true, ih, List.forall_mem_cons]

theorem mem_of_strictItems {items out : List (Value ν)} (h : strictItems num items = some out) :
    ∀ w ∈ out, ∃ v ∈ items, strict num v = some w := by
  induction items generalizing out with
  | nil =>
    obtain rfl := Option.some.inj h
    exact nofun
  | cons v items ih =>
    obtain ⟨v', hv, h⟩ := Option.bind_eq_some_iff.mp h
    obtain ⟨rest, hrest, rfl⟩ := Option.map_eq_some_iff.mp h
    refine List.forall_mem_cons.mpr ⟨⟨v, List.mem_cons_self, hv⟩, ?_⟩
    intro w hw
    obtain ⟨v'', hv'', hstrict⟩ := ih hrest w hw
    exact ⟨v'', List.mem_cons_of_mem _ hv'', hstrict⟩

theorem mem_of_strictEntries {values entries out : List (String × Value ν)}
    (hvalues : Ascending values) (h : strictEntries num values entries = some out) :
    Ascending out ∧
      ∀ e ∈ out, e ∈ values ∨ ∃ e' ∈ entries, strict num e'.2 = some e.2 := by
  induction entries generalizing values with
  | nil =>
    obtain rfl := Option.some.inj h
    exact ⟨hvalues, fun e he => .inl he⟩
  | cons e entries ih =>
    rw [strictEntries] at h
    split_ifs at h with hseen
    obtain ⟨v', hv, h⟩ := Option.bind_eq_some_iff.mp h
    obtain ⟨hsorted, hall⟩ := ih hvalues.put h
    refine ⟨hsorted, ?_⟩
    intro e' he'
    rcases hall e' he' with hput | ⟨e'', he'', hstrict⟩
    · rcases mem_put hput with rfl | hmem
      · exact .inr ⟨e, List.mem_cons_self, hv⟩
      · exact .inl hmem
    · exact .inr ⟨e'', List.mem_cons_of_mem _ he'', hstrict⟩

/-- What the visitor admits is in order, has no floats and is no deeper than what was read. -/
theorem strict_spec {v w : Value ν} (h : strict num v = some w) :
    Sorted w ∧ floatFree num w = true ∧ ∀ depth, v.within depth = true → w.within depth = true := by
  induction v using value_induction generalizing w with
  | number n =>
    rw [strict] at h
    split_ifs at h with hfloat
    obtain rfl := Option.some.inj h
    exact ⟨trivial, by rw [floatFree, Bool.eq_false_iff.mpr hfloat]; rfl, fun _ hdepth => hdepth⟩
  | array items ih =>
    obtain ⟨out, hout, rfl⟩ := Option.map_eq_some_iff.mp h
    have hmem := mem_of_strictItems hout
    have hall : ∀ w ∈ out, ∃ v ∈ items, Sorted w ∧ floatFree num w = true ∧
        ∀ depth, v.within depth = true → w.within depth = true := by
      intro w hw
      obtain ⟨v, hv, hstrict⟩ := hmem w hw
      exact ⟨v, hv, ih v hv hstrict⟩
    refine ⟨?_, ?_, ?_⟩
    · rw [Sorted, sortedItems_iff]
      intro w hw
      obtain ⟨v, hv, hsorted, -⟩ := hall w hw
      exact hsorted
    · rw [floatFree, floatFreeItems_iff]
      intro w hw
      obtain ⟨v, hv, -, hfree, -⟩ := hall w hw
      exact hfree
    · intro depth hdepth
      cases depth with
      | zero => cases hdepth
      | succ depth =>
        rw [within, withinItems_iff] at hdepth ⊢
        intro w hw
        obtain ⟨v, hv, -, -, hwithin⟩ := hall w hw
        exact hwithin depth (hdepth v hv)
  | object entries ih =>
    obtain ⟨out, hout, rfl⟩ := Option.map_eq_some_iff.mp h
    obtain ⟨hascending, hmem⟩ := mem_of_strictEntries List.Pairwise.nil hout
    have hall : ∀ e ∈ out, ∃ e' ∈ entries, Sorted e.2 ∧ floatFree num e.2 = true ∧
        ∀ depth, e'.2.within depth = true → e.2.within depth = true := by
      intro e he
      rcases hmem e he with hnone | ⟨e', he', hstrict⟩
      · cases hnone
      · exact ⟨e', he', ih e' he' hstrict⟩
    refine ⟨?_, ?_, ?_⟩
    · rw [Sorted, sortedEntries_iff]
      refine ⟨hascending, fun e he => ?_⟩
      obtain ⟨e', he', hsorted, -⟩ := hall e he
      exact hsorted
    · rw [floatFree, floatFreeEntries_iff]
      intro e he
      obtain ⟨e', he', -, hfree, -⟩ := hall e he
      exact hfree
    · intro depth hdepth
      cases depth with
      | zero => cases hdepth
      | succ depth =>
        rw [within, withinEntries_iff] at hdepth ⊢
        intro e he
        obtain ⟨e', he', -, -, hwithin⟩ := hall e he
        exact hwithin depth (hdepth e' he')
  | _ =>
    obtain rfl := Option.some.inj h
    exact ⟨trivial, rfl, fun _ hdepth => hdepth⟩

theorem strictEntries_self {values entries : List (String × Value ν)}
    (hsorted : Ascending (values ++ entries))
    (hentries : ∀ e ∈ entries, strict num e.2 = some e.2) :
    strictEntries num values entries = some (values ++ entries) := by
  induction entries generalizing values with
  | nil => rw [strictEntries, List.append_nil]
  | cons e entries ih =>
    obtain ⟨he, hrest⟩ := List.forall_mem_cons.mp hentries
    obtain ⟨key, v⟩ := e
    have hbefore : ∀ e' ∈ values, e'.1 < key := fun e' he' =>
      (List.pairwise_append.mp hsorted).2.2 e' he' (key, v) List.mem_cons_self
    have hfresh : values.lookup key = none :=
      lookup_eq_none.mpr fun e' he' => (hbefore e' he').ne
    have hput := put_last (v := v) hbefore
    rw [strictEntries, hfresh, if_neg (by simp), he, Option.bind_some, hput, ih _ hrest,
      List.append_assoc, List.singleton_append]
    rwa [List.append_assoc, List.singleton_append]

/-- The visitor passes what is in order and has no floats. -/
theorem strict_self {v : Value ν} (hsorted : Sorted v) (hfree : floatFree num v = true) :
    strict num v = some v := by
  induction v using value_induction with
  | number n =>
    rw [floatFree, Bool.not_eq_true'] at hfree
    rw [strict, hfree, if_neg (by decide)]
  | array items ih =>
    rw [Sorted, sortedItems_iff] at hsorted
    rw [floatFree, floatFreeItems_iff] at hfree
    have hitems : strictItems num items = some items := by
      induction items with
      | nil => rfl
      | cons v items ih' =>
        obtain ⟨hv, hrest⟩ := List.forall_mem_cons.mp hsorted
        obtain ⟨hv', hrest'⟩ := List.forall_mem_cons.mp hfree
        obtain ⟨ihv, ihrest⟩ := List.forall_mem_cons.mp ih
        rw [strictItems, ihv hv hv', Option.bind_some, ih' ihrest hrest hrest']
        rfl
    rw [strict, hitems, Option.map_some]
  | object entries ih =>
    rw [Sorted, sortedEntries_iff] at hsorted
    rw [floatFree, floatFreeEntries_iff] at hfree
    have hentries : strictEntries num [] entries = some entries :=
      strictEntries_self hsorted.1 fun e he => ih e he (hsorted.2 e he) (hfree e he)
    rw [strict, hentries, Option.map_some]
  | _ => rfl

theorem parseCanonicalJson_eq_ok {raw : Bytes} {label : String} {v : Value ν} :
    reader.parseCanonicalJson raw label = .ok v ↔
      raw = canonicalBytes num v ∧ ∃ raw', reader.strictParse raw' = some v := by
  constructor
  · intro h
    unfold Reader.parseCanonicalJson at h
    cases hparse : reader.strictParse raw with
    | none => rw [hparse] at h; cases h
    | some value =>
      rw [hparse] at h
      simp only at h
      split_ifs at h with hraw
      obtain rfl := Except.ok.inj h
      exact ⟨not_not.mp hraw, raw, hparse⟩
  · rintro ⟨rfl, raw', hadmitted⟩
    obtain ⟨t, hread, hstrict⟩ := Option.bind_eq_some_iff.mp hadmitted
    obtain ⟨hsorted, hfree, hwithin⟩ := strict_spec hstrict
    have hcanonical : canonicalBytes num v = toVec num v := by
      rw [canonicalBytes, sortValue_eq, hsorted.sortJson_eq]
    have hback := reader.read_toVec v (hwithin _ (reader.read_within _ _ hread)) hfree
    have hparse : reader.strictParse (canonicalBytes num v) = some v := by
      rw [Reader.strictParse, hcanonical, hback, Option.bind_some, strict_self hsorted hfree]
    unfold Reader.parseCanonicalJson
    rw [hparse]
    exact if_neg (not_not.mpr rfl)

/-- One byte string for each value, the same on both sides, and nothing else is accepted. -/
theorem canonical_json :
    (∀ a b : Value ν, a.Distinct → b.Distinct →
      (canonicalJsonBytes num a = canonicalJsonBytes num b ↔ a.meaning = b.meaning)) ∧
    (∀ v : Value ν, canonicalValue (canonicalValue v) = canonicalValue v ∧
      canonicalJsonBytes num (canonicalValue v) = canonicalJsonBytes num v) ∧
    (∀ v : Value ν, canonicalBytes num v = canonicalJsonBytes num v) ∧
    (∀ (raw : Bytes) (label : String) (v : Value ν),
      reader.parseCanonicalJson raw label = .ok v ↔
        raw = canonicalBytes num v ∧ ∃ raw', reader.strictParse raw' = some v) := by
  have hidem : ∀ v : Value ν, sortJson (sortJson v) = sortJson v :=
    fun v => (sorted_sortJson v).sortJson_eq
  refine ⟨?_, ?_, canonicalBytes_eq, ?_⟩
  · exact fun a b ha hb => canonicalJsonBytes_eq_iff ha hb
  · exact fun v => ⟨hidem v, by rw [canonicalJsonBytes, canonicalValue, hidem, canonicalJsonBytes]⟩
  · exact fun raw label v => parseCanonicalJson_eq_ok reader

/-! ## Numbers without a sign -/

def naturals : Numbers ℕ where
  text n := n.repr.toList
  text_inj m n h := Nat.repr_injective (String.toList_inj.mp h)
  text_ne_nil n := by simp [Nat.toList_repr]
  text_chars n c hc := by
    rw [Nat.toList_repr] at hc
    exact .inl (Nat.isDigit_of_mem_toDigits (by decide) (by decide) hc)
  isFloat _ := false

open Classical in
/-- The printer has an inverse. -/
noncomputable def naturalReader : Reader naturals where
  limit := 127
  read raw := if h : ∃ v : Value ℕ, v.within 127 = true ∧ toVec naturals v = raw then some h.choose
    else none
  read_within raw v h := by
    split_ifs at h with hex
    obtain rfl := Option.some.inj h
    exact hex.choose_spec.1
  read_toVec v hwithin _ := by
    have h : ∃ w : Value ℕ, w.within 127 = true ∧ toVec naturals w = toVec naturals v :=
      ⟨v, hwithin, rfl⟩
    rw [dif_pos h, toVec_inj h.choose_spec.2]

/-- `{"b":[1],"a":2}` and `{"a":2,"b":[1]}` have the same bytes. -/
theorem canonical_json_swapped :
    canonicalJsonBytes naturals (.object [("b", .array [.number 1]), ("a", .number 2)]) =
      canonicalJsonBytes naturals (.object [("a", .number 2), ("b", .array [.number 1])]) := by
  refine ((canonical_json naturalReader).1 _ _ ?_ ?_).mpr ?_
  · exact ⟨by decide, ⟨trivial, trivial⟩, trivial, trivial⟩
  · exact ⟨by decide, trivial, ⟨trivial, trivial⟩, trivial⟩
  · refine congrArg Meaning.object (funext fun key => ?_)
    by_cases ha : key = "a"
    · rw [ha]
      rfl
    · simp only [meaningEntries, KeyedList.lookup_cons, if_neg ha]

end LeanCtx.CanonicalJson
