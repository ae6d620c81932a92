import LeanCtx.JsonCrush
import LeanCtx.JsonPrint

/-!
# What the crushers lose

Decoding undoes crushing on every value in which no factored array has a
factored array among its elements, and on no other: an envelope that is itself
factored as a row comes back as an object. The lossy pass, when it reports that
it dropped nothing, does what the lossless pass does.
-/

namespace LeanCtx.Crush

open KeyedList

variable {c : Codec}

/-! ## The traversals as maps -/

theorem crushItems_eq (opts : CrushOpts) (depth : ℕ) (arr : List Json) :
    crushItems c opts depth arr = arr.map (crushNode c opts depth) := by
  induction arr with
  | nil => rfl
  | cons el rest ih => rw [crushItems, ih, List.map_cons]

theorem crushEntries_eq (opts : CrushOpts) (depth : ℕ) (map : List (String × Json)) :
    crushEntries c opts depth map = mapValues (crushNode c opts depth) map := by
  induction map with
  | nil => rfl
  | cons e rest ih =>
    obtain ⟨key, val⟩ := e
    rw [crushEntries, ih]
    rfl

theorem uncrushItems_eq (arr : List Json) : uncrushItems arr = arr.map uncrushNode := by
  induction arr with
  | nil => rfl
  | cons el rest ih => rw [uncrushItems, ih, List.map_cons]

theorem uncrushEntries_eq (map : List (String × Json)) :
    uncrushEntries map = mapValues uncrushNode map := by
  induction map with
  | nil => rfl
  | cons e rest ih =>
    obtain ⟨key, val⟩ := e
    rw [uncrushEntries, ih]
    rfl

theorem uncrushRows_eq (items : List Json) :
    uncrushRows items = items.map fun item => mapValues uncrushNode (fieldsOf item) := by
  induction items with
  | nil => rfl
  | cons item rest ih =>
    cases item <;> simp only [uncrushRows, ih, List.map_cons, fieldsOf, uncrushEntries_eq] <;> rfl

theorem uncrushFieldsAt_eq (key : String) (map : List (String × Json)) :
    uncrushFieldsAt key map =
      mapValues uncrushNode (((map.lookup key).map fieldsOf).getD []) := by
  induction map with
  | nil => rfl
  | cons e rest ih =>
    obtain ⟨k, v⟩ := e
    rw [lookup_cons]
    by_cases hk : key = k
    · cases v <;> simp only [uncrushFieldsAt, if_pos hk, uncrushEntries_eq] <;> rfl
    · cases v <;> simp only [uncrushFieldsAt, if_neg hk, ih]

theorem uncrushRowsAt_array {key : String} {map : List (String × Json)} {items : List Json}
    (h : map.lookup key = some (.array items)) :
    uncrushRowsAt key map = items.map fun item => mapValues uncrushNode (fieldsOf item) := by
  induction map with
  | nil => cases h
  | cons e rest ih =>
    obtain ⟨k, v⟩ := e
    rw [lookup_cons] at h
    by_cases hk : key = k
    · rw [if_pos hk] at h
      obtain rfl := Option.some.inj h
      rw [uncrushRowsAt, if_pos hk, uncrushRows_eq]
    · rw [if_neg hk] at h
      cases v <;> simp only [uncrushRowsAt, if_neg hk, ih h]

theorem containsMarkerItems_eq (arr : List Json) :
    containsMarkerItems arr = arr.any containsMarker := by
  induction arr with
  | nil => rfl
  | cons v rest ih => rw [containsMarkerItems, ih, List.any_cons]

theorem containsMarkerEntries_eq (map : List (String × Json)) :
    containsMarkerEntries map = map.any fun e => containsMarker e.2 := by
  induction map with
  | nil => rfl
  | cons e rest ih =>
    obtain ⟨k, v⟩ := e
    rw [containsMarkerEntries, ih, List.any_cons]

theorem orderedItems_eq (arr : List Json) : Json.orderedItems arr = arr.all Json.ordered := by
  induction arr with
  | nil => rfl
  | cons v rest ih => rw [Json.orderedItems, ih, List.all_cons]

theorem orderedEntries_eq (map : List (String × Json)) :
    Json.orderedEntries map = map.all fun e => e.2.ordered := by
  induction map with
  | nil => rfl
  | cons e rest ih =>
    obtain ⟨k, v⟩ := e
    rw [Json.orderedEntries, ih, List.all_cons]

theorem ordered_array {arr : List Json} :
    (Json.array arr).ordered = true ↔ ∀ v ∈ arr, v.ordered = true := by
  rw [Json.ordered, orderedItems_eq, List.all_eq_true]

theorem ordered_object {map : List (String × Json)} :
    (Json.object map).ordered = true ↔ Ascending map ∧ ∀ e ∈ map, e.2.ordered = true := by
  rw [Json.ordered, orderedEntries_eq, Bool.and_eq_true, decide_eq_true_eq, List.all_eq_true]

theorem containsMarker_array {arr : List Json} :
    containsMarker (.array arr) = false ↔ ∀ v ∈ arr, containsMarker v = false := by
  rw [containsMarker, containsMarkerItems_eq, List.any_eq_false]
  simp only [Bool.not_eq_true]

theorem containsMarker_object {map : List (String × Json)} :
    containsMarker (.object map) = false ↔
      map.lookup marker = none ∧ ∀ e ∈ map, containsMarker e.2 = false := by
  rw [containsMarker, containsMarkerEntries_eq, Bool.or_eq_false_iff, List.any_eq_false,
    Option.isSome_eq_false_iff, Option.isNone_iff_eq_none]
  simp only [Bool.not_eq_true]

theorem uncrushNode_object {map : List (String × Json)} (h : isEnvelope map = false) :
    uncrushNode (.object map) = .object (mapValues uncrushNode map) := by
  rw [uncrushNode, h, uncrushEntries_eq]
  rfl

theorem isEnvelope_of_lookup {map : List (String × Json)} (h : map.lookup marker = none) :
    isEnvelope map = false := by
  rw [isEnvelope, h]
  rfl

theorem map_eq_self_iff {α : Type} {f : α → α} {l : List α} :
    l.map f = l ↔ ∀ a ∈ l, f a = a := by
  constructor
  · intro h a ha
    have hid : l.map f = l.map id := by rw [h, List.map_id]
    exact List.map_inj_left.mp hid a ha
  · intro h
    exact (List.map_congr_left h).trans (List.map_id l)

theorem mapValues_eq_self_iff {f : Json → Json} {l : List (String × Json)} :
    mapValues f l = l ↔ ∀ e ∈ l, f e.2 = e.2 := by
  rw [mapValues, map_eq_self_iff]
  constructor
  · intro h e he
    exact congrArg Prod.snd (h e he)
  · intro h e he
    rw [h e he]

/-! ## Values without envelopes -/

mutual

/-- No object inside carries the marker of a crushed array. -/
def noEnvelope : Json → Bool
  | .object map => !isEnvelope map && noEnvelopeEntries map
  | .array arr => noEnvelopeItems arr
  | _ => true

def noEnvelopeItems : List Json → Bool
  | [] => true
  | v :: rest => noEnvelope v && noEnvelopeItems rest

def noEnvelopeEntries : List (String × Json) → Bool
  | [] => true
  | (_, v) :: rest => noEnvelope v && noEnvelopeEntries rest

end

theorem noEnvelopeItems_eq (arr : List Json) : noEnvelopeItems arr = arr.all noEnvelope := by
  induction arr with
  | nil => rfl
  | cons v rest ih => rw [noEnvelopeItems, ih, List.all_cons]

theorem noEnvelopeEntries_eq (map : List (String × Json)) :
    noEnvelopeEntries map = map.all fun e => noEnvelope e.2 := by
  induction map with
  | nil => rfl
  | cons e rest ih =>
    obtain ⟨k, v⟩ := e
    rw [noEnvelopeEntries, ih, List.all_cons]

/-- Decoding leaves exactly these values alone. -/
theorem uncrushNode_eq_self_iff (v : Json) : uncrushNode v = v ↔ noEnvelope v = true := by
  induction v using Json.tree_induction with
  | null => simp [uncrushNode, noEnvelope]
  | bool b => simp [uncrushNode, noEnvelope]
  | number n => simp [uncrushNode, noEnvelope]
  | string s => simp [uncrushNode, noEnvelope]
  | array items ih =>
    rw [uncrushNode, uncrushItems_eq, Json.array.injEq, map_eq_self_iff, noEnvelope,
      noEnvelopeItems_eq, List.all_eq_true]
    exact forall₂_congr ih
  | object entries ih =>
    cases henv : isEnvelope entries with
    | true => simp [uncrushNode, noEnvelope, henv]
    | false =>
      rw [uncrushNode_object henv, Json.object.injEq, mapValues_eq_self_iff, noEnvelope, henv,
        noEnvelopeEntries_eq]
      simp only [Bool.not_false, Bool.true_and, List.all_eq_true]
      exact forall₂_congr ih

theorem noEnvelope_of_containsMarker {v : Json} (h : containsMarker v = false) :
    noEnvelope v = true := by
  induction v using Json.tree_induction with
  | null => rfl
  | bool b => rfl
  | number n => rfl
  | string s => rfl
  | array items ih =>
    rw [noEnvelope, noEnvelopeItems_eq, List.all_eq_true]
    intro v hv
    exact ih v hv (containsMarker_array.mp h v hv)
  | object entries ih =>
    obtain ⟨hlookup, hentries⟩ := containsMarker_object.mp h
    rw [noEnvelope, isEnvelope_of_lookup hlookup, noEnvelopeEntries_eq]
    simp only [Bool.not_false, Bool.true_and, List.all_eq_true]
    intro e he
    exact ih e he (hentries e he)

/-! ## The crushed value is a JSON value -/

theorem countValue_of {P : Json → Prop} {freq : OrdMap String (ℕ × Json)} {v : Json} (hv : P v)
    (h : ∀ (k : String) (e : ℕ × Json), freq[k]? = some e → P e.2) (k : String) (e : ℕ × Json)
    (he : (countValue c freq v)[k]? = some e) : P e.2 := by
  unfold countValue at he
  split at he
  · next count first hget =>
    rw [OrdMap.get_insert] at he
    split_ifs at he with hk
    · obtain rfl := Option.some.inj he
      exact h (c.print v) (count, first) hget
    · exact h k e he
  · rw [OrdMap.get_insert] at he
    split_ifs at he with hk
    · obtain rfl := Option.some.inj he
      exact hv
    · exact h k e he

theorem counted_of {P : Json → Prop} {values : List Json} {freq : OrdMap String (ℕ × Json)}
    (hvalues : ∀ v ∈ values, P v)
    (h : ∀ (k : String) (e : ℕ × Json), freq[k]? = some e → P e.2) (k : String) (e : ℕ × Json)
    (he : (values.foldl (countValue c) freq)[k]? = some e) : P e.2 := by
  induction values generalizing freq with
  | nil => exact h k e he
  | cons v rest ih =>
    obtain ⟨hv, hrest⟩ := List.forall_mem_cons.mp hvalues
    exact ih hrest (countValue_of hv h) he

theorem mostFrequent_of {P : Json → Prop} {l : List (ℕ × Json)} {best : ℕ × Json}
    (hbest : P best.2) (h : ∀ e ∈ l, P e.2) : P (l.foldl moreFrequent best).2 := by
  induction l generalizing best with
  | nil => exact hbest
  | cons e rest ih =>
    obtain ⟨he, hrest⟩ := List.forall_mem_cons.mp h
    apply ih _ hrest
    unfold moreFrequent
    split_ifs
    · exact he
    · exact hbest

/-- A property of `null` and of all values holds of the dominant one. -/
theorem dominantValue_of {P : Json → Prop} {values : List Json} (hnull : P .null)
    (h : ∀ v ∈ values, P v) : P (dominantValue c values).1 := by
  apply mostFrequent_of hnull
  intro e he
  obtain ⟨⟨k, e⟩, hmem, rfl⟩ := List.mem_map.mp he
  rw [Std.ExtTreeMap.mem_toList_iff_getElem?_eq_some] at hmem
  refine counted_of h ?_ k e hmem
  intro k' e' h'
  simp at h'

theorem mem_candidates {items : List Json} {key : String} (h : key ∈ candidates items) :
    ∀ item ∈ items, ((fieldsOf item).lookup key).isSome = true := by
  cases items with
  | nil => cases h
  | cons first rest =>
    obtain ⟨hkey, hrest⟩ := List.mem_filter.mp h
    intro item hitem
    rcases List.mem_cons.mp hitem with rfl | hitem
    · rw [Option.isSome_iff_ne_none]
      intro hnone
      obtain ⟨e, he, heq⟩ := List.mem_map.mp hkey
      exact lookup_eq_none.mp hnone e he heq
    · exact List.all_eq_true.mp hrest item hitem

theorem ascending_candidates {items : List Json} (h : ∀ item ∈ items, Ascending (fieldsOf item)) :
    (candidates items).Pairwise (· < ·) := by
  cases items with
  | nil => exact List.Pairwise.nil
  | cons first rest =>
    apply List.Pairwise.filter
    exact List.pairwise_map.mpr (h first List.mem_cons_self)

theorem mem_defaultsOf {opts : CrushOpts} {items : List Json} {e : String × Json}
    (h : e ∈ defaultsOf c opts items) :
    e.1 ∈ candidates items ∧ e.2 = (dominantValue c (columnOf items e.1)).1 := by
  obtain ⟨key, hkey, he⟩ := List.mem_filterMap.mp h
  dsimp only at he
  split_ifs at he
  obtain rfl := Option.some.inj he
  exact ⟨hkey, rfl⟩

theorem ascending_defaultsOf {opts : CrushOpts} {items : List Json}
    (h : ∀ item ∈ items, Ascending (fieldsOf item)) : Ascending (defaultsOf c opts items) := by
  apply List.Pairwise.filterMap _ _ (ascending_candidates h)
  intro k k' hlt e he e' he'
  dsimp only at he he'
  split_ifs at he he'
  obtain rfl := Option.some.inj he
  obtain rfl := Option.some.inj he'
  exact hlt

theorem ordered_fieldsOf {v : Json} (h : v.ordered = true) :
    Ascending (fieldsOf v) ∧ ∀ e ∈ fieldsOf v, e.2.ordered = true := by
  cases v with
  | object map => exact ordered_object.mp h
  | _ => exact ⟨List.Pairwise.nil, nofun⟩

theorem ordered_defaultsOf {opts : CrushOpts} {items : List Json}
    (h : ∀ item ∈ items, item.ordered = true) :
    (Json.object (defaultsOf c opts items)).ordered = true := by
  apply ordered_object.mpr
  refine ⟨ascending_defaultsOf fun item hitem => (ordered_fieldsOf (h item hitem)).1, ?_⟩
  intro e he
  rw [(mem_defaultsOf he).2]
  apply dominantValue_of (P := fun v => v.ordered = true) rfl
  intro v hv
  obtain ⟨item, hitem, hget⟩ := List.mem_filterMap.mp hv
  cases item with
  | object map => exact (ordered_object.mp (h _ hitem)).2 _ (mem_of_lookup hget)
  | _ => cases hget

theorem ordered_slim {defaults : List (String × Json)} {dropped : List String} {item : Json}
    (h : item.ordered = true) : (slim defaults dropped item).ordered = true := by
  obtain ⟨hasc, hord⟩ := ordered_fieldsOf h
  exact ordered_object.mpr ⟨hasc.filter _, fun e he => hord e (List.mem_of_mem_filter he)⟩

theorem ordered_put {map : List (String × Json)} {key : String} {v : Json}
    (h : (Json.object map).ordered = true) (hv : v.ordered = true) :
    (Json.object (put key v map)).ordered = true := by
  obtain ⟨hasc, hord⟩ := ordered_object.mp h
  refine ordered_object.mpr ⟨hasc.put, fun e he => ?_⟩
  rcases mem_put he with rfl | he
  · exact hv
  · exact hord e he

theorem ordered_envelope {opts : CrushOpts} {dropped : List String} {items : List Json}
    (h : ∀ item ∈ items, item.ordered = true) :
    (envelope (defaultsOf c opts items) dropped items).ordered = true := by
  have hslim : (Json.array (items.map (slim (defaultsOf c opts items) dropped))).ordered = true := by
    apply ordered_array.mpr
    intro v hv
    obtain ⟨item, hitem, rfl⟩ := List.mem_map.mp hv
    exact ordered_slim (h item hitem)
  have hdropped : (Json.array (dropped.map .string)).ordered = true := by
    apply ordered_array.mpr
    intro v hv
    obtain ⟨key, -, rfl⟩ := List.mem_map.mp hv
    rfl
  unfold envelope
  apply ordered_put _ hslim
  split_ifs
  · decide
  · exact ordered_put (by decide) (ordered_defaultsOf h)
  · exact ordered_put (by decide) hdropped
  · exact ordered_put (ordered_put (by decide) (ordered_defaultsOf h)) hdropped

theorem ordered_crushNode {opts : CrushOpts} {v : Json} (depth : ℕ) (h : v.ordered = true) :
    (crushNode c opts depth v).value.ordered = true := by
  induction v using Json.tree_induction generalizing depth with
  | null => exact h
  | bool b => exact h
  | number n => exact h
  | string s => exact h
  | array arr ih =>
    rw [crushNode, crushItems_eq]
    split_ifs with hdepth
    · exact h
    · have hitems : ∀ item ∈ (arr.map (crushNode c opts (depth + 1))).map Crushed.value,
          item.ordered = true := by
        intro item hitem
        obtain ⟨child, hchild, rfl⟩ := List.mem_map.mp hitem
        obtain ⟨el, hel, rfl⟩ := List.mem_map.mp hchild
        exact ih el hel _ (ordered_array.mp h el hel)
      unfold crushArray
      dsimp only
      split_ifs with hfactors
      · exact ordered_envelope hitems
      · exact ordered_array.mpr hitems
  | object map ih =>
    rw [crushNode, crushEntries_eq]
    split_ifs with hdepth
    · exact h
    · obtain ⟨hasc, hord⟩ := ordered_object.mp h
      apply ordered_object.mpr
      refine ⟨ascending_mapValues.mpr (ascending_mapValues.mpr hasc), ?_⟩
      intro e he
      obtain ⟨child, hchild, rfl⟩ := List.mem_map.mp he
      obtain ⟨e, hmem, rfl⟩ := List.mem_map.mp hchild
      exact ih e hmem _ (hord e hmem)

/-! ## Decoding one envelope -/

theorem lookup_defaultsOf {opts : CrushOpts} {items : List Json} {key : String} {item : Json}
    (hitem : item ∈ items) (h : (fieldsOf item).lookup key = none) :
    (defaultsOf c opts items).lookup key = none := by
  apply lookup_eq_none.mpr
  rintro e he rfl
  have hsome := mem_candidates (mem_defaultsOf he).1 item hitem
  rw [h] at hsome
  cases hsome

/-- What an item keeps, laid over the defaults, is the item. -/
theorem putAll_slim {opts : CrushOpts} {items : List Json} {item : Json}
    (h : ∀ item ∈ items, item.ordered = true) (hitem : item ∈ items) :
    putAll (mapValues uncrushNode (defaultsOf c opts items))
        (mapValues uncrushNode (fieldsOf (slim (defaultsOf c opts items) [] item))) =
      mapValues uncrushNode (fieldsOf item) := by
  have hasc := (ordered_fieldsOf (h item hitem)).1
  have hdefaults : Ascending (defaultsOf c opts items) :=
    ascending_defaultsOf fun item hitem => (ordered_fieldsOf (h item hitem)).1
  have hslim : Ascending (fieldsOf (slim (defaultsOf c opts items) [] item)) := hasc.filter _
  apply Ascending.ext (ascending_mapValues.mpr hdefaults).putAll (ascending_mapValues.mpr hasc)
  intro key
  rw [lookup_putAll (ascending_mapValues.mpr hslim), lookup_mapValues, lookup_mapValues,
    lookup_mapValues, slim, fieldsOf, hasc.lookup_filter]
  cases hfield : (fieldsOf item).lookup key with
  | none => rw [lookup_defaultsOf hitem hfield]; rfl
  | some val =>
    by_cases hdefault : (defaultsOf c opts items).lookup key = some val
    · simp [hdefault, Option.filter_some]
    · simp [hdefault, Option.filter_some]

theorem isEnvelope_envelope (defaults : List (String × Json)) (dropped : List String)
    (items : List Json) : ∃ map, envelope defaults dropped items = .object map ∧
      isEnvelope map = true ∧
      map.lookup itemsKey = some (.array (items.map (slim defaults dropped))) ∧
      ((map.lookup defaultsKey).map fieldsOf).getD [] = defaults := by
  have hmarker : marker ≠ itemsKey ∧ marker ≠ defaultsKey ∧ marker ≠ droppedKey ∧
      defaultsKey ≠ itemsKey ∧ defaultsKey ≠ droppedKey := by decide
  obtain ⟨h₁, h₂, h₃, h₄, h₅⟩ := hmarker
  refine ⟨_, rfl, ?_, by rw [lookup_put, if_pos rfl], ?_⟩
  · unfold isEnvelope
    split_ifs <;> simp [lookup_put, h₁, h₂, h₃]
  · split_ifs with hdrop hempty hempty
    · simp [lookup_put, h₂.symm, h₄, List.isEmpty_iff.mp hempty]
    · simp [lookup_put, h₄, fieldsOf]
    · simp [lookup_put, h₂.symm, h₄, h₅, List.isEmpty_iff.mp hempty]
    · simp [lookup_put, h₄, h₅, fieldsOf]

theorem droppedOf_lossless (items : List Json) : droppedOf c .lossless items = [] := by
  apply List.filter_eq_nil_iff.mpr
  intro key _ h
  cases h

/-- An envelope decodes to its rows, each as an object. -/
theorem uncrushNode_envelope {items : List Json} (h : ∀ item ∈ items, item.ordered = true) :
    uncrushNode (envelope (defaultsOf c .lossless items) (droppedOf c .lossless items) items) =
      .array (items.map fun item => .object (mapValues uncrushNode (fieldsOf item))) := by
  obtain ⟨map, hmap, henv, hitems, hdefaults⟩ :=
    isEnvelope_envelope (defaultsOf c .lossless items) (droppedOf c .lossless items) items
  rw [hmap, uncrushNode, henv, if_pos rfl, uncrushRowsAt_array hitems, uncrushFieldsAt_eq,
    hdefaults, droppedOf_lossless, List.map_map, List.map_map]
  congr 1
  apply List.map_congr_left
  intro item hitem
  exact congrArg Json.object (putAll_slim h hitem)

/-! ## When decoding undoes crushing -/

/-- An array that the lossless pass replaces by an envelope. -/
def factored (c : Codec) (depth : ℕ) : Json → Bool
  | .array arr => depth ≤ CrushOpts.lossless.maxDepth &&
    factors c .lossless (arr.map fun el => (crushNode c .lossless (depth + 1) el).value)
  | _ => false

mutual

/-- No factored array inside has a factored array among its elements. -/
def clean (c : Codec) (depth : ℕ) : Json → Bool
  | .array arr => cleanItems c (depth + 1) arr &&
    !(factored c depth (.array arr) && arr.any (factored c (depth + 1)))
  | .object map => cleanEntries c (depth + 1) map
  | _ => true

def cleanItems (c : Codec) (depth : ℕ) : List Json → Bool
  | [] => true
  | el :: rest => clean c depth el && cleanItems c depth rest

def cleanEntries (c : Codec) (depth : ℕ) : List (String × Json) → Bool
  | [] => true
  | (_, val) :: rest => clean c depth val && cleanEntries c depth rest

end

theorem cleanItems_eq (depth : ℕ) (arr : List Json) :
    cleanItems c depth arr = arr.all (clean c depth) := by
  induction arr with
  | nil => rfl
  | cons el rest ih => rw [cleanItems, ih, List.all_cons]

theorem cleanEntries_eq (depth : ℕ) (map : List (String × Json)) :
    cleanEntries c depth map = map.all fun e => clean c depth e.2 := by
  induction map with
  | nil => rfl
  | cons e rest ih =>
    obtain ⟨k, v⟩ := e
    rw [cleanEntries, ih, List.all_cons]

/-- Below the depth limit nothing is factored. -/
theorem clean_of_deep {v : Json} {depth : ℕ} (h : depth > CrushOpts.lossless.maxDepth) :
    clean c depth v = true := by
  induction v using Json.tree_induction generalizing depth with
  | null => rfl
  | bool b => rfl
  | number n => rfl
  | string s => rfl
  | array arr ih =>
    have hfactored : factored c depth (.array arr) = false := by
      rw [factored, decide_eq_false (by omega), Bool.false_and]
    rw [clean, hfactored, Bool.false_and, Bool.not_false, Bool.and_true, cleanItems_eq,
      List.all_eq_true]
    intro el hel
    exact ih el hel (by omega)
  | object map ih =>
    rw [clean, cleanEntries_eq, List.all_eq_true]
    intro e he
    exact ih e he (by omega)

theorem crushNode_array {arr : List Json} {depth : ℕ} (opts : CrushOpts)
    (h : ¬ depth > opts.maxDepth) : crushNode c opts depth (.array arr) =
      crushArray c opts (arr.map (crushNode c opts (depth + 1))) := by
  rw [crushNode, if_neg h, crushItems_eq]

theorem crushNode_object_value {map : List (String × Json)} {depth : ℕ} (opts : CrushOpts)
    (h : ¬ depth > opts.maxDepth) : (crushNode c opts depth (.object map)).value =
      .object (mapValues (fun v => (crushNode c opts (depth + 1) v).value) map) := by
  rw [crushNode, if_neg h, crushEntries_eq]
  simp only [mapValues, List.map_map]
  rfl

theorem lookup_marker_crushNode {map : List (String × Json)} (depth : ℕ) (opts : CrushOpts)
    (h : map.lookup marker = none) :
    (fieldsOf (crushNode c opts depth (.object map)).value).lookup marker = none := by
  by_cases hdepth : depth > opts.maxDepth
  · rw [crushNode, if_pos hdepth]
    exact h
  · rw [crushNode_object_value opts hdepth, fieldsOf, lookup_mapValues, h]
    rfl

/-- A crushed element that is an object comes from an object or from a factored array. -/
theorem row_eq_iff {el : Json} {depth : ℕ} (hmarker : containsMarker el = false)
    (hobj : isObject (crushNode c .lossless depth el).value = true)
    (ih : uncrushNode (crushNode c .lossless depth el).value = el ↔ clean c depth el = true) :
    Json.object (mapValues uncrushNode (fieldsOf (crushNode c .lossless depth el).value)) = el ↔
      clean c depth el = true ∧ factored c depth el = false := by
  cases el with
  | object map =>
    have hlookup := lookup_marker_crushNode (c := c) depth .lossless
      (containsMarker_object.mp hmarker).1
    cases hvalue : (crushNode c .lossless depth (.object map)).value with
    | object entries =>
      rw [hvalue, fieldsOf] at hlookup
      rw [hvalue, uncrushNode_object (isEnvelope_of_lookup hlookup)] at ih
      rw [fieldsOf, ih]
      simp [factored]
    | _ => rw [hvalue] at hobj; cases hobj
  | array arr =>
    have hfactored : factored c depth (.array arr) = true := by
      by_cases hdepth : depth > CrushOpts.lossless.maxDepth
      · rw [crushNode, if_pos hdepth] at hobj
        cases hobj
      · rw [crushNode_array _ hdepth, crushArray] at hobj
        rw [factored, decide_eq_true (not_lt.mp hdepth), Bool.true_and]
        split_ifs at hobj with hfactors
        · rwa [List.map_map] at hfactors
        · cases hobj
    simp [hfactored]
  | null => cases hobj
  | bool b => cases hobj
  | number n => cases hobj
  | string s => cases hobj

/-- Decoding undoes the lossless pass exactly on the clean values. -/
theorem uncrushNode_crushNode_iff {v : Json} (depth : ℕ) (hord : v.ordered = true)
    (hmarker : containsMarker v = false) :
    uncrushNode (crushNode c .lossless depth v).value = v ↔ clean c depth v = true := by
  induction v using Json.tree_induction generalizing depth with
  | null => simp [crushNode, Crushed.unchanged, uncrushNode, clean]
  | bool b => simp [crushNode, Crushed.unchanged, uncrushNode, clean]
  | number n => simp [crushNode, Crushed.unchanged, uncrushNode, clean]
  | string s => simp [crushNode, Crushed.unchanged, uncrushNode, clean]
  | array arr ih =>
    have hself := (uncrushNode_eq_self_iff _).mpr (noEnvelope_of_containsMarker hmarker)
    by_cases hdepth : depth > CrushOpts.lossless.maxDepth
    · rw [crushNode, if_pos hdepth, clean_of_deep hdepth]
      exact iff_of_true hself rfl
    replace ih : ∀ el ∈ arr, uncrushNode (crushNode c .lossless (depth + 1) el).value = el ↔
        clean c (depth + 1) el = true := fun el hel =>
      ih el hel _ (ordered_array.mp hord el hel) (containsMarker_array.mp hmarker el hel)
    rw [crushNode_array _ hdepth, clean, cleanItems_eq, factored,
      decide_eq_true (not_lt.mp hdepth), Bool.true_and, crushArray, List.map_map]
    by_cases hfactors : factors c .lossless (arr.map (Crushed.value ∘ crushNode c .lossless
        (depth + 1))) = true
    · have hitems : ∀ item ∈ arr.map (Crushed.value ∘ crushNode c .lossless (depth + 1)),
          item.ordered = true := by
        intro item hitem
        obtain ⟨el, hel, rfl⟩ := List.mem_map.mp hitem
        exact ordered_crushNode _ (ordered_array.mp hord el hel)
      have hobj : ∀ el ∈ arr, isObject (crushNode c .lossless (depth + 1) el).value = true := by
        simp only [factors, factorable, Bool.and_eq_true, List.all_eq_true] at hfactors
        exact fun el hel => hfactors.1.2 _ (List.mem_map_of_mem hel)
      rw [if_pos hfactors, uncrushNode_envelope hitems, List.map_map, Json.array.injEq,
        map_eq_self_iff]
      change _ ↔ (arr.all (clean c (depth + 1)) && !(factors c .lossless
        (arr.map (Crushed.value ∘ crushNode c .lossless (depth + 1))) && _)) = true
      rw [hfactors, Bool.true_and, Bool.and_eq_true, List.all_eq_true, Bool.not_eq_true',
        List.any_eq_false]
      constructor
      · intro h
        refine ⟨fun el hel => ?_, fun el hel => ?_⟩
        · exact ((row_eq_iff (containsMarker_array.mp hmarker el hel) (hobj el hel)
            (ih el hel)).mp (h el hel)).1
        · exact Bool.not_eq_true _ ▸ ((row_eq_iff (containsMarker_array.mp hmarker el hel)
            (hobj el hel) (ih el hel)).mp (h el hel)).2
      · rintro ⟨hclean, hnot⟩ el hel
        exact (row_eq_iff (containsMarker_array.mp hmarker el hel) (hobj el hel)
          (ih el hel)).mpr ⟨hclean el hel, Bool.not_eq_true _ ▸ hnot el hel⟩
    · rw [if_neg hfactors, uncrushNode, uncrushItems_eq, List.map_map, Json.array.injEq,
        map_eq_self_iff]
      change _ ↔ (arr.all (clean c (depth + 1)) && !(factors c .lossless
        (arr.map (Crushed.value ∘ crushNode c .lossless (depth + 1))) && _)) = true
      rw [Bool.eq_false_iff.mpr hfactors, Bool.false_and, Bool.not_false, Bool.and_true,
        List.all_eq_true]
      exact forall₂_congr ih
  | object map ih =>
    have hself := (uncrushNode_eq_self_iff _).mpr (noEnvelope_of_containsMarker hmarker)
    by_cases hdepth : depth > CrushOpts.lossless.maxDepth
    · rw [crushNode, if_pos hdepth, clean_of_deep hdepth]
      exact iff_of_true hself rfl
    obtain ⟨hlookup, hentries⟩ := containsMarker_object.mp hmarker
    have hfields := lookup_marker_crushNode (c := c) depth .lossless hlookup
    rw [crushNode_object_value _ hdepth, fieldsOf] at hfields
    rw [crushNode_object_value _ hdepth, uncrushNode_object (isEnvelope_of_lookup hfields), clean,
      cleanEntries_eq, List.all_eq_true, Json.object.injEq, mapValues, mapValues, List.map_map]
    refine Iff.trans (mapValues_eq_self_iff (f := fun v =>
      uncrushNode (crushNode c .lossless (depth + 1) v).value)) ?_
    exact forall₂_congr fun e he => ih e he _ ((ordered_object.mp hord).2 e he) (hentries e he)

/-! ## What is reported -/

theorem crushNode_unchanged {opts : CrushOpts} {v : Json} {depth : ℕ}
    (h : (crushNode c opts depth v).changed = false) : (crushNode c opts depth v).value = v := by
  induction v using Json.tree_induction generalizing depth with
  | null => rfl
  | bool b => rfl
  | number n => rfl
  | string s => rfl
  | array arr ih =>
    by_cases hdepth : depth > opts.maxDepth
    · rw [crushNode, if_pos hdepth]
      rfl
    · rw [crushNode_array _ hdepth, crushArray] at h ⊢
      split_ifs at h ⊢ with hfactors
      rw [List.any_eq_false] at h
      rw [List.map_map, Json.array.injEq, map_eq_self_iff]
      intro el hel
      exact ih el hel (Bool.not_eq_true _ ▸ h _ (List.mem_map_of_mem hel))
  | object map ih =>
    by_cases hdepth : depth > opts.maxDepth
    · rw [crushNode, if_pos hdepth]
      rfl
    · rw [crushNode_object_value _ hdepth, Json.object.injEq, mapValues_eq_self_iff]
      rw [crushNode, if_neg hdepth, crushEntries_eq] at h
      rw [List.any_eq_false] at h
      intro e he
      exact ih e he (Bool.not_eq_true _ ▸ h (e.1, crushNode c opts (depth + 1) e.2)
        (List.mem_map_of_mem he))

theorem crushNode_lossless (depth : ℕ) (v : Json) :
    (crushNode c .lossless depth v).lossless = true := by
  induction v using Json.tree_induction generalizing depth with
  | null => rfl
  | bool b => rfl
  | number n => rfl
  | string s => rfl
  | array arr ih =>
    by_cases hdepth : depth > CrushOpts.lossless.maxDepth
    · rw [crushNode, if_pos hdepth]
      rfl
    · have hall : (arr.map (crushNode c .lossless (depth + 1))).all Crushed.lossless = true := by
        rw [List.all_map, List.all_eq_true]
        exact fun el hel => ih el hel _
      rw [crushNode_array _ hdepth, crushArray]
      split_ifs with hfactors
      · simp only [hall, droppedOf_lossless, List.isEmpty_nil, Bool.and_true]
      · exact hall
  | object map ih =>
    by_cases hdepth : depth > CrushOpts.lossless.maxDepth
    · rw [crushNode, if_pos hdepth]
      rfl
    · rw [crushNode, if_neg hdepth, crushEntries_eq]
      simp only [mapValues, List.all_map, List.all_eq_true]
      exact fun e he => ih e he _

theorem crushNode_lossless_of_unchanged {opts : CrushOpts} {v : Json} {depth : ℕ}
    (h : (crushNode c opts depth v).changed = false) :
    (crushNode c opts depth v).lossless = true := by
  induction v using Json.tree_induction generalizing depth with
  | null => rfl
  | bool b => rfl
  | number n => rfl
  | string s => rfl
  | array arr ih =>
    by_cases hdepth : depth > opts.maxDepth
    · rw [crushNode, if_pos hdepth]
      rfl
    · rw [crushNode_array _ hdepth, crushArray] at h ⊢
      split_ifs at h ⊢ with hfactors
      rw [List.any_map, List.any_eq_false] at h
      rw [List.all_map, List.all_eq_true]
      intro el hel
      exact ih el hel (Bool.not_eq_true _ ▸ h el hel)
  | object map ih =>
    by_cases hdepth : depth > opts.maxDepth
    · rw [crushNode, if_pos hdepth]
      rfl
    · rw [crushNode, if_neg hdepth, crushEntries_eq] at h ⊢
      simp only [mapValues, List.any_map, List.any_eq_false] at h
      simp only [mapValues, List.all_map, List.all_eq_true]
      intro e he
      exact ih e he (Bool.not_eq_true _ ▸ h e he)

theorem defaultsOf_of_droppedOf {t : Option (ℕ → ℕ → Bool)} {items : List Json}
    (h : droppedOf c (.lossy t) items = []) :
    defaultsOf c (.lossy t) items = defaultsOf c .lossless items := by
  apply List.filterMap_congr
  intro key hkey
  have hkeep := List.filter_eq_nil_iff.mp h key hkey
  dsimp only
  rw [if_neg hkeep, show dropsColumn c .lossless items key = false from rfl]
  rfl

/-- Factoring that drops no column is the lossless factoring. -/
theorem crushArray_of_lossless {t : Option (ℕ → ℕ → Bool)} {children : List Crushed}
    (h : (crushArray c (.lossy t) children).lossless = true) :
    crushArray c (.lossy t) children = crushArray c .lossless children ∧
      children.all Crushed.lossless = true := by
  have hsame : factorable (.lossy t) (children.map Crushed.value) =
      factorable .lossless (children.map Crushed.value) := rfl
  by_cases hdropped : droppedOf c (.lossy t) (children.map Crushed.value) = []
  · have hfactors : factors c (.lossy t) (children.map Crushed.value) =
        factors c .lossless (children.map Crushed.value) := by
      rw [factors, factors, hsame, defaultsOf_of_droppedOf hdropped, hdropped, droppedOf_lossless]
    have heq : crushArray c (.lossy t) children = crushArray c .lossless children := by
      rw [crushArray, crushArray, hfactors, defaultsOf_of_droppedOf hdropped, hdropped,
        droppedOf_lossless]
    refine ⟨heq, ?_⟩
    unfold crushArray at h
    dsimp only at h
    split_ifs at h
    · exact (Bool.and_eq_true_iff.mp h).1
    · exact h
  · have hnot : ((droppedOf c (.lossy t) (children.map Crushed.value)).isEmpty) = false := by
      rw [List.isEmpty_eq_false_iff]
      exact hdropped
    unfold crushArray at h ⊢
    dsimp only at h ⊢
    by_cases hfactorable : factorable .lossless (children.map Crushed.value) = true
    · -- a column would have been dropped
      have hfactors : factors c (.lossy t) (children.map Crushed.value) = true := by
        rw [factors, hsame, hfactorable, hnot, Bool.and_false, Bool.not_false, Bool.and_true]
      rw [if_pos hfactors, hnot, Bool.and_false] at h
      cases h
    · have hfactors : ∀ t, ¬ factors c (.lossy t) (children.map Crushed.value) = true := by
        intro t hfactors
        exact hfactorable (Bool.and_eq_true_iff.mp hfactors).1
      rw [if_neg (hfactors t)] at h ⊢
      exact ⟨(if_neg (hfactors none)).symm, h⟩

/-- A lossy pass that reports no loss is the lossless pass. -/
theorem crushNode_of_lossless {t : Option (ℕ → ℕ → Bool)} {v : Json} {depth : ℕ}
    (h : (crushNode c (.lossy t) depth v).lossless = true) :
    crushNode c (.lossy t) depth v = crushNode c .lossless depth v := by
  induction v using Json.tree_induction generalizing depth with
  | null => rfl
  | bool b => rfl
  | number n => rfl
  | string s => rfl
  | array arr ih =>
    by_cases hdepth : depth > (CrushOpts.lossy t).maxDepth
    · rw [crushNode, if_pos hdepth]
      exact (if_pos hdepth).symm
    · rw [crushNode_array (.lossy t) hdepth] at h
      obtain ⟨heq, hall⟩ := crushArray_of_lossless h
      rw [crushNode_array (.lossy t) hdepth, crushNode_array .lossless hdepth, heq]
      congr 1
      apply List.map_congr_left
      intro el hel
      exact ih el hel (List.all_eq_true.mp hall _ (List.mem_map_of_mem hel))
  | object map ih =>
    by_cases hdepth : depth > (CrushOpts.lossy t).maxDepth
    · rw [crushNode, if_pos hdepth]
      exact (if_pos hdepth).symm
    · rw [crushNode, if_neg hdepth] at h
      have hentries : crushEntries c (.lossy t) (depth + 1) map =
          crushEntries c .lossless (depth + 1) map := by
        rw [crushEntries_eq] at h
        rw [crushEntries_eq, crushEntries_eq]
        apply List.map_congr_left
        intro e he
        have hlossless := List.all_eq_true.mp h (e.1, crushNode c (.lossy t) (depth + 1) e.2)
          (List.mem_map_of_mem he)
        rw [ih e he hlossless]
      rw [crushNode, if_neg hdepth, hentries]
      exact (if_neg hdepth).symm

/-! ## The two crushers -/

/-- Nothing is lost by the passes over `v` that report no loss. -/
def JsonExact (c : Codec) (v : Json) : Prop :=
  (∀ r, crushLossless c v = some r → r.lossless = true ∧ reconstruct c r.text = some v) ∧
    ∀ dropEntropy r, crushLossy c v (.lossy dropEntropy) = some r → r.lossless = true →
      reconstruct c r.text = some v

/-- Nothing is lost by the passes over a YAML text that report no loss. -/
def YamlExact (c : Codec) (yaml : String → Option Json) (text : String) (w : Json) : Prop :=
  ∀ dropEntropy r, yamlCrush c yaml text dropEntropy = some r → r.lossless = true →
    yamlReconstruct c r.text = some w

/-- What a pass that reports no loss returns. -/
theorem crushWith_of_lossless {v : Json} {t : Option (ℕ → ℕ → Bool)} {r : CrushResult}
    (h : crushWith c v (.lossy t) = some r) (hlossless : r.lossless = true) :
    containsMarker v = false ∧ (crushNode c .lossless 0 v).changed = true ∧
      r.text = c.print (crushNode c .lossless 0 v).value := by
  unfold crushWith at h
  dsimp only at h
  split_ifs at h with hmarker hchanged
  obtain rfl := Option.some.inj h
  rw [crushNode_of_lossless hlossless] at hchanged ⊢
  exact ⟨Bool.eq_false_iff.mpr hmarker, by simpa using hchanged, rfl⟩

theorem crushLossless_eq {v : Json} (hmarker : containsMarker v = false) :
    crushLossless c v = if (crushNode c .lossless 0 v).changed = true then
      some { text := c.print (crushNode c .lossless 0 v).value, lossless := true } else none := by
  rw [crushLossless, crushWith, hmarker]
  cases hchanged : (crushNode c .lossless 0 v).changed with
  | true => simp [hchanged, crushNode_lossless]
  | false => simp [hchanged]

theorem reconstruct_crushed {v : Json} (hord : v.ordered = true) :
    reconstruct c (c.print (crushNode c .lossless 0 v).value) =
      some (uncrushNode (crushNode c .lossless 0 v).value) := by
  rw [reconstruct, c.parse_print _ (ordered_crushNode 0 hord)]
  rfl

theorem jsonExact_iff {v : Json} (hord : v.ordered = true) :
    JsonExact c v ↔ containsMarker v = true ∨ clean c 0 v = true := by
  cases hmarker : containsMarker v with
  | true =>
    refine iff_of_true ⟨?_, ?_⟩ (.inl rfl)
    · intro r hr
      rw [crushLossless, crushWith, hmarker] at hr
      cases hr
    · intro t r hr
      rw [crushLossy, crushWith, hmarker] at hr
      cases hr
  | false =>
    rw [← uncrushNode_crushNode_iff 0 hord hmarker]
    simp only [Bool.false_eq_true, false_or]
    constructor
    · rintro ⟨hexact, -⟩
      cases hchanged : (crushNode c .lossless 0 v).changed with
      | true =>
        have hback := (hexact _ ((crushLossless_eq hmarker).trans (if_pos hchanged))).2
        rw [reconstruct_crushed hord] at hback
        exact Option.some.inj hback
      | false =>
        rw [crushNode_unchanged hchanged]
        exact (uncrushNode_eq_self_iff v).mpr (noEnvelope_of_containsMarker hmarker)
    · intro hback
      have hall : ∀ t r, crushWith c v (.lossy t) = some r → r.lossless = true →
          reconstruct c r.text = some v := by
        intro t r hr hlossless
        obtain ⟨-, -, htext⟩ := crushWith_of_lossless hr hlossless
        rw [htext, reconstruct_crushed hord, hback]
      refine ⟨fun r hr => ?_, hall⟩
      have hlossless : r.lossless = true := by
        rw [crushLossless_eq hmarker] at hr
        split_ifs at hr
        rw [← Option.some.inj hr]
      exact ⟨hlossless, hall none r hr hlossless⟩

/-- A document the YAML crusher reshapes. -/
def yamlRoot (w : Json) : Bool :=
  (isObject w || isArray w) && ((fieldsOf w).lookup yamlMarker).isNone

/-- What the YAML envelope carries when no loss is reported. -/
def yamlInner (c : Codec) (w : Json) : Json :=
  if containsMarker w = false ∧ (crushNode c .lossless 0 w).changed = true then
    (crushNode c .lossless 0 w).value
  else w

theorem ordered_yamlInner {w : Json} (h : w.ordered = true) :
    (yamlInner c w).ordered = true := by
  unfold yamlInner
  split_ifs
  · exact ordered_crushNode 0 h
  · exact h

theorem yamlReconstruct_envelope {inner : Json} (h : inner.ordered = true) :
    yamlReconstruct c (c.print (.object (put yamlMarker inner []))) = some (uncrushNode inner) := by
  have henv : (Json.object (put yamlMarker inner [])).ordered = true := ordered_put (by decide) h
  rw [yamlReconstruct, c.parse_print _ henv]
  change ((put yamlMarker inner []).lookup yamlMarker).bind
    (fun inner => reconstruct c (c.print inner)) = _
  rw [lookup_put, if_pos rfl, Option.bind_some, reconstruct, c.parse_print _ h]
  rfl

theorem parse_crushed {w : Json} (h : w.ordered = true) :
    c.parse (c.print (crushNode c .lossless 0 w).value) = some (crushNode c .lossless 0 w).value :=
  c.parse_print _ (ordered_crushNode 0 h)

theorem crushWith_none {w : Json} {t : Option (ℕ → ℕ → Bool)}
    (h : crushWith c w (.lossy t) = none) :
    containsMarker w = true ∨ (crushNode c .lossless 0 w).changed = false := by
  unfold crushWith at h
  dsimp only at h
  split_ifs at h with hmarker hchanged
  · exact .inl hmarker
  · rw [Bool.not_eq_true'] at hchanged
    rw [crushNode_of_lossless (crushNode_lossless_of_unchanged hchanged)] at hchanged
    exact .inr hchanged

/-- The YAML envelope carries the same document whatever the threshold, when no loss is reported. -/
theorem yamlFactor_of_lossless {w inner : Json} {t : Option (ℕ → ℕ → Bool)}
    (hord : w.ordered = true) (h : yamlFactor c w t = some (inner, true)) :
    inner = yamlInner c w := by
  have hpass : ∀ (t : Option (ℕ → ℕ → Bool)) (r : CrushResult),
      crushWith c w (.lossy t) = some r → r.lossless = true → c.parse r.text = some inner →
      inner = yamlInner c w := by
    intro t r hr hlossless hparse
    obtain ⟨hmarker, hchanged, htext⟩ := crushWith_of_lossless hr hlossless
    rw [htext, parse_crushed hord] at hparse
    rw [yamlInner, if_pos ⟨hmarker, hchanged⟩]
    exact (Option.some.inj hparse).symm
  have hnone : ∀ t : Option (ℕ → ℕ → Bool), crushWith c w (.lossy t) = none →
      w = yamlInner c w := by
    intro t hr
    rw [yamlInner, if_neg]
    rintro ⟨hmarker, hchanged⟩
    rcases crushWith_none hr with h | h
    · rw [hmarker] at h
      cases h
    · rw [hchanged] at h
      cases h
  cases t with
  | some reaches =>
    cases hr : crushLossy c w (.lossy (some reaches)) with
    | some r =>
      simp only [yamlFactor, hr, Option.map_eq_some_iff, Prod.mk.injEq] at h
      obtain ⟨v, hparse, rfl, hlossless⟩ := h
      exact hpass (some reaches) r hr hlossless hparse
    | none =>
      simp only [yamlFactor, hr, Option.some.injEq, Prod.mk.injEq, and_true] at h
      exact h ▸ hnone (some reaches) hr
  | none =>
    cases hr : crushLossless c w with
    | some r =>
      simp only [yamlFactor, hr, Option.map_eq_some_iff, Prod.mk.injEq, and_true] at h
      obtain ⟨v, hparse, rfl⟩ := h
      refine hpass none r hr ?_ hparse
      cases hmarker : containsMarker w with
      | true =>
        rw [crushLossless, crushWith, hmarker] at hr
        cases hr
      | false =>
        rw [crushLossless_eq hmarker] at hr
        split_ifs at hr
        rw [← Option.some.inj hr]
    | none =>
      simp only [yamlFactor, hr, Option.some.injEq, Prod.mk.injEq, and_true] at h
      exact h ▸ hnone none hr

theorem yamlFactor_none {w : Json} (hord : w.ordered = true) :
    yamlFactor c w none = some (yamlInner c w, true) := by
  have hsome : ∃ inner, yamlFactor c w none = some (inner, true) := by
    cases hr : crushLossless c w with
    | none => exact ⟨w, by rw [yamlFactor, hr]⟩
    | some r =>
      cases hmarker : containsMarker w with
      | true =>
        rw [crushLossless, crushWith, hmarker] at hr
        cases hr
      | false =>
        rw [crushLossless_eq hmarker] at hr
        split_ifs at hr
        refine ⟨(crushNode c .lossless 0 w).value, ?_⟩
        rw [yamlFactor, crushLossless_eq hmarker, if_pos ‹_›]
        simp only [parse_crushed hord, Option.map_some]
  obtain ⟨inner, hinner⟩ := hsome
  rw [hinner, yamlFactor_of_lossless hord hinner]

theorem uncrushNode_yamlInner_iff {w : Json} (hord : w.ordered = true) :
    uncrushNode (yamlInner c w) = w ↔ noEnvelope w = true ∧
      (containsMarker w = true ∨ clean c 0 w = true) := by
  cases hmarker : containsMarker w with
  | true => simp [yamlInner, hmarker, uncrushNode_eq_self_iff]
  | false =>
    have hnone := noEnvelope_of_containsMarker hmarker
    rw [hnone, ← uncrushNode_crushNode_iff 0 hord hmarker]
    simp only [true_and, Bool.false_eq_true, false_or]
    cases hchanged : (crushNode c .lossless 0 w).changed with
    | true => rw [yamlInner, if_pos ⟨hmarker, hchanged⟩]
    | false => rw [yamlInner, if_neg (fun h => by simp [hchanged] at h),
        crushNode_unchanged hchanged]

theorem yamlCrush_eq {yaml : String → Option Json} {text : String} {w : Json}
    (t : Option (ℕ → ℕ → Bool)) (hyaml : yaml text = some w) :
    yamlCrush c yaml text t = if yamlRoot w = true then
      (yamlFactor c w t).map fun (inner, lossless) =>
        { text := c.print (.object (put yamlMarker inner [])), lossless := lossless }
      else none := by
  rw [yamlCrush, hyaml, yamlRoot]
  cases hroot : isObject w || isArray w with
  | false => simp [hroot]
  | true =>
    cases hlookup : (fieldsOf w).lookup yamlMarker with
    | none =>
      simp only [hroot, hlookup, Bool.not_true, Option.isSome_none, Option.isNone_none,
        Bool.and_true, Bool.false_eq_true, if_false, if_true]
    | some _ =>
      simp only [hroot, hlookup, Bool.not_true, Option.isSome_some, Option.isNone_some,
        Bool.and_false, Bool.false_eq_true, if_false, if_true]

theorem yamlExact_iff {yaml : String → Option Json} {text : String} {w : Json}
    (hyaml : yaml text = some w) (hord : w.ordered = true) :
    YamlExact c yaml text w ↔ (yamlRoot w = true → noEnvelope w = true ∧
      (containsMarker w = true ∨ clean c 0 w = true)) := by
  rw [← uncrushNode_yamlInner_iff (c := c) hord]
  constructor
  · intro hexact hroot
    have hcrush := yamlCrush_eq (c := c) none hyaml
    rw [if_pos hroot, yamlFactor_none hord, Option.map_some] at hcrush
    have hback := hexact none _ hcrush rfl
    rw [yamlReconstruct_envelope (ordered_yamlInner hord)] at hback
    exact Option.some.inj hback
  · intro hback t r hr hlossless
    rw [yamlCrush_eq t hyaml] at hr
    split_ifs at hr with hroot
    obtain ⟨⟨inner, lossless⟩, hfactor, rfl⟩ := Option.map_eq_some_iff.mp hr
    obtain rfl : lossless = true := hlossless
    rw [yamlFactor_of_lossless hord hfactor,
      yamlReconstruct_envelope (ordered_yamlInner hord), hback hroot]

noncomputable def textCodec : Codec where
  print := Json.text
  parse := Json.ofText
  parse_print v _ := Json.ofText_text v

/-- Three equal objects. -/
def equalRows : Json :=
  .array (List.replicate 3 (.object [("a", .number (.posInt 1))]))

/-- `[[{"a":1},{"a":1},{"a":1}], …]`, three times the same row. -/
def nestedRows : Json := .array (List.replicate 3 equalRows)

end LeanCtx.Crush
