import LeanCtx.Json

/-!
# The JSON and YAML crushers

An array of objects is factored: a key that every object has, with one value in
at least half of them, moves into a defaults block, and each object keeps only
what deviates from it. Children are crushed before their array is factored. The
YAML crusher wraps the crushed document in an envelope of its own.
-/

namespace LeanCtx.Crush

open KeyedList

/-- `serde_json` as the crushers use it: a value is read back from the text it is printed as. -/
structure Codec where
  print : Json → String
  parse : String → Option Json
  parse_print : ∀ v, v.ordered = true → parse (print v) = some v

def marker : String := "_lc_crush"
def markerArray : Json := .string "arr"
def defaultsKey : String := "_defaults"
def droppedKey : String := "_dropped"
def itemsKey : String := "_items"
def yamlMarker : String := "_lc_yaml_crush"

def minItems : ℕ := 3

structure CrushResult where
  text : String
  lossless : Bool

/-- A drop threshold below `1.0` is the test whether a number of distinct values among `n` reaches
it; a threshold of `1.0` or more drops nothing and is `none`. -/
structure CrushOpts where
  dropEntropy : Option (ℕ → ℕ → Bool)
  maxDepth : ℕ
  maxItems : ℕ

def CrushOpts.lossy (dropEntropy : Option (ℕ → ℕ → Bool)) : CrushOpts where
  dropEntropy := dropEntropy
  maxDepth := 64
  maxItems := 100000

def CrushOpts.lossless : CrushOpts := .lossy none

structure Crushed where
  value : Json
  changed : Bool
  lossless : Bool

def Crushed.unchanged (value : Json) : Crushed where
  value := value
  changed := false
  lossless := true

def isObject : Json → Bool
  | .object _ => true
  | _ => false

def isArray : Json → Bool
  | .array _ => true
  | _ => false

/-- The fields of an object, none of another value. -/
def fieldsOf : Json → List (String × Json)
  | .object entries => entries
  | _ => []

def minDominantCount (n : ℕ) : ℕ := max ((n + 1) / 2) 2

/-- One more occurrence of a value; values are told apart by their printed text. -/
def countValue (c : Codec) (freq : OrdMap String (ℕ × Json)) (v : Json) :
    OrdMap String (ℕ × Json) :=
  match freq[c.print v]? with
  | some (count, first) => freq.insert (c.print v) (count + 1, first)
  | none => freq.insert (c.print v) (1, v)

/-- The more frequent of two values, the earlier one when they tie. -/
def moreFrequent (best e : ℕ × Json) : ℕ × Json := if e.1 > best.1 then e else best

/-- The most frequent value, its count and the number of distinct values. -/
def dominantValue (c : Codec) (values : List Json) : Json × ℕ × ℕ :=
  let freq := values.foldl (countValue c) ∅
  let best := (freq.toList.map Prod.snd).foldl moreFrequent (0, .null)
  (best.2, best.1, freq.size)

/-- The keys that every item has. -/
def candidates (items : List Json) : List String :=
  match items with
  | [] => []
  | first :: rest =>
    ((fieldsOf first).map Prod.fst).filter fun key =>
      rest.all fun item => ((fieldsOf item).lookup key).isSome

def columnOf (items : List Json) (key : String) : List Json := items.filterMap (Json.get key)

def dropsColumn (c : Codec) (opts : CrushOpts) (items : List Json) (key : String) : Bool :=
  match opts.dropEntropy with
  | none => false
  | some reaches => reaches (dominantValue c (columnOf items key)).2.2 items.length

def droppedOf (c : Codec) (opts : CrushOpts) (items : List Json) : List String :=
  (candidates items).filter (dropsColumn c opts items)

def defaultsOf (c : Codec) (opts : CrushOpts) (items : List Json) : List (String × Json) :=
  (candidates items).filterMap fun key =>
    let column := dominantValue c (columnOf items key)
    if dropsColumn c opts items key then none
    else if minDominantCount items.length ≤ column.2.1 then some (key, column.1)
    else none

def factorable (opts : CrushOpts) (items : List Json) : Bool :=
  minItems ≤ items.length && items.length ≤ opts.maxItems && items.all isObject

/-- Whether these items, already crushed, are replaced by an envelope. -/
def factors (c : Codec) (opts : CrushOpts) (items : List Json) : Bool :=
  factorable opts items && !((defaultsOf c opts items).isEmpty && (droppedOf c opts items).isEmpty)

/-- What an item keeps. -/
def slim (defaults : List (String × Json)) (dropped : List String) (item : Json) : Json :=
  .object ((fieldsOf item).filter fun (key, val) =>
    !dropped.contains key && !(defaults.lookup key == some val))

def envelope (defaults : List (String × Json)) (dropped : List String) (items : List Json) :
    Json :=
  let crushed := put marker markerArray []
  let crushed :=
    if defaults.isEmpty then crushed else put defaultsKey (.object defaults) crushed
  let crushed :=
    if dropped.isEmpty then crushed else put droppedKey (.array (dropped.map .string)) crushed
  .object (put itemsKey (.array (items.map (slim defaults dropped))) crushed)

/-- An array whose elements are already crushed. -/
def crushArray (c : Codec) (opts : CrushOpts) (children : List Crushed) : Crushed :=
  let items := children.map Crushed.value
  if factors c opts items then
    { value := envelope (defaultsOf c opts items) (droppedOf c opts items) items
      changed := true
      lossless := children.all Crushed.lossless && (droppedOf c opts items).isEmpty }
  else
    { value := .array items
      changed := children.any Crushed.changed
      lossless := children.all Crushed.lossless }

mutual

def crushNode (c : Codec) (opts : CrushOpts) (depth : ℕ) : Json → Crushed
  | .array arr =>
    if depth > opts.maxDepth then .unchanged (.array arr)
    else crushArray c opts (crushItems c opts (depth + 1) arr)
  | .object map =>
    if depth > opts.maxDepth then .unchanged (.object map)
    else
      let children := crushEntries c opts (depth + 1) map
      { value := .object (mapValues Crushed.value children)
        changed := children.any fun e => e.2.changed
        lossless := children.all fun e => e.2.lossless }
  | value => .unchanged value

def crushItems (c : Codec) (opts : CrushOpts) (depth : ℕ) : List Json → List Crushed
  | [] => []
  | el :: rest => crushNode c opts depth el :: crushItems c opts depth rest

def crushEntries (c : Codec) (opts : CrushOpts) (depth : ℕ) :
    List (String × Json) → List (String × Crushed)
  | [] => []
  | (key, val) :: rest => (key, crushNode c opts depth val) :: crushEntries c opts depth rest

end

mutual

def containsMarker : Json → Bool
  | .object map => (map.lookup marker).isSome || containsMarkerEntries map
  | .array arr => containsMarkerItems arr
  | _ => false

def containsMarkerItems : List Json → Bool
  | [] => false
  | v :: rest => containsMarker v || containsMarkerItems rest

def containsMarkerEntries : List (String × Json) → Bool
  | [] => false
  | (_, v) :: rest => containsMarker v || containsMarkerEntries rest

end

def crushWith (c : Codec) (value : Json) (opts : CrushOpts) : Option CrushResult :=
  if containsMarker value then none
  else
    let crushed := crushNode c opts 0 value
    if !crushed.changed then none
    else some { text := c.print crushed.value, lossless := crushed.lossless }

def crushLossless (c : Codec) (value : Json) : Option CrushResult := crushWith c value .lossless

def crushLossy (c : Codec) (value : Json) (opts : CrushOpts) : Option CrushResult :=
  crushWith c value opts

/-! ## Decoding -/

def isEnvelope (map : List (String × Json)) : Bool := map.lookup marker == some markerArray

mutual

def uncrushNode : Json → Json
  | .object map =>
    if isEnvelope map then
      .array ((uncrushRowsAt itemsKey map).map fun row =>
        .object (putAll (uncrushFieldsAt defaultsKey map) row))
    else .object (uncrushEntries map)
  | .array arr => .array (uncrushItems arr)
  | value => value

def uncrushItems : List Json → List Json
  | [] => []
  | v :: rest => uncrushNode v :: uncrushItems rest

def uncrushEntries : List (String × Json) → List (String × Json)
  | [] => []
  | (key, val) :: rest => (key, uncrushNode val) :: uncrushEntries rest

/-- The fields of the object under a key, decoded; none when there is no object there. -/
def uncrushFieldsAt (key : String) : List (String × Json) → List (String × Json)
  | [] => []
  | (k, .object map) :: rest => if key = k then uncrushEntries map else uncrushFieldsAt key rest
  | (k, _) :: rest => if key = k then [] else uncrushFieldsAt key rest

/-- The elements of the array under a key, each as its decoded fields. -/
def uncrushRowsAt (key : String) : List (String × Json) → List (List (String × Json))
  | [] => []
  | (k, .array items) :: rest => if key = k then uncrushRows items else uncrushRowsAt key rest
  | (k, _) :: rest => if key = k then [] else uncrushRowsAt key rest

def uncrushRows : List Json → List (List (String × Json))
  | [] => []
  | .object map :: rest => uncrushEntries map :: uncrushRows rest
  | _ :: rest => [] :: uncrushRows rest

end

def reconstruct (c : Codec) (text : String) : Option Json := (c.parse text).map uncrushNode

/-! ## YAML -/

/-- The document as the envelope carries it: crushed when there was something to factor. -/
def yamlFactor (c : Codec) (value : Json) (dropEntropy : Option (ℕ → ℕ → Bool)) :
    Option (Json × Bool) :=
  match dropEntropy with
  | some reaches =>
    match crushLossy c value (.lossy (some reaches)) with
    | some res => (c.parse res.text).map (·, res.lossless)
    | none => some (value, true)
  | none =>
    match crushLossless c value with
    | some res => (c.parse res.text).map (·, true)
    | none => some (value, true)

def yamlCrush (c : Codec) (yaml : String → Option Json) (text : String)
    (dropEntropy : Option (ℕ → ℕ → Bool)) : Option CrushResult :=
  match yaml text with
  | none => none
  | some value =>
    if !(isObject value || isArray value) then none
    else if ((fieldsOf value).lookup yamlMarker).isSome then none
    else (yamlFactor c value dropEntropy).map fun (inner, lossless) =>
      { text := c.print (.object (put yamlMarker inner [])), lossless := lossless }

def yamlReconstruct (c : Codec) (text : String) : Option Json := do
  let v ← c.parse text
  let inner ← v.get yamlMarker
  reconstruct c (c.print inner)

end LeanCtx.Crush
