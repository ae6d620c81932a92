import LeanCtx.KeyedList
import LeanCtx.OrdMap

/-!
# JSON values

The values of `serde_json` as the program reads them: the accessors return
nothing on a value of another kind. Equality is the one the program compares
with.
-/

namespace LeanCtx

/-- A number keeps the kind it was parsed as. A finite `f64` is its rational value, so the two
zeros are equal. -/
inductive JsonNumber
  | posInt (value : UInt64)
  | negInt (value : ℤ)
  | float (value : ℚ)
  deriving DecidableEq, Repr

/-- An object lists its entries in key order, each key once. -/
inductive Json
  | null
  | bool (value : Bool)
  | number (value : JsonNumber)
  | string (value : String)
  | array (items : List Json)
  | object (entries : List (String × Json))
  deriving Repr

namespace Json

mutual

def decEq : (a b : Json) → Decidable (a = b)
  | null, null => isTrue rfl
  | bool a, bool b => decidable_of_iff (a = b) (by simp)
  | number a, number b => decidable_of_iff (a = b) (by simp)
  | string a, string b => decidable_of_iff (a = b) (by simp)
  | array as, array bs => match decEqItems as bs with
    | isTrue h => isTrue (congrArg array h)
    | isFalse h => isFalse fun h' => h (array.inj h')
  | object as, object bs => match decEqEntries as bs with
    | isTrue h => isTrue (congrArg object h)
    | isFalse h => isFalse fun h' => h (object.inj h')
  | null, bool _ | null, number _ | null, string _ | null, array _ | null, object _ => isFalse nofun
  | bool _, null | bool _, number _ | bool _, string _ | bool _, array _ | bool _, object _ =>
    isFalse nofun
  | number _, null | number _, bool _ | number _, string _ | number _, array _
  | number _, object _ => isFalse nofun
  | string _, null | string _, bool _ | string _, number _ | string _, array _
  | string _, object _ => isFalse nofun
  | array _, null | array _, bool _ | array _, number _ | array _, string _ | array _, object _ =>
    isFalse nofun
  | object _, null | object _, bool _ | object _, number _ | object _, string _
  | object _, array _ => isFalse nofun

def decEqItems : (as bs : List Json) → Decidable (as = bs)
  | [], [] => isTrue rfl
  | [], _ :: _ => isFalse nofun
  | _ :: _, [] => isFalse nofun
  | a :: as, b :: bs => match decEq a b, decEqItems as bs with
    | isTrue h, isTrue h' => isTrue (by rw [h, h'])
    | isFalse h, _ => isFalse fun he => h (List.cons.inj he).1
    | _, isFalse h => isFalse fun he => h (List.cons.inj he).2

def decEqEntries : (as bs : List (String × Json)) → Decidable (as = bs)
  | [], [] => isTrue rfl
  | [], _ :: _ => isFalse nofun
  | _ :: _, [] => isFalse nofun
  | (k, a) :: as, (l, b) :: bs => match decEq a b, decEqEntries as bs with
    | isTrue h, isTrue h' => decidable_of_iff (k = l) (by simp [h, h'])
    | isFalse h, _ => isFalse fun he => h (Prod.mk.inj (List.cons.inj he).1).2
    | _, isFalse h => isFalse fun he => h (List.cons.inj he).2

end

instance : DecidableEq Json := decEq

mutual

/-- Every object inside lists its keys in order, each once. -/
def ordered : Json → Bool
  | array items => orderedItems items
  | object entries => decide (KeyedList.Ascending entries) && orderedEntries entries
  | _ => true

def orderedItems : List Json → Bool
  | [] => true
  | v :: rest => v.ordered && orderedItems rest

def orderedEntries : List (String × Json) → Bool
  | [] => true
  | (_, v) :: rest => v.ordered && orderedEntries rest

end

/-- Induction over a value: the parts of an array and of an object come before it. -/
@[elab_as_elim]
theorem tree_induction {motive : Json → Prop} (null : motive null) (bool : ∀ b, motive (bool b))
    (number : ∀ n, motive (number n)) (string : ∀ s, motive (string s))
    (array : ∀ items, (∀ v ∈ items, motive v) → motive (array items))
    (object : ∀ entries, (∀ e ∈ entries, motive e.2) → motive (object entries)) (v : Json) :
    motive v :=
  @Json.rec motive (fun items => ∀ v ∈ items, motive v) (fun entries => ∀ e ∈ entries, motive e.2)
    (fun e => motive e.2) null bool number string array object nofun
    (fun _ _ hv hrest => List.forall_mem_cons.mpr ⟨hv, hrest⟩) nofun
    (fun _ _ he hrest => List.forall_mem_cons.mpr ⟨he, hrest⟩) (fun _ _ h => h) v

/-- `Value::get` with a key. -/
def get (key : String) : Json → Option Json
  | object entries => entries.lookup key
  | _ => none

def asStr : Json → Option String
  | string value => some value
  | _ => none

def asArray : Json → Option (List Json)
  | array items => some items
  | _ => none

def asObject : Json → Option (OrdMap String Json)
  | object entries => some (Std.ExtTreeMap.ofList entries)
  | _ => none

/-- The string under a key, empty when there is none. -/
def strField (body : Json) (key : String) : String :=
  ((body.get key).bind asStr).getD ""

end Json

end LeanCtx
