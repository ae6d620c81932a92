import LeanCtx.Json
import LeanCtx.TextFile
import LeanCtx.Trace
import Mathlib.Data.Prod.Lex
import Mathlib.Data.String.Basic

/-!
# The change journal of a project's knowledge

Every save of the store appends one row for each fact it added, changed or
removed. Rows are numbered on from the newest one, which is looked up in the
last bytes of the file. A journal over its size limit loses the older half of
its rows.
-/

namespace LeanCtx.Journal

open ByteText TextFile KeyedList

def maxJournalBytes : ℕ := 2 * 1024 * 1024

def tailBytes : ℕ := 4096

def trackedFields : List String :=
  ["value", "status", "validity", "anchors", "review", "valid_until", "supersedes", "privacy"]

/-- A fact, with its time of creation as written and the JSON it is stored as. -/
structure KnowledgeFact where
  category : String
  key : String
  createdAt : String
  sourceSession : String
  json : Json

structure JournalRow where
  lsn : ℕ
  time : String
  op : String
  category : String
  key : String
  created : String
  fields : List String
  session : String

inductive Op
  | added
  | changed
  | removed
deriving DecidableEq

def Op.str : Op → String
  | .added => "added"
  | .changed => "changed"
  | .removed => "removed"

/-- A change before it is numbered. -/
structure Change where
  op : Op
  category : String
  key : String
  created : String
  fields : List String
  session : String

structure Identity where
  category : String
  key : String
  created : String

/-- Identities are ordered as the tuples of their fields. -/
instance : LinearOrder Identity :=
  LinearOrder.lift' (fun id => toLex (id.category, toLex (id.key, id.created))) (by
    rintro ⟨category, key, created⟩ ⟨category', key', created'⟩ h
    obtain ⟨rfl, h⟩ := Prod.mk.inj h
    obtain ⟨rfl, rfl⟩ := Prod.mk.inj h
    rfl)

def identity (fact : KnowledgeFact) : Identity := ⟨fact.category, fact.key, fact.createdAt⟩

def tracked (fact : KnowledgeFact) : List Json :=
  trackedFields.map fun field => (fact.json.get field).getD .null

/-- What the journal takes from elsewhere: the redaction of secrets in a key, and the JSON line of
a row with its reader. -/
structure Env where
  redact : String → String
  print : JournalRow → String
  read : String → Option JournalRow
  read_print : ∀ row, read (print row) = some row
  print_oneLine : ∀ row, OneLine (print row)

variable (env : Env)

/-! ## Changes -/

/-- The facts by identity; of two with the same one the later counts. -/
def index (facts : List KnowledgeFact) : List (Identity × KnowledgeFact) :=
  putAll [] (facts.map fun fact => (identity fact, fact))

def change (op : Op) (fact : KnowledgeFact) (fields : List String) : Change where
  op := op
  category := fact.category
  key := env.redact fact.key
  created := fact.createdAt
  fields := fields
  session := fact.sourceSession

/-- The tracked fields in which two states of a fact differ. -/
def changedFields (was now : KnowledgeFact) : List String :=
  (((tracked was).zip (tracked now)).zip trackedFields).filterMap fun ((was, now), name) =>
    if was ≠ now then some name else none

def Change.before (a b : Change) : Bool :=
  (⟨a.category, a.key, a.created⟩ : Identity) ≤ ⟨b.category, b.key, b.created⟩

def diff (before after : List KnowledgeFact) : List Change :=
  let old := index before
  let new := index after
  let here := new.filterMap fun (id, fact) =>
    match old.lookup id with
    | none => some (change env .added fact [])
    | some was =>
      if changedFields was fact = [] then none
      else some (change env .changed fact (changedFields was fact))
  let gone := old.filterMap fun (id, fact) =>
    if (new.lookup id).isSome then none else some (change env .removed fact [])
  (here ++ gone).mergeSort Change.before

/-! ## The file -/

/-- The newest row that a text shows. -/
def newestRow (text : String) : Option JournalRow := (lines text).reverse.findSome? env.read

/-- The newest number; 0 for an empty journal, and when the last bytes are no text. -/
def headLsn (file : String) : ℕ :=
  ((fromUtf8 (lastBytes tailBytes (utf8 file))).bind (newestRow env)).elim 0 JournalRow.lsn

def numbered (first : ℕ) (changes : List Change) (time : String) : List JournalRow :=
  (changes.zipIdx first).map fun (c, lsn) =>
    { lsn := lsn, time := time, op := c.op.str, category := c.category, key := c.key,
      created := c.created, fields := c.fields, session := c.session }

def trim (file : String) : String :=
  if (utf8 file).length ≤ maxJournalBytes then file
  else
    let ls := lines file
    "\n".intercalate (ls.drop (ls.length / 2)) ++ "\n"

/-- The rows that an append writes. -/
def newRows (file : String) (changes : List Change) (time : String) : List JournalRow :=
  numbered (headLsn env file + 1) changes time

def append (file : String) (changes : List Change) (time : String) : String :=
  if changes.isEmpty then file
  else trim (file ++ joinLines ((newRows env file changes time).map env.print))

def rowsSince (file : String) (since limit : ℕ) : List JournalRow :=
  (((lines file).filterMap env.read).filter fun row => since < row.lsn).take limit

/-! ## Saves -/

structure Store where
  facts : List KnowledgeFact
  journal : String

structure Save where
  facts : List KnowledgeFact
  time : String

def Store.empty : Store := ⟨[], ""⟩

def save (s : Store) (call : Save) : Unit × Store :=
  ((), ⟨call.facts, append env s.journal (diff env s.facts call.facts) call.time⟩)

end LeanCtx.Journal
