import LeanCtx.ByteText
import LeanCtx.JsonText
import LeanCtx.Trace
import Mathlib.Data.List.Basic
import Mathlib.Algebra.Order.Ring.Int
import Mathlib.Data.List.Nodup
import Mathlib.Logic.Function.Basic

/-!
# The dead-letter store

Letters that could not be delivered are kept in one file a scope. A file is
checked when it is loaded and not when it is saved. A repeated failure and a
failed retry change the time of the last failure, which is checked against the
time of the first; nothing compares the two when they are written.
-/

namespace LeanCtx.DeadLetters

open ByteText (Bytes utf8)
open JsonText (quote)

def storeVersion : UInt16 := 1

def maxEntriesPerScope : ℕ := 1000

def maxStoreBytes : ℕ := 8 * 1024 * 1024

def maxMessageBytes : ℕ := 2 * 1024 * 1024

def maxIdentifierBytes : ℕ := 512

def maxErrorBytes : ℕ := 64 * 1024

/-- `OclaError::InvalidRequest`, with its text. -/
abbrev OclaError := String

/-! ## Letters -/

inductive Delivery
  | localAgentBus
  | remoteHttp (endpointUrl : String)
deriving DecidableEq

structure DlqScope where
  tenantId : String
  projectId : String
deriving DecidableEq

structure DeadLetter where
  id : String
  peerId : String
  deliveryId : String
  tenantId : String
  projectId : String
  delivery : Delivery
  originalMessage : String
  targetAgent : String
  error : String
  attempts : UInt8
  firstFailedAt : String
  lastFailedAt : String
deriving DecidableEq

def DeadLetter.scope (letter : DeadLetter) : DlqScope := ⟨letter.tenantId, letter.projectId⟩

structure Url where
  scheme : String
  host : Option String
  username : String
  password : Option String

structure DurableDlqV1 where
  version : UInt16
  entries : List DeadLetter

/-! ## The text of a store -/

/-- A field of a letter, before the rest of the text. -/
def stringField (name value : String) (rest : List Char) : List Char :=
  "\n      ".toList ++ (quote name ++ (": ".toList ++ (quote value ++ rest)))

def deliveryField (delivery : Delivery) (rest : List Char) : List Char :=
  "\n      \"delivery\": ".toList ++
    match delivery with
    | .localAgentBus => quote "local_agent_bus" ++ rest
    | .remoteHttp endpointUrl =>
      "\x7b\n        \"remote_http\": \x7b\n          \"endpoint_url\": ".toList ++
        (quote endpointUrl ++ ("\n        \x7d\n      \x7d".toList ++ rest))

def attemptsField (attempts : UInt8) (rest : List Char) : List Char :=
  "\n      \"attempts\": ".toList ++ (attempts.toNat.repr.toList ++ ',' :: rest)

def DeadLetter.text (letter : DeadLetter) (rest : List Char) : List Char :=
  '\x7b' :: (stringField "id" letter.id <| ',' :: (stringField "peer_id" letter.peerId <|
    ',' :: (stringField "delivery_id" letter.deliveryId <|
    ',' :: (stringField "tenant_id" letter.tenantId <|
    ',' :: (stringField "project_id" letter.projectId <| ',' :: (deliveryField letter.delivery <|
    ',' :: (stringField "original_message" letter.originalMessage <|
    ',' :: (stringField "target_agent" letter.targetAgent <|
    ',' :: (stringField "error" letter.error <| ',' :: (attemptsField letter.attempts <|
    stringField "first_failed_at" letter.firstFailedAt <|
    ',' :: (stringField "last_failed_at" letter.lastFailedAt <|
    "\n    \x7d".toList ++ rest)))))))))))

/-- The entries, separated from what stands before them unless they come first. -/
def entriesText (first : Bool) : List DeadLetter → List Char
  | [] => (if first then "]" else "\n  ]").toList ++ "\n\x7d".toList
  | letter :: rest =>
    (if first then "\n    " else ",\n    ").toList ++ letter.text (entriesText false rest)

/-- `serde_json::to_vec_pretty` of a store. -/
def toVecPretty (store : DurableDlqV1) : Bytes :=
  utf8 <| String.ofList <| "\x7b\n  \"version\": ".toList ++ (store.version.toNat.repr.toList ++
    ',' :: ("\n  \"entries\": [".toList ++ entriesText true store.entries))

theorem stringField_inj {name value value' : String} {r r' : List Char}
    (h : stringField name value r = stringField name value' r') : value = value' ∧ r = r' := by
  unfold stringField at h
  have hname := List.append_cancel_left h
  have hcolon := List.append_cancel_left hname
  exact JsonText.quote_append_inj (List.append_cancel_left hcolon)

theorem attemptsField_inj {a a' : UInt8} {r r' : List Char}
    (h : attemptsField a r = attemptsField a' r') : a = a' ∧ r = r' := by
  have hdigits := List.append_cancel_left h
  obtain ⟨hsame, -⟩ := JsonText.repr_append_inj (by decide) (by decide) hdigits
  rw [hsame] at hdigits
  exact ⟨UInt8.toNat_inj.mp hsame, (List.cons.inj (List.append_cancel_left hdigits)).2⟩

theorem deliveryField_inj {d d' : Delivery} {r r' : List Char}
    (h : deliveryField d r = deliveryField d' r') : d = d' ∧ r = r' := by
  have hvalue := List.append_cancel_left h
  cases d with
  | localAgentBus =>
    cases d' with
    | localAgentBus => exact ⟨rfl, List.append_cancel_left hvalue⟩
    | remoteHttp url => exact absurd (List.cons.inj hvalue).1 (by decide)
  | remoteHttp url =>
    cases d' with
    | localAgentBus => exact absurd (List.cons.inj hvalue).1 (by decide)
    | remoteHttp url' =>
      obtain ⟨rfl, hrest⟩ := JsonText.quote_append_inj (List.append_cancel_left hvalue)
      exact ⟨rfl, List.append_cancel_left hrest⟩

theorem DeadLetter.text_inj {letter letter' : DeadLetter} {r r' : List Char}
    (h : letter.text r = letter'.text r') : letter = letter' ∧ r = r' := by
  obtain ⟨hid, h⟩ := stringField_inj (List.cons.inj h).2
  obtain ⟨hpeer, h⟩ := stringField_inj (List.cons.inj h).2
  obtain ⟨hdelivery, h⟩ := stringField_inj (List.cons.inj h).2
  obtain ⟨htenant, h⟩ := stringField_inj (List.cons.inj h).2
  obtain ⟨hproject, h⟩ := stringField_inj (List.cons.inj h).2
  obtain ⟨htransport, h⟩ := deliveryField_inj (List.cons.inj h).2
  obtain ⟨hmessage, h⟩ := stringField_inj (List.cons.inj h).2
  obtain ⟨htarget, h⟩ := stringField_inj (List.cons.inj h).2
  obtain ⟨herror, h⟩ := stringField_inj (List.cons.inj h).2
  obtain ⟨hattempts, h⟩ := attemptsField_inj (List.cons.inj h).2
  obtain ⟨hfirst, h⟩ := stringField_inj h
  obtain ⟨hlast, h⟩ := stringField_inj (List.cons.inj h).2
  have hrest := List.append_cancel_left h
  cases letter
  cases letter'
  rw [DeadLetter.mk.injEq]
  exact ⟨⟨hid, hpeer, hdelivery, htenant, hproject, htransport, hmessage, htarget, herror,
    hattempts, hfirst, hlast⟩, hrest⟩

theorem entriesText_inj {first : Bool} {entries entries' : List DeadLetter}
    (h : entriesText first entries = entriesText first entries') : entries = entries' := by
  induction entries generalizing first entries' with
  | nil =>
    cases entries' with
    | nil => rfl
    | cons letter rest =>
      cases first with
      | false => exact absurd (List.cons.inj h).1 (by decide)
      | true => exact absurd (List.cons.inj h).1 (by decide)
  | cons letter rest ih =>
    cases entries' with
    | nil =>
      cases first with
      | false => exact absurd (List.cons.inj h).1 (by decide)
      | true => exact absurd (List.cons.inj h).1 (by decide)
    | cons letter' rest' =>
      obtain ⟨rfl, hrest⟩ := DeadLetter.text_inj (List.append_cancel_left h)
      rw [ih hrest]

/-- A store is known by its text. -/
theorem toVecPretty_inj {store store' : DurableDlqV1} (h : toVecPretty store = toVecPretty store') :
    store = store' := by
  have hchars := List.append_cancel_left (String.ofList_injective (ByteText.utf8_inj h))
  obtain ⟨hversion, -⟩ := JsonText.repr_append_inj (by decide) (by decide) hchars
  rw [hversion] at hchars
  have hentries := (List.cons.inj (List.append_cancel_left hchars)).2
  cases store
  cases store'
  rw [DurableDlqV1.mk.injEq]
  exact ⟨UInt16.toNat_inj.mp hversion, entriesText_inj (List.append_cancel_left hentries)⟩

theorem toVecPretty_eq (store : DurableDlqV1) :
    toVecPretty store = ("\x7b\n  \"version\": ".toList ++ (store.version.toNat.repr.toList ++
      ',' :: ("\n  \"entries\": [".toList ++ entriesText true store.entries))).flatMap
        String.utf8EncodeChar := by
  rw [toVecPretty, utf8, String.toList_ofList]

/-- The crates the store relies on: times and addresses as they are read, the reader of a store,
which reads back what is written, and the hash that names a scope's file. -/
structure Env where
  parseTime : String → Option ℤ
  toRfc3339 : ℤ → String
  parseUrl : String → Option Url
  fromSlice : Bytes → Option DurableDlqV1
  fromSlice_toVecPretty : ∀ store, fromSlice (toVecPretty store) = some store
  blake3Hex : Bytes → String

variable (env : Env)

def validateIdentifier (label value : String) : Except OclaError Unit :=
  if ByteText.trim value = "" ∨ maxIdentifierBytes < value.utf8ByteSize ∨ '\x00' ∈ value.toList then
    .error ("invalid " ++ label)
  else .ok ()

def DlqScope.validate (scope : DlqScope) : Except OclaError Unit := do
  validateIdentifier "tenant_id" scope.tenantId
  validateIdentifier "project_id" scope.projectId

def validateTimes (letter : DeadLetter) : Except OclaError Unit :=
  match env.parseTime letter.firstFailedAt with
  | none => .error "invalid first_failed_at"
  | some first =>
    match env.parseTime letter.lastFailedAt with
    | none => .error "invalid last_failed_at"
    | some last =>
      if last < first then .error "last_failed_at must not precede first_failed_at" else .ok ()

def validateDelivery : Delivery → Except OclaError Unit
  | .localAgentBus => .ok ()
  | .remoteHttp endpointUrl =>
    match env.parseUrl endpointUrl with
    | none => .error "invalid dead letter endpoint_url"
    | some url =>
      if (url.scheme ≠ "http" ∧ url.scheme ≠ "https") ∨ url.host = none ∨ url.username ≠ "" ∨
          url.password ≠ none then
        .error "dead letter endpoint_url must be absolute HTTP(S)"
      else .ok ()

def DeadLetter.validate (letter : DeadLetter) : Except OclaError Unit := do
  validateIdentifier "id" letter.id
  validateIdentifier "peer_id" letter.peerId
  validateIdentifier "delivery_id" letter.deliveryId
  letter.scope.validate
  validateIdentifier "target_agent" letter.targetAgent
  if letter.originalMessage = "" ∨ maxMessageBytes < letter.originalMessage.utf8ByteSize then
    .error "dead letter message must be non-empty and bounded"
  else if letter.error = "" ∨ maxErrorBytes < letter.error.utf8ByteSize then
    .error "dead letter error must be non-empty and bounded"
  else if letter.attempts = 0 then .error "dead letter attempts must be greater than zero"
  else do
    validateTimes env letter
    validateDelivery env letter.delivery

/-! ## Operations on the entries -/

/-- What an operation leaves of the entries, and its result. -/
abbrev Operation (R : Type) := List DeadLetter → List DeadLetter × Except OclaError R

def storeSize (entries : List DeadLetter) : ℕ := (toVecPretty ⟨storeVersion, entries⟩).length

/-- The oldest entries go until the store is small enough. -/
def shrink : Operation Unit
  | [] => ([], .ok ())
  | [letter] =>
    if maxStoreBytes < storeSize [letter] then
      ([letter], .error "dead letter exceeds per-scope store size limit")
    else ([letter], .ok ())
  | letter :: next :: rest =>
    if maxStoreBytes < storeSize (letter :: next :: rest) then shrink (next :: rest)
    else (letter :: next :: rest, .ok ())

def SameDelivery (letter entry : DeadLetter) : Prop :=
  entry.peerId = letter.peerId ∧ entry.deliveryId = letter.deliveryId ∧ entry.scope = letter.scope

instance (letter : DeadLetter) : DecidablePred (SameDelivery letter) :=
  fun entry => inferInstanceAs (Decidable (entry.peerId = letter.peerId ∧ _ ∧ _))

/-- A repeated failure of a delivery. -/
def mergeFailure (letter existing : DeadLetter) : DeadLetter :=
  { existing with
    error := letter.error
    attempts := if existing.attempts ≤ letter.attempts then letter.attempts else existing.attempts
    lastFailedAt := letter.lastFailedAt }

def enqueueEntries (letter : DeadLetter) : Operation Unit := fun entries =>
  match entries.findIdx? fun entry => SameDelivery letter entry with
  | some position => (entries.modify position (mergeFailure letter), .ok ())
  | none =>
    let evicted :=
      if maxEntriesPerScope ≤ entries.countP fun entry => entry.scope = letter.scope then
        entries.eraseP fun entry => entry.scope = letter.scope
      else entries
    shrink (evicted ++ [letter])

def dequeueEntries (scope : DlqScope) (id : String) : Operation (Option DeadLetter) := fun entries =>
  match entries.findIdx? fun letter => letter.id = id ∧ letter.scope = scope with
  | some position => (entries.eraseIdx position, .ok entries[position]?)
  | none => (entries, .ok none)

/-- A failed retry, at the given reading of the clock. -/
def failRetry (now : ℤ) (letter : DeadLetter) : DeadLetter :=
  { letter with
    attempts := if letter.attempts = 255 then 255 else letter.attempts + 1
    lastFailedAt := env.toRfc3339 now }

/-- `resend` is the error of the local bus, if any. -/
def retryEntries (id : String) (resend : Option OclaError) (now : ℤ) :
    Operation (Option OclaError) := fun entries =>
  match entries.findIdx? fun letter => letter.id = id with
  | none => (entries, .error ("dead letter not found: " ++ id))
  | some position =>
    if (entries[position]?.map DeadLetter.delivery) ≠ some .localAgentBus then
      (entries, .error "remote dead letters require the configured authenticated transport")
    else
      match resend with
      | none => (entries.eraseIdx position, .ok none)
      | some error => (entries.modify position (failRetry env now), .ok (some error))

/-! ## Files -/

abbrev Files := String → Option Bytes

def material (scope : DlqScope) : Bytes := utf8 scope.tenantId ++ 0 :: utf8 scope.projectId

def scopeStorePath (scope : DlqScope) : String := env.blake3Hex (material scope) ++ ".json"

/-- Entries of an older version name no peer and no delivery. -/
def upgradeEntry (entry : DeadLetter) : DeadLetter :=
  let entry := if entry.peerId = "" then { entry with peerId := "legacy" } else entry
  if entry.deliveryId = "" then { entry with deliveryId := entry.id } else entry

def checkEntry (scope : DlqScope) (entry : DeadLetter) : Except OclaError DeadLetter := do
  let entry := upgradeEntry entry
  entry.validate env
  if entry.scope ≠ scope then .error "DLQ scope store contains an entry from another scope"
  else .ok entry

def loadStore (files : Files) (scope : DlqScope) : Except OclaError DurableDlqV1 :=
  match files (scopeStorePath env scope) with
  | none => .ok ⟨storeVersion, []⟩
  | some content =>
    if maxStoreBytes < content.length then .error "DLQ store exceeds size limit"
    else
      match env.fromSlice content with
      | none => .error "invalid JSON"
      | some store =>
        if store.version ≠ storeVersion ∨ maxEntriesPerScope < store.entries.length then
          .error "invalid DLQ store bounds or version"
        else do
          let entries ← store.entries.mapM (checkEntry env scope)
          return { store with entries }

def saveStore (files : Files) (scope : DlqScope) (store : DurableDlqV1) : Except OclaError Files :=
  let json := toVecPretty store
  if maxStoreBytes < json.length then .error "DLQ store exceeds size limit"
  else .ok (Function.update files (scopeStorePath env scope) (some json))

def storeError (error : OclaError) : OclaError := "dead letter store unavailable: " ++ error

/-- `with_entries` on a durable queue, mutating. -/
def withEntries {R : Type} (scope : DlqScope) (operation : Operation R) (files : Files) :
    Files × Except OclaError R :=
  match loadStore env files scope with
  | .error error => (files, .error (storeError error))
  | .ok store =>
    match operation store.entries with
    | (_, .error error) => (files, .error error)
    | (entries, .ok result) =>
      match saveStore env files scope { store with entries } with
      | .error error => (files, .error (storeError error))
      | .ok files => (files, .ok result)

/-! ## The queue -/

inductive Call
  | enqueue (letter : DeadLetter)
  | dequeue (scope : DlqScope) (id : String)
  | retry (scope : DlqScope) (id : String) (resend : Option OclaError) (now : ℤ)

inductive Reply
  | done
  | dequeued (letter : Option DeadLetter)
  | error (e : OclaError)

namespace Call

def scope : Call → DlqScope
  | enqueue letter => letter.scope
  | dequeue scope _ => scope
  | retry scope _ _ _ => scope

/-- The checks before the store is opened. -/
def check : Call → Except OclaError Unit
  | enqueue letter => letter.validate env
  | dequeue scope id => do
    scope.validate
    validateIdentifier "id" id
  | retry scope id _ _ => do
    scope.validate
    validateIdentifier "id" id

/-- The operation, and what the caller is told of its result. -/
def operation : Call → Operation Reply
  | enqueue letter => fun entries =>
    let (entries, result) := enqueueEntries letter entries
    (entries, result.map fun _ => .done)
  | dequeue scope id => fun entries =>
    let (entries, result) := dequeueEntries scope id entries
    (entries, result.map .dequeued)
  | retry _ id resend now => fun entries =>
    let (entries, result) := retryEntries env id resend now entries
    (entries, result.map fun retryError => retryError.elim .done .error)

def reply : Except OclaError Reply → Reply
  | .ok reply => reply
  | .error e => .error e

/-- A call on a durable queue. -/
def runDurable (files : Files) (call : Call) : Reply × Files :=
  match call.check env with
  | .error e => (.error e, files)
  | .ok () =>
    let (files, result) := withEntries env call.scope (call.operation env) files
    (reply result, files)

/-- A call on a queue in memory. -/
def runMemory (entries : List DeadLetter) (call : Call) : Reply × List DeadLetter :=
  match call.check env with
  | .error e => (.error e, entries)
  | .ok () =>
    let (entries, result) := call.operation env entries
    (reply result, entries)

end Call

end LeanCtx.DeadLetters
