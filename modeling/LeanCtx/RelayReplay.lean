import LeanCtx.ByteText
import LeanCtx.OrdMap

/-!
# The relay replay store

Replay protection for signed relay deliveries. A delivery is reserved under its
storage id before it takes effect and completed afterwards; a completed proof
is kept until its retention has elapsed, and a proof past its signed expiry is
refused. The clock of the store is the latest one observed. Each operation is
one transaction: an error leaves the database as it was. A failure of the file
system or of the database is an input of the operation.
-/

namespace LeanCtx.Relay

open ByteText

def minRetentionSeconds : ℤ := 86730
def maxRetentionSeconds : ℤ := 366 * 86400
def databasePageSize : ℕ := 4 * 1024
def defaultMaxDatabaseBytes : ℕ := 256 * 1024 * 1024
def i64Max : ℤ := 2 ^ 63 - 1
def unreclaimableRetryAfterSeconds : ℕ := 3600
def maxLeaseBytes : ℕ := 32

/-- `i64::checked_add` of an amount that is not negative. -/
def checkedAddI64 (a b : ℤ) : Option ℤ := if a + b ≤ i64Max then some (a + b) else none

structure RelayReplayLimits where
  maxRows : ℕ
  perOriginMaxRows : ℕ
  maxDatabaseBytes : ℕ
  deriving DecidableEq

inductive StoreError
  | invalidInput (message : String)
  | expired
  | capacityExhausted (retryAfterSeconds : ℕ)
  | migrationRequired (message : String)
  | leaseMismatch
  | unavailable (message : String)
  deriving DecidableEq, Repr

inductive Reservation
  | reserved (lease : String)
  | inFlight
  | completed
  | conflict
  deriving DecidableEq, Repr

inductive RowState
  | pending | completed
  deriving DecidableEq, Repr

/-- A row of `relay_replay`; its storage id is the key it is stored under. -/
structure Row where
  origin : String
  tenant : String
  project : String
  fingerprint : String
  signedExpiresAt : ℤ
  retainUntil : ℤ
  lease : String
  state : RowState
  acceptedAt : ℤ

structure Database where
  retentionSeconds : ℤ
  lastObservedAt : ℤ
  rows : OrdMap String Row
  responses : OrdMap String String

/-- An opened store: what the process keeps beside the database. -/
structure RelayReplayStore where
  limits : RelayReplayLimits
  retentionSeconds : ℤ

/-! ## Validation -/

def RelayReplayLimits.validate (l : RelayReplayLimits) : Except StoreError Unit :=
  if l.maxRows = 0 ∨ l.perOriginMaxRows = 0 ∨ l.perOriginMaxRows > l.maxRows ∨
      (l.maxRows : ℤ) > i64Max ∨ (l.perOriginMaxRows : ℤ) > i64Max ∨
      l.maxDatabaseBytes < databasePageSize ∨ l.maxDatabaseBytes > defaultMaxDatabaseBytes then
    .error (.invalidInput "relay replay limits are outside bounded range")
  else .ok ()

def validateRetention (retentionSeconds : ℤ) : Except StoreError Unit :=
  if minRetentionSeconds ≤ retentionSeconds ∧ retentionSeconds ≤ maxRetentionSeconds then .ok ()
  else .error (.invalidInput
    s!"retention must be between {minRetentionSeconds} and {maxRetentionSeconds} seconds")

def isHexDigit (b : UInt8) : Bool :=
  (48 ≤ b && b ≤ 57) || (65 ≤ b && b ≤ 70) || (97 ≤ b && b ≤ 102)

def isUppercase (b : UInt8) : Bool := 65 ≤ b && b ≤ 90

def validateDigest (value name : String) : Except StoreError Unit :=
  if (utf8 value).length ≠ 64 ∨ ¬ (utf8 value).all fun b => isHexDigit b && !isUppercase b then
    .error (.invalidInput s!"{name} must be exactly 64 lowercase hexadecimal bytes")
  else .ok ()

def validateScope (value name : String) : Except StoreError Unit :=
  if value = "" ∨ (utf8 value).length > 128 then
    .error (.invalidInput s!"{name} must be between 1 and 128 bytes")
  else .ok ()

def validateLease (value : String) : Except StoreError Unit :=
  if (utf8 value).length ≠ maxLeaseBytes ∨ ¬ (utf8 value).all isHexDigit then
    .error (.invalidInput "opaque relay lease is malformed")
  else .ok ()

/-! ## Transactions -/

/-- What the transaction meets besides the rows: a failure of the database or the file system. -/
abbrev Fault := Option String

def ensureAvailable : Fault → Except StoreError Unit
  | some message => .error (.unavailable message)
  | none => .ok ()

def readLastObserved (db : Database) : Except StoreError ℤ :=
  if 0 ≤ db.lastObservedAt ∧ db.lastObservedAt ≤ i64Max - maxRetentionSeconds then
    .ok db.lastObservedAt
  else .error (.unavailable "persisted relay replay clock is outside its supported range")

def updateLastObserved (db : Database) (now : ℤ) : Database :=
  { db with lastObservedAt := if db.lastObservedAt < now then now else db.lastObservedAt }

/-- The rows that stay, and the responses of these rows. -/
def keepRows (db : Database) (keep : String → Row → Bool) : Database :=
  { db with
    rows := db.rows.filter keep
    responses := db.responses.filter fun id _ => (db.rows.filter keep).contains id }

/-- Delete the completed proofs whose retention has elapsed. -/
def pruneExpired (db : Database) (now : ℤ) : Database :=
  keepRows db fun _ row => !(row.state = .completed && row.retainUntil ≤ now)

def countRows (db : Database) : Option String → ℕ
  | none => db.rows.size
  | some origin => (db.rows.toList.filter fun e => e.2.origin = origin).length

def retryAfterSeconds (db : Database) (origin : Option String) (now : ℤ) : ℕ :=
  let completed := db.rows.toList.filter fun e =>
    e.2.state = .completed && (origin.isNone || origin = some e.2.origin)
  match (completed.map fun e => e.2.retainUntil).min? with
  | none => unreclaimableRetryAfterSeconds
  | some deadline => (max (deadline - now) 1).toNat

structure Relayed where
  storageId : String
  origin : String
  tenant : String
  project : String
  fingerprint : String
  signedExpiresAt : ℤ
  deriving DecidableEq

def Relayed.validate (r : Relayed) : Except StoreError Unit := do
  validateDigest r.storageId "storage_id"
  validateScope r.origin "origin"
  validateScope r.tenant "tenant"
  validateScope r.project "project"
  validateDigest r.fingerprint "fingerprint"

/-- The answer for a storage id that has a row. -/
def duplicate (r : Relayed) (existing : Row) : Reservation :=
  if ¬ (existing.origin = r.origin ∧ existing.tenant = r.tenant ∧ existing.project = r.project) ∨
      existing.fingerprint ≠ r.fingerprint then .conflict
  else match existing.state with
    | .pending => .inFlight
    | .completed => .completed

/-- The first of the drawn leases that no row has; four are drawn at most. -/
def freshLease (db : Database) (leases : List String) : Option String :=
  (leases.take 4).find? fun lease => !db.rows.toList.any fun e => e.2.lease = lease

/-- A reservation of an id without a row, at the effective clock `now`. -/
def insertProof (store : RelayReplayStore) (r : Relayed) (persisted nowSeconds : ℤ)
    (leases : List String) (db : Database) : Except StoreError (Reservation × Database) :=
  let now := max nowSeconds persisted
  if r.signedExpiresAt < now then
    if persisted - nowSeconds > maxRetentionSeconds then
      .error (.unavailable "persisted relay replay clock is ahead of the system clock")
    else .error .expired
  else match checkedAddI64 now (max store.retentionSeconds db.retentionSeconds) with
    | none => .error (.invalidInput "relay replay time overflow")
    | some deadline =>
      if countRows db none ≥ store.limits.maxRows then
        .error (.capacityExhausted (retryAfterSeconds db none now))
      else if countRows db (some r.origin) ≥ store.limits.perOriginMaxRows then
        .error (.capacityExhausted (retryAfterSeconds db (some r.origin) now))
      else match freshLease db leases with
        | none => .error (.unavailable "random relay lease collision")
        | some lease =>
          .ok (.reserved lease, updateLastObserved { db with
            rows := db.rows.insert r.storageId
              { origin := r.origin
                tenant := r.tenant
                project := r.project
                fingerprint := r.fingerprint
                signedExpiresAt := r.signedExpiresAt
                retainUntil := max r.signedExpiresAt deadline
                lease := lease
                state := .pending
                acceptedAt := now } } now)

def reserve (store : RelayReplayStore) (r : Relayed) (nowSeconds : ℤ) (leases : List String)
    (fault : Fault) (db : Database) : Except StoreError (Reservation × Database) := do
  r.validate
  ensureAvailable fault
  validateRetention db.retentionSeconds
  let persisted ← readLastObserved db
  let now := max nowSeconds persisted
  match checkedAddI64 now maxRetentionSeconds with
  | none => .error (.invalidInput "relay replay time overflow")
  | some horizon =>
    if r.signedExpiresAt > horizon then
      .error (.invalidInput
        s!"signed relay expiry exceeds the bounded {maxRetentionSeconds}s replay horizon")
    else
      let pruned := pruneExpired db now
      match pruned.rows[r.storageId]? with
      | some existing => .ok (duplicate r existing, updateLastObserved pruned now)
      | none => insertProof store r persisted nowSeconds leases pruned

/-- What `transition` is asked to do with a pending proof. -/
inductive Transition
  | complete (response : Option String)
  | release

def transition (storageId opaqueLease : String) (wanted : Transition) (fault : Fault)
    (db : Database) : Except StoreError Database := do
  validateDigest storageId "storage_id"
  validateLease opaqueLease
  ensureAvailable fault
  match db.rows[storageId]? with
  | none => .error .leaseMismatch
  | some row =>
    if row.lease ≠ opaqueLease then .error .leaseMismatch
    else match wanted, row.state with
      | .complete response, .completed =>
        if db.responses[storageId]? = response then .ok db else .error .leaseMismatch
      | .release, .completed => .error .leaseMismatch
      | .complete response, .pending =>
        let rows := db.rows.insert storageId { row with state := .completed }
        match response with
        | none => .ok { db with rows := rows }
        | some body =>
          if db.responses.contains storageId then .error (.unavailable "persist task response")
          else .ok { db with rows := rows, responses := db.responses.insert storageId body }
      | .release, .pending => .ok (keepRows db fun id _ => id ≠ storageId)

def complete (storageId opaqueLease : String) (fault : Fault) (db : Database) :
    Except StoreError Database :=
  transition storageId opaqueLease (.complete none) fault db

def completeWithResponse (storageId opaqueLease body : String) (fault : Fault) (db : Database) :
    Except StoreError Database :=
  if body = "" ∨ (utf8 body).length > 64 * 1024 then
    .error (.invalidInput "invalid task response size")
  else transition storageId opaqueLease (.complete (some body)) fault db

def release (storageId opaqueLease : String) (fault : Fault) (db : Database) :
    Except StoreError Database :=
  transition storageId opaqueLease .release fault db

/-! ## Processes over one database -/

/-- The database, once it is created, and the stores that processes hold open. -/
structure System where
  database : Option Database
  stores : List RelayReplayStore

def System.empty : System where
  database := none
  stores := []

/-- Opening fails before it touches the database, or after it has created it or raised its
retention. -/
inductive OpenFault
  | before (message : String)
  | after (message : String)
  deriving DecidableEq

inductive Op
  | new (limits : RelayReplayLimits) (retentionSeconds : ℤ) (fault : Option OpenFault)
  | reserve (store : ℕ) (r : Relayed) (nowSeconds : ℤ) (leases : List String) (fault : Fault)
  | complete (store : ℕ) (storageId opaqueLease : String) (fault : Fault)
  | completeWithResponse (store : ℕ) (storageId opaqueLease body : String) (fault : Fault)
  | release (store : ℕ) (storageId opaqueLease : String) (fault : Fault)
  deriving DecidableEq

inductive Answer
  | opened
  | reservation (r : Reservation)
  | done
  | failed (e : StoreError)
  | noStore
  deriving DecidableEq

def openDatabase (retentionSeconds : ℤ) : Option Database → Except StoreError Database
  | none => .ok
    { retentionSeconds := retentionSeconds
      lastObservedAt := 0
      rows := ∅
      responses := ∅ }
  | some db => do
    validateRetention db.retentionSeconds
    return { db with retentionSeconds := max db.retentionSeconds retentionSeconds }

def System.new (s : System) (limits : RelayReplayLimits) (retentionSeconds : ℤ)
    (fault : Option OpenFault) : Answer × System :=
  match limits.validate, validateRetention retentionSeconds with
  | .error e, _ => (.failed e, s)
  | .ok _, .error e => (.failed e, s)
  | .ok _, .ok _ =>
    match fault, openDatabase retentionSeconds s.database with
    | some (.before message), _ => (.failed (.unavailable message), s)
    | _, .error e => (.failed e, s)
    | some (.after message), .ok db =>
      (.failed (.unavailable message), { s with database := some db })
    | none, .ok db => (.opened,
        { database := some db
          stores := s.stores ++
            [{ limits := limits, retentionSeconds := db.retentionSeconds }] })

/-- An operation on an open store. -/
def System.operate (s : System) (store : ℕ)
    (operation : RelayReplayStore → Database → Except StoreError (Answer × Database)) :
    Answer × System :=
  match s.stores[store]?, s.database with
  | some handle, some db =>
    match operation handle db with
    | .ok (answer, db') => (answer, { s with database := some db' })
    | .error e => (.failed e, s)
  | _, _ => (.noStore, s)

def step (s : System) : Op → Answer × System
  | .new limits retentionSeconds fault => s.new limits retentionSeconds fault
  | .reserve store r nowSeconds leases fault => s.operate store fun handle db =>
      (reserve handle r nowSeconds leases fault db).map fun (a, db) => (.reservation a, db)
  | .complete store storageId lease fault => s.operate store fun _ db =>
      (complete storageId lease fault db).map (.done, ·)
  | .completeWithResponse store storageId lease body fault => s.operate store fun _ db =>
      (completeWithResponse storageId lease body fault db).map (.done, ·)
  | .release store storageId lease fault => s.operate store fun _ db =>
      (release storageId lease fault db).map (.done, ·)

end LeanCtx.Relay
