import LeanCtx.TaskAuthority
import LeanCtx.Trace

/-!
# The store of remote tasks

The store file holds the tasks and, for every task that came from a peer, an
idempotency record. A descriptor that comes again while its record is there
gives the task it already made. Records are dropped once they are older than
any descriptor is meant to live. A change is made under the lock of the store
and becomes visible with the rename of the new file.
-/

namespace LeanCtx.A2aTask

def maxTasks : ℕ := 10000
def maxIdempotencyRecords : ℕ := 10000

def idempotencyRetentionSeconds : ℤ := maxTaskLifetimeSeconds + maxAuthorityClockSkewSeconds

inductive TaskState
  | created
  | working
  | inputRequired
  | completed
  | failed
  | canceled
  deriving DecidableEq, Repr

def TaskState.isTerminal : TaskState → Bool
  | completed | failed | canceled => true
  | _ => false

inductive TaskPart
  | text (text : String)
  | data (mimeType data : String)
  | file (name : String) (mimeType data uri : Option String)
  deriving DecidableEq, Repr

structure TaskMessage where
  role : String
  parts : List TaskPart
  timestamp : Instant
  deriving DecidableEq, Repr

structure TaskTransition where
  source : TaskState
  target : TaskState
  timestamp : Instant
  reason : Option String
  deriving DecidableEq, Repr

structure Task where
  id : String
  fromAgent : String
  toAgent : String
  state : TaskState
  description : String
  messages : List TaskMessage
  artifacts : List TaskPart
  history : List TaskTransition
  metadata : List (String × String)
  createdAt : Instant
  updatedAt : Instant
  tenantId : Option String
  projectId : Option String
  action : Option String
  idempotencyKey : Option String
  authorityKeyId : Option String
  descriptorDigest : Option String
  artifactRefs : List AgentArtifactRefV1
  deriving DecidableEq, Repr

structure TaskIdempotencyRecordV1 where
  schemaVersion : ℕ
  key : String
  sender : String
  recipient : String
  tenantId : String
  projectId : String
  action : String
  keyId : String
  descriptorDigest : String
  taskId : String
  createdAt : Instant
  deriving DecidableEq, Repr

def TaskIdempotencyRecordV1.matchesAuthority (r : TaskIdempotencyRecordV1)
    (d : TaskDescriptorV1) : Bool :=
  r.sender = d.sender && r.recipient = d.recipient && r.tenantId = d.tenantId &&
    r.projectId = d.projectId && r.action = d.action && r.keyId = d.keyId

structure RemoteTaskMaterialization where
  taskId : String
  duplicate : Bool
  deriving DecidableEq, Repr

structure TaskStore where
  tasks : List Task := []
  updatedAt : Option Instant := none
  idempotency : List TaskIdempotencyRecordV1 := []
  deriving DecidableEq, Repr

inductive StoreError
  | invalidInput (error : TaskAuthorityError)
  | conflictingKeyReuse
  | entryLimit
  | permissionDenied
  | persistence
  deriving DecidableEq, Repr

/-- How the file of the store took part in a call: it could not be read, the changed store did not
pass its checks or was not written, it was renamed into place but its directory was not synced, or
all went well. -/
inductive Persist
  | unreadable
  | unsaved
  | unsynced
  | saved
  deriving DecidableEq, Repr

/-- The change reaches the file only when the closure and every check after it succeed. -/
def mutateLocked {R : Type} (persist : Persist) (now : Instant)
    (mutate : TaskStore → Except StoreError (R × TaskStore)) (s : TaskStore) :
    Except StoreError R × TaskStore :=
  if persist = .unreadable then (.error .persistence, s)
  else match mutate s with
    | .error e => (.error e, s)
    | .ok (result, changed) =>
      if changed.tasks.length > maxTasks ∨ changed.idempotency.length > maxIdempotencyRecords then
        (.error .entryLimit, s)
      else match persist with
        | .saved => (.ok result, { changed with updatedAt := some now })
        | .unsynced => (.error .persistence, { changed with updatedAt := some now })
        | _ => (.error .persistence, s)

/-- `TaskStore::save`: the file is overwritten with a snapshot. -/
def saveSnapshot {R : Type} (persist : Persist) (result : R) (snapshot s : TaskStore) :
    Except StoreError R × TaskStore :=
  match persist with
  | .saved => (.ok result, snapshot)
  | .unsynced => (.error .persistence, snapshot)
  | _ => (.error .persistence, s)

/-- A record of the instant where the retention ends is dropped. -/
def TaskStore.pruneIdempotency (s : TaskStore) (now : Instant) : TaskStore :=
  { s with idempotency :=
    s.idempotency.filter fun r => r.createdAt > now - seconds idempotencyRetentionSeconds }

/-- `Task::from_remote_descriptor`: the description is admitted first. -/
def fromRemoteDescriptor (crypto : Signing) (admitForStore : String → Option String)
    (d : TaskDescriptorV1) (taskId : String) (now : Instant) : Option Task :=
  (admitForStore d.description).map fun description =>
    { id := taskId
      fromAgent := d.sender
      toAgent := d.recipient
      state := .created
      description := description
      messages := [⟨d.sender, [.text description], now⟩]
      artifacts := []
      history := [⟨.created, .created, now, some "remote task materialized"⟩]
      metadata := [("schema_version", "1"), ("action", d.action)]
      createdAt := now
      updatedAt := now
      tenantId := some d.tenantId
      projectId := some d.projectId
      action := some d.action
      idempotencyKey := some d.idempotencyKey
      authorityKeyId := some d.keyId
      descriptorDigest := some (contentDigest crypto d)
      artifactRefs := d.artifactRefs }

def recordOf (crypto : Signing) (d : TaskDescriptorV1) (taskId : String) (now : Instant) :
    TaskIdempotencyRecordV1 where
  schemaVersion := 1
  key := d.idempotencyKey
  sender := d.sender
  recipient := d.recipient
  tenantId := d.tenantId
  projectId := d.projectId
  action := d.action
  keyId := d.keyId
  descriptorDigest := contentDigest crypto d
  taskId := taskId
  createdAt := now

/-- What the program is given: the signing, and the admission of a description. -/
structure Env where
  crypto : Signing
  admitForStore : String → Option String

section Store

variable (env : Env)

/-- What `materialize_remote_task` does to the store it has read. -/
def materialize (d : TaskDescriptorV1) (taskId : String) (now : Instant) (store : TaskStore) :
    Except StoreError (RemoteTaskMaterialization × TaskStore) :=
  let s := store.pruneIdempotency now
  match s.idempotency.find? fun r => r.key = d.idempotencyKey with
  | some existing =>
    if existing.matchesAuthority d ∧ existing.descriptorDigest = contentDigest env.crypto d then
      .ok (⟨existing.taskId, true⟩, s)
    else .error .conflictingKeyReuse
  | none =>
    if s.idempotency.length ≥ maxIdempotencyRecords ∨ s.tasks.length ≥ maxTasks then
      .error .entryLimit
    else match fromRemoteDescriptor env.crypto env.admitForStore d taskId now with
      | none => .error .permissionDenied
      | some task => .ok (⟨taskId, false⟩, { s with
          tasks := s.tasks ++ [task]
          idempotency := s.idempotency ++ [recordOf env.crypto d taskId now] })

def materializeRemoteTask (persist : Persist) (d : TaskDescriptorV1) (taskId : String)
    (now : Instant) (store : TaskStore) :
    Except StoreError RemoteTaskMaterialization × TaskStore :=
  match d.validateShape env.crypto with
  | .error e => (.error (.invalidInput e), store)
  | .ok () => mutateLocked persist now (materialize env d taskId now) store

def TaskStore.cleanupOld (s : TaskStore) (maxAgeHours : ℤ) (now : Instant) : TaskStore :=
  { s with tasks := s.tasks.filter fun t =>
      !t.state.isTerminal || t.updatedAt > now - seconds (maxAgeHours * 3600) }.pruneIdempotency now

/-- The operations on a store. Other updates go through the closure of `mutate_locked`, which can
change the tasks; the records are private to the store. -/
inductive Operation
  | materializeRemoteTask (d : TaskDescriptorV1) (taskId : String)
  | update (change : List Task → Except StoreError (List Task))
  | cleanupOld (maxAgeHours : ℤ)
  | save (snapshot : TaskStore)

/-- A call, the clock at it, and how the file took part. -/
structure Call where
  now : Instant
  operation : Operation
  persist : Persist

/-- What a call answered, with the store before and after it. -/
structure Reply where
  result : Except StoreError RemoteTaskMaterialization
  before : TaskStore
  after : TaskStore

/-- The store, and the time of the last call. -/
structure World where
  store : TaskStore := {}
  clock : Instant := 0

/-- Calls that give no materialization answer with an empty one. -/
def nothing : RemoteTaskMaterialization := ⟨"", false⟩

def answer (s : TaskStore) (c : Call) : Except StoreError RemoteTaskMaterialization × TaskStore :=
  match c.operation with
  | .materializeRemoteTask d taskId => materializeRemoteTask env c.persist d taskId c.now s
  | .update change => mutateLocked c.persist c.now
      (fun s => (change s.tasks).map fun tasks => (nothing, { s with tasks })) s
  | .cleanupOld hours => mutateLocked c.persist c.now
      (fun s => .ok (nothing, s.cleanupOld hours c.now)) s
  | .save snapshot => saveSnapshot c.persist nothing snapshot s

def step (w : World) (c : Call) : Reply × World :=
  let a := answer env w.store c
  (⟨a.1, w.store, a.2⟩, ⟨a.2, c.now⟩)

end Store

end LeanCtx.A2aTask
