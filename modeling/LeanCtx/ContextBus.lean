import LeanCtx.OrdMap
import LeanCtx.Trace

/-!
# The context bus

Several processes append events to one table. Each process keeps a cache of the
last version it gave out per stream, seeded from the table. `append` reads its
version before its transaction begins, so another process may write in between;
`append_delivery_once` reads it inside its transaction and stores at most one
event per stream and delivery id.
-/

namespace LeanCtx.Bus

def maxVersionCacheEntries : ℕ := 4096

/-- What a caller appends. -/
structure Draft where
  workspaceId : String
  channelId : String
  kind : String
  actor : Option String
  timestamp : String
  payloadJson : String
  parentId : Option ℤ
  targetAgentsJson : Option String
  deriving DecidableEq

/-- A row of `context_events`. -/
structure Event where
  id : ℕ
  draft : Draft
  version : ℤ
  deliveryId : Option String
  deriving DecidableEq

/-- The append of a process that has read its version and not yet written. -/
structure Pending where
  draft : Draft
  version : ℤ
  deriving DecidableEq

structure Instance where
  versionCache : OrdMap String ℤ
  pending : Option Pending

/-- The table, its row counter, and the processes. -/
structure System where
  events : List Event
  lastId : ℕ
  instances : List Instance

def System.empty : System where
  events := []
  lastId := 0
  instances := []

def Draft.stream (d : Draft) : String × String := (d.workspaceId, d.channelId)

def streamKey (d : Draft) : String := d.workspaceId ++ "\x00" ++ d.channelId

/-- `SELECT COALESCE(MAX(version), 0)` of a stream. -/
def maxVersion (events : List Event) (d : Draft) : ℤ :=
  ((events.filter fun e => e.draft.stream = d.stream).map Event.version).max?.getD 0

/-- The version for the next event of a stream, and the cache afterwards. A read that fails counts
as an empty stream. -/
def nextVersion (events : List Event) (readFails : Bool) (cache : OrdMap String ℤ) (d : Draft) :
    ℤ × OrdMap String ℤ :=
  match cache[streamKey d]? with
  | some v => (v + 1, cache.insert (streamKey d) (v + 1))
  | none =>
    let v := if readFails then 0 else maxVersion events d
    let cache := if cache.size > maxVersionCacheEntries then ∅ else cache
    (v + 1, cache.insert (streamKey d) (v + 1))

/-- `INSERT` of one row. -/
def System.store (s : System) (d : Draft) (version : ℤ) (deliveryId : Option String) : System :=
  { s with
    events := s.events ++ [⟨s.lastId + 1, d, version, deliveryId⟩]
    lastId := s.lastId + 1 }

def System.setInstance (s : System) (i : ℕ) (inst : Instance) : System :=
  { s with instances := s.instances.set i inst }

inductive Call
  | openAt
  /-- `insert_event` up to its version. -/
  | appendRead (i : ℕ) (d : Draft) (readFails : Bool)
  /-- The transaction of `insert_event`. -/
  | appendWrite (i : ℕ) (fails : Bool)
  | deliver (i : ℕ) (d : Draft) (deliveryId : String) (beginFails readFails fails : Bool)
  deriving DecidableEq

inductive Answer
  | opened
  | versionRead (version : ℤ)
  | appended (event : Option Event)
  | delivered (result : Except String Bool)
  /-- The process does not exist or is busy with another append. -/
  | blocked
  deriving DecidableEq

/-- Whether the unique index on stream and delivery id has the entry already. -/
def System.hasDelivery (s : System) (d : Draft) (deliveryId : String) : Bool :=
  s.events.any fun e => e.draft.stream = d.stream && e.deliveryId = some deliveryId

/-- The transaction of `append_delivery_once` on a process that holds its write lock. -/
def System.deliverOnce (s : System) (i : ℕ) (inst : Instance) (d : Draft) (deliveryId : String)
    (beginFails readFails fails : Bool) : Except String Bool × System :=
  if beginFails then (.error "begin", s)
  else
    let next := nextVersion s.events readFails inst.versionCache d
    let s := s.setInstance i { inst with versionCache := next.2 }
    if fails then (.error "transaction", s)
    else if s.hasDelivery d deliveryId then (.ok false, s)
    else (.ok true, s.store d next.1 (some deliveryId))

def step (s : System) : Call → Answer × System
  | .openAt => (.opened, { s with instances := s.instances ++ [⟨∅, none⟩] })
  | .appendRead i d readFails =>
    match s.instances[i]? with
    | some ⟨cache, none⟩ =>
      let next := nextVersion s.events readFails cache d
      (.versionRead next.1, s.setInstance i ⟨next.2, some ⟨d, next.1⟩⟩)
    | _ => (.blocked, s)
  | .appendWrite i fails =>
    match s.instances[i]? with
    | some ⟨cache, some ⟨d, version⟩⟩ =>
      let s := s.setInstance i ⟨cache, none⟩
      if fails then (.appended none, s)
      else (.appended (some ⟨s.lastId + 1, d, version, none⟩), s.store d version none)
    | _ => (.blocked, s)
  | .deliver i d deliveryId beginFails readFails fails =>
    match s.instances[i]? with
    | some ⟨cache, none⟩ =>
      let result := s.deliverOnce i ⟨cache, none⟩ d deliveryId beginFails readFails fails
      (.delivered result.1, result.2)
    | _ => (.blocked, s)

end LeanCtx.Bus
