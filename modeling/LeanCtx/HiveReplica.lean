import LeanCtx.ByteText
import LeanCtx.HiveFold
import Mathlib.Algebra.Order.Ring.Nat

/-!
# The replica of a place

The tables of a replica that the driver reads and writes: the events of the
server's log, the own events that wait for it, the batches that were pushed, the
times at which the log was received, and the cursor. An insert that meets a row
under the same `seq` or `event_id` leaves that row as it is. What is sealed at
rest is modelled as the value that opening it gives.
-/

namespace LeanCtx.Hive

open ByteText (Bytes)

/-- The errors of the driver itself, and what a request came back with. -/
inductive HiveError
  | protocol (what : String)
  | localFault (what : String)
  | request (code : String)
  deriving DecidableEq, Repr

def FoldError.text : FoldError → String
  | .purgeReasonInvalid reason => "purge_reason_invalid: " ++ reason
  | .seqConflict seq => "two events with seq " ++ seq.repr

/-- `Value::as_u64`. -/
def asU64 : Json → Option ℕ
  | .number (.posInt value) => some value.toNat
  | _ => none

def str (event : Json) (key : String) : Option String := (event.get key).bind Json.asStr

def flag (event : Json) (key : String) : Bool := event.get key = some (.bool true)

/-- A member that is there and is not null. -/
def member (event : Json) (key : String) : Option Json := (event.get key).filter (· ≠ .null)

def withMember (key : String) (value : Json) : Json → Json
  | .object entries => .object (KeyedList.put key value entries)
  | v => v

def unsigned : List String :=
  ["body", "ck_wrapped", "signature", "seq", "received_at", "provenance", "review_state",
    "reviewed_by", "review_id", "batch_id", "purged", "key_lost", "revoked_signer", "legacy"]

/-- The event without its body, its signature and what the server adds. -/
def envelope : Json → Except HiveError (List (String × Json))
  | .object entries => .ok (entries.filter fun e => e.1 ∉ unsigned)
  | _ => .error (.protocol "an event is a JSON object")

/-- One event as the log delivered it; an invalid one is kept and never folded. -/
structure StoredEvent where
  seq : ℕ
  event : Json
  sigInvalid : Bool

/-- A row of `events`. -/
structure Row where
  seq : ℕ
  eventId : String
  op : String
  target : String
  hlcWall : ℕ
  hlcCtr : ℕ
  provenance : Option String
  reviewState : Option String
  reviewedBy : Option String
  batchId : Option String
  purged : Bool
  sigInvalid : Bool
  keyLost : Bool
  converted : Bool
  body : Option Json
  workerId : Option String
  envelope : Json

structure PendingEvent where
  eventId : String
  hlcWall : ℕ
  hlcCtr : ℕ
  outboxId : Option String
  event : Bytes

/-- An own event of a batch that the place answered. -/
structure HistoryEvent where
  eventId : String
  batchId : String
  pos : ℕ
  pushedAt : ℕ
  event : Bytes

/-- `received` lists when each `seq` was received; `graph` is what was last materialised. -/
structure Replica where
  events : List Row := []
  pendingRows : List PendingEvent := []
  history : List HistoryEvent := []
  received : List (ℕ × ℕ) := []
  idSalt : Option Bytes := none
  cursor : Option ℕ := none
  epoch : Option ℕ := none
  graph : Graph := Graph.empty

abbrev ReplicaM := EStateM HiveError Replica

def checkI64 (what : String) (n : ℕ) : Except HiveError ℕ :=
  if n < 2 ^ 63 then .ok n else .error (.protocol (what ++ " out of range"))

/-! ## The log -/

def signedEnvelope (event : Json) (entries : List (String × Json)) : Json :=
  match event.get "signature" with
  | some signature => .object (KeyedList.put "signature" signature entries)
  | none => .object entries

def hlcPart (event : Json) (key : String) : ℕ :=
  (((event.get "hlc").bind (Json.get key)).bind asU64).getD 0

def rowOf (e : StoredEvent) : Except HiveError Row :=
  match str e.event "event_id" with
  | none => .error (.protocol "event without event_id")
  | some eventId =>
    match envelope e.event, checkI64 "seq" e.seq,
      checkI64 "hlc wall" (hlcPart e.event "wall_ms"),
      checkI64 "hlc counter" (hlcPart e.event "counter") with
    | .ok entries, .ok seq, .ok hlcWall, .ok hlcCtr =>
      .ok { seq, eventId, hlcWall, hlcCtr
            op := (str e.event "op").getD ""
            target := (str e.event "target").getD ""
            provenance := str e.event "provenance"
            reviewState := str e.event "review_state"
            reviewedBy := str e.event "reviewed_by"
            batchId := str e.event "batch_id"
            purged := flag e.event "purged"
            sigInvalid := e.sigInvalid
            keyLost := flag e.event "key_lost"
            converted := false
            body := member e.event "body"
            workerId := str e.event "worker_id"
            envelope := signedEnvelope e.event entries }
    | .error fault, _, _, _ | _, .error fault, _, _ | _, _, .error fault, _ | _, _, _, .error fault =>
      .error fault

/-- `INSERT OR IGNORE`. -/
def insertRow (rows : List Row) (row : Row) : List Row :=
  if rows.any fun r => r.seq = row.seq || r.eventId = row.eventId then rows else rows ++ [row]

/-- All of the events or none of them; how many were new. -/
def insertEvents (events : List StoredEvent) : ReplicaM ℕ := do
  let rows ← ofExcept id (events.mapM rowOf)
  let r ← get
  let stored := rows.foldl insertRow r.events
  set { r with events := stored }
  pure (stored.length - r.events.length)

/-- A row as the fold sees it: it moves the cursor even where it does not fold. -/
def Row.foldEvent (row : Row) : FoldEvent where
  seq := row.seq
  eventId := row.eventId
  op := row.op
  target := if row.target = "" then none else some row.target
  nodeType := str row.envelope "node_type"
  body := if row.purged then none else row.body
  sigInvalid := row.sigInvalid || row.keyLost || row.converted
  provenance := row.provenance
  reviewState := row.reviewState

def Row.shred (ids : OrdSet String) (row : Row) : Row :=
  if row.eventId ∈ ids then { row with body := none, purged := true } else row

/-- The cursor never goes back. -/
def setCursor (seq : ℕ) : ReplicaM Unit := do
  let r ← get
  rejectIf (r.cursor.any fun c => seq < c)
    (.protocol ("replica cursor would move back to " ++ seq.repr))
  set { r with cursor := some seq }

/-- Fold the whole log and move the cursor behind it; what a purge names loses its body. -/
def refold : ReplicaM Graph := do
  let r ← get
  match fold (r.events.map Row.foldEvent) Graph.empty with
  | .error e _ => throw (.protocol e.text)
  | .ok _ graph =>
    set { r with
      graph
      events := r.events.map (Row.shred graph.purgedEvents)
      history := r.history.filter fun h => decide (h.eventId ∉ graph.purgedEvents) }
    if 0 < graph.cursor then setCursor graph.cursor
    pure graph

/-! ## Pending events and the history -/

/-- `INSERT OR REPLACE`. -/
def Replica.addPending (r : Replica) (e : PendingEvent) : Replica :=
  { r with pendingRows := r.pendingRows.filter (fun p => p.eventId ≠ e.eventId) ++ [e] }

def PendingEvent.before (a b : PendingEvent) : Bool :=
  ((compare a.hlcWall b.hlcWall).then
    ((compare a.hlcCtr b.hlcCtr).then (compare a.eventId b.eventId))).isLE

/-- Pending events in HLC order. -/
def Replica.pending (r : Replica) : List PendingEvent := r.pendingRows.mergeSort PendingEvent.before

/-- The log delivered the event, or the place refused it for good. -/
def Replica.settlePending (r : Replica) (eventId : String) : Replica :=
  { r with pendingRows := r.pendingRows.filter fun p => p.eventId ≠ eventId }

def keepMs : ℕ := 24 * 3600000

/-- Keep a batch that the place answered; an event that is kept keeps its first batch. -/
def Replica.recordHistory (r : Replica) (batchId : String) (pushedAt : ℕ)
    (batch : List PendingEvent) : Replica :=
  let rows := batch.zipIdx.map fun (e, pos) =>
    ({ eventId := e.eventId, batchId, pos, pushedAt, event := e.event } : HistoryEvent)
  { r with history := rows.foldl (fun kept row =>
      if kept.any fun h => h.eventId = row.eventId then kept else kept ++ [row]) r.history }

def HistoryEvent.before (a b : HistoryEvent) : Bool :=
  ((compare a.pushedAt b.pushedAt).then
    ((compare a.batchId b.batchId).then (compare a.pos b.pos))).isLE

/-- The kept batches in the order in which they were pushed. -/
def Replica.historyBatches (r : Replica) : List (List Bytes) :=
  ((r.history.mergeSort HistoryEvent.before).splitBy fun a b => a.batchId = b.batchId).map
    (List.map HistoryEvent.event)

def Replica.historyEvent (r : Replica) (eventId : String) : Option Bytes :=
  (r.history.find? fun h => h.eventId = eventId).map HistoryEvent.event

/-- The events that were served without their content. -/
def Replica.keyLostIds (r : Replica) : List String :=
  ((r.events.filter Row.keyLost).mergeSort fun a b => a.seq ≤ b.seq).map Row.eventId

def Replica.storedEnvelope (r : Replica) (eventId : String) : Option Json :=
  (r.events.find? fun row => row.eventId = eventId).map Row.envelope

/-- The content of an event came back. -/
def Replica.restoreBody (r : Replica) (eventId : String) (body : Json) : Replica :=
  { r with events := r.events.map fun row =>
      if row.eventId = eventId ∧ row.keyLost then
        { row with body := some body, keyLost := false, sigInvalid := false }
      else row }

def Replica.note (r : Replica) (now seq : ℕ) : Replica :=
  { r with received := if r.received.any fun p => p.1 = seq then r.received
                       else r.received ++ [(seq, now)] }

/-- Note when the log delivered the numbers. -/
def noteReceived (now : ℕ) : List ℕ → ReplicaM Unit
  | [] => pure ()
  | seq :: rest => do
    let seq ← ofExcept id (checkI64 "value" seq)
    modify fun r => r.note now seq
    noteReceived now rest

def Replica.pruneHistory (r : Replica) (now : ℕ) : Replica :=
  { r with history := r.history.filter fun h => now - keepMs ≤ h.pushedAt
           received := r.received.filter fun p => now - keepMs ≤ p.2 }

/-- The lowest `seq` received in the last 24 hours. -/
def Replica.rewindSeq (r : Replica) (now : ℕ) : Option ℕ :=
  ((r.received.filter fun p => now - keepMs ≤ p.2).map Prod.fst).min?

/-- Drop the rows from `from` on that did not come back and take the cursor back. -/
def dropChangedFrom (start : ℕ) (kept : List (ℕ × String)) : ReplicaM ℕ := do
  let start ← ofExcept id (checkI64 "value" start)
  let r ← get
  let rows := r.events.filter fun row => row.seq < start || kept.contains (row.seq, row.eventId)
  set { r with events := rows, cursor := some (start - 1) }
  pure (r.events.length - rows.length)

end LeanCtx.Hive
