import LeanCtx.HiveReplica

/-!
# Driving a replica from the server

The tail, the push of own events and the repair after a failover. The server is
whatever answers the requests: a request may change it, and it may fail. The log
of the server is the only source of truth, so an own event stays pending until a
page of the log delivers it or the place refuses it for good.
-/

namespace LeanCtx.Hive

open ByteText (Bytes)

variable {σ α : Type}

/-- The routes that a replica needs, on a server with states `σ`. -/
structure PlaceApi (σ : Type) where
  get : String → EStateM HiveError σ Json
  post : String → Json → EStateM HiveError σ Json

structure World (σ : Type) where
  replica : Replica
  server : σ

abbrev DriverM (σ : Type) := EStateM HiveError (World σ)

def onReplica (m : ReplicaM α) : DriverM σ α := fun w =>
  match m w.replica with
  | .ok a replica => .ok a { w with replica }
  | .error e replica => .error e { w with replica }

def onServer (m : EStateM HiveError σ α) : DriverM σ α := fun w =>
  match m w.server with
  | .ok a server => .ok a { w with server }
  | .error e server => .error e { w with server }

/-- The check of an event under the key of the place, and the parser of stored events. -/
structure Env where
  eventVerifies : Bytes → Json → Bool
  fromSlice : Bytes → Except String Json

/-- Tail pages fetched per call. -/
def maxTailPages : ℕ := 1000

def maxBatch : ℕ := 200

def maxBodyRefetch : ℕ := 100

def placePath (place : String) : String := "/places/" ++ place

def eventsPath (place : String) : String := placePath place ++ "/events"

def tailPath (place : String) (since : ℕ) : String := eventsPath place ++ "?since=" ++ since.repr

def bodyPath (place id : String) : String := eventsPath place ++ "/" ++ id ++ "/body"

/-- The key of the place, known after a clone. -/
def pkId : DriverM σ Bytes := do
  let w ← get
  ofOption (.localFault "replica has no id_salt: clone it first") w.replica.idSalt

/-! ## Pages of the log -/

structure TailPage where
  events : List StoredEvent
  nextSince : Option ℕ
  headSeq : ℕ
  epoch : Option ℕ

def shape (what : String) : HiveError := .protocol ("segment record shape: " ++ what)

def tailEvent (verifies : Json → Bool) (event : Json) : Except HiveError StoredEvent :=
  match (event.get "seq").bind asU64 with
  | some seq => .ok { seq, event, sigInvalid := !verifies event }
  | none => .error (shape "tail event without seq")

def tailPage (verifies : Json → Bool) (page : Json) : Except HiveError TailPage :=
  match (page.get "events").bind Json.asArray with
  | none => .error (shape "tail without events")
  | some list => do
    let events ← list.mapM (tailEvent verifies)
    pure { events
           nextSince := (page.get "next_since").bind asU64
           headSeq := ((page.get "head_seq").bind asU64).getD 0
           epoch := (page.get "epoch").bind asU64 }

/-- Where the next page starts, if there is one. -/
def TailPage.next (page : TailPage) (since : ℕ) : Option ℕ :=
  (page.nextSince.or (page.events.map StoredEvent.seq).max?).filter fun next =>
    since < next && !page.events.isEmpty

def fetchPage (env : Env) (api : PlaceApi σ) (place : String) (pk : Bytes) (since : ℕ) :
    DriverM σ TailPage := do
  let answer ← onServer (api.get (tailPath place since))
  ofExcept id (tailPage (env.eventVerifies pk) answer)

/-- Settle the own events that came, note when, and store what came. -/
def keep (events : List StoredEvent) (now : ℕ) : ReplicaM ℕ := do
  modify fun r => (events.filterMap fun e => str e.event "event_id").foldl Replica.settlePending r
  noteReceived now (events.map StoredEvent.seq)
  insertEvents events

/-! ## Push -/

inductive Next
  | restamp
  | retryLater
  | fail
  deriving DecidableEq, Repr

inductive Outcome
  | accepted (seq : ℕ)
  | duplicate (seq : ℕ)
  | held
  | refused (code : String) (reason field : Option String) (retryAfterS : Option ℕ)
  deriving DecidableEq, Repr

def Outcome.logged : Outcome → Bool
  | .accepted _ | .duplicate _ => true
  | .held | .refused .. => false

def retryCodes : List String :=
  ["rate_limited", "retract_rate_limited", "keystore_unavailable", "segment_unavailable",
    "vault_migrating", "conversion_pending"]

def Outcome.next : Outcome → Option Next
  | .refused code _ _ _ =>
    if code = "hlc_skew" then some .restamp
    else if code ∈ retryCodes then some .retryLater
    else some .fail
  | _ => none

/-- The code of a refusal with its reason and its field. -/
def Outcome.refusal : Outcome → String
  | .refused code reason field _ => " ".intercalate ([some code, reason, field].filterMap id)
  | _ => ""

def debugStr : Option String → String
  | some text => "Some(" ++ text.quote ++ ")"
  | none => "None"

def outcome (r : Json) : Except HiveError Outcome :=
  let seq := (r.get "seq").bind asU64
  match str r "status" with
  | some "accepted" => (seq.map Outcome.accepted).elim (.error (.protocol "accepted without seq")) .ok
  | some "duplicate" =>
    (seq.map Outcome.duplicate).elim (.error (.protocol "duplicate without seq")) .ok
  | some "held" => .ok .held
  | some "refused" => match str r "code" with
    | some code =>
      .ok (.refused code (str r "reason") (str r "field") ((r.get "retry_after_s").bind asU64))
    | none => .error (.protocol "refused without code")
  | other => .error (.protocol ("push result status " ++ debugStr other))

def result (r : Json) : Except HiveError (String × Outcome) :=
  match str r "event_id" with
  | some id => (outcome r).map fun o => (id, o)
  | none => .error (.protocol "push result without event_id")

def results (response : Json) : Except HiveError (List (String × Outcome)) :=
  match (response.get "results").bind Json.asArray with
  | some list => list.mapM result
  | none => .error (.protocol "push response without results")

def request (events purgeAcks : List Json) : Json :=
  .object (("events", .array events) ::
    if purgeAcks = [] then [] else [("purge_acks", .array purgeAcks)])

structure PushReport where
  sent : ℕ := 0
  logged : ℕ := 0
  held : ℕ := 0
  restamp : List String := []
  retry : List String := []
  failed : List (String × String) := []
  acked : Bool := false

def PushReport.add (report : PushReport) : String × Outcome → PushReport
  | (id, o) =>
    if o.logged then { report with logged := report.logged + 1 }
    else match o.next with
      | none => { report with held := report.held + 1 }
      | some .restamp => { report with restamp := report.restamp ++ [id] }
      | some .retryLater => { report with retry := report.retry ++ [id] }
      | some .fail => { report with failed := report.failed ++ [(id, o.refusal)] }

/-- What was refused for good leaves the queue. -/
def Replica.settleFailed (r : Replica) (answer : String × Outcome) : Replica :=
  if answer.2.next = some .fail then r.settlePending answer.1 else r

def parseAll (env : Env) (batch : List Bytes) : Except HiveError (List Json) :=
  batch.mapM fun bytes => (env.fromSlice bytes).mapError .protocol

def pushBatch (env : Env) (api : PlaceApi σ) (place : String) (now : ℕ) (batchId : String)
    (acks : List Json) (batch : List PendingEvent) (report : PushReport) :
    DriverM σ PushReport := do
  let events ← ofExcept id (parseAll env (batch.map PendingEvent.event))
  let response ← onServer (api.post (eventsPath place) (request events acks))
  onReplica (modify fun r => if batch = [] then r else r.recordHistory batchId now batch)
  let answers ← ofExcept id (results response)
  onReplica (modify fun r => answers.foldl Replica.settleFailed r)
  pure (answers.foldl PushReport.add
    { report with acked := report.acked || acks ≠ [], sent := report.sent + events.length })

/-- The acks ride on the first request. -/
def pushBatches (env : Env) (api : PlaceApi σ) (place : String) (now : ℕ) :
    List (List PendingEvent × String) → List Json → PushReport → DriverM σ PushReport
  | [], _, report => pure report
  | (batch, batchId) :: rest, acks, report => do
    let report ← pushBatch env api place now batchId acks batch report
    pushBatches env api place now rest [] report

/-- The pending events in batches; `ids` are the random ids of the batches. -/
def pushPending (env : Env) (api : PlaceApi σ) (place : String) (acks : List Json) (ids : ℕ → String)
    (now : ℕ) : DriverM σ PushReport := do
  let w ← get
  let batches := w.replica.pending.toChunks maxBatch
  let batches := if batches = [] ∧ acks ≠ [] then [[]] else batches
  pushBatches env api place now (batches.zipIdx.map fun (batch, i) => (batch, ids i)) acks {}

/-! ## Failover -/

structure SyncReport where
  cloned : Bool := false
  stored : ℕ := 0
  cursor : Option ℕ := none
  reconciled : Bool := false
  repushed : ℕ := 0
  dropped : ℕ := 0

/-- Push the kept batches again, unchanged. -/
def repush (env : Env) (api : PlaceApi σ) (place : String) : List (List Bytes) → ℕ → DriverM σ ℕ
  | [], count => pure count
  | batch :: rest, count => do
    let events ← ofExcept id (parseAll env batch)
    let _ ← onServer (api.post (eventsPath place) (request events []))
    repush env api place rest (count + events.length)

def fetchPages (env : Env) (api : PlaceApi σ) (place : String) (pk : Bytes) :
    ℕ → ℕ → List StoredEvent → DriverM σ (List StoredEvent)
  | 0, _, fetched => pure fetched
  | pages + 1, since, fetched => do
    let page ← fetchPage env api place pk since
    match page.next since with
    | some next => fetchPages env api place pk pages next (fetched ++ page.events)
    | none => pure (fetched ++ page.events)

/-- The lowest `seq` that a re-tail has to fetch. -/
def Replica.reconcileFrom (r : Replica) (now : ℕ) (headSeq : Option ℕ) : ℕ :=
  let start := (r.rewindSeq now).getD (r.cursor.getD 0 + 1)
  max (headSeq.elim start fun head => min start (head + 1)) 1

def keptIds (events : List StoredEvent) : List (ℕ × String) :=
  events.filterMap fun e => (str e.event "event_id").map fun id => (e.seq, id)

def setEpoch (epoch : Option ℕ) : ReplicaM Unit :=
  modify fun r => { r with epoch := epoch.or r.epoch }

/-- Put what was fetched from a number on in the place of the rows there. -/
def takeFetched (start : ℕ) (fetched : List StoredEvent) (now : ℕ) : ReplicaM (ℕ × ℕ) := do
  let dropped ← dropChangedFrom start (keptIds fetched)
  let stored ← keep fetched now
  let _ ← refold
  pure (dropped, stored)

def reconcile (env : Env) (api : PlaceApi σ) (place : String) (now : ℕ) (epoch headSeq : Option ℕ) :
    DriverM σ SyncReport := do
  let pk ← pkId
  let w ← get
  let repushed ← repush env api place w.replica.historyBatches 0
  let w ← get
  let start := w.replica.reconcileFrom now headSeq
  let fetched ← fetchPages env api place pk maxTailPages (start - 1) []
  let (dropped, stored) ← onReplica (takeFetched start fetched now)
  onReplica (setEpoch epoch)
  let w ← get
  pure { reconciled := true, repushed, dropped, stored, cursor := w.replica.cursor }

/-! ## Tail -/

/-- The log is a later one, or it lost what the cursor has seen. -/
def TailPage.failedOver (page : TailPage) (known : Option ℕ) (since : ℕ) : Bool :=
  (match page.epoch, known with
    | some e, some k => k < e
    | _, _ => false) || (0 < page.headSeq && page.headSeq < since)

def TailPage.lost (page : TailPage) : List String :=
  page.events.filterMap fun e => if flag e.event "key_lost" then str e.event "event_id" else none

/-- Page by page; a failover ends it with a repair. -/
def tailPages (env : Env) (api : PlaceApi σ) (place : String) (pk : Bytes) (now : ℕ) :
    ℕ → ℕ → ℕ → List String → DriverM σ (SyncReport ⊕ ℕ × List String)
  | 0, _, stored, lost => pure (.inr (stored, lost))
  | pages + 1, since, stored, lost => do
    let page ← fetchPage env api place pk since
    let w ← get
    if page.failedOver w.replica.epoch since then
      let regressed := 0 < page.headSeq && page.headSeq < since
      let report ← reconcile env api place now (page.epoch.or w.replica.epoch)
        (if regressed then some page.headSeq else none)
      pure (.inl { report with stored := report.stored + stored })
    else
      onReplica (setEpoch (w.replica.epoch.or page.epoch))
      let new ← onReplica (keep page.events now)
      match page.next since with
      | some next => tailPages env api place pk now pages next (stored + new) (lost ++ page.lost)
      | none => pure (.inr (stored + new, lost ++ page.lost))

/-- Push own events again whose content the server has lost. -/
def repairKeyLost (env : Env) (api : PlaceApi σ) (place : String) (lost : List String) :
    DriverM σ ℕ := do
  let w ← get
  let own ← ofExcept id (parseAll env (lost.filterMap w.replica.historyEvent))
  if own = [] then pure 0
  else
    let _ ← onServer (api.post (eventsPath place) (request own []))
    pure own.length

def refetchOne (env : Env) (api : PlaceApi σ) (place : String) (pk : Bytes) (id : String) :
    DriverM σ ℕ := do
  let answer ← onServer (api.get (bodyPath place id))
  let w ← get
  match member answer "body", w.replica.storedEnvelope id with
  | some body, some event =>
    if env.eventVerifies pk (withMember "body" body event) then
      onReplica (modify fun r => r.restoreBody id body)
      pure 1
    else pure 0
  | _, _ => pure 0

/-- Fetch the content of events again that were served without it. -/
def refetchLost (env : Env) (api : PlaceApi σ) (place : String) (pk : Bytes) :
    List String → ℕ → DriverM σ ℕ
  | [], restored => pure restored
  | id :: rest, restored => do
    let one ← refetchOne env api place pk id
    refetchLost env api place pk rest (restored + one)

/-- What a tail does once its pages are read. -/
def tailEnd (env : Env) (api : PlaceApi σ) (place : String) (pk : Bytes) (stored : ℕ)
    (lost : List String) : DriverM σ SyncReport := do
  let _ ← onReplica refold
  let repaired ← repairKeyLost env api place lost
  let w ← get
  let restored ← refetchLost env api place pk (w.replica.keyLostIds.take maxBodyRefetch) 0
  if 0 < restored then
    let _ ← onReplica refold
  let w ← get
  pure { stored, cursor := w.replica.cursor, repushed := repaired }

def tail (env : Env) (api : PlaceApi σ) (place : String) (now : ℕ) : DriverM σ SyncReport := do
  let pk ← pkId
  onReplica (modify fun r => r.pruneHistory now)
  let w ← get
  match ← tailPages env api place pk now maxTailPages (w.replica.cursor.getD 0) 0 [] with
  | .inl report => pure report
  | .inr (stored, lost) => tailEnd env api place pk stored lost

end LeanCtx.Hive
