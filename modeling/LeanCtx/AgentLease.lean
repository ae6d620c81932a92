import LeanCtx.JsonText
import LeanCtx.WorkGraph

/-!
# Ownership leases of agents

The lease registry: agents acquire, renew and release leases on named
resources, and an agent that is refused waits for its resource. Every call
brings its own clock reading. References of the two path namespaces nest by
`/`, so a path overlaps its ancestors and descendants; all other references
are opaque.

A lease is fenced by a token, the digest of its request and its expiry.
-/

namespace LeanCtx.Lease

def agentLeaseSchemaVersion : UInt16 := 1
def defaultMaxLeases : ℕ := 1024
def maxLeaseDurationMs : UInt64 := 60 * 60 * 1000
def maxResourceRefBytes : ℕ := 256
def hierarchicalPathSchemes : List String := ["project-path:", "path:"]

/-- A waiter keeps its place while it asks again within this time. -/
def waiterTtlMs : UInt64 := 2 * 60 * 1000

/-- A contended lease is renewed only until it has been held this long. -/
def maxContendedHoldMs : UInt64 := 60 * 60 * 1000

/-- The token a reservation is reported under: it fences nothing. -/
def reservedLeaseRef : String := "reserved-for-waiter"

inductive ResourceKind
  | path
  | symbol
  | workGraphNode
deriving DecidableEq, Repr

def ResourceKind.index : ResourceKind → ℕ
  | .path => 0
  | .symbol => 1
  | .workGraphNode => 2

instance : Ord ResourceKind := ⟨compareOn ResourceKind.index⟩

instance : Std.TransOrd ResourceKind :=
  inferInstanceAs (Std.TransCmp (compareOn ResourceKind.index))

instance : Std.LawfulEqOrd ResourceKind where
  eq_of_compare {a b} h := by
    cases a <;> cases b <;> first | rfl | (revert h; decide)

/-- The registry is keyed by resource. -/
abbrev Resource := ResourceKind × String

instance : Ord Resource := lexOrd

@[ext] structure AgentLeaseRequest where
  schemaVersion : UInt16
  leaseRequestRef : String
  resourceKind : ResourceKind
  resourceRef : String
  ownerAgentId : String
  durationMs : UInt64
deriving DecidableEq, Repr

structure AgentLease where
  schemaVersion : UInt16
  leaseRef : String
  request : AgentLeaseRequest
  expiresAtEpochMs : UInt64
deriving DecidableEq, Repr

structure LeaseWaiter where
  resourceKind : ResourceKind
  resourceRef : String
  ownerAgentId : String
  sinceEpochMs : UInt64
  seenEpochMs : UInt64
deriving DecidableEq, Repr

inductive AgentLeaseAcquire
  | granted (lease : AgentLease)
  | heldBy (ownerAgentId leaseRef : String) (expiresAtEpochMs : UInt64)
deriving DecidableEq, Repr

inductive AgentLeaseError
  | unsupportedVersion (version : UInt16)
  | invalid (reason : String)
  | capacityExceeded (maxLeases : ℕ)
  | notOwner
  | notFound
  | expired
deriving DecidableEq, Repr

def AgentLeaseRequest.resource (q : AgentLeaseRequest) : Resource := (q.resourceKind, q.resourceRef)

def LeaseWaiter.resource (w : LeaseWaiter) : Resource := (w.resourceKind, w.resourceRef)

def AgentLease.isActiveAt (l : AgentLease) (nowEpochMs : UInt64) : Bool :=
  nowEpochMs < l.expiresAtEpochMs

/-! ## Checks on a request -/

/-- `str::split_once`. -/
def splitOnce (sep : Char) (s : List Char) : Option (List Char × List Char) :=
  if sep ∈ s then some (s.takeWhile (· != sep), (s.dropWhile (· != sep)).drop 1) else none

def isAsciiGraphic (c : Char) : Bool := 0x21 ≤ c.toNat && c.toNat ≤ 0x7e

def opaqueRef (label value : String) : Except AgentLeaseError Unit :=
  match splitOnce ':' value.toList with
  | none => .error (.invalid (label ++ " must use scheme:identifier form"))
  | some (scheme, identifier) =>
    let schemeValid := !scheme.isEmpty &&
      scheme.all fun c => ('a' ≤ c && c ≤ 'z') || c.isDigit || c == '-'
    let identifierValid := !identifier.isEmpty && value.utf8ByteSize ≤ maxResourceRefBytes &&
      identifier.all isAsciiGraphic
    if schemeValid && identifierValid then .ok () else .error (.invalid ("invalid " ++ label))

def agentId (value : String) : Except AgentLeaseError Unit :=
  if !value.isEmpty && value.utf8ByteSize ≤ 256 && value.toList.all isAsciiGraphic then .ok ()
  else .error (.invalid "invalid owner_agent_id")

def checkDuration (durationMs : UInt64) : Except AgentLeaseError Unit :=
  if durationMs = 0 ∨ durationMs > maxLeaseDurationMs then
    .error (.invalid ("duration_ms must be between 1 and " ++ toString maxLeaseDurationMs.toNat))
  else .ok ()

def AgentLeaseRequest.validate (q : AgentLeaseRequest) : Except AgentLeaseError Unit := do
  if q.schemaVersion ≠ agentLeaseSchemaVersion then
    .error (.unsupportedVersion q.schemaVersion)
  opaqueRef "lease_request_ref" q.leaseRequestRef
  opaqueRef "resource_ref" q.resourceRef
  agentId q.ownerAgentId
  checkDuration q.durationMs

/-! ## Resources -/

def startsWith (s pre : String) : Bool := pre.toList.isPrefixOf s.toList

def resourcesOverlap (kind : ResourceKind) (held : String) (otherKind : ResourceKind)
    (other : String) : Bool :=
  kind == otherKind &&
    (held == other ||
      (kind == .path && hierarchicalPathSchemes.any fun scheme =>
        startsWith held scheme && startsWith other scheme && pathClaimsOverlap held other))

/-! ## The fencing token -/

def ResourceKind.serialized : ResourceKind → String
  | .path => "path"
  | .symbol => "symbol"
  | .workGraphNode => "work_graph_node"

/-- `serde_json::to_vec(&(request, expires_at_epoch_ms))`. -/
def leaseJson (q : AgentLeaseRequest) (expiresAtEpochMs : UInt64) : List Char :=
  "[\x7b\"schema_version\":".toList ++ (q.schemaVersion.toNat.repr.toList ++
    (",\"lease_request_ref\":".toList ++ (JsonText.quote q.leaseRequestRef ++
    (",\"resource_kind\":".toList ++ (JsonText.quote q.resourceKind.serialized ++
    (",\"resource_ref\":".toList ++ (JsonText.quote q.resourceRef ++
    (",\"owner_agent_id\":".toList ++ (JsonText.quote q.ownerAgentId ++
    (",\"duration_ms\":".toList ++ (q.durationMs.toNat.repr.toList ++
    ("\x7d,".toList ++ (expiresAtEpochMs.toNat.repr.toList ++ "]".toList)))))))))))))

def computeLeaseRef (blake3 : String → String) (q : AgentLeaseRequest)
    (expiresAtEpochMs : UInt64) : String :=
  "lease:" ++ blake3 (String.ofList (leaseJson q expiresAtEpochMs))

/-! ## The registry -/

structure Registry where
  leases : OrdMap Resource AgentLease
  maxLeases : ℕ
  waiters : List LeaseWaiter
  heldSince : OrdMap String UInt64

namespace Registry

def new (maxLeases : ℕ) : Registry := ⟨∅, max maxLeases 1, [], ∅⟩

def removeExpired (r : Registry) (nowEpochMs : UInt64) : Registry :=
  let leases := r.leases.filter fun _ l => l.isActiveAt nowEpochMs
  { r with
    leases := leases
    heldSince := r.heldSince.filter fun leaseRef _ =>
      leases.toList.any fun p => p.2.leaseRef == leaseRef
    waiters := r.waiters.filter fun w => nowEpochMs < saturatingAdd w.seenEpochMs waiterTtlMs }

/-- The waiter is the requesting agent, waiting for this very resource. -/
def isOwn (q : AgentLeaseRequest) (w : LeaseWaiter) : Bool :=
  w.ownerAgentId == q.ownerAgentId && w.resourceKind == q.resourceKind &&
    w.resourceRef == q.resourceRef

/-- The clock reading from which the agent waits for the resource it asks for. -/
def ownSince (r : Registry) (q : AgentLeaseRequest) : UInt64 :=
  (((r.waiters.filter (isOwn q)).map LeaseWaiter.sinceEpochMs).min?).getD (UInt64.ofNat u64Max)

/-- `min_by_key` on the first waiting time: the first of the least. -/
def firstWaiting : List LeaseWaiter → Option LeaseWaiter
  | [] => none
  | w :: ws => some (ws.foldl (fun m v => if v.sinceEpochMs < m.sinceEpochMs then v else m) w)

/-- The longest-waiting other agent whose resource overlaps the request. -/
def waitingBefore (r : Registry) (q : AgentLeaseRequest) : Option LeaseWaiter :=
  firstWaiting (r.waiters.filter fun w =>
    w.ownerAgentId != q.ownerAgentId && w.sinceEpochMs < r.ownSince q &&
      resourcesOverlap w.resourceKind w.resourceRef q.resourceKind q.resourceRef)

/-- The stored path lease of the request's namespace that overlaps it. -/
def overlappingPath (r : Registry) (q : AgentLeaseRequest) : Option AgentLease :=
  if q.resourceKind = .path then
    (hierarchicalPathSchemes.find? fun scheme => startsWith q.resourceRef scheme).bind fun scheme =>
      (r.leases.toList.map Prod.snd).find? fun l =>
        l.request.resourceKind == .path && startsWith l.request.resourceRef scheme &&
          pathClaimsOverlap l.request.resourceRef q.resourceRef
  else none

def heldByLease (l : AgentLease) : AgentLeaseAcquire :=
  .heldBy l.request.ownerAgentId l.leaseRef l.expiresAtEpochMs

section Hashed

variable (blake3 : String → String)

def grant (q : AgentLeaseRequest) (nowEpochMs : UInt64) : AgentLease :=
  let expiresAtEpochMs := saturatingAdd nowEpochMs q.durationMs
  ⟨agentLeaseSchemaVersion, computeLeaseRef blake3 q expiresAtEpochMs, q, expiresAtEpochMs⟩

def acquireUnfair (r : Registry) (q : AgentLeaseRequest) (nowEpochMs : UInt64) :
    Except AgentLeaseError (AgentLeaseAcquire × Registry) :=
  match r.leases[q.resource]? with
  | some existing =>
    if existing.request.ownerAgentId = q.ownerAgentId ∧
        existing.request.leaseRequestRef = q.leaseRequestRef then
      .ok (.granted existing, r)
    else .ok (heldByLease existing, r)
  | none => match r.overlappingPath q with
    | some existing => .ok (heldByLease existing, r)
    | none => match r.waitingBefore q with
      | some w =>
        .ok (.heldBy w.ownerAgentId reservedLeaseRef (saturatingAdd w.seenEpochMs waiterTtlMs), r)
      | none =>
        if r.leases.size ≥ r.maxLeases then .error (.capacityExceeded r.maxLeases)
        else
          let lease := grant blake3 q nowEpochMs
          .ok (.granted lease, { r with leases := r.leases.insert q.resource lease })

/-- A refused agent is recorded; a full list only stops recording new waiters. -/
def wait (r : Registry) (q : AgentLeaseRequest) (nowEpochMs : UInt64) : Registry :=
  match r.waiters.findIdx? (isOwn q) with
  | some index =>
    { r with waiters := r.waiters.modify index fun w => { w with seenEpochMs := nowEpochMs } }
  | none =>
    if r.waiters.length < r.maxLeases then
      { r with waiters := r.waiters ++
          [⟨q.resourceKind, q.resourceRef, q.ownerAgentId, nowEpochMs, nowEpochMs⟩] }
    else r

def acquire (r : Registry) (q : AgentLeaseRequest) (nowEpochMs : UInt64) :
    Except AgentLeaseError AgentLeaseAcquire × Registry :=
  match q.validate with
  | .error e => (.error e, r)
  | .ok () =>
    let r := r.removeExpired nowEpochMs
    match r.acquireUnfair blake3 q nowEpochMs with
    | .error e => (.error e, r)
    | .ok (.granted lease, r) =>
      (.ok (.granted lease),
        { r with
          waiters := r.waiters.filter fun w => !isOwn q w
          heldSince := r.heldSince.insertIfNew lease.leaseRef nowEpochMs })
    | .ok (held, r) => (.ok held, r.wait q nowEpochMs)

end Hashed

def release (r : Registry) (kind : ResourceKind) (resourceRef ownerAgentId leaseRef : String)
    (nowEpochMs : UInt64) : Except AgentLeaseError Bool × Registry :=
  match (do opaqueRef "resource_ref" resourceRef; agentId ownerAgentId) with
  | .error e => (.error e, r)
  | .ok () =>
    let r := r.removeExpired nowEpochMs
    match r.leases[(kind, resourceRef)]? with
    | none => (.ok false, r)
    | some existing =>
      if existing.request.ownerAgentId ≠ ownerAgentId ∨ existing.leaseRef ≠ leaseRef then
        (.error .notOwner, r)
      else (.ok true, { r with leases := r.leases.erase (kind, resourceRef) })

/-- All leases of one execution: its node lease and its path leases `<fence>:<n>`. -/
def releaseFence (r : Registry) (ownerAgentId fence : String) (nowEpochMs : UInt64) :
    Except AgentLeaseError ℕ × Registry :=
  match (do opaqueRef "lease_request_ref" fence; agentId ownerAgentId) with
  | .error e => (.error e, r)
  | .ok () =>
    let r := r.removeExpired nowEpochMs
    let leases := r.leases.filter fun _ l =>
      l.request.ownerAgentId != ownerAgentId ||
        (l.request.leaseRequestRef != fence && !startsWith l.request.leaseRequestRef (fence ++ ":"))
    (.ok (r.leases.size - leases.size), { r with leases := leases })

def contendedHold : String :=
  "another agent is waiting and this lease reached its maximum hold; " ++
    "it is not renewed and goes to the waiter when it runs out"

def renew (r : Registry) (kind : ResourceKind) (resourceRef ownerAgentId leaseRef : String)
    (durationMs nowEpochMs : UInt64) : Except AgentLeaseError AgentLease × Registry :=
  match (do opaqueRef "resource_ref" resourceRef; agentId ownerAgentId; checkDuration durationMs) with
  | .error e => (.error e, r)
  | .ok () => match r.leases[(kind, resourceRef)]? with
    | none => (.error .notFound, r)
    | some existing =>
      if !existing.isActiveAt nowEpochMs then
        (.error .expired, { r with leases := r.leases.erase (kind, resourceRef) })
      else if existing.request.ownerAgentId ≠ ownerAgentId ∨ existing.leaseRef ≠ leaseRef then
        (.error .notOwner, r)
      else
        let r := r.removeExpired nowEpochMs
        if (r.heldSince[leaseRef]?).any
              (fun since => saturatingSub nowEpochMs since ≥ maxContendedHoldMs) ∧
            (r.waitingBefore existing.request).isSome then
          (.error (.invalid contendedHold), r)
        else
          let renewed := { existing with
            request := { existing.request with durationMs := durationMs }
            expiresAtEpochMs := saturatingAdd nowEpochMs durationMs }
          (.ok renewed, { r with leases := r.leases.insert (kind, resourceRef) renewed })

/-- Drops the lease with this token, whoever holds it. -/
def revoke (r : Registry) (leaseRef : String) : Option AgentLease × Registry :=
  match r.leases.toList.find? fun p => p.2.leaseRef == leaseRef with
  | none => (none, r)
  | some (key, lease) => (some lease, { r with leases := r.leases.erase key })

end Registry

/-! ## Runs -/

inductive Op
  | acquire (request : AgentLeaseRequest)
  | release (kind : ResourceKind) (resourceRef ownerAgentId leaseRef : String)
  | releaseFence (ownerAgentId fence : String)
  | renew (kind : ResourceKind) (resourceRef ownerAgentId leaseRef : String) (durationMs : UInt64)
  | revoke (leaseRef : String)
deriving DecidableEq, Repr

inductive Reply
  | acquired (result : AgentLeaseAcquire)
  | released (removed : Bool)
  | fenceReleased (count : ℕ)
  | renewed (lease : AgentLease)
  | revoked (lease : Option AgentLease)
deriving DecidableEq, Repr

/-- One call with the clock reading it brings. -/
structure Call where
  op : Op
  nowEpochMs : UInt64
deriving DecidableEq, Repr

namespace Registry

variable (blake3 : String → String)

def step (r : Registry) (call : Call) : Except AgentLeaseError Reply × Registry :=
  match call.op with
  | .acquire q =>
    let (result, r') := r.acquire blake3 q call.nowEpochMs
    (result.map .acquired, r')
  | .release kind ref owner leaseRef =>
    let (result, r') := r.release kind ref owner leaseRef call.nowEpochMs
    (result.map .released, r')
  | .releaseFence owner fence =>
    let (result, r') := r.releaseFence owner fence call.nowEpochMs
    (result.map .fenceReleased, r')
  | .renew kind ref owner leaseRef durationMs =>
    let (result, r') := r.renew kind ref owner leaseRef durationMs call.nowEpochMs
    (result.map .renewed, r')
  | .revoke leaseRef =>
    let (result, r') := r.revoke leaseRef
    (.ok (.revoked result), r')

def run (r : Registry) : List Call → Registry
  | [] => r
  | call :: calls => (r.step blake3 call).2.run calls

end Registry

end LeanCtx.Lease
