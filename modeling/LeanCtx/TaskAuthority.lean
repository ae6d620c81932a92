import LeanCtx.ByteText
import LeanCtx.Effect
import Mathlib.Data.Int.Order.Basic

/-!
# Signed task descriptors

A peer sends a task as a descriptor that it signs. The receiver takes authority
from its own policy alone: the key of the peer and the grant that the
descriptor names, each with its own period. A descriptor lives for a bounded
time, and its clock may be ahead of the receiver's by a bounded skew. Instants
are counted in nanoseconds. The canonical bytes of a descriptor, the digest and
the check of a signature are parameters.
-/

namespace LeanCtx.A2aTask

open ByteText

/-- `DateTime<Utc>` as nanoseconds. -/
abbrev Instant := ℤ

def seconds (n : ℤ) : ℤ := n * 1000000000

/-- `Duration::num_seconds`: the whole seconds. -/
def numSeconds (duration : ℤ) : ℤ := duration.tdiv 1000000000

def maxTaskDescriptorBytes : ℕ := 256 * 1024
def maxDescriptorStringBytes : ℕ := 256
def maxDescriptionBytes : ℕ := 64 * 1024
def maxArtifactRefs : ℕ := 64
def maxIdempotencyKeyBytes : ℕ := 128
def maxTaskLifetimeSeconds : ℤ := 24 * 60 * 60
def maxPolicyLifetimeSeconds : ℤ := 366 * 24 * 60 * 60
def maxTrustEntries : ℕ := 1024
def maxAuthorityClockSkewSeconds : ℤ := 60
def taskActionSend : String := "tasks/send"

inductive TaskAuthorityError
  | malformedBounds
  | unsupportedAction
  | unknownKey
  | revokedKey
  | invalidKey
  | invalidSignature
  | wrongSender
  | wrongRecipient
  | wrongScope
  | keyNotYetValid
  | keyExpired
  | missingGrant
  | revokedGrant
  | grantNotYetValid
  | grantExpired
  | grantMismatch
  | descriptorNotYetValid
  | descriptorExpired
  | duplicateTrustEntry
  deriving DecidableEq, Repr

/-- `if c { return Err(e) }`. -/
def refuseIf (c : Prop) [Decidable c] (e : TaskAuthorityError) : Except TaskAuthorityError Unit :=
  if c then .error e else .ok ()

theorem refuseIf_eq_ok {c : Prop} [Decidable c] {e : TaskAuthorityError} {u : Unit} :
    refuseIf c e = .ok u ↔ ¬ c := by
  unfold refuseIf
  split_ifs with h <;> simp [h]

/-- The check of every element, with the elements before it. -/
def forEach {α : Type} (check : List α → α → Except TaskAuthorityError Unit) :
    List α → List α → Except TaskAuthorityError Unit
  | _, [] => .ok ()
  | before, a :: rest => do
    check before a
    forEach check (before ++ [a]) rest

/-- Letters, digits and a few marks of ASCII only. -/
def validateIdentifier (value : String) (maxBytes : ℕ) : Except TaskAuthorityError Unit :=
  refuseIf (value = "" ∨ value.utf8ByteSize > maxBytes ∨
    ¬ value.toList.all fun c => c.isAlphanum || "._:/-".toList.contains c) .malformedBounds

structure AgentArtifactRefV1 where
  schemaVersion : ℕ
  artifactId : String
  digest : String
  mediaType : String
  sizeBytes : ℕ
  uri : Option String
  deriving DecidableEq, Repr

def AgentArtifactRefV1.validate (a : AgentArtifactRefV1) : Except TaskAuthorityError Unit := do
  refuseIf (a.schemaVersion ≠ 1 ∨ a.sizeBytes > maxTaskDescriptorBytes) .malformedBounds
  validateIdentifier a.artifactId maxDescriptorStringBytes
  validateIdentifier a.digest maxDescriptorStringBytes
  validateIdentifier a.mediaType maxDescriptorStringBytes
  match a.uri with
  | none => .ok ()
  | some uri => validateIdentifier uri maxDescriptorStringBytes

structure CapabilityGrantRefV1 where
  schemaVersion : ℕ
  grantId : String
  deriving DecidableEq, Repr

def CapabilityGrantRefV1.validate (g : CapabilityGrantRefV1) : Except TaskAuthorityError Unit := do
  refuseIf (g.schemaVersion ≠ 1) .malformedBounds
  validateIdentifier g.grantId maxDescriptorStringBytes

structure TaskDescriptorV1 where
  schemaVersion : ℕ
  sender : String
  recipient : String
  tenantId : String
  projectId : String
  action : String
  issuedAt : Instant
  expiresAt : Instant
  idempotencyKey : String
  description : String
  artifactRefs : List AgentArtifactRefV1
  grantRef : CapabilityGrantRefV1
  keyId : String
  signature : String
  deriving DecidableEq, Repr

/-- What the signature covers: every field but the signature. -/
def TaskDescriptorV1.unsigned (d : TaskDescriptorV1) : TaskDescriptorV1 := { d with signature := "" }

structure TaskScopeV1 where
  schemaVersion : ℕ
  tenantId : String
  projectId : String
  deriving DecidableEq, Repr

structure TaskPeerTrustV1 where
  schemaVersion : ℕ
  keyId : String
  agentId : String
  publicKey : String
  allowedActions : List String
  allowedScopes : List TaskScopeV1
  notBefore : Instant
  expiresAt : Instant
  revoked : Bool
  deriving DecidableEq, Repr

structure TaskCapabilityGrantV1 where
  schemaVersion : ℕ
  grantId : String
  keyId : String
  action : String
  tenantId : String
  projectId : String
  notBefore : Instant
  expiresAt : Instant
  revoked : Bool
  deriving DecidableEq, Repr

structure TaskAuthorityConfigV1 where
  schemaVersion : ℕ := 1
  peers : List TaskPeerTrustV1 := []
  grants : List TaskCapabilityGrantV1 := []
  deriving DecidableEq, Repr

def isHex (c : Char) : Bool := c.isDigit || ('a' ≤ c && c ≤ 'f') || ('A' ≤ c && c ≤ 'F')

def isSupportedTaskAction (action : String) : Bool :=
  [taskActionSend, "tasks/get", "tasks/cancel", "delivery/check", "delivery/record",
    "delivery/delegate"].contains action

def TaskScopeV1.validate (s : TaskScopeV1) : Except TaskAuthorityError Unit := do
  refuseIf (s.schemaVersion ≠ 1) .malformedBounds
  validateIdentifier s.tenantId maxDescriptorStringBytes
  validateIdentifier s.projectId maxDescriptorStringBytes

def validatePeer (p : TaskPeerTrustV1) : Except TaskAuthorityError Unit := do
  refuseIf (p.schemaVersion ≠ 1 ∨ p.allowedActions = [] ∨ p.allowedScopes = [] ∨
    p.expiresAt ≤ p.notBefore ∨ numSeconds (p.expiresAt - p.notBefore) > maxPolicyLifetimeSeconds)
    .malformedBounds
  validateIdentifier p.keyId maxDescriptorStringBytes
  validateIdentifier p.agentId maxDescriptorStringBytes
  refuseIf (p.publicKey.utf8ByteSize ≠ 64 ∨ ¬ p.publicKey.toList.all isHex) .invalidKey
  forEach (fun _ action => refuseIf (¬ isSupportedTaskAction action) .unsupportedAction) []
    p.allowedActions
  forEach (fun _ scope => scope.validate) [] p.allowedScopes

def validateGrant (g : TaskCapabilityGrantV1) : Except TaskAuthorityError Unit := do
  refuseIf (g.schemaVersion ≠ 1 ∨ g.expiresAt ≤ g.notBefore ∨
    numSeconds (g.expiresAt - g.notBefore) > maxPolicyLifetimeSeconds) .malformedBounds
  validateIdentifier g.grantId maxDescriptorStringBytes
  validateIdentifier g.keyId maxDescriptorStringBytes
  validateIdentifier g.action maxDescriptorStringBytes
  validateIdentifier g.tenantId maxDescriptorStringBytes
  validateIdentifier g.projectId maxDescriptorStringBytes
  refuseIf (¬ isSupportedTaskAction g.action) .unsupportedAction

/-- `eq_ignore_ascii_case`. -/
def eqIgnoreAsciiCase (a b : String) : Bool :=
  a.toList.map Char.toLower == b.toList.map Char.toLower

def TaskAuthorityConfigV1.validate (policy : TaskAuthorityConfigV1) :
    Except TaskAuthorityError Unit := do
  refuseIf (policy.schemaVersion ≠ 1 ∨ policy.peers.length > maxTrustEntries ∨
    policy.grants.length > maxTrustEntries) .malformedBounds
  forEach (fun before (p : TaskPeerTrustV1) => do
    validatePeer p
    refuseIf (before.any fun other => other.keyId = p.keyId ||
      eqIgnoreAsciiCase other.publicKey p.publicKey) .duplicateTrustEntry) [] policy.peers
  forEach (fun before (g : TaskCapabilityGrantV1) => do
    validateGrant g
    refuseIf (before.any fun other => other.grantId = g.grantId) .duplicateTrustEntry
    refuseIf (¬ policy.peers.any fun p => p.keyId = g.keyId) .unknownKey) [] policy.grants

/-- What is not modelled of the signing: the canonical bytes of an unsigned descriptor, their
digest, and the check of a signature. -/
structure Signing where
  signingBytes : TaskDescriptorV1 → Bytes
  sha256 : Bytes → String
  verifySignature : Bytes → Bytes → Bytes → Bool

section Authority

variable (crypto : Signing)

def contentDigest (d : TaskDescriptorV1) : String := crypto.sha256 (crypto.signingBytes d.unsigned)

/-- The lifetime is compared in whole seconds. -/
def TaskDescriptorV1.validateShape (d : TaskDescriptorV1) : Except TaskAuthorityError Unit := do
  refuseIf (d.schemaVersion ≠ 1 ∨ d.action ≠ taskActionSend ∨
    d.artifactRefs.length > maxArtifactRefs ∨ d.description.utf8ByteSize > maxDescriptionBytes ∨
    d.idempotencyKey.utf8ByteSize > maxIdempotencyKeyBytes ∨ d.expiresAt ≤ d.issuedAt ∨
    numSeconds (d.expiresAt - d.issuedAt) > maxTaskLifetimeSeconds)
    (if d.action = taskActionSend then .malformedBounds else .unsupportedAction)
  forEach (fun _ value => validateIdentifier value maxDescriptorStringBytes) []
    [d.sender, d.recipient, d.tenantId, d.projectId, d.action, d.idempotencyKey, d.keyId]
  refuseIf (d.description = "" ∨ d.idempotencyKey = "" ∨ d.signature.utf8ByteSize ≠ 128 ∨
    ¬ d.signature.toList.all isHex) .malformedBounds
  d.grantRef.validate
  forEach (fun before (a : AgentArtifactRefV1) => do
    a.validate
    refuseIf (before.any fun other => other.artifactId = a.artifactId) .duplicateTrustEntry) []
    d.artifactRefs
  refuseIf ((crypto.signingBytes d.unsigned).length > maxTaskDescriptorBytes) .malformedBounds

/-- What the receiver expects of a descriptor, and its clock. -/
structure TaskAuthorityExpectationV1 where
  sender : String
  recipient : String
  tenantId : String
  projectId : String
  now : Instant

def hexDigitValue (c : Char) : ℕ :=
  if c.isDigit then c.toNat - 48 else if c.toNat < 97 then c.toNat - 55 else c.toNat - 87

/-- `hex_decode` on what was checked to be hexadecimal digits. -/
def hexDecode : List Char → Option Bytes
  | [] => some []
  | [_] => none
  | a :: b :: rest =>
    if isHex a && isHex b then
      (hexDecode rest).map (UInt8.ofNat (16 * hexDigitValue a + hexDigitValue b) :: ·)
    else none

def verifySignedTranscript (signature : String) (transcript : Bytes) (peer : TaskPeerTrustV1) :
    Except TaskAuthorityError Bool :=
  match hexDecode peer.publicKey.toList with
  | none => .error .invalidKey
  | some publicKey => match hexDecode signature.toList with
    | none => .error .invalidSignature
    | some signature => .ok (crypto.verifySignature publicKey transcript signature)

/-- The periods of the descriptor and of the peer's key. -/
def authorizePeriod (d : TaskDescriptorV1) (peer : TaskPeerTrustV1) (now : Instant) :
    Except TaskAuthorityError Unit := do
  refuseIf (d.issuedAt > now + seconds maxAuthorityClockSkewSeconds) .descriptorNotYetValid
  refuseIf (now ≥ d.expiresAt) .descriptorExpired
  refuseIf (now < peer.notBefore ∨ d.issuedAt < peer.notBefore) .keyNotYetValid
  refuseIf (now ≥ peer.expiresAt) .keyExpired

def authorizePeer (d : TaskDescriptorV1) (peer : TaskPeerTrustV1) :
    Except TaskAuthorityError Unit := do
  refuseIf (peer.revoked) .revokedKey
  refuseIf (peer.agentId ≠ d.sender) .wrongSender
  refuseIf (¬ peer.allowedActions.contains d.action) .unsupportedAction
  refuseIf (¬ peer.allowedScopes.any fun s => s.tenantId = d.tenantId && s.projectId = d.projectId)
    .wrongScope
  let valid ← verifySignedTranscript crypto d.signature (crypto.signingBytes d.unsigned) peer
  refuseIf (¬ valid) .invalidSignature

/-- A descriptor may not outlive the authority that permits it. -/
def authorizeGrant (d : TaskDescriptorV1) (peer : TaskPeerTrustV1) (grant : TaskCapabilityGrantV1)
    (now : Instant) : Except TaskAuthorityError Unit := do
  refuseIf (grant.revoked) .revokedGrant
  refuseIf (grant.keyId ≠ d.keyId ∨ grant.action ≠ d.action ∨ grant.tenantId ≠ d.tenantId ∨
    grant.projectId ≠ d.projectId) .grantMismatch
  refuseIf (now < grant.notBefore ∨ d.issuedAt < grant.notBefore) .grantNotYetValid
  refuseIf (now ≥ grant.expiresAt) .grantExpired
  refuseIf (d.expiresAt > grant.expiresAt ∨ d.expiresAt > peer.expiresAt) .grantMismatch

/-- `ok_or`. -/
def okOr {α : Type} (e : TaskAuthorityError) : Option α → Except TaskAuthorityError α
  | none => .error e
  | some a => .ok a

def authorize (d : TaskDescriptorV1) (policy : TaskAuthorityConfigV1)
    (expected : TaskAuthorityExpectationV1) : Except TaskAuthorityError Unit := do
  policy.validate
  refuseIf (d.sender ≠ expected.sender) .wrongSender
  refuseIf (d.recipient ≠ expected.recipient) .wrongRecipient
  refuseIf (d.tenantId ≠ expected.tenantId ∨ d.projectId ≠ expected.projectId) .wrongScope
  let peer ← okOr .unknownKey (policy.peers.find? fun p => p.keyId = d.keyId)
  authorizePeer crypto d peer
  authorizePeriod d peer expected.now
  let grant ← okOr .missingGrant (policy.grants.find? fun g => g.grantId = d.grantRef.grantId)
  authorizeGrant d peer grant expected.now

def TaskDescriptorV1.verifyAuthority (d : TaskDescriptorV1) (policy : TaskAuthorityConfigV1)
    (expected : TaskAuthorityExpectationV1) : Except TaskAuthorityError Unit := do
  d.validateShape crypto
  authorize crypto d policy expected

/-! ## What an authorized descriptor is -/

variable {crypto} {d : TaskDescriptorV1} {policy : TaskAuthorityConfigV1}
  {expected : TaskAuthorityExpectationV1}

/-- An authorized descriptor is of the right shape and not expired. -/
theorem verifyAuthority_ok (h : d.verifyAuthority crypto policy expected = .ok ()) :
    d.validateShape crypto = .ok () ∧ expected.now < d.expiresAt := by
  obtain ⟨⟨⟩, hshape, hauth⟩ := except_bind_eq_ok.mp h
  refine ⟨hshape, ?_⟩
  rw [authorize] at hauth
  obtain ⟨-, -, hauth⟩ := except_bind_eq_ok.mp hauth
  obtain ⟨-, -, hauth⟩ := except_bind_eq_ok.mp hauth
  obtain ⟨-, -, hauth⟩ := except_bind_eq_ok.mp hauth
  obtain ⟨-, -, hauth⟩ := except_bind_eq_ok.mp hauth
  obtain ⟨peer, -, hauth⟩ := except_bind_eq_ok.mp hauth
  obtain ⟨-, -, hauth⟩ := except_bind_eq_ok.mp hauth
  obtain ⟨⟨⟩, hperiod, -⟩ := except_bind_eq_ok.mp hauth
  rw [authorizePeriod] at hperiod
  obtain ⟨-, -, hperiod⟩ := except_bind_eq_ok.mp hperiod
  obtain ⟨_, hlive, -⟩ := except_bind_eq_ok.mp hperiod
  exact not_le.mp (refuseIf_eq_ok.mp hlive)

end Authority

end LeanCtx.A2aTask
