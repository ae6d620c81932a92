import LeanCtx.AuditTrail
import Mathlib

/-!
# Checkpoints of the audit trail

After a pass over a file of the trail the verifier saves the chain state at the
end of the file. A later pass may start from there, when the file is still the
same object and long enough, the edges of what was verified have not changed
and the checkpoint is not too old. A suffix that does not verify from there is
verified again in full.
-/

namespace LeanCtx.Audit

open ByteText

def maxCheckpointBytes : ℕ := 1024 * 1024
def checkpointVersion : ℕ := 5
def edgeBytes : ℕ := 64 * 1024
def fullReverifySecs : ℤ := 24 * 60 * 60
def clockSkewSecs : ℤ := 300

/-! ## Files -/

structure FileStamp where
  size : ℕ
  dev : ℕ
  ino : ℕ
  mtimeSecs : ℕ
  mtimeNanos : ℕ
deriving DecidableEq, Repr

/-- A file of the trail during one pass: its modification time if that is after the epoch, and
whether it can be opened and locked for reading in time. -/
structure TrailFile where
  bytes : Bytes
  dev : ℕ
  ino : ℕ
  mtime : Option (ℕ × ℕ)
  available : Bool

def TrailFile.stamp (file : TrailFile) : Option FileStamp :=
  file.mtime.map fun (secs, nanos) => ⟨file.bytes.length, file.dev, file.ino, secs, nanos⟩

structure Segment where
  seq : ℕ
  path : String
  file : TrailFile

/-- The sealed segments in the order of their numbers, and the active file, if there is one. It
may exist and not open. -/
structure Trail where
  sealed : List Segment
  path : String
  active : Option TrailFile
  activeOpens : Bool
  paths_nodup : (sealed.map Segment.path ++ [path]).Nodup

/-! ## The store -/

structure Payload where
  version : ℕ
  trail : String
  stamp : FileStamp
  headDigest : String
  tailDigest : String
  fullVerifiedAt : ℤ
  startHash : String
  startTotal : ℕ
  state : ChainState

/-- The data directory, and the signed form a checkpoint is written in: what is read of a written
checkpoint is what was written. -/
structure Keeper where
  inDataDir : String → Bool
  fileName : String → String
  write : Payload → Option Bytes
  read : Bytes → Option Payload
  read_write : ∀ payload bytes, write payload = some bytes →
    ∀ n payload', read (bytes.take n) = some payload' → payload' = payload

/-- The checkpoint files that exist. -/
abbrev Checkpoints := String → Option Bytes

variable (env : Env) (keeper : Keeper)

def edgeDigests (file : TrailFile) (offset : ℕ) : Option (String × String) :=
  let window := min offset edgeBytes
  if offset ≤ file.bytes.length then
    some (hexEncode (env.sha256 (file.bytes.take window)),
      hexEncode (env.sha256 ((file.bytes.drop (offset - window)).take window)))
  else none

/-- The checkpoint of a trail file, if it is authentic. -/
def stored (checkpoints : Checkpoints) (trail : String) : Option Payload := do
  let bytes ← checkpoints (keeper.fileName trail)
  let payload ← keeper.read (bytes.take maxCheckpointBytes)
  if payload.version ≠ checkpointVersion ∨ payload.trail ≠ trail then none
  else some payload

/-- The checkpoint, if it still describes a prefix of the file. -/
def authenticPrefixOf (checkpoints : Checkpoints) (trail : String) (file : TrailFile)
    (stamp : FileStamp) : Option Payload := do
  let payload ← stored keeper checkpoints trail
  let offset := payload.stamp.size
  if (stamp.dev, stamp.ino) ≠ (payload.stamp.dev, payload.stamp.ino) ∨ stamp.size < offset then none
  else if stamp.size = offset ∧ stamp ≠ payload.stamp then none
  else do
    let (head, tail) ← edgeDigests env file offset
    if head ≠ payload.headDigest ∨ tail ≠ payload.tailDigest then none
    else some payload

def resume (checkpoints : Checkpoints) (trail : String) (file : TrailFile) (stamp : FileStamp)
    (start : ChainState) (maxAge : Option ℤ) (now : ℤ) : Option Payload := do
  let payload ← authenticPrefixOf env keeper checkpoints trail file stamp
  if payload.startHash ≠ start.prevHash ∨ payload.startTotal ≠ start.total then none
  else
    let age := now - payload.fullVerifiedAt
    if age < -clockSkewSecs ∨ (maxAge.any fun maxAge => maxAge ≤ age) then none
    else some payload

/-- The prefix state is kept if the file is not empty and the checkpoint can be signed. -/
def save (checkpoints : Checkpoints) (trail : String) (file : TrailFile) (stamp : FileStamp)
    (start state : ChainState) (fullVerifiedAt : ℤ) : Checkpoints :=
  if stamp.size = 0 then checkpoints
  else match edgeDigests env file stamp.size with
    | none => checkpoints
    | some (head, tail) =>
      match keeper.write ⟨checkpointVersion, trail, stamp, head, tail, fullVerifiedAt,
          start.prevHash, start.total, state⟩ with
      | none => checkpoints
      | some bytes => Function.update checkpoints (keeper.fileName trail) (some bytes)

def discard (checkpoints : Checkpoints) (trail : String) : Checkpoints :=
  Function.update checkpoints (keeper.fileName trail) none

/-! ## Verification -/

inductive Verified
  | missing
  | unavailable
  | invalid (state : ChainState)
  | valid (state : ChainState)

/-- The pass over a whole file. -/
def verifyInFull (checkpoints : Checkpoints) (trail : String) (file : TrailFile)
    (start : ChainState) (now : ℤ) : Verified × Checkpoints :=
  match start.verifyStream env file.bytes with
  | (state, none) =>
    (.invalid state, if keeper.inDataDir trail then discard keeper checkpoints trail else checkpoints)
  | (state, some (read, clean)) =>
    (.valid state,
      match file.stamp with
      | some stamp =>
        if keeper.inDataDir trail ∧ clean ∧ read = stamp.size then
          save env keeper checkpoints trail file stamp start state now
        else checkpoints
      | none => checkpoints)

/-- The pass over what follows the checkpoint, if there is one and the rest verifies. -/
def verifyResumed (checkpoints : Checkpoints) (trail : String) (file : TrailFile)
    (start : ChainState) (maxAge : Option ℤ) (now : ℤ) : Option (Verified × Checkpoints) :=
  if keeper.inDataDir trail then do
    let stamp ← file.stamp
    let resumed ← resume env keeper checkpoints trail file stamp start maxAge now
    let offset := resumed.stamp.size
    if offset = stamp.size then some (.valid resumed.state, checkpoints)
    else match resumed.state.verifyStream env (file.bytes.drop offset) with
      | (_, none) => none
      | (state, some (read, clean)) =>
        some (.valid state,
          if clean ∧ offset + read = stamp.size then
            save env keeper checkpoints trail file stamp start state resumed.fullVerifiedAt
          else checkpoints)
  else none

def verifyFile (checkpoints : Checkpoints) (trail : String) (file : TrailFile)
    (start : ChainState) (forceFull : Bool) (maxAge : Option ℤ) (now : ℤ) :
    Verified × Checkpoints :=
  if ¬ file.available then (.unavailable, checkpoints)
  else match if forceFull then none
      else verifyResumed env keeper checkpoints trail file start maxAge now with
    | some verified => verified
    | none => verifyInFull env keeper checkpoints trail file start now

/-- The segments from number `index` of the list on: the state after them, or the verdict that
ends the pass. -/
def verifySealed (forceFull : Bool) (sample : Option ℕ) (now : ℤ) (index : ℕ)
    (state : ChainState) (checkpoints : Checkpoints) :
    List Segment → Except Verified ChainState × Checkpoints
  | [] => (.ok state, checkpoints)
  | segment :: rest =>
    let maxAge := if some index = sample then some fullReverifySecs else none
    match verifyFile env keeper checkpoints segment.path segment.file state forceFull maxAge now with
    | (.valid next, checkpoints) =>
      if next.sealed = some segment.seq then
        verifySealed forceFull sample now (index + 1) next checkpoints rest
      else (.error (.invalid next), checkpoints)
    | (other, checkpoints) => (.error other, checkpoints)

/-- The segment that is verified in full on this day. -/
def sampleOf (now : ℤ) (segments : ℕ) : Option ℕ :=
  if segments = 0 then none else some ((now / (24 * 60 * 60)).toNat % segments)

def verifyStateAt (trail : Trail) (checkpoints : Checkpoints) (forceFull : Bool) (now : ℤ) :
    Verified × Checkpoints :=
  if ¬ trail.activeOpens then (.unavailable, checkpoints)
  else if trail.sealed = [] ∧ trail.active.isNone then (.missing, checkpoints)
  else match verifySealed env keeper forceFull (sampleOf now trail.sealed.length) now 0 {}
      checkpoints trail.sealed with
    | (.error verdict, checkpoints) => (verdict, checkpoints)
    | (.ok state, checkpoints) =>
      match trail.active with
      | some file =>
        verifyFile env keeper checkpoints trail.path file state forceFull (some fullReverifySecs) now
      | none => (.valid state, checkpoints)

/-! ## Reports -/

structure ChainVerifyResult where
  totalEntries : ℕ
  valid : Bool
  firstInvalidAt : Option ℕ
  sourcePresent : Bool
  unknownEventTypes : ℕ
deriving DecidableEq, Repr

def ChainState.invalidResult (state : ChainState) :
    ChainVerifyResult × Option (String × String) :=
  (⟨state.total, false, some state.total, true, state.unknown⟩, none)

def ChainState.validResult (state : ChainState) (agentId : Option String) :
    ChainVerifyResult × Option (String × String) :=
  (⟨state.total, true, none, true, state.unknown⟩, agentId.bind fun id => state.pending[id]?)

/-- The report, with the pending drift of an agent. -/
def Verified.report (agentId : Option String) :
    Verified → ChainVerifyResult × Option (String × String)
  | .missing => (⟨0, true, none, false, 0⟩, none)
  | .unavailable => (⟨0, false, some 0, false, 0⟩, none)
  | .invalid state => state.invalidResult
  | .valid state => state.validResult agentId

def verifyChainModeAt (trail : Trail) (checkpoints : Checkpoints) (agentId : Option String)
    (forceFull : Bool) (now : ℤ) : ChainVerifyResult × Option (String × String) :=
  (verifyStateAt env keeper trail checkpoints forceFull now).1.report agentId

end LeanCtx.Audit
