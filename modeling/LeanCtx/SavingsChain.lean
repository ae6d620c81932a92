import LeanCtx.SavingsLedger
import LeanCtx.TextFile
import LeanCtx.Trace

/-!
# The savings ledger file

The ledger is a text file with one event a line. An append looks up the hash of
the last event in the last bytes of the file, hashes the event onto it and
writes its line after redacting secrets in it. Approvals and settlements rewrite
the file and hash the whole chain again.
-/

namespace LeanCtx.Savings

open ByteText TextFile

def genesis : String := "genesis"

def tailReadBytes : ℕ := 8192

inductive CustomerApproval
  | pending
  | approved
  | disputed
  | superseded
deriving DecidableEq, Repr

inductive SettlementStatus
  | ineligible
  | eligible
  | settled
  | reversed
deriving DecidableEq, Repr

/-- An event as it is stored. `R` are the fields that the ledger only carries along. -/
structure LedgerEvent (F R : Type) extends SavingsEvent F where
  customerApproval : Option CustomerApproval
  settlementStatus : Option SettlementStatus
  carried : R

/-- What the store takes from elsewhere: the hash in hexadecimal, the JSON line of an event and
its reader, and the redaction of secrets under the configuration. -/
structure Env (F R : Type) where
  money : Money F
  sha256 : String → String
  sha256_ne_genesis : ∀ s, sha256 s ≠ genesis
  print : LedgerEvent F R → String
  read : String → Option (LedgerEvent F R)
  read_print : ∀ e, read (print e) = some e
  print_oneLine : ∀ e, OneLine (print e)
  redact : String → String

variable {F R : Type} (env : Env F R)

/-! ## Reading -/

/-- The hash of the newest event in the file's last bytes. -/
def readLastHashFromTail (file : String) : String :=
  if (utf8 file).length = 0 then genesis
  else
    let text := String.ofList (fromUtf8Lossy (lastBytes tailReadBytes (utf8 file)))
    match (lines text).reverse.findSome? env.read with
    | some e => e.entryHash
    | none => genesis

def load (file : String) : List (LedgerEvent F R) := (lines file).filterMap env.read

structure VerifyResult where
  total : ℕ
  valid : Bool
  firstInvalidAt : Option ℕ
deriving DecidableEq

def VerifyResult.invalidAt (total : ℕ) : VerifyResult := ⟨total, false, some total⟩

def verifyLines (prev : String) (total : ℕ) : List String → VerifyResult
  | [] => ⟨total, true, none⟩
  | line :: rest =>
    match env.read line with
    | none => .invalidAt total
    | some e =>
      if e.prevHash ≠ prev then .invalidAt total
      else if e.hashMatches env.money env.sha256 prev = false then .invalidAt total
      else verifyLines e.entryHash (total + 1) rest

def verify (file : String) : VerifyResult := verifyLines env genesis 0 (lines file)

/-! ## Writing -/

/-- How a saving was measured when its event does not say so. -/
def defaultMethod (mechanism : String) : MeasurementMethod :=
  if mechanism = "compression" then .directCount
  else if mechanism = "routing" then .baselineEstimate
  else if mechanism = "caching" then .providerReconciled
  else .unknown

def defaultEvidence (mechanism : String) : EvidenceClass :=
  if mechanism = "compression" ∨ mechanism = "caching" then .measured
  else if mechanism = "routing" then .approximated
  else .unclassified

namespace LedgerEvent

/-- The event with its method and evidence class filled in. -/
def withDefaults (e : LedgerEvent F R) : LedgerEvent F R :=
  { e with
    measurementMethod := some (e.measurementMethod.getD (defaultMethod e.mechanism))
    evidenceClass := some (e.evidenceClass.getD (defaultEvidence e.mechanism)) }

/-- The event hashed onto the previous hash. -/
def chain (prev : String) (e : LedgerEvent F R) : LedgerEvent F R :=
  { e with
    prevHash := prev
    entryHash := computeHash env.sha256 prev (e.canonicalContent env.money) }

end LedgerEvent

def append (file : String) (e : LedgerEvent F R) : LedgerEvent F R × String :=
  let e := e.withDefaults.chain env (readLastHashFromTail env file)
  (e, file ++ (env.redact (env.print e) ++ "\n"))

/-- The events of the lines that can be read, hashed anew. -/
def rechainLines (prev : String) : List String → List (LedgerEvent F R)
  | [] => []
  | line :: rest =>
    match env.read line with
    | none => rechainLines prev rest
    | some e => e.chain env prev :: rechainLines (e.chain env prev).entryHash rest

/-- The file that holds the given events. -/
def write (events : List (LedgerEvent F R)) : String := joinLines (events.map env.print)

def rechain (file : String) : ℕ × String :=
  let events := rechainLines env genesis (lines file)
  (events.length, write env events)

inductive UpdateError
  | unreadableLine
  | notFound (message : String)
  | unreadableEntry
deriving DecidableEq

def updateEvent (file entryHash : String) (update : LedgerEvent F R → LedgerEvent F R) :
    Except UpdateError (LedgerEvent F R) × String :=
  match (lines file).mapM env.read with
  | none => (.error .unreadableLine, file)
  | some events =>
    match events.findIdx? fun e => e.entryHash = entryHash with
    | none => (.error (.notFound ("ledger entry not found: " ++ entryHash)), file)
    | some index =>
      let final := (rechain env (write env (events.modify index update))).2
      match (lines final)[index]?.bind env.read with
      | some e => (.ok e, final)
      | none => (.error .unreadableEntry, final)

def LedgerEvent.setApproval (approval : CustomerApproval) (e : LedgerEvent F R) :
    LedgerEvent F R :=
  { e with customerApproval := some approval }

def LedgerEvent.setSettlement (status : SettlementStatus) (e : LedgerEvent F R) :
    LedgerEvent F R :=
  { e with settlementStatus := some status }

inductive Call (F R : Type)
  | append (e : LedgerEvent F R)
  | approveEvent (entryHash : String) (approval : CustomerApproval)
  | settleEvent (entryHash : String) (status : SettlementStatus)
  | rechain

inductive Answer (F R : Type)
  | appended (e : LedgerEvent F R)
  | updated (result : Except UpdateError (LedgerEvent F R))
  | rechained (count : ℕ)

def step (file : String) : Call F R → Answer F R × String
  | .append e => ((append env file e).map .appended id)
  | .approveEvent entryHash approval =>
    (updateEvent env file entryHash (.setApproval approval)).map .updated id
  | .settleEvent entryHash status =>
    (updateEvent env file entryHash (.setSettlement status)).map .updated id
  | .rechain => (rechain env file).map .rechained id

end LeanCtx.Savings
