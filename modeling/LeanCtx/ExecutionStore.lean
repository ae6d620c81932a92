import LeanCtx.ExecutionLedger

/-!
# The file of the execution ledger

The ledger file and the two names beside it: the append journal, and the
temporary file the journal is written to before it is linked under its own
name. An append recovers what an interrupted append left, reads and verifies
the whole ledger, publishes a journal of the new record, writes the record and
removes the journal. Every change is durable before the next one is made.
-/

namespace LeanCtx.Execution

open ByteText Interrupt

/-- The files under the names of the journal and of its temporary file. -/
inductive Sidecars
  | none
  | temporary (bytes : Bytes)
  | journal (bytes : Bytes)
  /-- Two names of one file. -/
  | linked (bytes : Bytes)
  | both (journal temporary : Bytes)
deriving DecidableEq, Repr

structure Disk where
  ledger : Option Bytes
  sidecars : Sidecars
deriving DecidableEq, Repr

def Disk.empty : Disk := ⟨none, .none⟩

def Disk.bytes (d : Disk) : Bytes := d.ledger.getD []

def setSidecars (sidecars : Sidecars) : Prog Disk LedgerError Unit := change fun d => { d with sidecars := sidecars }

/-- Every byte of a write can be the last one that is kept. -/
def appendBytes (bytes : Bytes) : Prog Disk LedgerError Unit :=
  changeInParts bytes.length fun k d => { d with ledger := some (d.bytes ++ bytes.take k) }

def writeTemporary (bytes : Bytes) : Prog Disk LedgerError Unit :=
  changeInParts bytes.length fun k d =>
    match d.sidecars with
    | .both journal _ => { d with sidecars := .both journal (bytes.take k) }
    | _ => { d with sidecars := .temporary (bytes.take k) }

/-! ## The names beside the ledger -/

def multipleLinks : LedgerError := .invalidRecord "cleanup target has multiple hard links"

/-- `remove_file_operation` on the temporary file; whether there was one. -/
def removeTemporary : Prog Disk LedgerError Bool := do
  match ← see Disk.sidecars with
  | .none | .journal _ => return false
  | .temporary _ => setSidecars .none; return true
  | .both journal _ => setSidecars (.journal journal); return true
  | .linked _ => fail multipleLinks

/-- `remove_file_operation` on the journal. -/
def removeJournal : Prog Disk LedgerError Bool := do
  match ← see Disk.sidecars with
  | .none | .temporary _ => return false
  | .journal _ => setSidecars .none; return true
  | .both _ temporary => setSidecars (.temporary temporary); return true
  | .linked _ => fail multipleLinks

def createTemporary : Prog Disk LedgerError Unit := do
  match ← see Disk.sidecars with
  | .none => setSidecars (.temporary [])
  | .journal journal => setSidecars (.both journal [])
  | _ => fail (.io .alreadyExists)

/-- Links the temporary file under the name of the journal. -/
def linkJournal : Prog Disk LedgerError Unit := do
  match ← see Disk.sidecars with
  | .temporary bytes => setSidecars (.linked bytes)
  | .none | .journal _ => fail (.io .notFound)
  | .both .. => fail (.io .alreadyExists)
  | .linked _ => fail (.invalidRecord "append journal temporary has multiple hard links")

def unlinkTemporary : Prog Disk LedgerError Unit := do
  match ← see Disk.sidecars with
  | .temporary _ => setSidecars .none
  | .linked bytes => setSidecars (.journal bytes)
  | .both journal _ => setSidecars (.journal journal)
  | .none | .journal _ => fail (.io .notFound)

def clearAppendJournal : Prog Disk LedgerError Unit := do
  match ← see Disk.sidecars with
  | .linked bytes =>
    setSidecars (.temporary bytes)
    setSidecars .none
  | .journal _ | .both .. =>
    let _ ← removeJournal
    let _ ← removeTemporary
  | .none | .temporary _ =>
    let _ ← removeTemporary

/-! ## The journal -/

def Env.sha256 (env : Env) (bytes : Bytes) : String := "sha256:" ++ env.sha256Hex bytes

def parseAppendJournal (env : Env) (bytes : Bytes) : Except LedgerError AppendJournal :=
  if maxAppendJournalBytes < bytes.length then
    .error (.invalidRecord "append journal exceeds byte limit")
  else match fromUtf8 bytes with
    | none => .error (.invalidRecord "append journal is not UTF-8")
    | some text =>
      match env.readJournal text with
      | none => .error .serialization
      | some journal =>
        if journal.schema ≠ appendJournalSchema ∨ utf8 journal.json ≠ bytes ∨
            maxLedgerRecordBytes < (utf8 journal.record).length ∨
            env.sha256 (utf8 journal.record) ≠ journal.recordSha256 ∨
            ¬ (parseCanonicalEvent env journal.record).isOk then
          .error (.invalidRecord "append journal is invalid or non-canonical")
        else .ok journal

def readAppendJournal (env : Env) (d : Disk) : Except LedgerError (Option AppendJournal) :=
  match d.sidecars with
  | .none | .temporary _ => .ok none
  | .journal bytes | .linked bytes | .both bytes _ => (parseAppendJournal env bytes).map some

def writeAppendJournal (env : Env) (previousLen : ℕ) (previousSha256 record : String) :
    Prog Disk LedgerError Unit := do
  ensure ((utf8 record).length ≤ maxLedgerRecordBytes)
    (.invalidRecord "execution ledger record exceeds byte limit")
  let journal : AppendJournal :=
    ⟨appendJournalSchema, previousLen, previousSha256, record, env.sha256 (utf8 record)⟩
  let bytes := utf8 journal.json
  ensure (bytes.length ≤ maxAppendJournalBytes)
    (.invalidRecord "append journal exceeds byte limit")
  let _ ← removeTemporary
  createTemporary
  writeTemporary bytes
  match ← see Disk.sidecars with
  | .both .. =>
    -- The name is taken: the temporary file is removed again.
    let _ ← removeTemporary
    fail (.io .alreadyExists)
  | _ =>
    linkJournal
    unlinkTemporary

/-! ## Recovery and append -/

def openLedgerForAppend : Prog Disk LedgerError Unit := do
  match ← see Disk.ledger with
  | some _ => return ()
  | none =>
    let sidecars ← see Disk.sidecars
    ensure (sidecars = .none) (.invalidRecord "execution ledger has a pending append journal")
    change fun d => { d with ledger := some [] }

def fileIsNewlineTerminated (bytes : Bytes) : Bool := bytes.getLast?.all (· = newline)

def recoverPendingAppend (env : Env) : Prog Disk LedgerError Unit := do
  match ← attempt (readAppendJournal env (← see id)) with
  | none =>
    let ledger ← see Disk.bytes
    ensure (fileIsNewlineTerminated ledger)
      (.invalidRecord "unterminated ledger tail has no matching append journal")
    let _ ← removeTemporary
  | some journal =>
    let ledger ← see Disk.bytes
    ensure (journal.previousLen ≤ ledger.length)
      (.invalidRecord "ledger is shorter than append journal predecessor")
    let previous := ledger.take journal.previousLen
    ensure (env.sha256 previous = journal.previousSha256)
      (.invalidRecord "ledger predecessor does not match append journal")
    let (previousEvents, tail) ← attempt <| readCompleteEventsAndTail env previous
    ensure (tail = []) (.invalidRecord "append journal predecessor is not newline-terminated")
    let valid ← attempt <| verifyEvents env previousEvents
    ensure valid (.invalidChain "append journal predecessor chain is invalid")
    let event ← attempt <| parseCanonicalEvent env journal.record
    let valid ← attempt <| verifyEvents env (previousEvents ++ [event])
    ensure valid (.invalidChain "prepared append violates execution lifecycle")
    let expected := utf8 journal.record ++ [newline]
    let suffix := ledger.drop journal.previousLen
    ensure (suffix.length ≤ expected.length)
      (.invalidRecord "ledger contains bytes after prepared append")
    ensure (suffix <+: expected) (.invalidRecord "ledger tail does not match prepared append")
    appendBytes (expected.drop suffix.length)
    let events ← attempt <| readEventsFromFile env (← see Disk.bytes)
    let valid ← attempt <| verifyEvents env events
    ensure valid (.invalidChain "completed prepared append is invalid")
    clearAppendJournal

/-- What an append does once the ledger is recovered. -/
def appendRecovered (env : Env) (event : ExecutionEvent) : Prog Disk LedgerError Bool := do
  let ledger ← see Disk.bytes
  let events ← attempt <| readEventsFromFile env ledger
  let valid ← attempt <| verifyEvents env events
  ensure valid (.invalidChain "cannot append to an invalid chain")
  match ← attempt <| prepareAppend env events event with
  | none => return false
  | some record =>
    let line := record.json
    writeAppendJournal env ledger.length (env.sha256 ledger) line
    appendBytes (utf8 line ++ [newline])
    clearAppendJournal
    return true

def appendIfNew (env : Env) (event : ExecutionEvent) : Prog Disk LedgerError Bool := do
  openLedgerForAppend
  recoverPendingAppend env
  appendRecovered env event

end LeanCtx.Execution
