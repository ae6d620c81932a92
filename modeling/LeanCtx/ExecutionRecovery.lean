import LeanCtx.Effect
import LeanCtx.ExecutionStore

/-!
# Interrupted appends to the execution ledger

A file that is read as a list of events is the file of exactly these events. An
interrupted append leaves one of a few kinds of disk, and each of them is
recovered to the ledger as it was or to the ledger with the new record: a disk
without a journal to the former, a disk with one to the latter. Recovery that
is interrupted leaves a disk of the same kind.
-/

namespace LeanCtx.Execution

open ByteText Interrupt JsonText

variable (env : Env)

-- Texts are compared as wholes, never by what they are made of.
attribute [local irreducible] LedgerRecord.json AppendJournal.json utf8

/-! ## The file of a list of events -/

def recordOf (e : ExecutionEvent) : LedgerRecord :=
  ⟨ledgerRecordSchema, ledgerRecordKind, e, env.hashEvent e⟩

def lineOf (e : ExecutionEvent) : Bytes := utf8 (recordOf env e).json

def fileOf (events : List ExecutionEvent) : Bytes := joinLines (events.map (lineOf env))

def Fits (events : List ExecutionEvent) : Prop :=
  ∀ e ∈ events, (lineOf env e).length ≤ maxLedgerRecordBytes

variable {env}

theorem parseCanonicalEvent_eq_ok {line : String} {e : ExecutionEvent} :
    parseCanonicalEvent env line = .ok e ↔ line = (recordOf env e).json := by
  unfold parseCanonicalEvent
  constructor
  · intro h
    cases hread : env.readRecord line with
    | none => simp [hread] at h
    | some record =>
      simp only [hread] at h
      split_ifs at h with hschema hjson hhash
      obtain rfl := Except.ok.inj h
      obtain ⟨h₁, h₂⟩ := not_or.mp hschema
      rw [← not_not.mp hjson]
      congr 1
      unfold recordOf
      rw [not_not.mp hhash, ← not_not.mp h₁, ← not_not.mp h₂]
  · rintro rfl
    rw [env.readRecord_json]
    simp [recordOf]

theorem newline_not_mem_lineOf (e : ExecutionEvent) : newline ∉ lineOf env e := by
  rw [lineOf, newline_mem_utf8, LedgerRecord.json, Doc.text, String.toList_ofList]
  exact Doc.newline_not_mem _

theorem record_not_blank (r : LedgerRecord) : r.json.toList.all isWhitespace = false := by
  rw [LedgerRecord.json, Doc.text, String.toList_ofList]
  rfl

theorem readLines_eq_ok {n : ℕ} {lines : List Bytes} {events : List ExecutionEvent} :
    readLines env n lines = .ok events ↔ lines = events.map (lineOf env) ∧ Fits env events := by
  induction lines generalizing n events with
  | nil =>
    constructor
    · intro h
      obtain rfl := Except.ok.inj h
      exact ⟨rfl, nofun⟩
    · rintro ⟨h, -⟩
      rw [List.map_eq_nil_iff.mp h.symm]
      rfl
  | cons line lines ih =>
    rw [readLines]
    constructor
    · intro h
      split_ifs at h with hlong
      cases htext : fromUtf8 line with
      | none => simp [htext] at h
      | some text =>
        simp only [htext] at h
        split_ifs at h with hblank
        obtain ⟨event, hevent, h⟩ := except_bind_eq_ok.mp h
        obtain ⟨rest, hrest, h⟩ := except_bind_eq_ok.mp h
        obtain rfl := Except.ok.inj h
        obtain ⟨rfl, hfits⟩ := ih.mp hrest
        have hline : line = lineOf env event := by
          rw [fromUtf8_eq_some.mp htext, parseCanonicalEvent_eq_ok.mp hevent, lineOf]
        refine ⟨by rw [hline, List.map_cons], List.forall_mem_cons.mpr ⟨?_, hfits⟩⟩
        rw [← hline]
        omega
    · rintro ⟨hlines, hfits⟩
      cases events with
      | nil => cases hlines
      | cons event rest =>
        obtain ⟨rfl, rfl⟩ := List.cons.inj hlines
        obtain ⟨hevent, hrest⟩ := List.forall_mem_cons.mp hfits
        have hparse : parseCanonicalEvent env (recordOf env event).json = .ok event :=
          parseCanonicalEvent_eq_ok.mpr rfl
        rw [if_neg (by omega), lineOf, fromUtf8_utf8]
        simp only [record_not_blank, hparse, Bool.false_eq_true, if_false]
        exact except_bind_eq_ok.mpr ⟨event, rfl, except_bind_eq_ok.mpr
          ⟨rest, ih.mpr ⟨rfl, hrest⟩, rfl⟩⟩

theorem splitLines_fileOf (events : List ExecutionEvent) :
    splitLines (fileOf env events) = (events.map (lineOf env), []) := by
  apply splitLines_joinLines
  intro line hline
  obtain ⟨e, -, rfl⟩ := List.mem_map.mp hline
  exact newline_not_mem_lineOf e

theorem readCompleteEventsAndTail_fileOf {events : List ExecutionEvent} (h : Fits env events) :
    readCompleteEventsAndTail env (fileOf env events) = .ok (events, []) := by
  unfold readCompleteEventsAndTail
  rw [splitLines_fileOf]
  exact except_bind_eq_ok.mpr ⟨events, readLines_eq_ok.mpr ⟨rfl, h⟩, rfl⟩

theorem readCompleteEventsAndTail_eq_ok {bytes tail : Bytes} {events : List ExecutionEvent}
    (h : readCompleteEventsAndTail env bytes = .ok (events, tail)) :
    bytes = fileOf env events ++ tail ∧ Fits env events := by
  unfold readCompleteEventsAndTail at h
  obtain ⟨found, hfound, h⟩ := except_bind_eq_ok.mp h
  split_ifs at h
  obtain ⟨rfl, rfl⟩ := Prod.mk.inj (Except.ok.inj h)
  obtain ⟨hlines, hfits⟩ := (readLines_eq_ok (n := 0)).mp hfound
  have hjoin := joinLines_splitLines bytes
  rw [hlines] at hjoin
  exact ⟨hjoin.symm, hfits⟩

/-- What is accepted as a list of events is the file of these events. -/
theorem readEventsFromFile_eq_ok {bytes : Bytes} {events : List ExecutionEvent} :
    readEventsFromFile env bytes = .ok events ↔ bytes = fileOf env events ∧ Fits env events := by
  unfold readEventsFromFile
  constructor
  · intro h
    obtain ⟨⟨found, tail⟩, hread, h⟩ := except_bind_eq_ok.mp h
    dsimp only at h
    split_ifs at h with htail
    obtain rfl := Except.ok.inj h
    obtain ⟨hbytes, hfits⟩ := readCompleteEventsAndTail_eq_ok hread
    rw [not_not.mp htail, List.append_nil] at hbytes
    exact ⟨hbytes, hfits⟩
  · rintro ⟨rfl, hfits⟩
    exact except_bind_eq_ok.mpr ⟨_, readCompleteEventsAndTail_fileOf hfits, rfl⟩

theorem fileOf_append (events : List ExecutionEvent) (e : ExecutionEvent) :
    fileOf env (events ++ [e]) = fileOf env events ++ (lineOf env e ++ [newline]) := by
  simp [fileOf, joinLines]

theorem fileIsNewlineTerminated_fileOf (events : List ExecutionEvent) :
    fileIsNewlineTerminated (fileOf env events) = true := by
  induction events using List.reverseRecOn with
  | nil => rfl
  | append_singleton events e ih =>
    rw [fileOf_append, ← List.append_assoc]
    simp [fileIsNewlineTerminated]

/-! ## The disks an interruption leaves -/

variable (env)

structure Valid (events : List ExecutionEvent) : Prop where
  verified : verifyEvents env events = .ok true
  fits : Fits env events

def settledDisk (events : List ExecutionEvent) : Disk := ⟨some (fileOf env events), .none⟩

def journalOf (events : List ExecutionEvent) (e : ExecutionEvent) : AppendJournal :=
  ⟨appendJournalSchema, (fileOf env events).length, env.sha256 (fileOf env events),
    (recordOf env e).json, env.sha256 (lineOf env e)⟩

def journalBytes (events : List ExecutionEvent) (e : ExecutionEvent) : Bytes :=
  utf8 (journalOf env events e).json

/-- The event can be written after the others, with its journal published first. -/
structure Prepared (events : List ExecutionEvent) (e : ExecutionEvent) : Prop where
  before : Valid env events
  after : Valid env (events ++ [e])
  short : (journalBytes env events e).length ≤ maxAppendJournalBytes

/-- The ledger with the first `k` bytes of the next line. -/
def partlyWritten (events : List ExecutionEvent) (e : ExecutionEvent) (k : ℕ)
    (sidecars : Sidecars) : Disk :=
  ⟨some (fileOf env events ++ (lineOf env e ++ [newline]).take k), sidecars⟩

@[simp] theorem Disk.bytes_mk (bytes : Bytes) (sidecars : Sidecars) :
    Disk.bytes ⟨some bytes, sidecars⟩ = bytes := rfl

/-- The disks from which recovery gives exactly these events. -/
inductive Restores : List ExecutionEvent → Disk → Prop
  | absent : Restores [] Disk.empty
  | settled {events} (h : Valid env events) : Restores events (settledDisk env events)
  | temporary {events} (h : Valid env events) (bytes : Bytes) :
      Restores events ⟨some (fileOf env events), .temporary bytes⟩
  | journal {events e} (h : Prepared env events e) (k : ℕ) :
      Restores (events ++ [e])
        (partlyWritten env events e k (.journal (journalBytes env events e)))
  | linked {events e} (h : Prepared env events e) (k : ℕ) :
      Restores (events ++ [e])
        (partlyWritten env events e k (.linked (journalBytes env events e)))

variable {env}

theorem valid_nil : Valid env [] := ⟨rfl, nofun⟩

theorem Prepared.fits {events : List ExecutionEvent} {e : ExecutionEvent}
    (h : Prepared env events e) : (lineOf env e).length ≤ maxLedgerRecordBytes :=
  h.after.fits e (by simp)

theorem Restores.valid {events : List ExecutionEvent} {d : Disk} (h : Restores env events d) :
    Valid env events := by
  cases h with
  | absent => exact valid_nil
  | settled h => exact h
  | temporary h bytes => exact h
  | journal h k => exact h.after
  | linked h k => exact h.after

/-! ## Recovery -/

theorem parse_journalBytes {events : List ExecutionEvent} {e : ExecutionEvent}
    (h : Prepared env events e) :
    parseAppendJournal env (journalBytes env events e) = .ok (journalOf env events e) := by
  have hparse : parseCanonicalEvent env (journalOf env events e).record = .ok e :=
    parseCanonicalEvent_eq_ok.mpr rfl
  have hfits : ¬ maxLedgerRecordBytes < (utf8 (journalOf env events e).record).length :=
    Nat.not_lt.mpr h.fits
  have hsha : env.sha256 (utf8 (journalOf env events e).record) =
      (journalOf env events e).recordSha256 := rfl
  have hshort : ¬ maxAppendJournalBytes < (journalBytes env events e).length :=
    Nat.not_lt.mpr h.short
  have haccepted : ¬ ((journalOf env events e).schema ≠ appendJournalSchema ∨
      utf8 (journalOf env events e).json ≠ journalBytes env events e ∨
      maxLedgerRecordBytes < (utf8 (journalOf env events e).record).length ∨
      env.sha256 (utf8 (journalOf env events e).record) ≠ (journalOf env events e).recordSha256 ∨
      ¬ (parseCanonicalEvent env (journalOf env events e).record).isOk) := by
    rw [hparse]
    rintro (hschema | hjson | hlong | hdigest | hevent)
    · exact hschema rfl
    · exact hjson rfl
    · exact hfits hlong
    · exact hdigest hsha
    · exact hevent rfl
  have htext : fromUtf8 (journalBytes env events e) = some (journalOf env events e).json :=
    fromUtf8_utf8 _
  rw [parseAppendJournal, if_neg hshort]
  simp only [htext, env.readJournal_json]
  rw [if_neg haccepted]

theorem appendBytes_apply (bytes written : Bytes) (sidecars : Sidecars) :
    (appendBytes bytes).run ⟨some written, sidecars⟩ =
      ⟨(List.range bytes.length).map fun k => ⟨some (written ++ bytes.take (k + 1)), sidecars⟩,
        ⟨some (written ++ bytes), sidecars⟩, .ok ()⟩ := by
  cases bytes with
  | nil => simp [appendBytes, changeInParts]
  | cons b bytes => simp [appendBytes, changeInParts, Disk.bytes]

theorem openLedger_of_some (bytes : Bytes) (sidecars : Sidecars) :
    openLedgerForAppend.run ⟨some bytes, sidecars⟩ = ⟨[], ⟨some bytes, sidecars⟩, .ok ()⟩ := rfl

theorem openLedger_empty :
    openLedgerForAppend.run Disk.empty = ⟨[settledDisk env []], settledDisk env [], .ok ()⟩ := rfl

theorem recover_settled (events : List ExecutionEvent) :
    (recoverPendingAppend env).run (settledDisk env events) = ⟨[], settledDisk env events, .ok ()⟩ := by
  have hjournal : readAppendJournal env (settledDisk env events) = .ok none := rfl
  unfold settledDisk at hjournal ⊢
  rw [recoverPendingAppend, see_bind, id, hjournal, attempt_ok_bind, see_bind, Disk.bytes_mk,
    ensure_bind (fileIsNewlineTerminated_fileOf events)]
  rfl

theorem recover_temporary (events : List ExecutionEvent) (bytes : Bytes) :
    (recoverPendingAppend env).run ⟨some (fileOf env events), .temporary bytes⟩ =
      ⟨[settledDisk env events], settledDisk env events, .ok ()⟩ := by
  have hjournal : readAppendJournal env ⟨some (fileOf env events), .temporary bytes⟩ =
    .ok none := rfl
  rw [recoverPendingAppend, see_bind, id, hjournal, attempt_ok_bind, see_bind, Disk.bytes_mk,
    ensure_bind (fileIsNewlineTerminated_fileOf events)]
  rfl

/-- What was written of a line, and what is written after it. -/
theorem take_written (line : Bytes) (k : ℕ) : line.take (line.take k).length = line.take k := by
  rw [List.length_take, ← List.take_take, List.take_length]

theorem recover_prepared {events : List ExecutionEvent} {e : ExecutionEvent}
    (h : Prepared env events e) (k : ℕ) {sidecars : Sidecars}
    (hread : readAppendJournal env (partlyWritten env events e k sidecars) =
      .ok (some (journalOf env events e))) :
    ∃ l, (∀ t ∈ l, ∃ j, t = partlyWritten env events e j sidecars) ∧
      (recoverPendingAppend env).run (partlyWritten env events e k sidecars) =
        (clearAppendJournal.run ⟨some (fileOf env (events ++ [e])), sidecars⟩).after l := by
  set line := lineOf env e ++ [newline] with hline
  have hparse : parseCanonicalEvent env (journalOf env events e).record = .ok e :=
    parseCanonicalEvent_eq_ok.mpr rfl
  have hlen : (journalOf env events e).previousLen ≤ (fileOf env events ++ line.take k).length := by
    simp [journalOf]
  have htake : (fileOf env events ++ line.take k).take (journalOf env events e).previousLen =
    fileOf env events := List.take_left
  have hdrop : (fileOf env events ++ line.take k).drop (journalOf env events e).previousLen =
    line.take k := List.drop_left
  have hsha : env.sha256 (fileOf env events) = (journalOf env events e).previousSha256 := rfl
  have hexpected : utf8 (journalOf env events e).record ++ [newline] = line := rfl
  have hwritten : readEventsFromFile env (fileOf env (events ++ [e])) = .ok (events ++ [e]) :=
    readEventsFromFile_eq_ok.mpr ⟨rfl, h.after.fits⟩
  refine ⟨(List.range (line.drop (line.take k).length).length).map fun j =>
    partlyWritten env events e ((line.take k).length + (j + 1)) sidecars, ?_, ?_⟩
  · intro t ht
    obtain ⟨j, -, rfl⟩ := List.mem_map.mp ht
    exact ⟨_, rfl⟩
  rw [recoverPendingAppend, see_bind, id, hread, attempt_ok_bind, see_bind, partlyWritten,
    Disk.bytes_mk]
  dsimp only
  rw [ensure_bind hlen, htake, ensure_bind hsha, readCompleteEventsAndTail_fileOf h.before.fits,
    attempt_ok_bind]
  dsimp only
  rw [ensure_bind rfl, h.before.verified, attempt_ok_bind, ensure_bind rfl, hparse,
    attempt_ok_bind, h.after.verified, attempt_ok_bind, ensure_bind rfl, hdrop, hexpected,
    ensure_bind (by simp), ensure_bind (List.take_prefix _ _),
    bind_of_ok (appendBytes_apply _ _ _)]
  have hfull : fileOf env events ++ line.take k ++ line.drop (line.take k).length =
      fileOf env (events ++ [e]) := by
    have hrest := List.take_append_drop (line.take k).length line
    rw [take_written] at hrest
    rw [List.append_assoc, hrest, fileOf_append]
  have hparts : ∀ j, fileOf env events ++ line.take k ++
      (line.drop (line.take k).length).take (j + 1) =
      fileOf env events ++ line.take ((line.take k).length + (j + 1)) := by
    intro j
    have hsum : line.take ((line.take k).length + (j + 1)) = _ := List.take_add
    rw [hsum, take_written, List.append_assoc]
  rw [hfull, see_bind, Disk.bytes_mk, hwritten, attempt_ok_bind, h.after.verified,
    attempt_ok_bind, ensure_bind rfl]
  rw [← hline]
  simp only [hparts]
  rfl

/-- The disks from which recovery gives these events are recovered, and stay such disks if the
recovery is interrupted. -/
theorem Restores.recover {events : List ExecutionEvent} {d : Disk} (h : Restores env events d) :
    ∃ l, (∀ t ∈ l, Restores env events t) ∧
      (do openLedgerForAppend; recoverPendingAppend env : Prog Disk LedgerError Unit).run d =
        ⟨l, settledDisk env events, .ok ()⟩ := by
  cases h with
  | absent =>
    refine ⟨[settledDisk env []], ?_, ?_⟩
    · intro t ht
      rw [List.mem_singleton.mp ht]
      exact .settled valid_nil
    · rw [bind_of_ok openLedger_empty, recover_settled]
      rfl
  | settled h =>
    refine ⟨[], nofun, ?_⟩
    rw [settledDisk, bind_of_ok (openLedger_of_some _ _)]
    exact recover_settled events
  | temporary h bytes =>
    refine ⟨[settledDisk env events], ?_, ?_⟩
    · intro t ht
      rw [List.mem_singleton.mp ht]
      exact .settled h
    · rw [bind_of_ok (openLedger_of_some _ _), Ran.after_nil, recover_temporary]
  | @journal before e h k =>
    have hread : readAppendJournal env
        (partlyWritten env before e k (.journal (journalBytes env before e))) =
        .ok (some (journalOf env before e)) := by
      simp only [readAppendJournal, partlyWritten, parse_journalBytes h, Except.map]
    obtain ⟨l, hl, hrun⟩ := recover_prepared h k hread
    refine ⟨l ++ [settledDisk env (before ++ [e])], ?_, ?_⟩
    · intro t ht
      rcases List.mem_append.mp ht with ht | ht
      · obtain ⟨j, rfl⟩ := hl t ht
        exact .journal h j
      · rw [List.mem_singleton.mp ht]
        exact .settled h.after
    · rw [partlyWritten, bind_of_ok (openLedger_of_some _ _), Ran.after_nil, ← partlyWritten, hrun]
      rfl
  | @linked before e h k =>
    have hread : readAppendJournal env
        (partlyWritten env before e k (.linked (journalBytes env before e))) =
        .ok (some (journalOf env before e)) := by
      simp only [readAppendJournal, partlyWritten, parse_journalBytes h, Except.map]
    obtain ⟨l, hl, hrun⟩ := recover_prepared h k hread
    refine ⟨l ++ [⟨some (fileOf env (before ++ [e])), .temporary (journalBytes env before e)⟩,
      settledDisk env (before ++ [e])], ?_, ?_⟩
    · intro t ht
      rcases List.mem_append.mp ht with ht | ht
      · obtain ⟨j, rfl⟩ := hl t ht
        exact .linked h j
      · rcases List.mem_pair.mp ht with rfl | rfl
        · exact .temporary h.after _
        · exact .settled h.after
    · rw [partlyWritten, bind_of_ok (openLedger_of_some _ _), Ran.after_nil, ← partlyWritten, hrun]
      rfl

/-! ## Append -/

@[simp] theorem setEntryHash_setEntryHash (e : ExecutionEvent) (v w : String) :
    (e.setEntryHash v).setEntryHash w = e.setEntryHash w := by
  obtain ⟨taskId, traceId, body, timestamp, sequenceNumber, prevHash⟩ := e
  cases body <;> rfl

@[simp] theorem prevHash_setEntryHash (e : ExecutionEvent) (v : String) :
    (e.setEntryHash v).prevHash = e.prevHash := by
  obtain ⟨taskId, traceId, body, timestamp, sequenceNumber, prevHash⟩ := e
  cases body <;> rfl

theorem hashEvent_setEntryHash (e : ExecutionEvent) (v : String) :
    env.hashEvent (e.setEntryHash v) = env.hashEvent e := by
  simp [Env.hashEvent, ExecutionEvent.hashableJson]

/-- The event as the store keeps it. -/
def stored (e : ExecutionEvent) (sequenceNumber : UInt64) (prevHash entryHash : String) :
    ExecutionEvent :=
  (e.setChainFields sequenceNumber prevHash).setEntryHash entryHash

theorem prepareAppend_eq_some {events : List ExecutionEvent} {e : ExecutionEvent}
    {r : LedgerRecord} (h : prepareAppend env events e = .ok (some r)) :
    r = recordOf env r.event ∧ verifyEvents env (events ++ [r.event]) = .ok true ∧
      (events.find? fun existing => existing.idempotencyKey = e.idempotencyKey) = none ∧
      ∃ n p v, r.event = stored e n p v := by
  unfold prepareAppend at h
  cases hfind : events.find? fun existing => existing.idempotencyKey = e.idempotencyKey with
  | some existing =>
    simp only [hfind] at h
    split_ifs at h
    cases h
  | none =>
    simp only [hfind] at h
    split at h
    · next sequenceNumber _ =>
      obtain ⟨verified, hverified, h⟩ := except_bind_eq_ok.mp h
      cases verified with
      | false => cases h
      | true =>
        simp only [pure, Except.pure, if_true, Except.ok.injEq, Option.some.injEq] at h
        subst h
        refine ⟨?_, hverified, rfl, _, _, _, rfl⟩
        unfold recordOf
        rw [hashEvent_setEntryHash]
    · cases h

variable (env) in
/-- An append as the ledger sees it: what it returns and the events it leaves. -/
def appendEvents (events : List ExecutionEvent) (event : ExecutionEvent) :
    Except LedgerError Bool × List ExecutionEvent :=
  match prepareAppend env events event with
  | .error error => (.error error, events)
  | .ok none => (.ok false, events)
  | .ok (some record) =>
    if maxLedgerRecordBytes < (utf8 record.json).length then
      (.error (.invalidRecord "execution ledger record exceeds byte limit"), events)
    else if maxAppendJournalBytes < (journalBytes env events record.event).length then
      (.error (.invalidRecord "append journal exceeds byte limit"), events)
    else (.ok true, events ++ [record.event])

theorem Fits.append {events : List ExecutionEvent} (h : Fits env events) {e : ExecutionEvent}
    (hshort : (lineOf env e).length ≤ maxLedgerRecordBytes) : Fits env (events ++ [e]) := by
  intro x hx
  rcases List.mem_append.mp hx with hx | hx
  · exact h x hx
  · rwa [List.mem_singleton.mp hx]

/-- An append to a verified ledger leaves a verified ledger. -/
theorem Valid.appendEvents {events : List ExecutionEvent} (h : Valid env events)
    (e : ExecutionEvent) : Valid env (appendEvents env events e).2 := by
  unfold Execution.appendEvents
  cases hprepare : prepareAppend env events e with
  | error error => exact h
  | ok prepared =>
    cases prepared with
    | none => exact h
    | some record =>
      obtain ⟨hrecord, hverified, -, -⟩ := prepareAppend_eq_some hprepare
      dsimp only
      split_ifs with hlong hjournal
      · exact h
      · exact h
      · refine ⟨hverified, h.fits.append ?_⟩
        rw [lineOf, ← hrecord]
        exact Nat.not_lt.mp hlong

theorem appendIfNew_run (e : ExecutionEvent) (d : Disk) :
    (appendIfNew env e).run d =
      ((do openLedgerForAppend; recoverPendingAppend env : Prog Disk LedgerError Unit) >>= fun _ =>
        appendRecovered env e).run d := by
  unfold appendIfNew
  exact bind_assoc_run openLedgerForAppend (fun _ => recoverPendingAppend env)
    (fun _ => appendRecovered env e) d

theorem writeTemporary_run (bytes ledger : Bytes) :
    (writeTemporary bytes).run ⟨some ledger, .temporary []⟩ =
      ⟨(List.range bytes.length).map fun k => ⟨some ledger, .temporary (bytes.take (k + 1))⟩,
        ⟨some ledger, .temporary bytes⟩, .ok ()⟩ := by
  cases bytes with
  | nil => rfl
  | cons b bytes => simp [writeTemporary, changeInParts]

/-- The journal is published in steps, and only its link makes the append one to complete. -/
theorem writeAppendJournal_run {events : List ExecutionEvent} {e : ExecutionEvent}
    (h : Prepared env events e) :
    ∃ l, (∀ t ∈ l, Restores env events t ∨ Restores env (events ++ [e]) t) ∧
      (writeAppendJournal env (fileOf env events).length (env.sha256 (fileOf env events))
        (recordOf env e).json).run (settledDisk env events) =
        ⟨l, partlyWritten env events e 0 (.journal (journalBytes env events e)), .ok ()⟩ := by
  set bytes := journalBytes env events e with hbytes
  have hunwritten : ∀ sidecars, partlyWritten env events e 0 sidecars =
      ⟨some (fileOf env events), sidecars⟩ := by
    intro sidecars
    simp [partlyWritten]
  have hlen : (utf8 (recordOf env e).json).length ≤ maxLedgerRecordBytes := h.fits
  have hjson : utf8 (AppendJournal.json ⟨appendJournalSchema, (fileOf env events).length,
    env.sha256 (fileOf env events), (recordOf env e).json,
    env.sha256 (utf8 (recordOf env e).json)⟩) = bytes := rfl
  refine ⟨⟨some (fileOf env events), .temporary []⟩ ::
    ((List.range bytes.length).map fun k =>
      ⟨some (fileOf env events), .temporary (bytes.take (k + 1))⟩) ++
    [partlyWritten env events e 0 (.linked bytes), partlyWritten env events e 0 (.journal bytes)],
    ?_, ?_⟩
  · intro t ht
    simp only [List.cons_append, List.mem_cons, List.mem_append, List.mem_map, List.mem_range,
      List.not_mem_nil, or_false] at ht
    rcases ht with rfl | ⟨k, -, rfl⟩ | rfl | rfl
    · exact .inl (.temporary h.before _)
    · exact .inl (.temporary h.before _)
    · exact .inr (.linked h 0)
    · exact .inr (.journal h 0)
  · have hremove : removeTemporary.run (settledDisk env events) =
        ⟨[], settledDisk env events, .ok false⟩ := rfl
    have hcreate : createTemporary.run (settledDisk env events) =
        ⟨[⟨some (fileOf env events), .temporary []⟩],
          ⟨some (fileOf env events), .temporary []⟩, .ok ()⟩ := rfl
    have hlink : (do linkJournal; unlinkTemporary : Prog Disk LedgerError Unit).run
        ⟨some (fileOf env events), .temporary bytes⟩ =
        ⟨[⟨some (fileOf env events), .linked bytes⟩, ⟨some (fileOf env events), .journal bytes⟩],
          ⟨some (fileOf env events), .journal bytes⟩, .ok ()⟩ := rfl
    rw [writeAppendJournal, ensure_bind hlen]
    dsimp only
    rw [hjson, ensure_bind h.short, bind_of_ok hremove, bind_of_ok hcreate,
      bind_of_ok (writeTemporary_run _ _), hunwritten, hunwritten, see_bind]
    dsimp only
    rw [hlink]
    simp

theorem appendRecovered_settled {events : List ExecutionEvent} (h : Valid env events)
    (e : ExecutionEvent) :
    (appendRecovered env e).run (settledDisk env events) =
      (attempt (prepareAppend env events e) >>= fun prepared =>
        match prepared with
        | none => pure false
        | some record => do
          writeAppendJournal env (fileOf env events).length (env.sha256 (fileOf env events))
            record.json
          appendBytes (utf8 record.json ++ [newline])
          clearAppendJournal
          return true : Prog Disk LedgerError Bool).run (settledDisk env events) := by
  have hread : readEventsFromFile env (fileOf env events) = .ok events :=
    readEventsFromFile_eq_ok.mpr ⟨rfl, h.fits⟩
  rw [appendRecovered, see_bind, settledDisk, Disk.bytes_mk, hread, attempt_ok_bind, h.verified,
    attempt_ok_bind]
  exact ensure_bind rfl

/-- A record that is not too long is appended through the states of an interrupted append. -/
theorem append_prepared {events : List ExecutionEvent} {e : ExecutionEvent}
    (h : Prepared env events e) :
    ∃ l, (∀ t ∈ l, Restores env events t ∨ Restores env (events ++ [e]) t) ∧
      (do
        writeAppendJournal env (fileOf env events).length (env.sha256 (fileOf env events))
          (recordOf env e).json
        appendBytes (utf8 (recordOf env e).json ++ [newline])
        clearAppendJournal
        return true : Prog Disk LedgerError Bool).run (settledDisk env events) =
        ⟨l, settledDisk env (events ++ [e]), .ok true⟩ := by
  obtain ⟨l, hl, hjournal⟩ := writeAppendJournal_run h
  have hline : utf8 (recordOf env e).json ++ [newline] = lineOf env e ++ [newline] := rfl
  have hclear : (do clearAppendJournal; return true : Prog Disk LedgerError Bool).run
      ⟨some (fileOf env (events ++ [e])), .journal (journalBytes env events e)⟩ =
      ⟨[settledDisk env (events ++ [e])], settledDisk env (events ++ [e]), .ok true⟩ := rfl
  refine ⟨l ++ ((List.range (lineOf env e ++ [newline]).length).map fun k =>
    partlyWritten env events e (k + 1) (.journal (journalBytes env events e))) ++
    [settledDisk env (events ++ [e])], ?_, ?_⟩
  · intro t ht
    simp only [List.mem_append, List.mem_map, List.mem_range, List.mem_singleton] at ht
    rcases ht with (ht | ⟨k, -, rfl⟩) | rfl
    · exact hl t ht
    · exact .inr (.journal h (k + 1))
    · exact .inr (.settled h.after)
  · rw [bind_of_ok hjournal, partlyWritten, List.take_zero, List.append_nil, hline,
      bind_of_ok (appendBytes_apply _ _ _), ← fileOf_append, hclear]
    simp [partlyWritten]

/-- An append to a recovered ledger: what it returns, and the ledger it leaves or is on its way
to. -/
theorem append_settled {events : List ExecutionEvent} (h : Valid env events)
    (e : ExecutionEvent) :
    ∃ l, (∀ t ∈ l, Restores env events t ∨ Restores env (appendEvents env events e).2 t) ∧
      (appendRecovered env e).run (settledDisk env events) =
        ⟨l, settledDisk env (appendEvents env events e).2, (appendEvents env events e).1⟩ := by
  rw [appendRecovered_settled h]
  cases hprepare : prepareAppend env events e with
  | error error =>
    refine ⟨[], nofun, ?_⟩
    rw [attempt_error_bind, appendEvents, hprepare]
  | ok prepared =>
    rw [attempt_ok_bind]
    cases prepared with
    | none =>
      refine ⟨[], nofun, ?_⟩
      rw [appendEvents, hprepare]
      rfl
    | some record =>
      obtain ⟨hrecord, hverified, -, -⟩ := prepareAppend_eq_some hprepare
      rw [appendEvents, hprepare]
      dsimp only
      by_cases hlong : maxLedgerRecordBytes < (utf8 record.json).length
      · refine ⟨[], nofun, ?_⟩
        rw [if_pos hlong, writeAppendJournal, bind_of_error (ensure_bind_error (by omega))]
      · have hfits : Fits env (events ++ [record.event]) := by
          apply h.fits.append
          rw [lineOf, ← hrecord]
          omega
        by_cases hjournal : maxAppendJournalBytes < (journalBytes env events record.event).length
        · refine ⟨[], nofun, ?_⟩
          have hshort : ¬ (journalBytes env events record.event).length ≤
            maxAppendJournalBytes := by omega
          have herror : (writeAppendJournal env (fileOf env events).length
              (env.sha256 (fileOf env events)) record.json).run (settledDisk env events) =
              ⟨[], settledDisk env events, .error
                (.invalidRecord "append journal exceeds byte limit")⟩ := by
            rw [hrecord] at hlong ⊢
            rw [writeAppendJournal, ensure_bind (by omega)]
            exact ensure_bind_error hshort
          rw [if_neg hlong, if_pos hjournal, bind_of_error herror]
        · have hprepared : Prepared env events record.event :=
            ⟨h, ⟨hverified, hfits⟩, by omega⟩
          obtain ⟨l, hl, hrun⟩ := append_prepared hprepared
          rw [← hrecord] at hrun
          rw [if_neg hlong, if_neg hjournal]
          exact ⟨l, hl, hrun⟩

/-- One append on a disk that recovery makes the ledger of these events: it returns and leaves
what an append to this ledger does, and where it may stop, recovery gives the ledger before or
after it. -/
theorem Restores.append {events : List ExecutionEvent} {d : Disk} (h : Restores env events d)
    (e : ExecutionEvent) :
    ∃ l, (∀ t ∈ l, Restores env events t ∨ Restores env (appendEvents env events e).2 t) ∧
      (appendIfNew env e).run d =
        ⟨l, settledDisk env (appendEvents env events e).2, (appendEvents env events e).1⟩ := by
  obtain ⟨l, hl, hrecover⟩ := h.recover
  obtain ⟨l', hl', hrun⟩ := append_settled h.valid e
  refine ⟨l ++ l', ?_, ?_⟩
  · intro t ht
    rcases List.mem_append.mp ht with ht | ht
    · exact .inl (hl t ht)
    · exact hl' t ht
  · rw [appendIfNew_run, bind_of_ok hrecover, hrun, Ran.after_mk]

theorem idempotencyKey_stored (e : ExecutionEvent) (n : UInt64) (p v : String) :
    (stored e n p v).idempotencyKey = e.idempotencyKey := by
  obtain ⟨taskId, traceId, body, timestamp, sequenceNumber, prevHash⟩ := e
  cases body <;> rfl

theorem payload_stored (e : ExecutionEvent) (n : UInt64) (p v : String) :
    (stored e n p v).payload = e.payload := by
  obtain ⟨taskId, traceId, body, timestamp, sequenceNumber, prevHash⟩ := e
  cases body <;> rfl

variable (env) in
theorem appendEvents_cases (events : List ExecutionEvent) (e : ExecutionEvent) :
    (appendEvents env events e).2 = events ∨
      ∃ r, prepareAppend env events e = .ok (some r) ∧
        appendEvents env events e = (.ok true, events ++ [r.event]) := by
  unfold appendEvents
  cases hprepare : prepareAppend env events e with
  | error error => exact .inl rfl
  | ok prepared =>
    cases prepared with
    | none => exact .inl rfl
    | some r =>
      dsimp only
      split_ifs
      · exact .inl rfl
      · exact .inl rfl
      · exact .inr ⟨r, rfl, rfl⟩

/-- What an append stores is not stored again by the same append. -/
theorem appendEvents_twice (events : List ExecutionEvent) (e : ExecutionEvent) :
    (appendEvents env (appendEvents env events e).2 e).2 = (appendEvents env events e).2 := by
  rcases appendEvents_cases env events e with hsame | ⟨r, hprepare, happend⟩
  · rw [hsame, hsame]
  · obtain ⟨-, -, hfresh, n, p, v, hevent⟩ := prepareAppend_eq_some hprepare
    have hkey : r.event.idempotencyKey = e.idempotencyKey := by
      rw [hevent, idempotencyKey_stored]
    have hpayload : r.event.payloadJson = e.payloadJson := by
      rw [payloadJson_inj, hevent, payload_stored]
    have hagain : prepareAppend env (events ++ [r.event]) e = .ok none := by
      unfold prepareAppend
      rw [List.find?_append, hfresh]
      simp [hkey, hpayload]
    rw [happend, appendEvents, hagain]

/-! ## Interruptions -/

variable (env)

/-- The disks that appends leave when any number of them, one after the other, is interrupted. -/
inductive Interrupted (d : Disk) : Disk → Prop
  | start : Interrupted d d
  | again {u t : Disk} (e : ExecutionEvent) (hu : Interrupted d u)
      (ht : (appendIfNew env e).Stops u t) : Interrupted d t

/-- The first thing an append does on this disk is to make it the ledger of exactly these
events. -/
def RecoversTo (d : Disk) (events : List ExecutionEvent) : Prop :=
  ∃ passed, (do openLedgerForAppend; recoverPendingAppend env : Prog Disk LedgerError Unit).run d =
    ⟨passed, settledDisk env events, .ok ()⟩

/-- The append returns and leaves the same on both disks. -/
def SameAppend (e : ExecutionEvent) (d d' : Disk) : Prop :=
  ((appendIfNew env e).run d).result = ((appendIfNew env e).run d').result ∧
    ((appendIfNew env e).run d).final = ((appendIfNew env e).run d').final

variable {env}

theorem Restores.recoversTo {events : List ExecutionEvent} {d : Disk}
    (h : Restores env events d) : RecoversTo env d events := by
  obtain ⟨l, -, hrun⟩ := h.recover
  exact ⟨l, hrun⟩

theorem Restores.sameAppend {events : List ExecutionEvent} {d : Disk} (h : Restores env events d)
    (e : ExecutionEvent) : SameAppend env e d (settledDisk env events) := by
  obtain ⟨l, -, hrun⟩ := h.append e
  obtain ⟨l', -, hrun'⟩ := (Restores.settled h.valid).append e
  exact ⟨by rw [hrun, hrun'], by rw [hrun, hrun']⟩

theorem Restores.stops {events : List ExecutionEvent} {d t : Disk} (h : Restores env events d)
    {e : ExecutionEvent} (ht : (appendIfNew env e).Stops d t) :
    Restores env events t ∨ Restores env (appendEvents env events e).2 t := by
  obtain ⟨l, hl, hrun⟩ := h.append e
  rcases ht with rfl | ht
  · exact .inl h
  · rw [hrun] at ht
    exact hl t ht

theorem Interrupted.restores {d u : Disk} (hd : ∃ events, Restores env events d)
    (h : Interrupted env d u) : ∃ events, Restores env events u := by
  induction h with
  | start => exact hd
  | again e hu ht ih =>
    obtain ⟨events, hevents⟩ := ih
    rcases hevents.stops ht with h | h
    · exact ⟨_, h⟩
    · exact ⟨_, h⟩

/-- Wherever an append is interrupted, also on a disk that interruptions left, the next append
first makes the disk the ledger as it was or the ledger with the prepared record, and then does
what it does on that ledger. Repeating the interrupted append leaves what it leaves without an
interruption. -/
theorem append_interrupted (env : Env) {d : Disk} {events : List ExecutionEvent}
    (hclean : d.sidecars = .none) (hread : readEventsFromFile env d.bytes = .ok events)
    (hverified : verifyEvents env events = .ok true) :
    ∀ u, Interrupted env d u → ∃ old, RecoversTo env u old ∧
      ∀ e t, (appendIfNew env e).Stops u t → ∃ left, RecoversTo env t left ∧
        (left = old ∨ ∃ r, prepareAppend env old e = .ok (some r) ∧ left = old ++ [r.event]) ∧
        (∀ e', SameAppend env e' t (settledDisk env left)) ∧
        ((appendIfNew env e).run t).final = ((appendIfNew env e).run u).final := by
  have hd : ∃ events, Restores env events d := by
    obtain ⟨hbytes, hfits⟩ := readEventsFromFile_eq_ok.mp hread
    obtain ⟨ledger, sidecars⟩ := d
    subst hclean
    cases ledger with
    | none => exact ⟨[], .absent⟩
    | some bytes =>
      rw [Disk.bytes_mk] at hbytes
      subst hbytes
      exact ⟨events, .settled ⟨hverified, hfits⟩⟩
  intro u hu
  obtain ⟨old, hold⟩ := hu.restores hd
  refine ⟨old, hold.recoversTo, fun e t ht => ?_⟩
  obtain ⟨l, -, hrun⟩ := hold.append e
  rcases hold.stops ht with h | h
  · refine ⟨old, h.recoversTo, .inl rfl, h.sameAppend, ?_⟩
    obtain ⟨l', -, hrun'⟩ := h.append e
    rw [hrun, hrun']
  · refine ⟨_, h.recoversTo, ?_, h.sameAppend, ?_⟩
    · rcases appendEvents_cases env old e with hsame | ⟨r, hprepare, happend⟩
      · exact .inl hsame
      · exact .inr ⟨r, hprepare, by rw [happend]⟩
    · obtain ⟨l', -, hrun'⟩ := h.append e
      rw [hrun, hrun', appendEvents_twice]

/-- Reading JSON as the inverse of writing it. -/
noncomputable def inverseEnv : Env where
  sha256Hex _ := "00"
  readRecord text := Function.partialInv LedgerRecord.json text
  readJournal text := Function.partialInv AppendJournal.json text
  readRecord_json r := Function.partialInv_left (fun _ _ => LedgerRecord.json_inj) r
  readJournal_json j := Function.partialInv_left (fun _ _ => AppendJournal.json_inj) j

def firstTask : ExecutionEvent :=
  ⟨"task-1", "trace-1", .taskStarted "envelope:1", "2026-08-09T12:00:00Z", 0, ""⟩

/-- The first append of all, interrupted when it has only created the ledger file. -/
theorem append_interrupted_created :
    (appendIfNew inverseEnv firstTask).Stops Disk.empty (settledDisk inverseEnv []) ∧
      ∃ old left, RecoversTo inverseEnv Disk.empty old ∧
        RecoversTo inverseEnv (settledDisk inverseEnv []) left ∧
        (left = old ∨ ∃ r, prepareAppend inverseEnv old firstTask = .ok (some r) ∧
          left = old ++ [r.event]) ∧
        ((appendIfNew inverseEnv firstTask).run (settledDisk inverseEnv [])).final =
          ((appendIfNew inverseEnv firstTask).run Disk.empty).final := by
  have hstops : (appendIfNew inverseEnv firstTask).Stops Disk.empty
      (settledDisk inverseEnv []) := by
    refine .inr ?_
    rw [appendIfNew, bind_of_ok openLedger_empty]
    exact List.mem_append_left _ (List.mem_singleton.mpr rfl)
  obtain ⟨old, hold, hnext⟩ := append_interrupted inverseEnv rfl
    (readEventsFromFile_eq_ok.mpr ⟨rfl, valid_nil.fits⟩) rfl Disk.empty .start
  obtain ⟨left, hleft, hcases, -, hretry⟩ := hnext firstTask _ hstops
  exact ⟨hstops, old, left, hold, hleft, hcases, hretry⟩

end LeanCtx.Execution
