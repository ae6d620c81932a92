import LeanCtx.RecordFile
import LeanCtx.SavingsChain

/-!
# Validity of the savings chain

A ledger that was only ever appended to, updated and chained again holds the
lines of one chain of events from the first on, as long as every append finds
the last line of the file in the window it reads and redaction leaves its own
line alone. Verification then accepts the file and loading it gives back what
was recorded.
-/

namespace LeanCtx.Savings

open ByteText TextFile

variable {F R : Type} (env : Env F R)

/-! ## What the file should hold -/

/-- The event without its chain hashes. -/
def LedgerEvent.record (e : LedgerEvent F R) : LedgerEvent F R :=
  { e with prevHash := "", entryHash := "" }

/-- The update of the event that carries the hash in the file. -/
def updateRecords (file entryHash : String) (update : LedgerEvent F R → LedgerEvent F R)
    (records : List (LedgerEvent F R)) : List (LedgerEvent F R) :=
  match (load env file).findIdx? fun e => e.entryHash = entryHash with
  | none => records
  | some index => records.modify index update

/-- What a call does to the events, apart from the hashes: an append adds its event at the end,
an update sets the one field of the event it names, and nothing else changes. -/
def recordsAfter (records : List (LedgerEvent F R)) (file : String) :
    Call F R → List (LedgerEvent F R)
  | .append e => records ++ [e.withDefaults.record]
  | .approveEvent entryHash approval =>
    updateRecords env file entryHash (.setApproval approval) records
  | .settleEvent entryHash status =>
    updateRecords env file entryHash (.setSettlement status) records
  | .rechain => records

/-- The events recorded by a run on a new ledger, in the order of the appends. -/
def recorded (calls : List (Call F R)) : List (LedgerEvent F R) :=
  Trace.observe (step env) (recordsAfter env) [] "" calls

def Call.isAppend : Call F R → Bool
  | .append _ => true
  | _ => false

/-- The ledger after the calls verifies, holds their events and has one first event. -/
structure ValidLedger (calls : List (Call F R)) (file : String) : Prop where
  verified : verify env file = ⟨calls.countP Call.isAppend, true, none⟩
  loaded : (load env file).map LedgerEvent.record = recorded env calls
  oneChain : ∀ e ∈ (load env file).tail, e.prevHash ≠ genesis

/-! ## Condition on an append -/

/-- The hash that the last event of the file carries. -/
def lastHash (file : String) : String :=
  match (load env file).getLast? with
  | some e => e.entryHash
  | none => genesis

/-- The last line of the file and its newline fit into the window. -/
def TailFits (file : String) : Prop :=
  ∀ l ∈ (lines file).getLast?, (utf8 l).length + 1 ≤ tailReadBytes

/-- The line of an event hashed onto the last one of the file. -/
def nextLine (file : String) (e : LedgerEvent F R) : String :=
  env.print (e.withDefaults.chain env (lastHash env file))

def Meets (file : String) : Call F R → Prop
  | .append e => TailFits file ∧ env.redact (nextLine env file e) = nextLine env file e
  | _ => True

/-! ## Chains of events -/

def Linked (prev : String) : List (LedgerEvent F R) → Prop
  | [] => True
  | e :: rest => e.prevHash = prev ∧
      e.entryHash = computeHash env.sha256 prev (e.canonicalContent env.money) ∧
      Linked e.entryHash rest

/-- The hash at the end of a chain. -/
def endHash (prev : String) : List (LedgerEvent F R) → String
  | [] => prev
  | e :: rest => endHash e.entryHash rest

theorem endHash_concat (prev : String) (events : List (LedgerEvent F R)) (e : LedgerEvent F R) :
    endHash prev (events ++ [e]) = e.entryHash := by
  induction events generalizing prev with
  | nil => rfl
  | cons e' rest ih => exact ih e'.entryHash

theorem linked_append {prev : String} {events : List (LedgerEvent F R)} {e : LedgerEvent F R}
    (h : Linked env prev events) :
    Linked env prev (events ++ [e.chain env (endHash prev events)]) := by
  induction events generalizing prev with
  | nil => exact ⟨rfl, rfl, trivial⟩
  | cons e' rest ih =>
    obtain ⟨hprev, hentry, hrest⟩ := h
    exact ⟨hprev, hentry, ih hrest⟩

/-- Only the first event of a chain follows no other. -/
theorem prevHash_ne_genesis {prev : String} {events : List (LedgerEvent F R)}
    (h : Linked env prev events) : ∀ e ∈ events.tail, e.prevHash ≠ genesis := by
  induction events generalizing prev with
  | nil => exact fun _ he => absurd he List.not_mem_nil
  | cons e rest ih =>
    obtain ⟨-, hentry, hrest⟩ := h
    rw [List.tail_cons]
    intro x hx
    cases rest with
    | nil => exact absurd hx List.not_mem_nil
    | cons e' rest =>
      rcases List.mem_cons.mp hx with rfl | hx
      · rw [hrest.1, hentry]
        exact env.sha256_ne_genesis _
      · exact ih hrest x hx

/-! ## Reading what was written -/

theorem lines_write (events : List (LedgerEvent F R)) :
    lines (write env events) = events.map env.print := by
  apply lines_joinLines
  intro l hl
  obtain ⟨e, -, rfl⟩ := List.mem_map.mp hl
  exact env.print_oneLine e

theorem write_concat (events : List (LedgerEvent F R)) (e : LedgerEvent F R) :
    write env (events ++ [e]) = write env events ++ (env.print e ++ "\n") := by
  rw [write, write, List.map_append, List.map_singleton, joinLines_append, joinLines_singleton]

theorem load_write (events : List (LedgerEvent F R)) : load env (write env events) = events := by
  rw [load, lines_write, List.filterMap_map]
  have hread : env.read ∘ env.print = some := funext env.read_print
  rw [hread, List.filterMap_some]

theorem mapM_read (events : List (LedgerEvent F R)) :
    (events.map env.print).mapM env.read = some events := by
  induction events with
  | nil => rfl
  | cons e rest ih => rw [List.map_cons, List.mapM_cons, env.read_print, ih]; rfl

theorem verifyLines_map_print {prev : String} {total : ℕ} {events : List (LedgerEvent F R)}
    (h : Linked env prev events) :
    verifyLines env prev total (events.map env.print) = ⟨total + events.length, true, none⟩ := by
  induction events generalizing prev total with
  | nil => rfl
  | cons e rest ih =>
    obtain ⟨hprev, hentry, hrest⟩ := h
    have hmatch : e.hashMatches env.money env.sha256 prev = true := hashMatches_of_current hentry
    rw [List.map_cons, verifyLines, env.read_print]
    dsimp only
    rw [if_neg (not_not_intro hprev), if_neg (by simp [hmatch]), ih hrest, List.length_cons,
      Nat.add_right_comm, Nat.add_assoc]

/-- Chaining events that are only written down links them and keeps all else. -/
theorem rechainLines_map_print (prev : String) (events : List (LedgerEvent F R)) :
    Linked env prev (rechainLines env prev (events.map env.print)) ∧
      (rechainLines env prev (events.map env.print)).map LedgerEvent.record =
        events.map LedgerEvent.record := by
  induction events generalizing prev with
  | nil => exact ⟨trivial, rfl⟩
  | cons e rest ih =>
    rw [List.map_cons, rechainLines, env.read_print]
    obtain ⟨hlinked, hrecords⟩ := ih (e.chain env prev).entryHash
    refine ⟨⟨rfl, rfl, hlinked⟩, ?_⟩
    rw [List.map_cons, List.map_cons, hrecords]
    rfl

theorem readLastHashFromTail_write {events : List (LedgerEvent F R)}
    (h : TailFits (write env events)) :
    readLastHashFromTail env (write env events) = endHash genesis events := by
  rcases List.eq_nil_or_concat events with rfl | ⟨front, e, rfl⟩
  · rfl
  · rw [List.concat_eq_append] at h ⊢
    have hfits : (utf8 (env.print e)).length + 1 ≤ tailReadBytes := by
      apply h
      rw [lines_write, List.map_append, List.map_singleton, List.getLast?_concat]
      rfl
    have hfile : write env (front ++ [e]) = joinLines (front.map env.print ++ [env.print e]) := by
      rw [write, List.map_append, List.map_singleton]
    have hne : (utf8 (write env (front ++ [e]))).length ≠ 0 := by
      rw [hfile, joinLines_append, joinLines_singleton, utf8_append, utf8_append _ "\n",
        List.length_append, List.length_append]
      have hone : (utf8 "\n").length = 1 := by decide
      omega
    obtain ⟨before, hbefore⟩ := lines_lastBytes_lossy (env.print_oneLine e) hfits
      (front.map env.print)
    unfold readLastHashFromTail
    dsimp only
    rw [if_neg hne, hfile, hbefore, List.reverse_append, List.reverse_singleton,
      List.singleton_append, List.findSome?_cons_of_isSome (by simp [env.read_print])]
    simp [env.read_print, endHash_concat]

theorem lastHash_write (events : List (LedgerEvent F R)) :
    lastHash env (write env events) = endHash genesis events := by
  rw [lastHash, load_write]
  rcases List.eq_nil_or_concat events with rfl | ⟨front, e, rfl⟩
  · rfl
  · rw [List.concat_eq_append, List.getLast?_concat, endHash_concat]

/-! ## The invariant -/

/-- The file holds one chain of the recorded events. -/
def Holds (records : List (LedgerEvent F R)) (file : String) : Prop :=
  ∃ events, file = write env events ∧ Linked env genesis events ∧
    events.map LedgerEvent.record = records

theorem holds_append {records : List (LedgerEvent F R)} {file : String} {e : LedgerEvent F R}
    (h : Holds env records file) (hfits : TailFits file)
    (hredact : env.redact (nextLine env file e) = nextLine env file e) :
    Holds env (records ++ [e.withDefaults.record]) (append env file e).2 := by
  obtain ⟨events, rfl, hlinked, rfl⟩ := h
  have hlast := lastHash_write env events
  have htail := readLastHashFromTail_write env hfits
  rw [nextLine, hlast] at hredact
  refine ⟨events ++ [e.withDefaults.chain env (endHash genesis events)], ?_,
    linked_append env hlinked, ?_⟩
  · unfold append
    dsimp only
    rw [htail, hredact, write_concat]
  · rw [List.map_append, List.map_singleton]
    rfl

theorem holds_rechain {records : List (LedgerEvent F R)} (events : List (LedgerEvent F R))
    (hrecords : events.map LedgerEvent.record = records) :
    Holds env records (rechain env (write env events)).2 := by
  unfold rechain
  dsimp only
  rw [lines_write]
  obtain ⟨hlinked, hkept⟩ := rechainLines_map_print env genesis events
  exact ⟨_, rfl, hlinked, hkept.trans hrecords⟩

theorem map_modify {f g : LedgerEvent F R → LedgerEvent F R}
    (update : LedgerEvent F R → LedgerEvent F R) (hcomm : ∀ e, f (update e) = g (f e)) (i : ℕ)
    (l : List (LedgerEvent F R)) :
    (l.modify i update).map f = (l.map f).modify i g := by
  induction l generalizing i with
  | nil => simp
  | cons e rest ih =>
    cases i with
    | zero => simp [hcomm]
    | succ i => simp [ih]

/-- Updates that say nothing of the hashes. -/
theorem holds_updateEvent {records : List (LedgerEvent F R)} {file entryHash : String}
    {update : LedgerEvent F R → LedgerEvent F R} (h : Holds env records file)
    (hupdate : ∀ e : LedgerEvent F R, (update e).record = update e.record) :
    Holds env (updateRecords env file entryHash update records)
      (updateEvent env file entryHash update).2 := by
  have hkeep := h
  obtain ⟨events, rfl, hlinked, rfl⟩ := h
  unfold updateEvent updateRecords
  rw [lines_write, mapM_read, load_write]
  dsimp only
  cases events.findIdx? fun e => decide (e.entryHash = entryHash) with
  | none => exact hkeep
  | some index =>
    have hchained := holds_rechain env (events.modify index update)
      (map_modify update hupdate index events)
    dsimp only
    cases ((lines (rechain env (write env (events.modify index update))).2)[index]?.bind
        env.read) with
    | none =>
      dsimp only
      exact hchained
    | some e =>
      dsimp only
      exact hchained

@[simp] theorem step_append (file : String) (e : LedgerEvent F R) :
    (step env file (.append e)).2 = (append env file e).2 := rfl

@[simp] theorem step_approveEvent (file entryHash : String) (approval : CustomerApproval) :
    (step env file (.approveEvent entryHash approval)).2 =
      (updateEvent env file entryHash (.setApproval approval)).2 := rfl

@[simp] theorem step_settleEvent (file entryHash : String) (status : SettlementStatus) :
    (step env file (.settleEvent entryHash status)).2 =
      (updateEvent env file entryHash (.setSettlement status)).2 := rfl

@[simp] theorem step_rechain (file : String) :
    (step env file .rechain).2 = (rechain env file).2 := rfl

theorem holds_step {records : List (LedgerEvent F R)} {file : String} {call : Call F R}
    (hmeets : Meets env file call) (h : Holds env records file) :
    Holds env (recordsAfter env records file call) (step env file call).2 := by
  cases call with
  | append e =>
    rw [step_append]
    exact holds_append env h hmeets.1 hmeets.2
  | approveEvent entryHash approval =>
    rw [step_approveEvent]
    exact holds_updateEvent env h fun _ => rfl
  | settleEvent entryHash status =>
    rw [step_settleEvent]
    exact holds_updateEvent env h fun _ => rfl
  | rechain =>
    rw [step_rechain]
    obtain ⟨events, rfl, -, hrecords⟩ := h
    exact holds_rechain env events hrecords

/-! ## Whole runs -/

theorem length_recordsAfter (records : List (LedgerEvent F R)) (file : String) (call : Call F R) :
    (recordsAfter env records file call).length = records.length + [call].countP Call.isAppend := by
  have hupdate : ∀ entryHash update,
      (updateRecords env file entryHash update records).length = records.length := by
    intro entryHash update
    unfold updateRecords
    split
    · rfl
    · exact List.length_modify ..
  cases call with
  | append e => simp [recordsAfter, Call.isAppend]
  | approveEvent entryHash approval => simp [recordsAfter, hupdate, Call.isAppend]
  | settleEvent entryHash status => simp [recordsAfter, hupdate, Call.isAppend]
  | rechain => simp [recordsAfter, Call.isAppend]

theorem length_observe (records : List (LedgerEvent F R)) (file : String)
    (calls : List (Call F R)) :
    (Trace.observe (step env) (recordsAfter env) records file calls).length =
      records.length + calls.countP Call.isAppend := by
  induction calls generalizing records file with
  | nil => rfl
  | cons call rest ih =>
    rw [Trace.observe, ih, length_recordsAfter, Nat.add_assoc, ← List.countP_append,
      List.singleton_append]

/-- In a run whose appends all meet the condition, the ledger stays one valid chain of the events
that were recorded. -/
theorem chain_stays_valid (calls : List (Call F R))
    (h : Trace.Along (step env) (Meets env) "" calls) :
    ValidLedger env calls (Trace.final (step env) "" calls) := by
  have hempty : Holds env [] "" := ⟨[], rfl, trivial, rfl⟩
  obtain ⟨events, hfile, hlinked, hrecords⟩ :=
    Trace.observe_invariant (fun _ _ _ => holds_step env) h hempty
  have hcount := length_observe env [] "" calls
  rw [← hrecords, List.length_map, List.length_nil, Nat.zero_add] at hcount
  rw [hfile]
  constructor
  · rw [verify, lines_write, verifyLines_map_print env hlinked, hcount, Nat.zero_add]
  · rw [load_write]
    exact hrecords
  · rw [load_write]
    exact prevHash_ne_genesis env hlinked

/-! ## Ledgers of whole micro-dollars -/

open JsonText

def CustomerApproval.str : CustomerApproval → String
  | .pending => "pending"
  | .approved => "approved"
  | .disputed => "disputed"
  | .superseded => "superseded"

def SettlementStatus.str : SettlementStatus → String
  | .ineligible => "ineligible"
  | .eligible => "eligible"
  | .settled => "settled"
  | .reversed => "reversed"

/-- The fields before the session, in the order they are declared in. -/
def leadingFields (e : LedgerEvent ℕ Unit) : List (String × Doc) :=
  [("ts", .str e.ts), ("tool", .str e.tool), ("mechanism", .str e.mechanism),
    ("model_id", .str e.modelId), ("tokenizer", .str e.tokenizer),
    ("baseline_tokens", .num e.baselineTokens.toNat), ("actual_tokens", .num e.actualTokens.toNat),
    ("saved_tokens", .num e.savedTokens.toNat),
    ("bounce_adjustment", .num e.bounceAdjustment.toNat),
    ("unit_price_per_m_usd", .num e.unitPricePerMUsd), ("saved_usd", .num e.savedUsd),
    ("repo_hash", .str e.repoHash), ("agent_id", .str e.agentId), ("prev_hash", .str e.prevHash),
    ("entry_hash", .str e.entryHash), ("version", .str e.version),
    ("intent_tag", optionDoc e.intentTag), ("model_routed", optionDoc e.modelRouted),
    ("measurement_method", optionDoc (e.measurementMethod.map MeasurementMethod.str)),
    ("evidence_class", optionDoc (e.evidenceClass.map EvidenceClass.str))]

def optionNum : Option ℕ → Doc
  | some n => .num n
  | none => .null

theorem optionNum_inj {a b : Option ℕ} (h : optionNum a = optionNum b) : a = b := by
  cases a <;> cases b <;> simp_all [optionNum]

def trailingFields (e : LedgerEvent ℕ Unit) : List (String × Doc) :=
  [("path", optionDoc e.path), ("lines_added", optionNum (e.linesAdded.map UInt64.toNat)),
    ("lines_removed", optionNum (e.linesRemoved.map UInt64.toNat)),
    ("net", optionNum (e.net.map fun n => n.toBitVec.toNat)),
    ("attribution_id", optionDoc e.attributionId),
    ("customer_approval", optionDoc (e.customerApproval.map CustomerApproval.str)),
    ("settlement_status", optionDoc (e.settlementStatus.map SettlementStatus.str))]

/-- The line of an event whose optional fields are all there, amounts in micro-dollars. -/
def eventLine (e : LedgerEvent ℕ Unit) : String :=
  (Doc.obj (fields (leadingFields e ++ (("session_id", optionDoc e.sessionId) ::
    trailingFields e)))).text

theorem approval_inj (a b : CustomerApproval) (h : a.str = b.str) : a = b := by
  cases a <;> cases b <;> first | rfl | (revert h; decide)

theorem settlement_inj (a b : SettlementStatus) (h : a.str = b.str) : a = b := by
  cases a <;> cases b <;> first | rfl | (revert h; decide)

theorem option_map_inj {α β : Type} {f : α → β} (hf : ∀ a b, f a = f b → a = b) {a b : Option α}
    (h : a.map f = b.map f) : a = b := by
  cases a with
  | none =>
    cases b with
    | none => rfl
    | some b => cases h
  | some a =>
    cases b with
    | none => cases h
    | some b => rw [hf a b (Option.some.inj h)]

theorem eventLine_inj {e e' : LedgerEvent ℕ Unit} (h : eventLine e = eventLine e') : e = e' := by
  have hfields := fields_inj (Doc.obj.inj (Doc.text_inj h))
  simp only [leadingFields, trailingFields, List.cons_append, List.nil_append, List.cons.injEq,
    Prod.mk.injEq, true_and, Doc.str.injEq, Doc.num.injEq, and_true] at hfields
  obtain ⟨h₁, h₂, h₃, h₄, h₅, h₆, h₇, h₈, h₉, h₁₀, h₁₁, h₁₂, h₁₃, h₁₄, h₁₅, h₁₆, h₁₇, h₁₈, h₁₉, h₂₀,
    h₂₁, h₂₂, h₂₃, h₂₄, h₂₅, h₂₆, h₂₇, h₂₈⟩ := hfields
  have hmethod := option_map_inj method_inj (optionDoc_inj h₁₉)
  have hevidence := option_map_inj evidence_inj (optionDoc_inj h₂₀)
  have hadded := option_map_inj (fun _ _ => UInt64.toNat_inj.mp) (optionNum_inj h₂₃)
  have hremoved := option_map_inj (fun _ _ => UInt64.toNat_inj.mp) (optionNum_inj h₂₄)
  have hnet := option_map_inj (fun _ _ hab => Int64.toBitVec_inj.mp (BitVec.eq_of_toNat_eq hab))
    (optionNum_inj h₂₅)
  have happroval := option_map_inj approval_inj (optionDoc_inj h₂₇)
  have hsettlement := option_map_inj settlement_inj (optionDoc_inj h₂₈)
  have hintent := optionDoc_inj h₁₇
  have hrouted := optionDoc_inj h₁₈
  have hsession := optionDoc_inj h₂₁
  have hpath := optionDoc_inj h₂₂
  have hattribution := optionDoc_inj h₂₆
  rw [UInt64.toNat_inj] at h₆ h₇ h₈ h₉
  clear h₁₇ h₁₈ h₁₉ h₂₀ h₂₁ h₂₂ h₂₃ h₂₄ h₂₅ h₂₆ h₂₇ h₂₈ h
  obtain ⟨⟨⟩, _, _, _⟩ := e
  obtain ⟨⟨⟩, _, _, _⟩ := e'
  simp_all only

theorem eventLine_oneLine (e : LedgerEvent ℕ Unit) : OneLine (eventLine e) :=
  RecordFile.oneLine_obj (List.cons_ne_nil _ _)

open Classical in
/-- A reader that knows the lines of events only. -/
noncomputable def readEventLine (line : String) : Option (LedgerEvent ℕ Unit) :=
  if h : ∃ e, eventLine e = line then some h.choose else none

theorem readEventLine_eventLine (e : LedgerEvent ℕ Unit) :
    readEventLine (eventLine e) = some e := by
  have h : ∃ e', eventLine e' = eventLine e := ⟨e, rfl⟩
  rw [readEventLine, dif_pos h, eventLine_inj h.choose_spec]

/-- Amounts of whole micro-dollars that are not negative. -/
def micros : Money ℕ where
  microUsd n := wholeMicros.microUsd n
  fixed6 n := wholeMicros.fixed6 n
  fixed6_plain n := wholeMicros.fixed6_plain n

/-- A ledger without secrets; one digest stands for all. -/
noncomputable def plainEnv : Env ℕ Unit where
  money := micros
  sha256 _ := String.ofList (List.replicate 64 '0')
  sha256_ne_genesis _ := by decide
  print := eventLine
  read := readEventLine
  read_print := readEventLine_eventLine
  print_oneLine := eventLine_oneLine
  redact line := line

def sampleEvent (sessionId : String) : LedgerEvent ℕ Unit where
  ts := "2026-06-01T00:00:00+00:00"
  tool := "ctx_edit"
  mechanism := "compression"
  modelId := "claude-3.5-sonnet"
  tokenizer := "o200k_base"
  baselineTokens := 1000
  actualTokens := 200
  savedTokens := 800
  bounceAdjustment := 0
  unitPricePerMUsd := 3000000
  savedUsd := 2400
  repoHash := "abc"
  agentId := "agent"
  prevHash := ""
  entryHash := ""
  version := "3.9.0"
  intentTag := some "edit"
  modelRouted := some "claude-3.5-haiku"
  measurementMethod := none
  evidenceClass := none
  sessionId := some sessionId
  path := some "src/main.rs"
  linesAdded := some 1
  linesRemoved := some 3
  net := some 2
  attributionId := some "attr"
  customerApproval := some .pending
  settlementStatus := some .eligible
  carried := ()

/-- Two appends, an approval of the first event, and a repair. -/
def shortRun : List (Call ℕ Unit) :=
  [.append (sampleEvent "s1"), .append (sampleEvent "s2"),
    .approveEvent (String.ofList (List.replicate 64 '0')) .approved, .rechain]

theorem plainEnv_meets {file : String} {e : LedgerEvent ℕ Unit} (h : TailFits file) :
    Meets plainEnv file (.append e) := ⟨h, rfl⟩

theorem plainEnv_print : plainEnv.print = eventLine := rfl

theorem plainEnv_read : plainEnv.read = readEventLine := rfl

theorem plainEnv_redact (line : String) : plainEnv.redact line = line := rfl

theorem append_empty (e : LedgerEvent ℕ Unit) :
    (append plainEnv "" e).2 = write plainEnv [e.withDefaults.chain plainEnv genesis] := by
  have htail : readLastHashFromTail plainEnv "" = genesis := rfl
  unfold append
  dsimp only
  rw [htail, plainEnv_redact, String.empty_append, write, List.map_singleton, joinLines_singleton]

theorem tailFits_sampleEvent : TailFits (append plainEnv "" (sampleEvent "s1")).2 := by
  have hchars : (eventLine ((sampleEvent "s1").withDefaults.chain plainEnv genesis)).toList.length ≤
      2000 := by
    rw [eventLine, Doc.text, String.toList_ofList]
    decide +kernel
  have hlen := length_utf8_le (eventLine ((sampleEvent "s1").withDefaults.chain plainEnv genesis))
  rw [append_empty, TailFits, lines_write, plainEnv_print, List.map_singleton,
    List.getLast?_singleton]
  intro l hl
  rw [Option.mem_some_iff] at hl
  rw [← hl, tailReadBytes]
  omega

theorem shortRun_valid : Trace.Along (step plainEnv) (Meets plainEnv) "" shortRun ∧
    ValidLedger plainEnv shortRun (Trace.final (step plainEnv) "" shortRun) := by
  have h : Trace.Along (step plainEnv) (Meets plainEnv) "" shortRun := by
    refine ⟨plainEnv_meets ?_, ?_, trivial, trivial, trivial⟩
    · simp [TailFits]
    · rw [step_append]
      exact plainEnv_meets tailFits_sampleEvent
  exact ⟨h, chain_stays_valid plainEnv shortRun h⟩

/-- A session whose name alone fills the window. -/
def longSession : String := String.ofList (List.replicate 9000 'a')

/-- The second append sees only the end of the first event's line. -/
def longRun : List (Call ℕ Unit) :=
  [.append (sampleEvent longSession), .append (sampleEvent "s2")]

theorem readEventLine_of_head {line : String} (h : line.toList.head? = some 'a') :
    readEventLine line = none := by
  rw [readEventLine, dif_neg]
  rintro ⟨e, rfl⟩
  have hhead : (eventLine e).toList.head? = some '{' := RecordFile.head?_obj (List.cons_ne_nil _ _)
  rw [h] at hhead
  cases hhead

theorem readLastHash_longSession (e : LedgerEvent ℕ Unit) (h : e.sessionId = some longSession)
    (hshort : (fields (trailingFields e)).chars.length ≤ 1000) :
    readLastHashFromTail plainEnv (write plainEnv [e]) = genesis := by
  obtain ⟨shown, hhead, hlines, hwindow⟩ := @RecordFile.window_inside_string tailReadBytes 9000
    "session_id" (leadingFields e) (trailingFields e) (List.cons_ne_nil _ _)
    (by unfold tailReadBytes; omega) (by decide)
  have hline : eventLine e = (Doc.obj (fields (leadingFields e ++ ("session_id",
      .str (String.ofList (List.replicate 9000 'a'))) :: trailingFields e))).text := by
    rw [eventLine, h]
    rfl
  have hnone : [shown].reverse.findSome? plainEnv.read = none := by
    rw [List.reverse_singleton, List.findSome?_cons, List.findSome?_nil, plainEnv_read,
      readEventLine_of_head hhead]
  unfold readLastHashFromTail
  dsimp only
  rw [write, List.map_singleton, joinLines_singleton, plainEnv_print, hline, hwindow,
    fromUtf8Lossy_utf8, String.ofList_toList, hlines, hnone]
  split
  · rfl
  · rfl

/-- The event after a long one starts a second chain. -/
theorem longRun_restarts_chain :
    ¬ ValidLedger plainEnv longRun (Trace.final (step plainEnv) "" longRun) := by
  intro hvalid
  have hchain := hvalid.oneChain
  obtain ⟨e, he⟩ : ∃ e, e = (sampleEvent longSession).withDefaults.chain plainEnv genesis :=
    ⟨_, rfl⟩
  have hshort : (fields (trailingFields e)).chars.length ≤ 1000 := by
    have htrailing : trailingFields e = trailingFields (sampleEvent "s1") := by
      rw [he]
      rfl
    rw [htrailing]
    decide +kernel
  have hlast : readLastHashFromTail plainEnv (write plainEnv [e]) = genesis := by
    apply readLastHash_longSession e _ hshort
    rw [he]
    rfl
  have hfinal : Trace.final (step plainEnv) "" longRun =
      write plainEnv [e, (sampleEvent "s2").withDefaults.chain plainEnv genesis] := by
    rw [longRun, Trace.final, Trace.final, Trace.final, step_append, step_append, append_empty,
      ← he]
    unfold append
    dsimp only
    rw [hlast, plainEnv_redact, ← write_concat, List.singleton_append]
  rw [hfinal, load_write] at hchain
  exact hchain _ (List.mem_singleton_self _) rfl

end LeanCtx.Savings
