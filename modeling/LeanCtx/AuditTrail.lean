import LeanCtx.ByteText
import LeanCtx.Json
import LeanCtx.JsonText

/-!
# Entries of the audit trail and their verification

An entry is one line of JSON. It holds the hash of the entry before it and its
own hash, over that hash and seven of its fields. A verifier folds over the
entries: it checks every link, every hash and every signature, and keeps what
later entries and reports depend on. The digest, the signature scheme and the
JSON reader are parameters; the text of an entry is given.
-/

namespace LeanCtx.Audit

open ByteText JsonText

/-! ## Hexadecimal digits -/

def hexEncode (bytes : Bytes) : String :=
  String.ofList (bytes.flatMap fun b => [hexDigit (b.toNat / 16), hexDigit (b.toNat % 16)])

/-- The value of a digit in base 16. -/
def toDigit (c : Char) : Option ℕ :=
  if '0' ≤ c ∧ c ≤ '9' then some (c.toNat - 48)
  else if 'a' ≤ c ∧ c ≤ 'f' then some (c.toNat - 87)
  else if 'A' ≤ c ∧ c ≤ 'F' then some (c.toNat - 55)
  else none

/-- `u8::from_str_radix` on two characters: a plus sign may stand before the digit. -/
def hexByte (a b : Char) : Option UInt8 :=
  if a = '+' then (toDigit b).map UInt8.ofNat
  else (toDigit a).bind fun high => (toDigit b).map fun low => UInt8.ofNat (16 * high + low)

def hexPairs : List Char → Option Bytes
  | [] => some []
  | [_] => none
  | a :: b :: rest => (hexByte a b).bind fun byte => (hexPairs rest).map (byte :: ·)

def hexDecode (s : String) : Option Bytes :=
  if (utf8 s).length % 2 ≠ 0 then none
  else if s.toList.all fun c => c.toNat < 128 then hexPairs s.toList
  else none

/-! ## Entries -/

inductive AuditEventType
  | toolCall
  | toolDenied
  | pathJailViolation
  | budgetExceeded
  | crossProjectAccess
  | rateLimited
  | securityViolation
  | roleChanged
  | secretDetected
  | agentRegistered
  | agentSuspended
  | agentResumed
  | agentDecommissioned
  | agentDriftDetected
  | agentDriftAcknowledged
  | unknown (label : String)
deriving DecidableEq, Repr

namespace AuditEventType

def wireLabel : AuditEventType → String
  | toolCall => "tool_call"
  | toolDenied => "tool_denied"
  | pathJailViolation => "path_jail_violation"
  | budgetExceeded => "budget_exceeded"
  | crossProjectAccess => "cross_project_access"
  | rateLimited => "rate_limited"
  | securityViolation => "security_violation"
  | roleChanged => "role_changed"
  | secretDetected => "secret_detected"
  | agentRegistered => "agent_registered"
  | agentSuspended => "agent_suspended"
  | agentResumed => "agent_resumed"
  | agentDecommissioned => "agent_decommissioned"
  | agentDriftDetected => "agent_drift_detected"
  | agentDriftAcknowledged => "agent_drift_acknowledged"
  | unknown label => label

/-- The types with a label of their own. -/
def known : List AuditEventType :=
  [toolCall, toolDenied, pathJailViolation, budgetExceeded, crossProjectAccess, rateLimited,
    securityViolation, roleChanged, secretDetected, agentRegistered, agentSuspended, agentResumed,
    agentDecommissioned, agentDriftDetected, agentDriftAcknowledged]

end AuditEventType

def isAsciiLowercase (c : Char) : Bool := 'a' ≤ c && c ≤ 'z'

def isAsciiDigit (c : Char) : Bool := '0' ≤ c && c ≤ '9'

def validExtensionEventLabel (label : String) : Bool :=
  (utf8 label).length ≤ 64 && match label.toList with
    | 'x' :: '-' :: first :: rest => isAsciiLowercase first &&
        rest.all fun c => isAsciiLowercase c || isAsciiDigit c || c = '_'
    | _ => false

/-- Whether the type can be serialized. -/
def AuditEventType.writable : AuditEventType → Bool
  | unknown label => validExtensionEventLabel label
  | _ => true

def AuditEventType.ofLabel (label : String) : Option AuditEventType :=
  match known.find? fun t => t.wireLabel = label with
  | some t => some t
  | none => if validExtensionEventLabel label then some (unknown label) else none

structure AuditEntry where
  timestamp : String
  agentId : String
  tool : String
  action : Option String
  inputHash : String
  outputTokens : UInt32
  role : String
  eventType : AuditEventType
  prevHash : String
  entryHash : String
  signature : Option String
deriving DecidableEq, Repr

/-- The line of an entry: its fields in the order they are declared in. -/
def AuditEntry.text (e : AuditEntry) : String :=
  (Doc.obj (fields ([("timestamp", .str e.timestamp), ("agent_id", .str e.agentId),
    ("tool", .str e.tool), ("action", optionDoc e.action), ("input_hash", .str e.inputHash),
    ("output_tokens", .num e.outputTokens.toNat), ("role", .str e.role),
    ("event_type", .str e.eventType.wireLabel), ("prev_hash", .str e.prevHash),
    ("entry_hash", .str e.entryHash)] ++
    (e.signature.map fun s => ("signature", Doc.str s)).toList))).text

def optionJson : Option String → Json
  | some s => .string s
  | none => .null

def countJson (n : UInt32) : Json := .number (.posInt n.toUInt64)

/-- The value that is read from the line of an entry. -/
def AuditEntry.json (e : AuditEntry) : Json :=
  .object ([("action", optionJson e.action), ("agent_id", .string e.agentId),
    ("entry_hash", .string e.entryHash), ("event_type", .string e.eventType.wireLabel),
    ("input_hash", .string e.inputHash), ("output_tokens", countJson e.outputTokens),
    ("prev_hash", .string e.prevHash), ("role", .string e.role)] ++
    (e.signature.map fun s => ("signature", Json.string s)).toList ++
    [("timestamp", .string e.timestamp), ("tool", .string e.tool)])

/-- The line of an entry determines the value that is read from it. -/
theorem AuditEntry.json_of_text {a b : AuditEntry} (h : a.text = b.text) : a.json = b.json := by
  have hfields := fields_inj (Doc.obj.inj (Doc.text_inj h))
  obtain ⟨hfields, hsignature⟩ := List.append_inj hfields rfl
  simp only [List.cons.injEq, Prod.mk.injEq, Doc.str.injEq, Doc.num.injEq, true_and, and_true]
    at hfields
  obtain ⟨htime, hagent, htool, haction, hinput, htokens, hrole, htype, hprev, hhash⟩ := hfields
  have hsign : a.signature = b.signature := by
    cases hsa : a.signature with
    | none =>
      cases hsb : b.signature with
      | none => rfl
      | some t => simp [hsa, hsb] at hsignature
    | some s =>
      cases hsb : b.signature with
      | none => simp [hsa, hsb] at hsignature
      | some t => simpa [hsa, hsb] using hsignature
  unfold AuditEntry.json
  rw [htime, hagent, htool, optionDoc_inj haction, hinput, UInt32.toNat_inj.mp htokens, hrole,
    htype, hprev, hhash, hsign]

/-- The fields under the hash of an entry. -/
def hashedJson (agentId tool action inputHash outputTokens role eventType : Json) : Json :=
  .object [("action", action), ("agent_id", agentId), ("event_type", eventType),
    ("input_hash", inputHash), ("output_tokens", outputTokens), ("role", role), ("tool", tool)]

def hashedFields (value : Json) : Option Json := do
  let agentId ← value.get "agent_id"
  let tool ← value.get "tool"
  let inputHash ← value.get "input_hash"
  let outputTokens ← value.get "output_tokens"
  let role ← value.get "role"
  let eventType ← value.get "event_type"
  return hashedJson agentId tool ((value.get "action").getD .null) inputHash outputTokens role
    eventType

/-! ### Reading an entry -/

/-- A field that may be missing or null. -/
def readOption : Option Json → Option (Option String)
  | none => some none
  | some .null => some none
  | some (.string s) => some (some s)
  | some _ => none

def readU32 : Json → Option UInt32
  | .number (.posInt n) => if n.toNat < 2 ^ 32 then some n.toUInt32 else none
  | _ => none

def AuditEntry.fromJson (value : Json) : Option AuditEntry := do
  let timestamp ← (value.get "timestamp").bind Json.asStr
  let agentId ← (value.get "agent_id").bind Json.asStr
  let tool ← (value.get "tool").bind Json.asStr
  let action ← readOption (value.get "action")
  let inputHash ← (value.get "input_hash").bind Json.asStr
  let outputTokens ← (value.get "output_tokens").bind readU32
  let role ← (value.get "role").bind Json.asStr
  let eventType ← ((value.get "event_type").bind Json.asStr).bind AuditEventType.ofLabel
  let prevHash ← (value.get "prev_hash").bind Json.asStr
  let entryHash ← (value.get "entry_hash").bind Json.asStr
  let signature ← readOption (value.get "signature")
  return ⟨timestamp, agentId, tool, action, inputHash, outputTokens, role, eventType, prevHash,
    entryHash, signature⟩

/-! ## Seals -/

def sealEvent : String := "x-segment_sealed"

def isSeal (eventType : AuditEventType) : Bool := eventType = .unknown sealEvent

/-- The number that decimal digits stand for. -/
def digitsValue (digits : List Char) : ℕ := digits.foldl (fun n c => 10 * n + (c.toNat - 48)) 0

/-- `str::parse` to an unsigned 64-bit number. -/
def parseU64 (text : List Char) : Option ℕ :=
  let digits := if text.head? = some '+' then text.tail else text
  if digits ≠ [] ∧ (digits.all isAsciiDigit) ∧ digitsValue digits < 2 ^ 64 then
    some (digitsValue digits)
  else none

def sealAction (seq : ℕ) : String := "segment=" ++ seq.repr

def sealedSeq (action : Option String) : Option ℕ :=
  action.bind fun text =>
    if "segment=".toList.isPrefixOf text.toList then parseU64 (text.toList.drop 8) else none

/-! ## Security evidence -/

inductive SecurityKind
  | secretRedacted
  | shellBlocked
  | pathBlocked
  | injectionFlagged
  | piiRedacted
  | contentWithheld
  | coverageIncomplete
deriving DecidableEq, Repr

namespace SecurityKind

def str : SecurityKind → String
  | secretRedacted => "secret_redacted"
  | shellBlocked => "shell_blocked"
  | pathBlocked => "path_blocked"
  | injectionFlagged => "injection_flagged"
  | piiRedacted => "pii_redacted"
  | contentWithheld => "content_withheld"
  | coverageIncomplete => "coverage_incomplete"

def all : List SecurityKind :=
  [secretRedacted, shellBlocked, pathBlocked, injectionFlagged, piiRedacted, contentWithheld,
    coverageIncomplete]

def inSignedTally : SecurityKind → Bool
  | secretRedacted | shellBlocked | pathBlocked | injectionFlagged => true
  | _ => false

/-- The kind named before the first colon. -/
def fromAction (action : List Char) : Option SecurityKind :=
  all.find? fun k => k.str.toList = action.takeWhile (· ≠ ':')

end SecurityKind

/-- What stands before and after the first occurrence of a pattern. -/
def splitOnce (pattern : List Char) : List Char → Option (List Char × List Char)
  | [] => if pattern = [] then some ([], []) else none
  | c :: rest =>
    if pattern.isPrefixOf (c :: rest) then some ([], (c :: rest).drop pattern.length)
    else (splitOnce pattern rest).map fun (before, after) => (c :: before, after)

def parseAction (action : List Char) : Option (SecurityKind × ℕ × Option (List Char)) := do
  let kind ← SecurityKind.fromAction action
  let rest := ((splitOnce [':'] action).map Prod.snd).getD []
  let (head, session) :=
    match splitOnce "|session=".toList rest with
    | some (head, session) => (head, some session)
    | none => (rest, none)
  return (kind, (parseU64 (head.takeWhile (· ≠ '|'))).getD 1, session)

/-- A count saturates at the largest 64-bit number. -/
structure SecurityCounts where
  secretsRedacted : ℕ := 0
  shellBlocked : ℕ := 0
  pathBlocked : ℕ := 0
  injectionFlagged : ℕ := 0
  piiRedacted : ℕ := 0
  contentWithheld : ℕ := 0
  coverageIncomplete : ℕ := 0
deriving DecidableEq, Repr

def saturatingAdd (m n : ℕ) : ℕ := min (m + n) (2 ^ 64 - 1)

def SecurityCounts.add (c : SecurityCounts) (kind : SecurityKind) (n : ℕ) : SecurityCounts :=
  match kind with
  | .secretRedacted => { c with secretsRedacted := saturatingAdd c.secretsRedacted n }
  | .shellBlocked => { c with shellBlocked := saturatingAdd c.shellBlocked n }
  | .pathBlocked => { c with pathBlocked := saturatingAdd c.pathBlocked n }
  | .injectionFlagged => { c with injectionFlagged := saturatingAdd c.injectionFlagged n }
  | .piiRedacted => { c with piiRedacted := saturatingAdd c.piiRedacted n }
  | .contentWithheld => { c with contentWithheld := saturatingAdd c.contentWithheld n }
  | .coverageIncomplete => { c with coverageIncomplete := saturatingAdd c.coverageIncomplete n }

structure SignedTallyEvidence where
  counts : SecurityCounts := {}
  entries : ℕ := 0
  firstHash : Option String := none
  lastHash : Option String := none
deriving DecidableEq, Repr

def SignedTallyEvidence.record (t : SignedTallyEvidence) (kind : SecurityKind) (n : ℕ)
    (hash : String) : SignedTallyEvidence :=
  ⟨t.counts.add kind n, t.entries + 1, some (t.firstHash.getD hash), some hash⟩

/-! ## Verification -/

/-- What is not given by the code itself. A text is read as a stream of values, with whether the
whole text was read. -/
structure Env where
  sha256 : Bytes → Bytes
  writeValue : Json → String
  readValues : String → List Json × Bool
  publicKey : Option Bytes
  verify : Bytes → Bytes → Bytes → Bool
  sign : Bytes → Option Bytes
  readValues_text : ∀ e : AuditEntry, e.eventType.writable → readValues e.text = ([e.json], true)
  verify_sign : ∀ data signature, sign data = some signature →
    ∃ key, publicKey = some key ∧ verify key data signature = true

def Env.computeEntryHash (env : Env) (prevHash dataJson : String) : String :=
  hexEncode (env.sha256 (utf8 prevHash ++ utf8 dataJson))

/-- Whether the signature of an entry is one of its hash under the local key. -/
def Env.signatureHolds (env : Env) (entryHash signature : String) : Bool :=
  match hexDecode signature, env.publicKey with
  | some bytes, some key => env.verify key (utf8 entryHash) bytes
  | _, _ => false

structure ChainState where
  prevHash : String := "genesis"
  total : ℕ := 0
  unknown : ℕ := 0
  pending : OrdMap String (String × String) := ∅
  tally : SignedTallyEvidence := {}
  security : SignedTallyEvidence := {}
  sealed : Option ℕ := none

namespace ChainState

variable (env : Env)

def isDrift : AuditEventType → Bool
  | .agentDriftDetected | .agentDriftAcknowledged => true
  | _ => false

/-- The security evidence an entry adds. -/
def recordSecurity (state : ChainState) (entry : AuditEntry) : ChainState :=
  match entry.action.bind fun action => parseAction action.toList with
  | none => state
  | some (kind, n, _) =>
    { state with
      security := state.security.record kind n entry.entryHash
      tally := if kind.inSignedTally then state.tally.record kind n entry.entryHash
        else state.tally }

/-- The drift an entry reports or acknowledges. -/
def recordDrift (state : ChainState) (entry : AuditEntry) : ChainState :=
  match entry.eventType, entry.action with
  | .agentDriftDetected, some evidence =>
    { state with
      pending := state.pending.insert entry.agentId
        (entry.timestamp, evidence ++ " observation=" ++ entry.entryHash) }
  | .agentDriftAcknowledged, action =>
    if (state.pending[entry.agentId]?).any fun (_, evidence) => action = some evidence then
      { state with pending := state.pending.erase entry.agentId }
    else state
  | _, _ => state

/-- What is checked of an entry whose link and hash hold. The state of a failure keeps what was
assigned before it. -/
def admitEntry (state : ChainState) (entry : AuditEntry) : ChainState × Bool :=
  let counted :=
    match entry.eventType with
    | .unknown _ =>
      if isSeal entry.eventType then state else { state with unknown := state.unknown + 1 }
    | _ => state
  match if isSeal entry.eventType then (sealedSeq entry.action).map some else some none with
  | none => (counted, false)
  | some sealed =>
    let marked := { counted with sealed := sealed }
    let signatureRequired := isSeal entry.eventType || isDrift entry.eventType
    if signatureRequired ∧ entry.signature = none then (marked, false)
    else if entry.signature.any fun s => !env.signatureHolds entry.entryHash s then (marked, false)
    else
      let recorded := (marked.recordSecurity entry).recordDrift entry
      ({ recorded with prevHash := entry.entryHash, total := recorded.total + 1 }, true)

/-- One value of the stream. -/
def advance (state : ChainState) (value : Json) : ChainState × Bool :=
  match (value.get "prev_hash").bind Json.asStr, (value.get "entry_hash").bind Json.asStr,
      hashedFields value with
  | some entryPrev, some entryHash, some hashed =>
    if entryPrev ≠ state.prevHash then (state, false)
    else if entryHash ≠ env.computeEntryHash state.prevHash (env.writeValue hashed) then
      (state, false)
    else match AuditEntry.fromJson value with
      | none => (state, false)
      | some entry => state.admitEntry env entry
  | _, _, _ => (state, false)

def verifyValues (state : ChainState) : List Json → ChainState × Bool
  | [] => (state, true)
  | value :: rest =>
    match state.advance env value with
    | (next, true) => verifyValues next rest
    | (next, false) => (next, false)

/-- One line, without its end. -/
def verifyLine (state : ChainState) (line : Bytes) : ChainState × Bool :=
  match fromUtf8 line with
  | none => (state, false)
  | some text =>
    match state.verifyValues env (env.readValues text).1 with
    | (next, true) =>
      (next, (env.readValues text).2 && !(env.readValues text).1.isEmpty)
    | (next, false) => (next, false)

def verifyLines (state : ChainState) : List Bytes → ChainState × Bool
  | [] => (state, true)
  | line :: rest =>
    match state.verifyLine env line with
    | (next, true) => verifyLines next rest
    | (next, false) => (next, false)

/-- A line that a newline ends may end in a carriage return before it. -/
def stripReturn (line : Bytes) : Bytes := if line.getLast? = some 13 then line.dropLast else line

/-- The lines of a stream as they are verified. -/
def linesOf (bytes : Bytes) : List Bytes :=
  (splitLines bytes).1.map stripReturn ++
    if (splitLines bytes).2 = [] then [] else [(splitLines bytes).2]

/-- The state after the stream or at its first failure, and then the bytes read and whether the
stream ended on a line boundary. -/
def verifyStream (state : ChainState) (bytes : Bytes) : ChainState × Option (ℕ × Bool) :=
  match state.verifyLines env (linesOf bytes) with
  | (next, true) => (next, some (bytes.length, (splitLines bytes).2 = []))
  | (next, false) => (next, none)

end ChainState

open Classical in
/-- A reader that knows the lines of entries only. -/
noncomputable def readEntryLine (text : String) : List Json × Bool :=
  if h : ∃ e : AuditEntry, e.text = text then ([h.choose.json], true) else ([], false)

theorem readEntryLine_text (e : AuditEntry) : readEntryLine e.text = ([e.json], true) := by
  have h : ∃ e' : AuditEntry, e'.text = e.text := ⟨e, rfl⟩
  rw [readEntryLine, dif_pos h, AuditEntry.json_of_text h.choose_spec]

end LeanCtx.Audit
