import LeanCtx.JsonPrint
import LeanCtx.TextFile

/-!
# Pruning old messages

Before a conversation is forwarded, the tool results among its old messages are
shortened and the inputs of tool calls that failed are removed. Which messages
are old is decided by a boundary that moves in strides, so that the prefix the
provider has cached stays as it is between two jumps. The recovery store, the
protection and the test for source code are given.
-/

namespace LeanCtx

namespace Json

def modifyEntry (key : String) (f : Json → Json) : List (String × Json) → List (String × Json)
  | [] => []
  | (k, v) :: rest => if k = key then (k, f v) :: rest else (k, v) :: modifyEntry key f rest

/-- The value with the one under a key replaced, where there is one. -/
def modify (key : String) (f : Json → Json) : Json → Json
  | object entries => object (modifyEntry key f entries)
  | v => v

def asBool : Json → Option Bool
  | bool value => some value
  | _ => none

theorem lookup_modifyEntry (key : String) (f : Json → Json) (other : String)
    (entries : List (String × Json)) :
    (modifyEntry key f entries).lookup other =
      (entries.lookup other).map fun v => if other = key then f v else v := by
  induction entries with
  | nil => rfl
  | cons e entries ih =>
    obtain ⟨k, v⟩ := e
    by_cases hother : other = k
    · subst hother
      by_cases hkey : other = key
      · simp [modifyEntry, hkey]
      · simp [modifyEntry, hkey]
    · by_cases hkey : k = key
      · subst hkey
        simp [modifyEntry, List.lookup_cons, beq_false_of_ne hother, hother]
      · simp [modifyEntry, hkey, List.lookup_cons, beq_false_of_ne hother, ih]

theorem get_modify (key : String) (f : Json → Json) (other : String) (v : Json) :
    (v.modify key f).get other = (v.get other).map fun w => if other = key then f w else w := by
  cases v with
  | object entries => exact lookup_modifyEntry key f other entries
  | _ => rfl

theorem modify_congr {key : String} {f g : Json → Json} {v : Json}
    (h : ∀ w, v.get key = some w → f w = g w) : v.modify key f = v.modify key g := by
  cases v with
  | object entries =>
    have hentries : ∀ entries : List (String × Json),
        (∀ w, entries.lookup key = some w → f w = g w) →
        modifyEntry key f entries = modifyEntry key g entries := by
      intro entries
      induction entries with
      | nil => intro _; rfl
      | cons e entries ih =>
        intro hlookup
        obtain ⟨k, w⟩ := e
        rw [modifyEntry, modifyEntry]
        split_ifs with hkey
        · subst hkey
          rw [hlookup w (by simp)]
        · rw [ih fun w' hw' => hlookup w' (by simp [List.lookup_cons, beq_false_of_ne (Ne.symm hkey), hw'])]
    rw [modify, modify, hentries entries h]
  | _ => rfl

theorem get_modify_self (key : String) (f : Json → Json) (v : Json) :
    (v.modify key f).get key = (v.get key).map f := by
  rw [get_modify]
  simp

theorem get_modify_of_ne {key other : String} (h : other ≠ key) (f : Json → Json) (v : Json) :
    (v.modify key f).get other = v.get other := by
  rw [get_modify]
  simp [h]

end Json

namespace HistoryPrune

/-! ## The boundary -/

inductive HistoryMode
  | off
  | rolling
  | cacheAware
  deriving DecidableEq, Repr

def keepMin : ℕ := 8
def stride : ℕ := 16
def rollingKeepRecent : ℕ := 6

def pruneBoundary (mode : HistoryMode) (len : ℕ) : ℕ := match mode with
  | .off => 0
  | .rolling => len - rollingKeepRecent
  | .cacheAware => (len - keepMin) / stride * stride

def hasKey (key : String) (v : Json) : Bool := (v.get key).isSome

def messageHasCacheControl (msg : Json) : Bool :=
  hasKey "cache_control" msg ||
    (((msg.get "content").bind Json.asArray).getD []).any fun block =>
      hasKey "cache_control" block ||
        (((block.get "content").bind Json.asArray).getD []).any (hasKey "cache_control")

/-- Everything up to the last message with a `cache_control` marker. -/
def cachedPrefixLen (messages : List Json) : ℕ :=
  (messages.zipIdx.foldl fun cached m => if messageHasCacheControl m.1 then m.2 + 1 else cached) 0

/-! ## Tool results -/

inductive ToolResultKind
  | fileRead
  | shell
  | search
  | other
  deriving DecidableEq, Repr

/-- `str::contains` with a text. -/
def containsText (text part : String) : Bool := text.toList.tails.any part.toList.isPrefixOf

def fileReadNames : List String :=
  ["read_file", "readfile", "file_read", "fsread", "fs_read", "view_file", "viewfile", "open_file",
    "notebookread", "notebook_read", "cat_file", "get_file", "fetch_file", "ctx_read",
    "ctx_multi_read", "multi_read", "multiread", "read_many", "read_files", "str_replace_editor",
    "ctx_patch", "ctx_refactor", "ctx_callgraph"]

def searchNames : List String :=
  ["grep", "ripgrep", "search", "find", "glob", "list_dir", "listdir", "list_files", "listfiles",
    "ls", "codebase_search", "ctx_search", "ctx_tree"]

def shellNames : List String :=
  ["bash", "shell", "terminal", "run_command", "run_terminal", "runterminal", "execute_command",
    "exec_command", "command_exec", "ctx_shell"]

def segmentKind (segment : String) : Option ToolResultKind :=
  if ["read", "view", "cat", "open"].contains segment then some .fileRead
  else if ["grep", "search", "find", "glob", "ls", "rg"].contains segment then some .search
  else if ["shell", "bash", "exec", "run", "terminal", "cmd"].contains segment then some .shell
  else none

/-- Lists of parts first, then whole names, then the segments of the name. -/
def classifyToolName (name : String) : ToolResultKind :=
  let n := String.ofList (name.toList.map Char.toLower)
  if fileReadNames.any (containsText n) then .fileRead
  else if ["read", "view", "cat", "open"].contains n then .fileRead
  else if searchNames.any (containsText n) then .search
  else if shellNames.any (containsText n) then .shell
  else if ["run", "exec", "execute", "command", "sh"].contains n then .shell
  else ((n.toList.splitOnP fun c => !c.isAlphanum).findSome? fun s =>
    segmentKind (String.ofList s)).getD .other

/-- What stays the same between the turns of a conversation. -/
structure Settings where
  isProtected : Bool
  /-- The shortened text with the stub of a recovery copy, for the result of a call. -/
  shortenWithCopy : Option String → String → String → Option String
  persist : String → Option String
  inbandLocator : String → Option String
  looksLikeSourceCode : String → Bool
  /-- `serde_json::to_string`. -/
  serialized : Json → String

section Prune

variable (env : Settings)

def shouldProtect (kind : ToolResultKind) (content : String) : Bool := match kind with
  | .fileRead => true
  | .other => env.looksLikeSourceCode content
  | .shell | .search => false

def summarizeText (text : String) : String :=
  let lines := TextFile.lines text
  if lines.length ≤ 5 then text
  else
    let recover := match env.persist text with
      | none => ""
      | some handle => match env.inbandLocator handle with
        | some marker => " · echo " ++ marker ++ " for the full original"
        | none => " · full at " ++ handle
    "\n".intercalate (lines.take 3) ++ "\n[..." ++ toString (lines.length - 5) ++
      " lines pruned by lean-ctx" ++ recover ++ "...]\n" ++
      "\n".intercalate (lines.drop (lines.length - 2))

def prunedForm (text : String) (kind : ToolResultKind) : String :=
  if shouldProtect env kind text then
    let read := "[lean-ctx: an earlier file read (" ++ toString (TextFile.lines text).length ++
      " lines) was pruned from older context to save tokens. "
    match env.persist text with
    | none => read ++ "This was an older version — the file may have changed since. " ++
        "Re-read the file for its current contents.]"
    | some handle =>
      let shown := read ++ "This is the version shown that turn — the file may have changed since. "
      match env.inbandLocator handle with
      | some marker => shown ++ "Echo " ++ marker ++ " to splice the verbatim original back " ++
          "inline, or re-read the file for its current contents.]"
      | none => shown ++ "Full original at " ++ handle ++
          ". Re-read the file for its current contents.]"
  else summarizeText env text

/-- Under protection a text is shortened only with a recovery copy. -/
def summarizeOrStub (callId : Option String) (text : String) (kind : ToolResultKind) : String :=
  if env.isProtected then
    (env.shortenWithCopy callId text (prunedForm env text kind)).getD text
  else prunedForm env text kind

/-- The text is long, and nothing in it is marked as protected. -/
def prunable (text : String) : Bool := 200 < text.utf8ByteSize && !containsText text "<protect>"

def summarizeString (callId : Option String) (kind : ToolResultKind) : Json → Json
  | .string s => if prunable s then .string (summarizeOrStub env callId s kind) else .string s
  | v => v

def blockType (block : Json) : Option String := (block.get "type").bind Json.asStr

def summarizeItem (callId : Option String) (kind : ToolResultKind) (item : Json) : Json :=
  if blockType item = some "text" then item.modify "text" (summarizeString env callId kind)
  else item

/-- Only the content of the block is touched. -/
def summarizeAnthropicToolResult (callId : Option String) (kind : ToolResultKind) (block : Json) :
    Json :=
  block.modify "content" fun inner => match inner with
    | .array items => .array (items.map (summarizeItem env callId kind))
    | inner => summarizeString env callId kind inner

variable (toolNames : String → Option String)

def resultKind (callId : Option String) : ToolResultKind :=
  ((callId.bind toolNames).map classifyToolName).getD .other

def summarizeBlock (block : Json) : Json :=
  if blockType block = some "tool_result" then
    let callId := (block.get "tool_use_id").bind Json.asStr
    summarizeAnthropicToolResult env callId (resultKind toolNames callId) block
  else block

def mapItems (f : Json → Json) : Json → Json
  | .array items => .array (items.map f)
  | v => v

def role (msg : Json) : String := msg.strField "role"

/-- The pruned form of a message, from its own content. -/
def summarizeMessage (msg : Json) : Json :=
  if role msg = "user" then msg.modify "content" (mapItems (summarizeBlock env toolNames))
  else if role msg = "tool" then
    let callId := (msg.get "tool_call_id").bind Json.asStr
    msg.modify "content" (summarizeString env callId (resultKind toolNames callId))
  else msg

/-! ## Inputs of failed calls -/

def purgedInputKey : String := "lean_ctx_purged"

def purgedInput : Json := .object [(purgedInputKey, .string ("input removed after failed tool " ++
  "call — the error text in the matching tool_result is preserved"))]

def purgedInputMinBytes : ℕ := 160

def contentBlocks (msg : Json) : List Json := ((msg.get "content").bind Json.asArray).getD []

/-- The call whose failed result the block is. -/
def erroredId (block : Json) : Option String :=
  if blockType block = some "tool_result" ∧ (block.get "is_error").bind Json.asBool = some true then
    (block.get "tool_use_id").bind Json.asStr
  else none

/-- The calls that a failed result in the window belongs to. -/
def errored (window : List Json) : List String :=
  window.flatMap fun msg => (contentBlocks msg).filterMap erroredId

/-- The input is large, not yet removed, and may be. -/
def removable (input : Json) : Bool :=
  !hasKey purgedInputKey input && purgedInputMinBytes ≤ (env.serialized input).utf8ByteSize &&
    !env.isProtected

/-- The call whose input is removed once it has failed. -/
def purgeableId (block : Json) : Option String :=
  if blockType block = some "tool_use" ∧ ((block.get "input").any (removable env)) then
    (block.get "id").bind Json.asStr
  else none

def purgeBlock (failed : List String) (block : Json) : Json :=
  if (purgeableId env block).any failed.contains then block.modify "input" fun _ => purgedInput
  else block

def purgeMessage (failed : List String) (msg : Json) : Json :=
  if role msg = "assistant" then msg.modify "content" (mapItems (purgeBlock env failed)) else msg

def purgeErroredToolInputs (window : List Json) : List Json :=
  window.map (purgeMessage env (errored window))

def pruneHistoryRange (messages : List Json) (pruneStart pruneEnd : ℕ) : List Json :=
  let last := min pruneEnd messages.length
  let first := min pruneStart last
  let window := ((messages.take last).drop first).map (summarizeMessage env toolNames)
  messages.take first ++ purgeErroredToolInputs env window ++ messages.drop last

/-- The messages of a turn that are pruned. -/
def window (cached : ℕ) (messages : List Json) : List Json :=
  (messages.take (pruneBoundary .cacheAware messages.length)).drop cached

/-- The messages of a turn as they are forwarded. -/
def prunedTurn (cached : ℕ) (messages : List Json) : List Json :=
  pruneHistoryRange env toolNames messages cached (pruneBoundary .cacheAware messages.length)

/-! ## What pruning depends on -/

variable {env toolNames}

theorem role_modify_content (f : Json → Json) (msg : Json) :
    role (msg.modify "content" f) = role msg := by
  rw [role, role, Json.strField, Json.strField, Json.get_modify_of_ne (by decide)]

/-- Of the messages of the assistant, nothing is shortened. -/
theorem summarizeMessage_assistant {msg : Json} (h : role msg = "assistant") :
    summarizeMessage env toolNames msg = msg := by
  rw [summarizeMessage, if_neg (by rw [h]; decide), if_neg (by rw [h]; decide)]

theorem role_summarizeMessage (msg : Json) :
    role (summarizeMessage env toolNames msg) = role msg := by
  rw [summarizeMessage]
  split_ifs
  · exact role_modify_content _ _
  · exact role_modify_content _ _
  · rfl

theorem erroredId_summarizeBlock (block : Json) :
    erroredId (summarizeBlock env toolNames block) = erroredId block := by
  rw [summarizeBlock]
  split_ifs
  · rw [erroredId, erroredId, blockType, blockType, summarizeAnthropicToolResult,
      Json.get_modify_of_ne (by decide), Json.get_modify_of_ne (by decide),
      Json.get_modify_of_ne (by decide)]
  · rfl

/-- Shortening keeps which calls have failed. -/
theorem erroredIds_summarizeMessage (msg : Json) :
    (contentBlocks (summarizeMessage env toolNames msg)).filterMap erroredId =
      (contentBlocks msg).filterMap erroredId := by
  rw [summarizeMessage]
  split_ifs with huser htool
  · rw [contentBlocks, contentBlocks, Json.get_modify_self]
    cases hcontent : msg.get "content" with
    | none => rfl
    | some content =>
      cases content with
      | array items =>
        simp only [Option.map_some, mapItems, Option.bind_some, Json.asArray, Option.getD_some,
          List.filterMap_map]
        apply List.filterMap_congr
        intro block _
        exact erroredId_summarizeBlock block
      | _ => rfl
  · rw [contentBlocks, contentBlocks, Json.get_modify_self]
    cases hcontent : msg.get "content" with
    | none => rfl
    | some content =>
      cases content with
      | string s =>
        simp only [Option.map_some, summarizeString]
        split_ifs <;> rfl
      | _ => rfl
  · rfl

theorem errored_summarize (window : List Json) :
    errored (window.map (summarizeMessage env toolNames)) = errored window := by
  rw [errored, List.flatMap_map, errored]
  apply List.flatMap_congr
  intro msg _
  exact erroredIds_summarizeMessage msg

/-- With more failed calls, a block stays as it was unless its call is among the new ones. -/
theorem purgeBlock_eq_iff {failed more : List String} (hsub : ∀ id ∈ failed, id ∈ more)
    (block : Json) : purgeBlock env more block = purgeBlock env failed block ↔
      ∀ id, purgeableId env block = some id → id ∈ more → id ∈ failed := by
  cases hid : purgeableId env block with
  | none => simp [purgeBlock, hid]
  | some id =>
    by_cases hfailed : id ∈ failed
    · simp [purgeBlock, hid, hfailed, hsub id hfailed]
    · by_cases hmore : id ∈ more
      · refine iff_of_false ?_ fun h => hfailed (h id rfl hmore)
        intro hsame
        rw [purgeBlock, hid, if_pos (by simpa using hmore), purgeBlock, hid,
          if_neg (by simpa using hfailed)] at hsame
        have hinput := congrArg (Json.get "input") hsame
        rw [Json.get_modify_self] at hinput
        rw [purgeableId] at hid
        split_ifs at hid with hpurgeable
        cases hget : block.get "input" with
        | none => simp [hget] at hpurgeable
        | some input =>
          rw [hget, Option.map_some, Option.some_inj] at hinput
          have hremovable := hpurgeable.2
          rw [hget, ← hinput] at hremovable
          simp [removable, hasKey, purgedInput, Json.get] at hremovable
      · simp [purgeBlock, hid, hfailed, hmore]

theorem purgeMessage_eq_iff {failed more : List String} (hsub : ∀ id ∈ failed, id ∈ more)
    (msg : Json) : purgeMessage env more msg = purgeMessage env failed msg ↔
      (role msg = "assistant" → ∀ block ∈ contentBlocks msg, ∀ id,
        purgeableId env block = some id → id ∈ more → id ∈ failed) := by
  rw [purgeMessage, purgeMessage]
  by_cases hrole : role msg = "assistant"
  · rw [if_pos hrole, if_pos hrole, forall_prop_of_true hrole]
    constructor
    · intro hsame block hblock
      have hcontent := congrArg (Json.get "content") hsame
      rw [Json.get_modify_self, Json.get_modify_self] at hcontent
      cases hget : msg.get "content" with
      | none => simp [contentBlocks, hget] at hblock
      | some content =>
        cases content with
        | array items =>
          simp only [hget, Option.map_some, mapItems, Option.some_inj, Json.array.injEq] at hcontent
          rw [contentBlocks, hget] at hblock
          exact (purgeBlock_eq_iff hsub block).mp (List.map_inj_left.mp hcontent block hblock)
        | _ => simp [contentBlocks, hget, Json.asArray] at hblock
    · intro h
      apply Json.modify_congr
      intro content hget
      cases content with
      | array items =>
        rw [mapItems, mapItems]
        congr 1
        apply List.map_congr_left
        intro block hblock
        refine (purgeBlock_eq_iff hsub block).mpr (h block ?_)
        rwa [contentBlocks, hget]
      | _ => rfl
  · simp [hrole]

theorem errored_append (front rest : List Json) :
    errored (front ++ rest) = errored front ++ errored rest := List.flatMap_append

/-! ## Turns -/

theorem pruneBoundary_le (len : ℕ) : pruneBoundary .cacheAware len ≤ len :=
  (Nat.div_mul_le_self _ _).trans (Nat.sub_le _ _)

theorem pruneBoundary_mono {len len' : ℕ} (h : len ≤ len') :
    pruneBoundary .cacheAware len ≤ pruneBoundary .cacheAware len' :=
  Nat.mul_le_mul_right _ (Nat.div_le_div_right (Nat.sub_le_sub_right h _))

theorem drop_min_eq_window (cached : ℕ) (messages : List Json) :
    (messages.take (pruneBoundary .cacheAware messages.length)).drop
      (min cached (pruneBoundary .cacheAware messages.length)) = window cached messages := by
  by_cases hcached : cached ≤ pruneBoundary .cacheAware messages.length
  · rw [min_eq_left hcached, window]
  · have hnone : ∀ k, pruneBoundary .cacheAware messages.length ≤ k →
        (messages.take (pruneBoundary .cacheAware messages.length)).drop k = [] := by
      intro k hk
      apply List.drop_eq_nil_of_le
      rw [List.length_take]
      omega
    rw [min_eq_right (by omega), window, hnone _ le_rfl, hnone cached (by omega)]

/-- A message of the window, as it is forwarded. -/
def forwarded (env : Settings) (toolNames : String → Option String) (failed : List String)
    (msg : Json) : Json :=
  purgeMessage env failed (summarizeMessage env toolNames msg)

theorem prunedTurn_eq (cached : ℕ) (messages : List Json) :
    prunedTurn env toolNames cached messages =
      messages.take (min cached (pruneBoundary .cacheAware messages.length)) ++
        (window cached messages).map
          (forwarded env toolNames (errored (window cached messages))) ++
        messages.drop (pruneBoundary .cacheAware messages.length) := by
  simp only [prunedTurn, pruneHistoryRange, purgeErroredToolInputs,
    min_eq_left (pruneBoundary_le messages.length)]
  rw [drop_min_eq_window, errored_summarize, List.map_map]
  rfl

/-- What is forwarded of the messages before a position up to the boundary. -/
theorem take_prunedTurn {cached n : ℕ} {messages : List Json}
    (hn : n ≤ pruneBoundary .cacheAware messages.length) :
    (prunedTurn env toolNames cached messages).take n =
      messages.take (min cached n) ++ ((messages.take n).drop cached).map
        (forwarded env toolNames (errored (window cached messages))) := by
  have hlen := pruneBoundary_le messages.length
  rw [prunedTurn_eq, List.append_assoc]
  by_cases hcached : cached ≤ n
  · have hstart : min cached (pruneBoundary .cacheAware messages.length) = cached :=
      min_eq_left (hcached.trans hn)
    have hfront : (messages.take cached).length = cached := by
      rw [List.length_take]
      omega
    have hwindow : (window cached messages).take (n - cached) = (messages.take n).drop cached := by
      rw [window, List.take_drop, List.take_take]
      congr 2
      omega
    have hshort : n - cached ≤ (window cached messages).length := by
      rw [window, List.length_drop, List.length_take]
      omega
    rw [hstart, min_eq_left hcached, List.take_append, hfront, List.take_of_length_le (by omega),
      List.take_append_of_le_length (by simpa using hshort), ← List.map_take, hwindow]
  · have hstart : n ≤ min cached (pruneBoundary .cacheAware messages.length) :=
      le_min (by omega) hn
    have hfront : n ≤ (messages.take
        (min cached (pruneBoundary .cacheAware messages.length))).length := by
      rw [List.length_take]
      exact le_min hstart (hn.trans hlen)
    have hmin : min cached n = n := min_eq_right (by omega)
    have hnone : (messages.take n).drop cached = [] := by
      apply List.drop_eq_nil_of_le
      rw [List.length_take]
      omega
    rw [hmin, hnone, List.map_nil, List.append_nil, List.take_append_of_le_length hfront,
      List.take_take, min_eq_left hstart]

/-- The window only grows. -/
theorem window_append (cached : ℕ) (messages more : List Json) :
    ∃ rest, window cached (messages ++ more) = window cached messages ++ rest := by
  have hshared : (messages ++ more).take (pruneBoundary .cacheAware messages.length) =
      messages.take (pruneBoundary .cacheAware messages.length) :=
    List.take_append_of_le_length (pruneBoundary_le _)
  have hmono : pruneBoundary .cacheAware messages.length ≤
      pruneBoundary .cacheAware (messages ++ more).length := pruneBoundary_mono (by simp)
  obtain ⟨rest, hrest⟩ : messages.take (pruneBoundary .cacheAware messages.length) <+:
      (messages ++ more).take (pruneBoundary .cacheAware (messages ++ more).length) := by
    rw [← hshared]
    exact List.take_prefix_take_left hmono
  refine ⟨rest.drop (cached - (messages.take
    (pruneBoundary .cacheAware messages.length)).length), ?_⟩
  rw [window, window, ← hrest, List.drop_append]

/-- The same is forwarded with more failed calls, unless an input is removed. -/
theorem forwarded_eq_iff {failed more : List String} (hsub : ∀ id ∈ failed, id ∈ more)
    (msg : Json) : forwarded env toolNames more msg = forwarded env toolNames failed msg ↔
      (role msg = "assistant" → ∀ block ∈ contentBlocks msg, ∀ id,
        purgeableId env block = some id → id ∈ more → id ∈ failed) := by
  rw [forwarded, forwarded, purgeMessage_eq_iff hsub, role_summarizeMessage]
  by_cases hrole : role msg = "assistant"
  · rw [summarizeMessage_assistant hrole]
  · simp [hrole]

/-- Of every message before the boundary of a turn, the same is forwarded at a later turn, exactly
when no call in the window whose input would be removed has its failed results in the window of
the later turn only. -/
theorem prefix_stable_iff (cached : ℕ) (messages more : List Json) :
    (prunedTurn env toolNames cached (messages ++ more)).take
          (pruneBoundary .cacheAware messages.length) =
        (prunedTurn env toolNames cached messages).take
          (pruneBoundary .cacheAware messages.length) ↔
      ∀ msg ∈ window cached messages, role msg = "assistant" → ∀ block ∈ contentBlocks msg,
        ∀ id, purgeableId env block = some id →
          id ∈ errored (window cached (messages ++ more)) →
          id ∈ errored (window cached messages) := by
  have hlen := pruneBoundary_le messages.length
  have hmono : pruneBoundary .cacheAware messages.length ≤
      pruneBoundary .cacheAware (messages ++ more).length := pruneBoundary_mono (by simp)
  have hcached : min cached (pruneBoundary .cacheAware messages.length) ≤ messages.length :=
    (min_le_right _ _).trans hlen
  have hgrows : ∀ id ∈ errored (window cached messages),
      id ∈ errored (window cached (messages ++ more)) := by
    intro id hid
    obtain ⟨rest, hrest⟩ := window_append cached messages more
    rw [hrest, errored_append]
    exact List.mem_append_left _ hid
  rw [take_prunedTurn hmono, take_prunedTurn le_rfl, List.take_append_of_le_length hlen,
    List.take_append_of_le_length hcached, List.append_cancel_left_eq, ← window,
    List.map_inj_left]
  exact forall₂_congr fun msg _ => forwarded_eq_iff hgrows msg

end Prune

/-- No protection and no recovery store. -/
def plainSettings : Settings where
  isProtected := false
  shortenWithCopy _ _ _ := none
  persist _ := none
  inbandLocator _ := none
  looksLikeSourceCode _ := false
  serialized := Json.text

def plainMessage (role : String) : Json :=
  .object [("content", .string "ok"), ("role", .string role)]

/-- A call with a large input, and its failed result in the next message. -/
def failedWrite : List Json :=
  [.object [("content", .array [.object [("id", .string "call_1"),
      ("input", .object [("content", .string (String.ofList (List.replicate 200 'x')))]),
      ("name", .string "Write"), ("type", .string "tool_use")]]), ("role", .string "assistant")],
    .object [("content", .array [.object [("content", .string "permission denied"),
      ("is_error", .bool true), ("tool_use_id", .string "call_1"),
      ("type", .string "tool_result")]]), ("role", .string "user")]]

/-- A turn of 24 messages, in which the call is the last one before the boundary. -/
def earlyTurn : List Json :=
  List.replicate 15 (plainMessage "user") ++ failedWrite ++ List.replicate 7 (plainMessage "assistant")

/-- At the turn of 40 messages the input of the call is removed, which was forwarded before. -/
theorem prefix_changes :
    (prunedTurn plainSettings (fun id => if id = "call_1" then some "Write" else none) 0
        (earlyTurn ++ List.replicate 16 (plainMessage "user"))).take
        (pruneBoundary .cacheAware earlyTurn.length) ≠
      (prunedTurn plainSettings (fun id => if id = "call_1" then some "Write" else none) 0
        earlyTurn).take (pruneBoundary .cacheAware earlyTurn.length) := by
  decide +kernel

end HistoryPrune

end LeanCtx
