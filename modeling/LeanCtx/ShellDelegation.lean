import LeanCtx.Effect
import LeanCtx.ShellWords

/-!
# Commands behind delegation wrappers

`env`, `nice`, `xargs` and others run the command that follows them. The gate
looks through a wrapper: it joins the words that follow with blanks and checks
the text again, as a segment of its own.
-/

namespace LeanCtx.ShellAllowlist

open ByteText (isWhitespace)

def texts (words : List String) : List Text := words.map String.toList

def pythonNonEvalModules : List Text := texts ["pytest", "unittest", "pip", "venv", "mypy"]

def pythonEvalModules : List Text := texts ["timeit", "pdb", "IPython", "code"]

def unconditionalBlocked : List Text := texts ["eval", "exec", "source", "."]

def shellBuiltins : List Text := texts
  ["exit", "command", ":", "true", "false", "cd", "echo", "test", "[", "[[", "read", "set",
    "unset", "export", "local", "return", "shift", "wait", "trap", "type", "hash", "pwd", "printf",
    "let", "declare", "readonly", "getopts", "umask", "ulimit", "break", "continue", "bg", "fg",
    "jobs", "times", "builtin", "enable", "shopt", "complete", "compgen"]

def interpreterCommands : List Text := texts
  ["python", "python3", "python2", "node", "ruby", "perl", "lua", "php", "bash", "sh", "zsh",
    "fish", "dash", "ksh"]

def evalFlags : List Text := texts
  ["-c", "-e", "-r", "-p", "--eval", "--exec", "-exec", "--print", "--run"]

def delegationCommands : List Text := texts
  ["env", "nice", "timeout", "sudo", "doas", "xargs", "nohup", "command", "builtin"]

def maxDelegationDepth : ℕ := 3

/-! ## The options of a wrapper -/

/-- How a wrapper's own options consume words. -/
structure WrapperOptions where
  shortValue : Text := []
  shortOptionalValue : Text := []
  longValue : List Text := []
  /-- Short options that only look a name up; nothing runs. -/
  lookupOnly : Text := []
  /-- The option whose value is cut into words and read in place. -/
  splitString : Option (Char × Text) := none
  operands : ℕ := 0
  assignments : Bool := false
  bareDash : Bool := false

def wrapperOptions (wrapper : Text) : WrapperOptions :=
  if wrapper = "env".toList then
    { shortValue := "uCSPaLU".toList
      longValue := texts ["unset", "chdir", "split-string", "argv0"]
      splitString := some ('S', "split-string".toList)
      assignments := true
      bareDash := true }
  else if wrapper = "nice".toList then
    { shortValue := ['n'], longValue := texts ["adjustment"] }
  else if wrapper = "timeout".toList then
    { shortValue := "sk".toList, longValue := texts ["signal", "kill-after"], operands := 1 }
  else if wrapper = "sudo".toList then
    { shortValue := "CDghpRrTtUu".toList
      longValue := texts ["close-from", "chdir", "group", "host", "prompt", "chroot", "role",
        "command-timeout", "type", "other-user", "user"]
      assignments := true }
  else if wrapper = "doas".toList then { shortValue := "Cua".toList }
  else if wrapper = "xargs".toList then
    { shortValue := "adEIJLnPRSs".toList
      shortOptionalValue := "eil".toList
      longValue := texts ["arg-file", "delimiter", "max-args", "max-procs", "max-chars",
        "process-slot-var"] }
  else if wrapper = "command".toList then { lookupOnly := "vV".toList }
  else {}

/-- `NAME=VALUE` whose name is assembled by an expansion. -/
def hasDynamicAssignmentName (word : Text) : Bool :=
  (splitOnce '=' word).any fun p =>
    p.1 ≠ [] && p.1.any fun c => ['$', '`', '{', '*', '?', '[', '\\'].contains c

namespace WrapperOptions

variable (opts : WrapperOptions)

/-- The value of an option, when it is text that the wrapper reads in its place, and the words
that are left. -/
def given (splits takesNext : Bool) (attached : Option Text) (rest : List Text) :
    Option Text × List Text :=
  match attached with
  | some value => (if splits then some value else none, rest)
  | none => if takesNext then (if splits then rest.head? else none, rest.tail) else (none, rest)

def longOption (rest : List Text) (long : Text) : Option Text × List Text :=
  let (name, attached) := match splitOnce '=' long with
    | some (name, value) => (name, some value)
    | none => (long, none)
  -- any prefix of an option's name is the option
  given (opts.splitString.any fun p => name.isPrefixOf p.2)
    (opts.longValue.any fun o => name.isPrefixOf o) attached rest

/-- A cluster of short options; `none` when the wrapper only looks a name up. -/
def shortOptions (rest : List Text) : Text → Option (Option Text × List Text)
  | [] => some (none, rest)
  | c :: cluster =>
    if opts.lookupOnly.contains c then none
    else if opts.shortOptionalValue.contains c then some (none, rest)
    else if opts.shortValue.contains c then
      some (given (opts.splitString.any fun p => p.1 = c) true
        (if cluster = [] then none else some cluster) rest)
    else shortOptions rest cluster

def option (word : Text) (rest : List Text) : Option (Option Text × List Text) :=
  match word with
  | '-' :: '-' :: long => some (opts.longOption rest long)
  | _ => opts.shortOptions rest word.tail

end WrapperOptions

/-- The characters of the words, each word with the blank after it. -/
def weight (words : List Text) : ℕ := (words.map fun word => word.length + 1).sum

@[simp] theorem weight_nil : weight [] = 0 := rfl

@[simp] theorem weight_cons (word : Text) (words : List Text) :
    weight (word :: words) = word.length + 1 + weight words := by
  simp [weight]

theorem weight_append (words words' : List Text) :
    weight (words ++ words') = weight words + weight words' := by
  simp [weight]

theorem weight_shellTokenizeFrom_le (q : Quoting) (current input : Text) :
    weight (shellTokenizeFrom q current input) ≤ current.length + input.length + 1 := by
  fun_induction shellTokenizeFrom q current input
  case case5 q current _ _ _ _ ih =>
    -- a backslash at the end is kept inside double quotes
    have hlength : (if q.inDouble then current ++ ['\\'] else current).length ≤ current.length + 1 := by
      split_ifs <;> simp
    simp only [List.length_nil, List.length_singleton] at ih ⊢
    omega
  all_goals simp_all
  all_goals omega

theorem weight_shellTokenize_le (value : Text) : weight (shellTokenize value) ≤ value.length + 1 := by
  have h := weight_shellTokenizeFrom_le .none [] value
  rwa [List.length_nil, Nat.zero_add] at h

theorem splitOnce_length {c : Char} {s name value : Text} (h : splitOnce c s = some (name, value)) :
    value.length < s.length := by
  unfold splitOnce at h
  split_ifs at h with hc
  cases h
  have hne : s.dropWhile (· ≠ c) ≠ [] := by
    rw [Ne, List.dropWhile_eq_nil_iff]
    intro hall
    simpa using hall c hc
  have hle := (List.dropWhile_sublist (· ≠ c) (l := s)).length_le
  have hpos := List.length_pos_of_ne_nil hne
  rw [List.length_tail]
  omega

theorem weight_head_tail {rest : List Text} {value : Text} (h : rest.head? = some value) :
    value.length + 1 + weight rest.tail = weight rest := by
  cases rest with
  | nil => cases h
  | cons word rest =>
    cases h
    rw [weight_cons, List.tail_cons]

theorem weight_tail_le (rest : List Text) : weight rest.tail ≤ weight rest := by
  cases rest with
  | nil => exact Nat.le_refl 0
  | cons word rest =>
    rw [weight_cons, List.tail_cons]
    omega

/-- No more words are left than there were, and the text read in the place of an option weighs
no more than what the option took. -/
def GivesBack (taken : ℕ) (rest : List Text) (given : Option Text × List Text) : Prop :=
  weight given.2 ≤ weight rest ∧
    ∀ value, given.1 = some value → value.length + 1 + weight given.2 ≤ taken + weight rest

theorem GivesBack.mono {taken taken' : ℕ} {rest : List Text} {given : Option Text × List Text}
    (h : GivesBack taken rest given) (hle : taken ≤ taken') : GivesBack taken' rest given := by
  refine ⟨h.1, ?_⟩
  intro value hvalue
  have := h.2 value hvalue
  omega

namespace WrapperOptions

variable {opts : WrapperOptions}

theorem givesBack_given {taken : ℕ} (splits takesNext : Bool) {attached : Option Text}
    (h : ∀ value, attached = some value → value.length < taken) (rest : List Text) :
    GivesBack taken rest (given splits takesNext attached rest) := by
  unfold given
  cases attached with
  | some value =>
    have hlt := h value rfl
    refine ⟨Nat.le_refl _, ?_⟩
    intro value' hvalue
    dsimp only at hvalue ⊢
    split_ifs at hvalue
    cases hvalue
    omega
  | none =>
    cases takesNext with
    | false => exact ⟨Nat.le_refl _, fun value hvalue => by cases hvalue⟩
    | true =>
      refine ⟨weight_tail_le rest, ?_⟩
      intro value hvalue
      dsimp only [if_true] at hvalue ⊢
      split_ifs at hvalue
      have := weight_head_tail hvalue
      simp only [if_true]
      omega

theorem givesBack_longOption (rest : List Text) (long : Text) :
    GivesBack long.length rest (opts.longOption rest long) := by
  unfold longOption
  cases hsplit : splitOnce '=' long with
  | none => exact givesBack_given _ _ (fun value hvalue => by cases hvalue) rest
  | some p =>
    refine givesBack_given _ _ (fun value hvalue => ?_) rest
    cases hvalue
    exact splitOnce_length hsplit

theorem givesBack_shortOptions {rest : List Text} {cluster : Text}
    {left : Option Text × List Text} (h : opts.shortOptions rest cluster = some left) :
    GivesBack cluster.length rest left := by
  induction cluster with
  | nil =>
    cases h
    exact ⟨Nat.le_refl _, fun value hvalue => by cases hvalue⟩
  | cons c cluster ih =>
    rw [shortOptions] at h
    split_ifs at h with hlookup hoptional hvalue hlast
    · cases h
      exact ⟨Nat.le_refl _, fun value hvalue => by cases hvalue⟩
    · cases h
      exact givesBack_given _ _ (fun value hvalue => by cases hvalue) rest
    · cases h
      refine givesBack_given _ _ (fun value hvalue => ?_) rest
      cases hvalue
      exact Nat.lt_succ_self _
    · exact (ih h).mono (Nat.le_succ _)

theorem givesBack_option {word : Text} {rest : List Text} {left : Option Text × List Text}
    (h : opts.option word rest = some left) : GivesBack word.length rest left := by
  unfold option at h
  split at h
  · cases h
    exact (givesBack_longOption rest _).mono (Nat.le_add_right _ 2)
  · exact (givesBack_shortOptions h).mono (by rw [List.length_tail]; exact Nat.sub_le _ _)

end WrapperOptions

/-- The assignments before the command that a wrapper runs, and the command with its arguments. -/
def delegatedPartsFrom (opts : WrapperOptions) (operands : ℕ) (optionsDone : Bool)
    (assignments words : List Text) : List Text × List Text :=
  match words with
  | [] => (assignments, [])
  | word :: rest =>
    if word.head? = some '-' ∧ (1 < word.length ∨ opts.bareDash) ∧ optionsDone = false then
      if word = ['-', '-'] then delegatedPartsFrom opts operands true assignments rest
      else match _hoption : opts.option word rest with
        | none => (assignments, [])
        | some (none, rest) => delegatedPartsFrom opts operands optionsDone assignments rest
        | some (some value, rest) =>
          delegatedPartsFrom opts operands optionsDone assignments (shellTokenize value ++ rest)
    else if opts.assignments ∧ (isAssignment word ∨ hasDynamicAssignmentName word) then
      delegatedPartsFrom opts operands true (assignments ++ [word]) rest
    else if 0 < operands then delegatedPartsFrom opts (operands - 1) true assignments rest
    else (assignments, word :: rest)
termination_by weight words
decreasing_by
  · rw [weight_cons]
    omega
  · have hle := (WrapperOptions.givesBack_option _hoption).1
    dsimp only at hle
    rw [weight_cons]
    omega
  · have hvalue := (WrapperOptions.givesBack_option _hoption).2 value rfl
    have hle := weight_shellTokenize_le value
    dsimp only at hvalue
    rw [weight_append, weight_cons]
    omega
  · rw [weight_cons]
    omega
  · rw [weight_cons]
    omega

def delegatedParts (wrapper : Text) (words : List Text) : List Text × List Text :=
  delegatedPartsFrom (wrapperOptions wrapper) (wrapperOptions wrapper).operands false [] words

/-- The delegated command and its arguments, none when the wrapper runs nothing. -/
def delegatedCommandTokens (wrapper : Text) (words : List Text) : List Text :=
  (delegatedParts wrapper words).2

/-! ## The allowlist -/

/-- The allowlist with its grammar; a walk that collects misses goes on at a program that is not
listed. -/
structure Allowlist where
  entries : List Text
  subcommandScoping : Bool
  collectsMisses : Bool

def splitWhitespace (s : Text) : List Text := (s.splitOnP isWhitespace).filter (· ≠ [])

def entryMatches (entry : Text) (tokens : List Text) : Bool :=
  let words := splitWhitespace entry
  match words, tokens with
  | [], _ => false
  | _, [] => false
  | [word], base :: _ => base = word
  | words, tokens =>
    if words.getLast? = some ['*'] then words.dropLast.isPrefixOf tokens
    else tokens = words

def matchesAllowlistEntry (tokens : List Text) (allowlist : Allowlist) : Bool :=
  match tokens with
  | [] => false
  | base :: _ =>
    if allowlist.subcommandScoping then allowlist.entries.any fun entry => entryMatches entry tokens
    else allowlist.entries.any fun entry =>
      entry = base || (splitWhitespace entry).head? = some base

/-! ## Inline code of interpreters -/

def scriptFileRecipe (base : Text) : String :=
  let name := String.ofList base
  let ext :=
    if "python".toList.isPrefixOf base then "py"
    else if base ∈ texts ["node", "deno", "bun"] then "js"
    else if base = "perl".toList then "pl"
    else if base = "ruby".toList then "rb"
    else if base = "php".toList then "php"
    else "txt"
  "Write the code to /tmp/lean-ctx-snippet." ++ ext ++ " with your host's file-write tool " ++
    "(not ctx_patch: /tmp is outside the project), then run `" ++ name ++
    " /tmp/lean-ctx-snippet." ++ ext ++ "`. Edit project files with ctx_patch; only the user can " ++
    "set shell_allow_inline_scripts = true."

def heredocBlockedMessage (base : Text) : String :=
  "[BLOCKED] " ++ String.ofList base ++
    " <<: heredoc stdin is inline code execution and is blocked.\n" ++ scriptFileRecipe base

/-- The module that a short-flag token of python selects. -/
def pythonModuleOf (token : Text) (next : Option Text) : Option Text :=
  match token with
  | '-' :: '-' :: _ => none
  | '-' :: flags =>
    match splitOnce 'm' flags with
    | none => none
    | some (_, []) => next
    | some (_, rest) => some rest
  | _ => none

/-- Combined flags such as `-pe` that contain an eval character. -/
def hasEvalFlagPrefix (token : Text) : Bool :=
  match token with
  | '-' :: '-' :: _ => false
  | '-' :: flags => 2 ≤ flags.length && flags.any fun c => ['c', 'e', 'r', 'p'].contains c
  | _ => false

/-- The arguments of an interpreter, up to a python module that takes no code. -/
def checkEvalFlags (base : Text) (python : Bool) : List Text → Except String Unit
  | [] => .ok ()
  | token :: rest =>
    let name := String.ofList base
    if python && (pythonModuleOf token rest.head?).any pythonEvalModules.contains then
      .error ("[BLOCKED] " ++ name ++ " -m " ++
        String.ofList ((pythonModuleOf token rest.head?).getD []) ++
        ": inline code execution is blocked.\n" ++ scriptFileRecipe base)
    else if python && token = "-m".toList && rest.head?.any pythonNonEvalModules.contains then .ok ()
    else if evalFlags.contains token then
      .error ("[BLOCKED] " ++ name ++ " " ++ String.ofList token ++
        ": inline code execution is blocked.\n" ++ scriptFileRecipe base)
    else if hasEvalFlagPrefix token then
      .error ("[BLOCKED] " ++ name ++ " " ++ String.ofList token ++
        ": a combined flag with inline code execution is blocked.\n" ++ scriptFileRecipe base)
    else checkEvalFlags base python rest

def checkInlineCode (base : Text) (args : List Text) : Except String Unit := do
  let python := "python".toList.isPrefixOf base || "pypy".toList.isPrefixOf base
  checkEvalFlags base python args
  if args.any fun token => token.tails.any fun s => ['<', '<'].isPrefixOf s then
    .error (heredocBlockedMessage base)

/-! ## The walk through wrappers -/

/-- The interpreters that the user's settings allow, and the checks that the target of a wrapper
gets beside those below. -/
structure Gate where
  claudeAllowsInterpreterInline : Text → Bool
  checkDelegatedTarget : Text → List Text → Option Allowlist → Except String Unit

section Walk

variable (gate : Gate) (allowlist : Option Allowlist) (inlineOk : Bool)

/-- Inline code is looked for unless the user has opted out of it. -/
def checkInterpreter (base : Text) (args : List Text) : Except String Unit :=
  if interpreterCommands.contains base && !inlineOk &&
      !gate.claudeAllowsInterpreterInline base then
    checkInlineCode base args
  else .ok ()

/-- What is asked of the command behind a wrapper before its words are read again. -/
def checkTarget (base first : Text) (rest : List Text) : Except String Unit := do
  let delegated := baseName first
  if unconditionalBlocked.contains delegated then
    .error ("[BLOCKED — DO NOT RETRY] '" ++ String.ofList base ++ "' delegates to '" ++
      String.ofList delegated ++
      "', which is unconditionally blocked. This is a permanent security restriction.")
  match allowlist with
  | none => .ok ()
  | some al =>
    if delegated ≠ [] && !shellBuiltins.contains delegated &&
        !matchesAllowlistEntry (delegated :: rest) al && !al.collectsMisses then
      .error ("[BLOCKED — DO NOT RETRY] '" ++ String.ofList base ++ "' delegates to '" ++
        String.ofList delegated ++
        "' which is not in the shell allowlist. This is a permanent restriction.")
    else .ok ()
  gate.checkDelegatedTarget (blankJoin (first :: rest)) (delegated :: rest) allowlist

def tooManyWrappers : String :=
  "[BLOCKED — DO NOT RETRY] More than " ++ toString maxDelegationDepth ++
    " nested delegation wrappers (env, nice, timeout, …). Call the command directly.\n" ++
    "This is a permanent security restriction."

def checkInterpreterInner (segment : Text) (depth : ℕ) : Except String Unit :=
  if maxDelegationDepth < depth then .error tooManyWrappers
  else
    match heardWords segment with
    | [] => .ok ()
    | first :: args => do
      let base := baseName first
      checkInterpreter gate inlineOk base args
      if delegationCommands.contains base then
        match delegatedCommandTokens base args with
        | [] => .ok ()
        | target :: rest =>
          checkTarget gate allowlist base target rest
          checkInterpreterInner (blankJoin (target :: rest)) (depth + 1)
termination_by maxDelegationDepth + 1 - depth

end Walk

/-! ## What a wrapper lets through -/

section Accepted

variable {gate : Gate} {allowlist : Option Allowlist} {inlineOk : Bool}

theorem checkInterpreterInner_congr {segment segment' : Text}
    (h : heardWords segment = heardWords segment') (depth : ℕ) :
    checkInterpreterInner gate allowlist inlineOk segment depth =
      checkInterpreterInner gate allowlist inlineOk segment' depth := by
  rw [checkInterpreterInner.eq_def, checkInterpreterInner.eq_def, h]

/-- A wrapper that is let through has a target that is let through one level deeper. -/
theorem accepted_target {segment first : Text} {args : List Text} {depth : ℕ}
    (hheard : heardWords segment = first :: args)
    (hwrapper : delegationCommands.contains (baseName first) = true)
    (h : checkInterpreterInner gate allowlist inlineOk segment depth = .ok ()) :
    delegatedCommandTokens (baseName first) args = [] ∨
      checkInterpreterInner gate allowlist inlineOk
        (blankJoin (delegatedCommandTokens (baseName first) args)) (depth + 1) = .ok () := by
  rw [checkInterpreterInner.eq_def] at h
  split_ifs at h with hdepth
  rw [hheard] at h
  dsimp only at h
  obtain ⟨_, -, h⟩ := except_bind_eq_ok.mp h
  rw [if_pos hwrapper] at h
  split at h
  · rename_i hnone
    exact .inl hnone
  · rename_i target rest hsome
    obtain ⟨_, -, h⟩ := except_bind_eq_ok.mp h
    rw [hsome]
    exact .inr h

/-- What is let through inside wrappers is let through outside of one of them. -/
theorem accepted_shallower {segment : Text} {depth : ℕ}
    (h : checkInterpreterInner gate allowlist inlineOk segment (depth + 1) = .ok ()) :
    checkInterpreterInner gate allowlist inlineOk segment depth = .ok () := by
  induction hn : maxDelegationDepth + 1 - depth using Nat.strong_induction_on
    generalizing segment depth with
  | h n ih =>
    rw [checkInterpreterInner.eq_def] at h ⊢
    split_ifs at h with hdeep
    rw [if_neg (by omega)]
    cases hheard : heardWords segment with
    | nil => rfl
    | cons first args =>
      rw [hheard] at h
      dsimp only at h ⊢
      obtain ⟨u, hinline, h⟩ := except_bind_eq_ok.mp h
      refine except_bind_eq_ok.mpr ⟨u, hinline, ?_⟩
      split_ifs at h ⊢ with hwrapper
      · split at h
        · rfl
        · obtain ⟨v, htarget, h⟩ := except_bind_eq_ok.mp h
          refine except_bind_eq_ok.mpr ⟨v, htarget, ?_⟩
          exact ih (maxDelegationDepth + 1 - (depth + 1)) (by omega) h rfl
      · rfl

end Accepted

/-- The wrappers that are written without options. -/
inductive Wrapper
  | nohup
  | nice
  | env
  | command
  | builtin
  | xargs
  | timeout5
deriving DecidableEq

namespace Wrapper

def name : Wrapper → Text
  | nohup => "nohup".toList
  | nice => "nice".toList
  | env => "env".toList
  | command => "command".toList
  | builtin => "builtin".toList
  | xargs => "xargs".toList
  | timeout5 => "timeout".toList

def operands : Wrapper → List Text
  | timeout5 => [['5']]
  | _ => []

def words (w : Wrapper) : List Text := w.name :: w.operands

theorem plain_words (w : Wrapper) : ∀ word ∈ w.words, Plain word := by
  cases w <;> decide +kernel

theorem skipped_name (w : Wrapper) : skipped w.name = false := by
  cases w <;> decide

theorem baseName_name (w : Wrapper) : baseName w.name = w.name := by
  cases w <;> decide

theorem delegates (w : Wrapper) : delegationCommands.contains w.name = true := by
  cases w <;> decide

end Wrapper

/-- The quoted words behind wrappers. -/
def wrapped (ws : List Wrapper) (words : List Text) : Text :=
  blankJoin (ws.flatMap Wrapper.words ++ words.map quoteWord)

theorem heardWords_wrapped (w : Wrapper) (ws : List Wrapper) {words : List Text}
    (h : ∀ word ∈ words, word ≠ []) :
    heardWords (wrapped (w :: ws) words) = w.words ++ (ws.flatMap Wrapper.words ++ words) := by
  have hraws : ∀ p ∈ ((w :: ws).flatMap Wrapper.words).map (fun word => (word, word)) ++
      words.map (fun word => (quoteWord word, word)), ReadsAs p.1 p.2 := by
    intro p hp
    rw [List.mem_append, List.mem_map, List.mem_map] at hp
    rcases hp with ⟨word, hword, rfl⟩ | ⟨word, hword, rfl⟩
    · obtain ⟨w', -, hword⟩ := List.mem_flatMap.mp hword
      exact readsAs_plain (w'.plain_words word hword)
    · exact readsAs_quoteWord (h word hword)
  have hheard := heardWords_blankJoin hraws
  have hraw : (((w :: ws).flatMap Wrapper.words).map (fun word => (word, word)) ++
      words.map fun word => (quoteWord word, word)).map Prod.fst =
      (w :: ws).flatMap Wrapper.words ++ words.map quoteWord := by
    rw [List.map_append, List.map_map, List.map_map]
    exact congrArg (· ++ _) (List.map_id _)
  have hdrop : (((w :: ws).flatMap Wrapper.words).map (fun word => (word, word)) ++
      words.map fun word => (quoteWord word, word)).dropWhile (fun p => skipped p.1) =
      ((w :: ws).flatMap Wrapper.words).map (fun word => (word, word)) ++
        words.map fun word => (quoteWord word, word) := by
    refine List.dropWhile_cons_of_neg ?_
    rw [w.skipped_name]
    decide
  rw [hraw, hdrop, List.map_append, List.map_map, List.map_map] at hheard
  rw [wrapped, hheard, ← List.append_assoc, ← List.flatMap_cons]
  exact congrArg₂ (· ++ ·) (List.map_id _) (List.map_id _)

/-- At each wrapper, the text that is checked again has the words that were there. -/
def ReadAlike : List Wrapper → List Text → Prop
  | [], _ => True
  | w :: ws, words =>
    heardWords (blankJoin (delegatedCommandTokens w.name
      (w.operands ++ (ws.flatMap Wrapper.words ++ words)))) = heardWords (wrapped ws words) ∧
      ReadAlike ws words

/-- The command is neither an interpreter nor a wrapper. -/
def NamesNoRunner (words : List Text) : Prop :=
  ∀ first args, heardWords (quoted words) = first :: args →
    interpreterCommands.contains (baseName first) = false ∧
      delegationCommands.contains (baseName first) = false

section Laundering

variable {gate : Gate} {allowlist : Option Allowlist} {inlineOk : Bool}

theorem accepted_of_namesNoRunner {words : List Text} (h : NamesNoRunner words) :
    checkInterpreterInner gate allowlist inlineOk (quoted words) 0 = .ok () := by
  rw [checkInterpreterInner.eq_def, if_neg (Nat.not_lt_zero _)]
  cases hheard : heardWords (quoted words) with
  | nil => rfl
  | cons first args =>
    obtain ⟨hinterpreter, hwrapper⟩ := h first args hheard
    dsimp only
    rw [checkInterpreter, hinterpreter, hwrapper]
    rfl

/-- A command that is let through behind wrappers is let through without them, when it names
neither an interpreter nor a wrapper, or when no word is read otherwise at a wrapper. -/
theorem accepted_of_wrapped {ws : List Wrapper} {words : List Text}
    (hwords : ∀ word ∈ words, word ≠ []) (h : NamesNoRunner words ∨ ReadAlike ws words)
    (haccepted : checkInterpreterInner gate allowlist inlineOk (wrapped ws words) 0 = .ok ()) :
    checkInterpreterInner gate allowlist inlineOk (quoted words) 0 = .ok () := by
  rcases h with hrunner | halike
  · exact accepted_of_namesNoRunner hrunner
  induction ws with
  | nil => exact haccepted
  | cons w ws ih =>
    obtain ⟨hsame, halike⟩ := halike
    refine ih ?_ halike
    have hwrapper : delegationCommands.contains (baseName w.name) = true := by
      rw [w.baseName_name]
      exact w.delegates
    have hheard : heardWords (wrapped (w :: ws) words) =
        w.name :: (w.operands ++ (ws.flatMap Wrapper.words ++ words)) :=
      heardWords_wrapped w ws hwords
    have htarget := accepted_target hheard hwrapper haccepted
    rw [w.baseName_name] at htarget
    rcases htarget with hnone | htarget
    · -- the wrapper runs nothing, and then there is nothing to check without it
      rw [hnone, blankJoin_nil, heardWords_nil] at hsame
      rw [checkInterpreterInner.eq_def, if_neg (Nat.not_lt_zero _), ← hsame]
    · rw [checkInterpreterInner_congr hsame] at htarget
      exact accepted_shallower htarget

end Laundering

/-! ## Words that read as they stand -/

/-- A word that no wrapper takes for an option or an assignment of its own. -/
structure NoOption (word : Text) : Prop where
  option : word.head? ≠ some '-'
  assignment : isAssignment word = false
  dynamic : hasDynamicAssignmentName word = false

theorem NoOption.not_assignment {word : Text} (h : NoOption word) (opts : WrapperOptions) :
    ¬(opts.assignments ∧ (isAssignment word ∨ hasDynamicAssignmentName word)) := by
  rintro ⟨-, hassignment | hdynamic⟩
  · rw [h.assignment] at hassignment
    cases hassignment
  · rw [h.dynamic] at hdynamic
    cases hdynamic

/-- As many operands as the wrapper has are passed over, and the command is what follows them. -/
theorem delegatedPartsFrom_operands (opts : WrapperOptions) {operands : List Text}
    (hoperands : ∀ word ∈ operands, NoOption word) {first : Text} (hfirst : NoOption first)
    (optionsDone : Bool) (assignments rest : List Text) :
    delegatedPartsFrom opts operands.length optionsDone assignments (operands ++ first :: rest) =
      (assignments, first :: rest) := by
  induction operands generalizing optionsDone with
  | nil =>
    rw [List.nil_append, List.length_nil, delegatedPartsFrom, if_neg fun h => hfirst.option h.1,
      if_neg (hfirst.not_assignment opts), if_neg (Nat.lt_irrefl 0)]
  | cons word operands ih =>
    obtain ⟨hword, hoperands⟩ := List.forall_mem_cons.mp hoperands
    rw [List.cons_append, List.length_cons, delegatedPartsFrom, if_neg fun h => hword.option h.1,
      if_neg (hword.not_assignment opts), if_pos (Nat.succ_pos _)]
    exact ih hoperands true

theorem Wrapper.operands_noOption (w : Wrapper) : ∀ word ∈ w.operands, NoOption word := by
  intro word hword
  cases w with
  | timeout5 =>
    rw [List.mem_singleton.mp hword]
    exact ⟨by decide, by decide, by decide⟩
  | _ => exact absurd hword List.not_mem_nil

theorem Wrapper.length_operands (w : Wrapper) :
    (wrapperOptions w.name).operands = w.operands.length := by
  cases w <;> rfl

theorem delegatedCommandTokens_command (w : Wrapper) {first : Text} (rest : List Text)
    (hoption : first.head? ≠ some '-') (hassignment : isAssignment first = false)
    (hdynamic : hasDynamicAssignmentName first = false) :
    delegatedCommandTokens w.name (w.operands ++ first :: rest) = first :: rest := by
  rw [delegatedCommandTokens, delegatedParts, w.length_operands,
    delegatedPartsFrom_operands _ w.operands_noOption ⟨hoption, hassignment, hdynamic⟩]

/-- A command whose words mean nothing to the tokenizer, and whose name no wrapper takes for an
option or an assignment of its own. -/
structure PlainCommand (words : List Text) : Prop where
  plain : ∀ word ∈ words, Plain word
  name : ∃ first rest, words = first :: rest ∧ first.head? ≠ some '-' ∧
    isAssignment first = false ∧ hasDynamicAssignmentName first = false

theorem heardWords_plain_wrapped (w : Wrapper) (ws : List Wrapper) {words : List Text}
    (h : ∀ word ∈ words, Plain word) :
    heardWords (blankJoin ((w :: ws).flatMap Wrapper.words ++ words)) =
      (w :: ws).flatMap Wrapper.words ++ words := by
  have hplain : ∀ word ∈ (w :: ws).flatMap Wrapper.words ++ words, ReadsAs (id word) word := by
    intro word hword
    rw [List.mem_append, List.mem_flatMap] at hword
    rcases hword with ⟨w', -, hword⟩ | hword
    · exact readsAs_plain (w'.plain_words word hword)
    · exact readsAs_plain (h word hword)
  have hheard := heardWords_map hplain
  rw [List.map_id] at hheard
  rw [hheard]
  refine List.dropWhile_cons_of_neg ?_
  change ¬ skipped w.name = true
  rw [w.skipped_name]
  decide

/-- Every such command is read alike behind any wrappers. -/
theorem readAlike_plain {words : List Text} (h : PlainCommand words) (ws : List Wrapper) :
    ReadAlike ws words := by
  induction ws with
  | nil => trivial
  | cons w ws ih =>
    refine ⟨?_, ih⟩
    cases ws with
    | nil =>
      obtain ⟨first, rest, rfl, hoption, hassignment, hdynamic⟩ := h.name
      rw [List.flatMap_nil, List.nil_append,
        delegatedCommandTokens_command w rest hoption hassignment hdynamic]
      exact heardWords_plain h.plain
    | cons w' ws =>
      have hnext : delegatedCommandTokens w.name
          (w.operands ++ ((w' :: ws).flatMap Wrapper.words ++ words)) =
          (w' :: ws).flatMap Wrapper.words ++ words := by
        refine delegatedCommandTokens_command w _ ?_ ?_ ?_ <;> cases w' <;> decide
      rw [hnext, heardWords_plain_wrapped w' ws h.plain,
        heardWords_wrapped w' ws fun word hword => (h.plain word hword).1, List.flatMap_cons,
        List.append_assoc]

def plainGate : Gate where
  claudeAllowsInterpreterInline _ := false
  checkDelegatedTarget _ _ _ := .ok ()

theorem accepted_of_wrapped_script :
    checkInterpreterInner plainGate none false
      (wrapped [.nice, .timeout5] (texts ["bash", "run.sh"])) 0 = .ok () ∧
    checkInterpreterInner plainGate none false (quoted (texts ["bash", "run.sh"])) 0 = .ok () := by
  have haccepted : checkInterpreterInner plainGate none false
      (wrapped [.nice, .timeout5] (texts ["bash", "run.sh"])) 0 = .ok () := by decide +kernel
  have hplain : PlainCommand (texts ["bash", "run.sh"]) :=
    ⟨by decide +kernel, _, _, rfl, by decide, by decide, by decide +kernel⟩
  exact ⟨haccepted, accepted_of_wrapped (by decide) (.inr (readAlike_plain hplain _)) haccepted⟩

/-- Behind `nice`, the words are joined and the two quotes hide the flag between them. -/
theorem inline_code_hidden :
    checkInterpreterInner plainGate none false
      (wrapped [.nice] (texts ["bash", "--rcfile", "'", "-c", "id #'"])) 0 = .ok () ∧
    checkInterpreterInner plainGate none false
      (quoted (texts ["bash", "--rcfile", "'", "-c", "id #'"])) 0 ≠ .ok () := by
  constructor
  · decide +kernel
  · decide +kernel

end LeanCtx.ShellAllowlist
