import LeanCtx.Delimited
import LeanCtx.WorkGraph

/-!
# What the hash of a savings event commits to

A savings event is stored with a hash over the previous hash and a canonical
text of its fields. The current text is `canonicalContent`; verification also
accepts the six earlier forms. The texts join their fields with `|`, which is
not escaped, and write an absent option as `_`.

Two events that verify under one hash agree on every field of the current text
exactly when they put their separators into the same fields and leave the same
optional texts absent (`agree_iff_sameLayout`).
-/

namespace LeanCtx.Savings

inductive MeasurementMethod
  | directCount
  | holdout
  | baselineEstimate
  | providerReconciled
  | unknown
deriving DecidableEq, Repr

inductive EvidenceClass
  | measured
  | approximated
  | statistical
  | declared
  | unclassified
deriving DecidableEq, Repr

/-- Amounts of money as the source holds them (`f64`), with the two ways its
texts write them: rounded to micro-dollars, and with six decimals. -/
structure Money (F : Type) where
  microUsd : F → Int64
  fixed6 : F → String
  fixed6_plain : ∀ x, (fixed6 x).toList.count '|' = 0

/-- The fields that some canonical text reads, and the two hashes. -/
structure SavingsEvent (F : Type) where
  ts : String
  tool : String
  mechanism : String
  modelId : String
  tokenizer : String
  baselineTokens : UInt64
  actualTokens : UInt64
  savedTokens : UInt64
  bounceAdjustment : UInt64
  unitPricePerMUsd : F
  savedUsd : F
  repoHash : String
  agentId : String
  prevHash : String
  entryHash : String
  version : String
  intentTag : Option String
  modelRouted : Option String
  measurementMethod : Option MeasurementMethod
  evidenceClass : Option EvidenceClass
  sessionId : Option String
  path : Option String
  linesAdded : Option UInt64
  linesRemoved : Option UInt64
  net : Option Int64
  attributionId : Option String

/-- The value, or `_` for an absent one. -/
def optionStr (opt : Option String) : String := opt.getD "_"

def countStr (n : UInt64) : String := n.toNat.repr

def amountStr (n : Int64) : String := n.toInt.repr

def MeasurementMethod.str : MeasurementMethod → String
  | .directCount => "direct_count"
  | .holdout => "holdout"
  | .baselineEstimate => "baseline_estimate"
  | .providerReconciled => "provider_reconciled"
  | .unknown => "unknown"

def EvidenceClass.str : EvidenceClass → String
  | .measured => "measured"
  | .approximated => "approximated"
  | .statistical => "statistical"
  | .declared => "declared"
  | .unclassified => "unclassified"

namespace SavingsEvent

variable {F : Type} (money : Money F) (e : SavingsEvent F)

/-- The fields from the time stamp to the agent, as v3 to v7 write them. -/
def valuation : List String :=
  [e.ts, e.tool, e.mechanism, e.modelId, e.tokenizer, countStr e.baselineTokens,
    countStr e.actualTokens, countStr e.savedTokens, countStr e.bounceAdjustment,
    amountStr (money.microUsd e.unitPricePerMUsd), amountStr (money.microUsd e.savedUsd),
    e.repoHash, e.agentId]

/-- The attribution and evidence fields that v5 added. -/
def evidence : List String :=
  [optionStr e.attributionId, optionStr e.intentTag, optionStr e.modelRouted,
    (e.measurementMethod.map MeasurementMethod.str).getD "_",
    (e.evidenceClass.map EvidenceClass.str).getD "_"]

/-- The edit fields that v6 added. -/
def edit : List String :=
  [optionStr e.path, (e.linesAdded.map countStr).getD "_", (e.linesRemoved.map countStr).getD "_",
    (e.net.map amountStr).getD "_"]

def canonicalContentV6 : String :=
  "|".intercalate ("v6" :: e.valuation money ++ [e.version] ++ e.evidence ++ e.edit)

/-- The current form: the fields of v6 and the session. -/
def canonicalContent : String :=
  "v7|" ++ String.ofList ((stripPrefix "v6|".toList (e.canonicalContentV6 money).toList).getD []) ++
    "|" ++ optionStr e.sessionId

def canonicalContentV5 : String :=
  "|".intercalate ("v5" :: e.valuation money ++ [e.version] ++ e.evidence)

def canonicalContentV4 : String :=
  "|".intercalate ("v4" :: e.valuation money ++ [e.version])

def canonicalContentV3 : String :=
  "|".intercalate ("v3" :: e.valuation money)

def canonicalContentV2 : String :=
  "|".intercalate ["v2", e.ts, e.tool, e.modelId, e.tokenizer, countStr e.baselineTokens,
    countStr e.actualTokens, countStr e.savedTokens, countStr e.bounceAdjustment,
    amountStr (money.microUsd e.unitPricePerMUsd), amountStr (money.microUsd e.savedUsd),
    e.repoHash, e.agentId]

def canonicalContentLegacy : String :=
  "|".intercalate [e.ts, e.tool, e.modelId, e.tokenizer, countStr e.baselineTokens,
    countStr e.actualTokens, countStr e.savedTokens, countStr e.bounceAdjustment,
    money.fixed6 e.unitPricePerMUsd, money.fixed6 e.savedUsd, e.repoHash, e.agentId]

end SavingsEvent

/-- `SHA-256(prev_hash || content)` in hexadecimal. -/
def computeHash (sha256 : String → String) (prevHash content : String) : String :=
  sha256 (prevHash ++ content)

def SavingsEvent.hashMatches {F : Type} (money : Money F) (sha256 : String → String)
    (e : SavingsEvent F) (prevHash : String) : Bool :=
  e.entryHash == computeHash sha256 prevHash (e.canonicalContent money) ||
    e.entryHash == computeHash sha256 prevHash (e.canonicalContentV6 money) ||
    e.entryHash == computeHash sha256 prevHash (e.canonicalContentV5 money) ||
    e.entryHash == computeHash sha256 prevHash (e.canonicalContentV4 money) ||
    e.entryHash == computeHash sha256 prevHash (e.canonicalContentV3 money) ||
    e.entryHash == computeHash sha256 prevHash (e.canonicalContentV2 money) ||
    e.entryHash == computeHash sha256 prevHash (e.canonicalContentLegacy money)

/-! ### The fields behind a text -/

section Fields

variable {F : Type} (money : Money F)

/-- The texts that the current form joins after its tag. -/
def SavingsEvent.fields (e : SavingsEvent F) : List String :=
  e.valuation money ++ [e.version] ++ e.evidence ++ e.edit ++ [optionStr e.sessionId]

/-- Two events agree on every field of the current form. -/
structure Agree (e e' : SavingsEvent F) : Prop where
  ts : e.ts = e'.ts
  tool : e.tool = e'.tool
  mechanism : e.mechanism = e'.mechanism
  modelId : e.modelId = e'.modelId
  tokenizer : e.tokenizer = e'.tokenizer
  baselineTokens : e.baselineTokens = e'.baselineTokens
  actualTokens : e.actualTokens = e'.actualTokens
  savedTokens : e.savedTokens = e'.savedTokens
  bounceAdjustment : e.bounceAdjustment = e'.bounceAdjustment
  unitPrice : money.microUsd e.unitPricePerMUsd = money.microUsd e'.unitPricePerMUsd
  savedUsd : money.microUsd e.savedUsd = money.microUsd e'.savedUsd
  repoHash : e.repoHash = e'.repoHash
  agentId : e.agentId = e'.agentId
  version : e.version = e'.version
  attributionId : e.attributionId = e'.attributionId
  intentTag : e.intentTag = e'.intentTag
  modelRouted : e.modelRouted = e'.modelRouted
  measurementMethod : e.measurementMethod = e'.measurementMethod
  evidenceClass : e.evidenceClass = e'.evidenceClass
  path : e.path = e'.path
  linesAdded : e.linesAdded = e'.linesAdded
  linesRemoved : e.linesRemoved = e'.linesRemoved
  net : e.net = e'.net
  sessionId : e.sessionId = e'.sessionId

/-- The free texts of the current form that are always there. -/
def SavingsEvent.texts (e : SavingsEvent F) : List String :=
  [e.ts, e.tool, e.mechanism, e.modelId, e.tokenizer, e.repoHash, e.agentId, e.version]

/-- The free texts of the current form that may be absent. -/
def SavingsEvent.optionalTexts (e : SavingsEvent F) : List (Option String) :=
  [e.attributionId, e.intentTag, e.modelRouted, e.path, e.sessionId]

def separators (text : String) : ℕ := text.toList.count '|'

/-- Each free text holds as many separators as its counterpart, and each
optional one is absent on both sides or on neither. -/
structure SameLayout (e e' : SavingsEvent F) : Prop where
  texts : e.texts.map separators = e'.texts.map separators
  optional : e.optionalTexts.map (Option.map separators) =
    e'.optionalTexts.map (Option.map separators)

theorem Agree.sameLayout {e e' : SavingsEvent F} (h : Agree money e e') : SameLayout e e' := by
  constructor
  · simp only [SavingsEvent.texts, h.ts, h.tool, h.mechanism, h.modelId, h.tokenizer, h.repoHash,
      h.agentId, h.version]
  · simp only [SavingsEvent.optionalTexts, h.attributionId, h.intentTag, h.modelRouted, h.path,
      h.sessionId]

theorem canonicalContent_eq (e : SavingsEvent F) :
    e.canonicalContent money = "|".intercalate ("v7" :: e.fields money) := by
  rw [← String.toList_inj]
  simp [SavingsEvent.canonicalContent, SavingsEvent.canonicalContentV6, SavingsEvent.fields,
    SavingsEvent.valuation, SavingsEvent.evidence, SavingsEvent.edit, stripPrefix]

/-! ### Reading the fields back -/

@[simp] theorem separators_countStr (n : UInt64) : separators (countStr n) = 0 :=
  count_repr (by decide) _

@[simp] theorem separators_amountStr (n : Int64) : separators (amountStr n) = 0 :=
  count_int_repr (by decide) (by decide) _

@[simp] theorem separators_fixed6 (x : F) : separators (money.fixed6 x) = 0 := money.fixed6_plain x

@[simp] theorem separators_getD {α : Type} {text : α → String} (h : ∀ a, separators (text a) = 0)
    (opt : Option α) : separators ((opt.map text).getD "_") = 0 := by
  cases opt with
  | none => exact (by decide : separators "_" = 0)
  | some a => exact h a

theorem separators_method (m : MeasurementMethod) : separators m.str = 0 := by
  cases m <;> decide

theorem separators_evidence (c : EvidenceClass) : separators c.str = 0 := by
  cases c <;> decide

theorem separators_optionStr {opt opt' : Option String}
    (h : opt.map separators = opt'.map separators) :
    separators (optionStr opt) = separators (optionStr opt') := by
  cases opt <;> cases opt' <;> simp_all [optionStr]

theorem countStr_inj {m n : UInt64} (h : countStr m = countStr n) : m = n :=
  UInt64.toNat_inj.mp (Nat.repr_injective h)

theorem amountStr_inj {m n : Int64} (h : amountStr m = amountStr n) : m = n :=
  Int64.toInt_inj.mp (Int.repr_injective h)

/-- An option whose values never print as the placeholder is read back whole. -/
theorem getD_inj {α : Type} {text : α → String} (hne : ∀ a, text a ≠ "_")
    (hinj : ∀ a b, text a = text b → a = b) {opt opt' : Option α}
    (h : (opt.map text).getD "_" = (opt'.map text).getD "_") : opt = opt' := by
  cases opt with
  | none =>
    cases opt' with
    | none => rfl
    | some b => exact absurd h.symm (hne b)
  | some a =>
    cases opt' with
    | none => exact absurd h (hne a)
    | some b => rw [hinj a b h]

theorem method_inj (m n : MeasurementMethod) (h : m.str = n.str) : m = n := by
  cases m <;> cases n <;> first | rfl | (revert h; decide)

theorem evidence_inj (m n : EvidenceClass) (h : m.str = n.str) : m = n := by
  cases m <;> cases n <;> first | rfl | (revert h; decide)

theorem optionStr_inj {opt opt' : Option String} (h : optionStr opt = optionStr opt')
    (hsome : opt.map separators = opt'.map separators) : opt = opt' := by
  cases opt <;> cases opt' <;> simp_all [optionStr]

theorem SameLayout.fields {e e' : SavingsEvent F} (h : SameLayout e e') :
    (e.fields money).map separators = (e'.fields money).map separators := by
  have ht := h.texts
  have ho := h.optional
  simp only [SavingsEvent.texts, SavingsEvent.optionalTexts, List.map_cons, List.map_nil,
    List.cons.injEq, and_true] at ht ho
  obtain ⟨h₁, h₂, h₃, h₄, h₅, h₆, h₇, h₈⟩ := ht
  obtain ⟨h₉, h₁₀, h₁₁, h₁₂, h₁₃⟩ := ho
  simp only [SavingsEvent.fields, SavingsEvent.valuation, SavingsEvent.evidence, SavingsEvent.edit,
    List.map_append, List.map_cons, List.map_nil, separators_countStr, separators_amountStr,
    separators_getD separators_method, separators_getD separators_evidence,
    separators_getD separators_countStr, separators_getD separators_amountStr,
    separators_optionStr h₉, separators_optionStr h₁₀, separators_optionStr h₁₁,
    separators_optionStr h₁₂, separators_optionStr h₁₃, h₁, h₂, h₃, h₄, h₅, h₆, h₇, h₈]

theorem SameLayout.agree {e e' : SavingsEvent F} (h : SameLayout e e')
    (hf : e.fields money = e'.fields money) : Agree money e e' := by
  have ho := h.optional
  simp only [SavingsEvent.optionalTexts, List.map_cons, List.map_nil, List.cons.injEq,
    and_true] at ho
  obtain ⟨hattr, hintent, hrouted, hpath, hsession⟩ := ho
  simp only [SavingsEvent.fields, SavingsEvent.valuation, SavingsEvent.evidence, SavingsEvent.edit,
    List.cons_append, List.nil_append, List.cons.injEq, and_true] at hf
  obtain ⟨h₁, h₂, h₃, h₄, h₅, h₆, h₇, h₈, h₉, h₁₀, h₁₁, h₁₂, h₁₃, h₁₄, h₁₅, h₁₆, h₁₇, h₁₈, h₁₉,
    h₂₀, h₂₁, h₂₂, h₂₃, h₂₄⟩ := hf
  exact
    { ts := h₁
      tool := h₂
      mechanism := h₃
      modelId := h₄
      tokenizer := h₅
      baselineTokens := countStr_inj h₆
      actualTokens := countStr_inj h₇
      savedTokens := countStr_inj h₈
      bounceAdjustment := countStr_inj h₉
      unitPrice := amountStr_inj h₁₀
      savedUsd := amountStr_inj h₁₁
      repoHash := h₁₂
      agentId := h₁₃
      version := h₁₄
      attributionId := optionStr_inj h₁₅ hattr
      intentTag := optionStr_inj h₁₆ hintent
      modelRouted := optionStr_inj h₁₇ hrouted
      measurementMethod := getD_inj (fun m => by cases m <;> decide) method_inj h₁₈
      evidenceClass := getD_inj (fun m => by cases m <;> decide) evidence_inj h₁₉
      path := optionStr_inj h₂₀ hpath
      linesAdded := getD_inj (fun _ => repr_ne_underscore _) (fun _ _ => countStr_inj) h₂₁
      linesRemoved := getD_inj (fun _ => repr_ne_underscore _) (fun _ _ => countStr_inj) h₂₂
      net := getD_inj (fun _ => int_repr_ne_underscore _) (fun _ _ => amountStr_inj) h₂₃
      sessionId := optionStr_inj h₂₄ hsession }

theorem take_intercalate (tag : String) (texts : List String) :
    ("|".intercalate (tag :: texts)).toList.take tag.toList.length = tag.toList := by
  cases texts with
  | nil => simp
  | cons text texts => simp

/-- Texts with different tags of one length differ. -/
theorem intercalate_ne {tag tag' : String} (hlen : tag.toList.length = tag'.toList.length)
    (hne : tag.toList ≠ tag'.toList) (texts texts' : List String) :
    "|".intercalate (tag :: texts) ≠ "|".intercalate (tag' :: texts') := by
  intro h
  apply hne
  rw [← take_intercalate tag texts, ← take_intercalate tag' texts', h, hlen]

theorem separators_intercalate (text : String) (texts : List String) :
    separators ("|".intercalate (text :: texts)) =
      ((text :: texts).map separators).sum + texts.length := by
  have h : (['|'].intercalate (text.toList :: texts.map String.toList)).count '|' = _ :=
    count_intercalate _ _
  simp only [List.length_map, ← List.map_cons, List.map_map] at h
  rw [separators, String.toList_intercalate]
  exact h

/-- The first form has too few separators to pass for the current one. -/
theorem SameLayout.legacy_ne {e e' : SavingsEvent F} (h : SameLayout e e') :
    e.canonicalContent money ≠ e'.canonicalContentLegacy money := by
  intro heq
  have hcount : separators (e.canonicalContent money) =
      separators (e'.canonicalContentLegacy money) := by
    rw [heq]
  rw [canonicalContent_eq, separators_intercalate, List.map_cons, h.fields money,
    SavingsEvent.canonicalContentLegacy, separators_intercalate] at hcount
  simp only [SavingsEvent.fields, SavingsEvent.valuation, SavingsEvent.evidence, SavingsEvent.edit,
    List.map_append, List.map_cons, List.map_nil, List.sum_append, List.sum_cons, List.sum_nil,
    List.length_append, List.length_cons, List.length_nil, separators_countStr,
    separators_amountStr, separators_fixed6] at hcount
  omega

/-- Under one hash, both events carry the text of the current form. -/
theorem SameLayout.content_eq {sha256 : String → String} (hsha : Function.Injective sha256)
    {e e' : SavingsEvent F} (h : SameLayout e e') {prev : String}
    (hcurrent : e'.entryHash = computeHash sha256 prev (e.canonicalContent money))
    (hmatch : e'.hashMatches money sha256 prev = true) :
    e.canonicalContent money = e'.canonicalContent money := by
  have hread : ∀ text, e'.entryHash = computeHash sha256 prev text →
      e.canonicalContent money = text := by
    intro text ht
    rw [hcurrent] at ht
    exact String.append_right_inj prev |>.mp (hsha ht)
  have htag : ∀ {tag : String} (texts : List String), "v7".toList.length = tag.toList.length →
      "v7".toList ≠ tag.toList → e.canonicalContent money ≠ "|".intercalate (tag :: texts) := by
    intro tag texts hlen hne
    rw [canonicalContent_eq]
    exact intercalate_ne hlen hne _ _
  simp only [SavingsEvent.hashMatches, Bool.or_eq_true, beq_iff_eq] at hmatch
  rcases hmatch with (((((hm | hm) | hm) | hm) | hm) | hm) | hm
  · exact hread _ hm
  · exact absurd (hread _ hm) (htag _ (by decide) (by decide))
  · exact absurd (hread _ hm) (htag _ (by decide) (by decide))
  · exact absurd (hread _ hm) (htag _ (by decide) (by decide))
  · exact absurd (hread _ hm) (htag _ (by decide) (by decide))
  · exact absurd (hread _ hm) (htag _ (by decide) (by decide))
  · exact absurd (hread _ hm) (h.legacy_ne money)

theorem SameLayout.fields_eq {e e' : SavingsEvent F} (h : SameLayout e e')
    (heq : e.canonicalContent money = e'.canonicalContent money) :
    e.fields money = e'.fields money := by
  rw [canonicalContent_eq, canonicalContent_eq, ← String.toList_inj, String.toList_intercalate,
    String.toList_intercalate] at heq
  have hcount : (("v7" :: e.fields money).map String.toList).map (List.count '|') =
      (("v7" :: e'.fields money).map String.toList).map (List.count '|') := by
    simp only [List.map_cons, List.map_map]
    exact congrArg (List.cons _) (h.fields money)
  have hlists := intercalate_inj heq hcount
  rw [List.map_inj_right fun _ _ => String.toList_inj.mp] at hlists
  exact (List.cons.inj hlists).2

end Fields

/-- Of two events that verify under one hash, the first hashed under the
current form: they agree on every field of that form exactly when their free
texts hold their separators in the same places and the same optional texts are
absent. -/
theorem agree_iff_sameLayout {F : Type} (money : Money F) {sha256 : String → String}
    (hsha : Function.Injective sha256) {e e' : SavingsEvent F} (hprev : e.prevHash = e'.prevHash)
    (hentry : e.entryHash = e'.entryHash)
    (hcurrent : e.entryHash = computeHash sha256 e.prevHash (e.canonicalContent money))
    (hmatch : e'.hashMatches money sha256 e'.prevHash = true) :
    Agree money e e' ↔ SameLayout e e' := by
  constructor
  · exact Agree.sameLayout money
  · intro h
    rw [← hprev] at hmatch
    rw [hentry] at hcurrent
    exact h.agree money (h.fields_eq money (h.content_eq money hsha hcurrent hmatch))

/-! ### Events that share a hash -/

/-- Amounts of whole micro-dollars, which both texts write exactly. -/
def wholeMicros : Money ℤ where
  microUsd := Int64.ofInt
  fixed6 n := (if n < 0 then "-" else "") ++ (n.natAbs / 1000000).repr ++ "." ++
    String.ofList ((1000000 + n.natAbs % 1000000).repr.toList.drop 1)
  fixed6_plain n := by
    have hdrop : ((1000000 + n.natAbs % 1000000).repr.toList.drop 1).count '|' = 0 := by
      have hle := List.Sublist.count_le '|'
        (List.drop_sublist 1 (1000000 + n.natAbs % 1000000).repr.toList)
      rw [count_repr (by decide)] at hle
      omega
    have hsign : (if n < 0 then "-" else "" : String).toList.count '|' = 0 := by
      split <;> decide
    have hdot : ".".toList.count '|' = 0 := by decide
    simp only [String.toList_append, List.count_append, String.toList_ofList, hdrop, hsign, hdot,
      count_repr (by decide : '|'.isDigit = false)]

/-- An event of one compressed read, hashed with the identity in the place of SHA-256. -/
def compressedRead (agentId version : String) (sessionId : Option String) : SavingsEvent ℤ :=
  let e : SavingsEvent ℤ :=
    { ts := "2026-06-01T00:00:00+00:00", tool := "ctx_read", mechanism := "compression",
      modelId := "claude-3.5-sonnet", tokenizer := "o200k_base", baselineTokens := 1000,
      actualTokens := 200, savedTokens := 800, bounceAdjustment := 0,
      unitPricePerMUsd := 3000000, savedUsd := 2400, repoHash := "abc", agentId := agentId,
      prevHash := "genesis", entryHash := "", version := version, intentTag := none,
      modelRouted := none, measurementMethod := none, evidenceClass := none,
      sessionId := sessionId, path := none, linesAdded := none, linesRemoved := none, net := none,
      attributionId := none }
  { e with entryHash := computeHash id "genesis" (e.canonicalContent wholeMicros) }

section Hashed

variable {F : Type} (money : Money F)

theorem canonicalContent_hashed (e : SavingsEvent F) (hash : String) :
    SavingsEvent.canonicalContent money { e with entryHash := hash } = e.canonicalContent money :=
  rfl

variable {money}

theorem hashMatches_of_current {e : SavingsEvent F} {sha256 : String → String} {prevHash : String}
    (h : e.entryHash = computeHash sha256 prevHash (e.canonicalContent money)) :
    e.hashMatches money sha256 prevHash = true := by
  simp [SavingsEvent.hashMatches, h]

end Hashed

theorem compressedRead_hash (agentId version : String) (sessionId : Option String) :
    (compressedRead agentId version sessionId).entryHash = computeHash id "genesis"
      ((compressedRead agentId version sessionId).canonicalContent wholeMicros) := by
  rw [← canonicalContent_hashed wholeMicros (compressedRead agentId version sessionId) ""]
  rfl

theorem compressedRead_matches (agentId version : String) (sessionId : Option String) :
    (compressedRead agentId version sessionId).hashMatches wholeMicros id "genesis" = true :=
  hashMatches_of_current (compressedRead_hash agentId version sessionId)

theorem agree_iff_sameLayout_session :
    Agree wholeMicros (compressedRead "agent" "3.9.0" (some "sess-a"))
      (compressedRead "agent" "3.9.0" (some "sess-a")) ↔
    SameLayout (compressedRead "agent" "3.9.0" (some "sess-a"))
      (compressedRead "agent" "3.9.0" (some "sess-a")) :=
  agree_iff_sameLayout wholeMicros (fun _ _ h => h) rfl rfl (compressedRead_hash _ _ _)
    (compressedRead_matches _ _ _)

/-- An absent session is written as the session `_` is. -/
theorem content_session (agentId version : String) :
    (compressedRead agentId version none).canonicalContent wholeMicros =
      (compressedRead agentId version (some "_")).canonicalContent wholeMicros := by
  rw [← canonicalContent_hashed wholeMicros (compressedRead agentId version none) "",
    ← canonicalContent_hashed wholeMicros (compressedRead agentId version (some "_")) ""]
  rfl

/-- A separator in the agent moves the cut between agent and version. -/
theorem content_cut : (compressedRead "agent|3.9" "0" none).canonicalContent wholeMicros =
    (compressedRead "agent" "3.9|0" none).canonicalContent wholeMicros := by
  rw [canonicalContent_eq, canonicalContent_eq, ← String.toList_inj, String.toList_intercalate,
    String.toList_intercalate]
  simp [SavingsEvent.fields, SavingsEvent.valuation, SavingsEvent.evidence, SavingsEvent.edit,
    compressedRead]

theorem entryHash_eq_of_content {a a' v v' : String} {s s' : Option String}
    (h : (compressedRead a v s).canonicalContent wholeMicros =
      (compressedRead a' v' s').canonicalContent wholeMicros) :
    (compressedRead a v s).entryHash = (compressedRead a' v' s').entryHash := by
  rw [compressedRead_hash, compressedRead_hash, h]

/-- An absent session and the session `_` share a hash, and so do two ways of
cutting one text into agent and version. -/
theorem shared_hash_of_different_events :
    (∃ e e' : SavingsEvent ℤ, e.prevHash = e'.prevHash ∧ e.entryHash = e'.entryHash ∧
      e.entryHash = computeHash id e.prevHash (e.canonicalContent wholeMicros) ∧
      e.hashMatches wholeMicros id e.prevHash = true ∧
      e'.hashMatches wholeMicros id e'.prevHash = true ∧ e.sessionId ≠ e'.sessionId) ∧
    (∃ e e' : SavingsEvent ℤ, e.prevHash = e'.prevHash ∧ e.entryHash = e'.entryHash ∧
      e.entryHash = computeHash id e.prevHash (e.canonicalContent wholeMicros) ∧
      e.hashMatches wholeMicros id e.prevHash = true ∧
      e'.hashMatches wholeMicros id e'.prevHash = true ∧ e.agentId ≠ e'.agentId) := by
  constructor
  · exact ⟨compressedRead "agent" "3.9.0" none, compressedRead "agent" "3.9.0" (some "_"), rfl,
      entryHash_eq_of_content (content_session _ _), compressedRead_hash _ _ _,
      compressedRead_matches _ _ _, compressedRead_matches _ _ _, (Option.some_ne_none "_").symm⟩
  · exact ⟨compressedRead "agent|3.9" "0" none, compressedRead "agent" "3.9|0" none, rfl,
      entryHash_eq_of_content content_cut, compressedRead_hash _ _ _,
      compressedRead_matches _ _ _, compressedRead_matches _ _ _,
      (by decide : "agent|3.9" ≠ "agent")⟩

end LeanCtx.Savings
