import LeanCtx.SavingsChain
import LeanCtx.Word
import Mathlib.Data.String.Basic

/-!
# Summary of a savings ledger

A summary parses the whole file, drops what is no event, and adds up the events
that count: totals, and slices by model, day, tool, mechanism and token stream.
It reads thirteen fields of an event, and two more to place it in a project. The
chain hashes, the approval and the settlement are not among them.
-/

namespace LeanCtx.Savings

open ByteText TextFile

/-! ## Projects -/

/-- The ledger hashes and sessions that belong to one project. -/
structure ProjectScope where
  project : String
  repoHashes : List String
  sessions : List String
deriving DecidableEq

namespace ProjectScope

def holds (scope : ProjectScope) (repoHash : String) (session : Option String) : Bool :=
  scope.repoHashes.contains repoHash || session.any scope.sessions.contains

def holdsEvent {F R : Type} (scope : ProjectScope) (e : LedgerEvent F R) : Bool :=
  scope.holds e.repoHash e.sessionId

end ProjectScope

/-! ## The sums -/

/-- The `f64` operations of a summary. -/
structure Arith (F : Type) where
  zero : F
  add : F → F → F
  mul : F → F → F
  div : F → F → F
  ofTokens : UInt64 → F
  million : F
  fiveQuarters : F
  tenth : F
  isZero : F → Bool
  partialCmp : F → F → Option Ordering

/-- What a summary takes from elsewhere: the ledger, its arithmetic, three fields that the
ledger only carries along, and the order in which a hash map gives its entries. -/
structure SummaryEnv (F R : Type) extends Env F R where
  arith : Arith F
  isFirstInject : R → Option Bool
  cacheWritePerMUsd : R → Option F
  cacheReadPerMUsd : R → Option F
  arrange : {ν : Type} → List (String × ν) → List (String × ν)
  arrange_perm : ∀ {ν : Type} (entries : List (String × ν)), (arrange entries).Perm entries

structure LedgerSummary (F : Type) where
  totalEvents : ℕ
  savedTokens : UInt64
  savedUsd : F
  bounceTokens : UInt64
  bounceEvents : ℕ
  tokenizers : List String
  byModel : List (String × UInt64 × F)
  byDay : List (String × UInt64 × F × UInt64)
  byTool : List (String × UInt64)
  byMechanism : List (String × UInt64 × F)
  byStream : List (String × UInt64 × F)

/-- The sums while the file is read. -/
structure Tally (F : Type) where
  totalEvents : ℕ
  savedTokens : UInt64
  savedUsd : F
  bounceTokens : UInt64
  bounceEvents : ℕ
  tokenizers : List String
  byModel : List (String × UInt64 × F)
  byDay : List (String × UInt64 × F × UInt64)
  byTool : List (String × UInt64)
  byMechanism : List (String × UInt64 × F)
  firstInject : UInt64 × F
  reRead : UInt64 × F

/-- `map.entry(k).or_default()`, then changed. -/
def upsert {ν : Type} (k : String) (start : ν) (change : ν → ν) :
    List (String × ν) → List (String × ν)
  | [] => [(k, change start)]
  | e :: rest => if e.1 = k then (k, change e.2) :: rest else e :: upsert k start change rest

/-- `ev.ts.get(..10).unwrap_or("")`. -/
def dayOf (ts : String) : String :=
  if 10 ≤ (utf8 ts).length then (fromUtf8 ((utf8 ts).take 10)).getD "" else ""

section Summary

variable {F R : Type} (env : SummaryEnv F R)

def Tally.empty : Tally F where
  totalEvents := 0
  savedTokens := 0
  savedUsd := env.arith.zero
  bounceTokens := 0
  bounceEvents := 0
  tokenizers := []
  byModel := []
  byDay := []
  byTool := []
  byMechanism := []
  firstInject := (0, env.arith.zero)
  reRead := (0, env.arith.zero)

/-- Tokens and money added to a slice. -/
def addTo (tokens : UInt64) (usd : F) (slice : UInt64 × F) : UInt64 × F :=
  (saturatingAdd slice.1 tokens, env.arith.add slice.2 usd)

def countTotals (t : Tally F) (e : LedgerEvent F R) : Tally F :=
  { t with
    totalEvents := t.totalEvents + 1
    savedTokens := saturatingAdd t.savedTokens e.savedTokens
    savedUsd := env.arith.add t.savedUsd e.savedUsd
    bounceTokens := saturatingAdd t.bounceTokens e.bounceAdjustment
    bounceEvents := if 0 < e.bounceAdjustment then t.bounceEvents + 1 else t.bounceEvents
    tokenizers :=
      if e.tokenizer = "" ∨ e.tokenizer ∈ t.tokenizers then t.tokenizers
      else e.tokenizer :: t.tokenizers }

def countMechanism (t : Tally F) (e : LedgerEvent F R) : Tally F :=
  if 0 < e.savedTokens ∨ env.arith.isZero e.savedUsd = false ∧ e.bounceAdjustment = 0 then
    { t with
      byMechanism := upsert e.mechanism (0, env.arith.zero) (addTo env e.savedTokens e.savedUsd)
        t.byMechanism }
  else t

/-- The slices by model, day and tool leave out what saved no tokens. -/
def countBreakdowns (t : Tally F) (e : LedgerEvent F R) : Tally F :=
  if 0 < e.savedTokens then
    { t with
      byModel := upsert e.modelId (0, env.arith.zero) (addTo env e.savedTokens e.savedUsd) t.byModel
      byDay := upsert (dayOf e.ts) (0, env.arith.zero, 0)
        (fun d => (saturatingAdd d.1 e.savedTokens, env.arith.add d.2.1 e.savedUsd,
          saturatingAdd d.2.2 e.baselineTokens)) t.byDay
      byTool := upsert e.tool 0 (· + e.savedTokens) t.byTool }
  else t

def streamUsd (saved : UInt64) (rate : F) : F :=
  env.arith.mul (env.arith.div (env.arith.ofTokens saved) env.arith.million) rate

def countStream (t : Tally F) (e : LedgerEvent F R) : Tally F :=
  if 0 < e.savedTokens then
    if (env.isFirstInject e.carried).getD true then
      let rate := (env.cacheWritePerMUsd e.carried).getD
        (env.arith.mul e.unitPricePerMUsd env.arith.fiveQuarters)
      { t with
        firstInject := addTo env e.savedTokens (streamUsd env e.savedTokens rate) t.firstInject }
    else
      let rate := (env.cacheReadPerMUsd e.carried).getD
        (env.arith.mul e.unitPricePerMUsd env.arith.tenth)
      { t with reRead := addTo env e.savedTokens (streamUsd env e.savedTokens rate) t.reRead }
  else t

def count (t : Tally F) (e : LedgerEvent F R) : Tally F :=
  countStream env (countBreakdowns env (countMechanism env (countTotals env t e) e) e) e

/-- Whether `a` goes before `b` in descending order of money. -/
def moneyDescends (a b : F) : Bool :=
  (env.arith.partialCmp b a).getD .eq != .gt

def streams (t : Tally F) : List (String × UInt64 × F) :=
  (if 0 < t.firstInject.1 then [("first_inject", t.firstInject)] else []) ++
    (if 0 < t.reRead.1 then [("re_read", t.reRead)] else [])

def finish (t : Tally F) : LedgerSummary F where
  totalEvents := t.totalEvents
  savedTokens := t.savedTokens
  savedUsd := t.savedUsd
  bounceTokens := t.bounceTokens
  bounceEvents := t.bounceEvents
  tokenizers := t.tokenizers.mergeSort fun a b => decide (a ≤ b)
  byModel := (env.arrange t.byModel).mergeSort fun a b => decide (b.2.1 ≤ a.2.1)
  byDay := (env.arrange t.byDay).mergeSort fun a b => decide (a.1 ≤ b.1)
  byTool := (env.arrange t.byTool).mergeSort fun a b => decide (b.2 ≤ a.2)
  byMechanism := (env.arrange t.byMechanism).mergeSort fun a b => moneyDescends env a.2.2 b.2.2
  byStream := streams t

/-- The summary of a file that need not be there. -/
def summarizeUncached (file : Option String) (keep : LedgerEvent F R → Bool) : LedgerSummary F :=
  match file with
  | none => finish env (Tally.empty env)
  | some text =>
    finish env (((load env.toEnv text).filter keep).foldl (count env) (Tally.empty env))

/-! ## What a summary reads -/

/-- The fields of an event that some sum reads. -/
structure Figures (F : Type) where
  ts : String
  tool : String
  mechanism : String
  modelId : String
  tokenizer : String
  baselineTokens : UInt64
  savedTokens : UInt64
  bounceAdjustment : UInt64
  unitPricePerMUsd : F
  savedUsd : F
  isFirstInject : Option Bool
  cacheWritePerMUsd : Option F
  cacheReadPerMUsd : Option F

def LedgerEvent.figures (e : LedgerEvent F R) : Figures F where
  ts := e.ts
  tool := e.tool
  mechanism := e.mechanism
  modelId := e.modelId
  tokenizer := e.tokenizer
  baselineTokens := e.baselineTokens
  savedTokens := e.savedTokens
  bounceAdjustment := e.bounceAdjustment
  unitPricePerMUsd := e.unitPricePerMUsd
  savedUsd := e.savedUsd
  isFirstInject := env.isFirstInject e.carried
  cacheWritePerMUsd := env.cacheWritePerMUsd e.carried
  cacheReadPerMUsd := env.cacheReadPerMUsd e.carried

/-- The figures of the events that count, in the order of the file. -/
def readings (file : Option String) (keep : LedgerEvent F R → Bool) : List (Figures F) :=
  match file with
  | none => []
  | some text => ((load env.toEnv text).filter keep).map (LedgerEvent.figures env)

theorem count_congr {e e' : LedgerEvent F R} (h : e.figures env = e'.figures env) (t : Tally F) :
    count env t e = count env t e' := by
  simp only [LedgerEvent.figures, Figures.mk.injEq] at h
  obtain ⟨hts, htool, hmech, hmodel, htok, hbase, hsaved, hbounce, hunit, husd, hfirst, hwrite,
    hread⟩ := h
  simp only [count, countTotals, countMechanism, countBreakdowns, countStream, hts, htool, hmech,
    hmodel, htok, hbase, hsaved, hbounce, hunit, husd, hfirst, hwrite, hread]

theorem foldl_count_congr {events events' : List (LedgerEvent F R)}
    (h : events.map (LedgerEvent.figures env) = events'.map (LedgerEvent.figures env))
    (t : Tally F) : events.foldl (count env) t = events'.foldl (count env) t := by
  induction events generalizing events' t with
  | nil =>
    rw [List.map_nil, eq_comm, List.map_eq_nil_iff] at h
    rw [h]
  | cons e events ih =>
    cases events' with
    | nil => cases h
    | cons e' events' =>
      rw [List.map_cons, List.map_cons, List.cons.injEq] at h
      rw [List.foldl_cons, List.foldl_cons, count_congr env h.1, ih h.2]

/-- Files with the same figures have the same summary. -/
theorem summarizeUncached_congr {file file' : Option String} {keep keep' : LedgerEvent F R → Bool}
    (h : readings env file keep = readings env file' keep') :
    summarizeUncached env file keep = summarizeUncached env file' keep' := by
  have hfold : ∀ (file : Option String) (keep : LedgerEvent F R → Bool),
      ∃ events : List (LedgerEvent F R), readings env file keep =
        events.map (LedgerEvent.figures env) ∧ summarizeUncached env file keep =
        finish env (events.foldl (count env) (Tally.empty env)) := by
    intro file keep
    cases file with
    | none => exact ⟨[], rfl, rfl⟩
    | some text => exact ⟨(load env.toEnv text).filter keep, rfl, rfl⟩
  obtain ⟨events, hread, hsum⟩ := hfold file keep
  obtain ⟨events', hread', hsum'⟩ := hfold file' keep'
  rw [hread, hread'] at h
  rw [hsum, hsum', foldl_count_congr env h]

end Summary

end LeanCtx.Savings
