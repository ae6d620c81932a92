import LeanCtx.Memo
import LeanCtx.SavingsChainValid
import LeanCtx.SavingsSummary

/-!
# Cached summaries of savings ledgers

A process keeps the last summary it made under the length of the file, and a few
summaries of single projects under project, ledger and length. Appends grow a
ledger, but approvals, settlements and repairs rewrite it, and there may be
several ledgers. A run in which every hit finds the figures that its entry was
made from answers every call as a fresh summary would (`summaries_current`);
a process that only appends to one ledger makes such runs.
-/

namespace LeanCtx.Savings

open ByteText JsonText TextFile

def scopedSummaryLimit : ℕ := 8

/-- `fs::metadata(path).map(|m| m.len()).unwrap_or(0)`. -/
def fileLen : Option String → ℕ
  | none => 0
  | some text => (utf8 text).length

/-- The events that count: all of them, or those of one project. -/
def keeps {F R : Type} : Option ProjectScope → LedgerEvent F R → Bool
  | none, _ => true
  | some scope, e => scope.holdsEvent e

/-- What a summary was made from. No step of the program reads it. -/
structure Source where
  file : Option String
  scope : Option ProjectScope

/-- Ledger files and the two caches of the process. -/
structure State (P F : Type) where
  files : P → Option String
  summaryCache : Option (Memo.Entry ℕ Source (LedgerSummary F))
  scopedSummaryCache : List (Memo.Entry (String × P × ℕ) Source (LedgerSummary F))

/-- A process that has made no summary yet. -/
def State.start {P : Type} (F : Type) (files : P → Option String) : State P F := ⟨files, none, []⟩

inductive Op (P F R : Type)
  | change (path : P) (call : Call F R)
  | summarize (path : P)
  | summarizeScoped (path : P) (scope : ProjectScope)

inductive Reply (F R : Type)
  | changed (answer : Answer F R)
  | notFound
  | summary (s : LedgerSummary F)

section Cache

variable {P F R : Type} [DecidableEq P] (env : SummaryEnv F R)

def uncached (source : Source) : LedgerSummary F :=
  summarizeUncached env source.file (keeps source.scope)

/-- The file after a call; only an append makes a file that is not there. -/
def changeFile (file : Option String) (call : Call F R) : Option (Answer F R × String) :=
  match file with
  | some text => some (step env.toEnv text call)
  | none => if call.isAppend then some (step env.toEnv "" call) else none

def change (s : State P F) (path : P) (call : Call F R) : Reply F R × State P F :=
  match changeFile env (s.files path) call with
  | some (answer, text) =>
    (.changed answer, { s with files := Function.update s.files path (some text) })
  | none => (.notFound, s)

/-- The entry that `summarize` would return. -/
def State.hit (s : State P F) (path : P) : Option (Memo.Entry ℕ Source (LedgerSummary F)) :=
  s.summaryCache.filter fun e => e.key = fileLen (s.files path)

def summarize (s : State P F) (path : P) : LedgerSummary F × State P F :=
  let source : Source := ⟨s.files path, none⟩
  let result := Memo.answer (uncached env) source (s.hit path)
  match s.hit path with
  | some _ => (result, s)
  | none => (result, { s with summaryCache := some ⟨fileLen (s.files path), source, result⟩ })

/-- The entry that `summarizeScoped` would return. -/
def State.scopedHit (s : State P F) (path : P) (scope : ProjectScope) :
    Option (Memo.Entry (String × P × ℕ) Source (LedgerSummary F)) :=
  s.scopedSummaryCache.find? fun e => e.key = (scope.project, path, fileLen (s.files path))

/-- The other entries that stay when one for the project and ledger is added. -/
def makeRoom (path : P) (project : String)
    (cache : List (Memo.Entry (String × P × ℕ) Source (LedgerSummary F))) :
    List (Memo.Entry (String × P × ℕ) Source (LedgerSummary F)) :=
  let kept := cache.filter fun e => ¬ (e.key.1 = project ∧ e.key.2.1 = path)
  if scopedSummaryLimit ≤ kept.length then kept.tail else kept

def summarizeScoped (s : State P F) (path : P) (scope : ProjectScope) :
    LedgerSummary F × State P F :=
  let source : Source := ⟨s.files path, some scope⟩
  let result := Memo.answer (uncached env) source (s.scopedHit path scope)
  match s.scopedHit path scope with
  | some _ => (result, s)
  | none =>
    (result, { s with
      scopedSummaryCache := makeRoom path scope.project s.scopedSummaryCache ++
        [⟨(scope.project, path, fileLen (s.files path)), source, result⟩] })

def State.step (s : State P F) : Op P F R → Reply F R × State P F
  | .change path call => change env s path call
  | .summarize path => (summarize env s path).map .summary id
  | .summarizeScoped path scope => (summarizeScoped env s path scope).map .summary id

/-! ## Runs whose hits are good -/

/-- A call answers as a summary made at that moment would. -/
def Current (s : State P F) : Op P F R → Prop
  | .change _ _ => True
  | .summarize path =>
    (s.step env (.summarize path)).1 =
      .summary (summarizeUncached env (s.files path) fun _ => true)
  | .summarizeScoped path scope =>
    (s.step env (.summarizeScoped path scope)).1 =
      .summary (summarizeUncached env (s.files path) scope.holdsEvent)

/-- The figures that a summary of the source adds up. -/
def sourceReadings (source : Source) : List (Figures F) :=
  readings env source.file (keeps source.scope)

/-- Where a call finds an entry, its ledger now shows the figures that the entry was made from. -/
def GoodHit (s : State P F) : Op P F R → Prop
  | .change _ _ => True
  | .summarize path =>
    ∀ e ∈ s.hit path, sourceReadings env e.source = sourceReadings env ⟨s.files path, none⟩
  | .summarizeScoped path scope =>
    ∀ e ∈ s.scopedHit path scope,
      sourceReadings env e.source = sourceReadings env ⟨s.files path, some scope⟩

/-- Both caches hold what a summary of their sources gives. -/
structure Sound (s : State P F) : Prop where
  whole : Memo.Sound (uncached env) s.summaryCache.toList
  perProject : Memo.Sound (uncached env) s.scopedSummaryCache

omit [DecidableEq P] in
theorem State.mem_of_hit {s : State P F} {path : P}
    {e : Memo.Entry ℕ Source (LedgerSummary F)} (h : e ∈ s.hit path) :
    e ∈ s.summaryCache ∧ e.key = fileLen (s.files path) := by
  rw [State.hit, Option.mem_def, Option.filter_eq_some_iff] at h
  exact ⟨h.1, of_decide_eq_true h.2⟩

theorem State.mem_of_scopedHit {s : State P F} {path : P} {scope : ProjectScope}
    {e : Memo.Entry (String × P × ℕ) Source (LedgerSummary F)} (h : e ∈ s.scopedHit path scope) :
    e ∈ s.scopedSummaryCache ∧ e.key = (scope.project, path, fileLen (s.files path)) :=
  ⟨List.mem_of_find?_eq_some h, by simpa using List.find?_some h⟩

theorem makeRoom_subset (path : P) (project : String)
    (cache : List (Memo.Entry (String × P × ℕ) Source (LedgerSummary F))) :
    makeRoom path project cache ⊆ cache := by
  unfold makeRoom
  dsimp only
  split
  · exact List.Subset.trans (List.tail_subset _) (List.filter_subset_self _)
  · exact List.filter_subset_self _

omit [DecidableEq P] in
theorem summarize_fst (s : State P F) (path : P) :
    (summarize env s path).1 = Memo.answer (uncached env) ⟨s.files path, none⟩ (s.hit path) := by
  unfold summarize
  dsimp only
  split
  · rfl
  · rfl

theorem summarizeScoped_fst (s : State P F) (path : P) (scope : ProjectScope) :
    (summarizeScoped env s path scope).1 =
      Memo.answer (uncached env) ⟨s.files path, some scope⟩ (s.scopedHit path scope) := by
  unfold summarizeScoped
  dsimp only
  split
  · rfl
  · rfl

omit [DecidableEq P] in
/-- The state after `summarize`: as it was, or with one fresh entry. -/
theorem summarize_snd (s : State P F) (path : P) :
    (summarize env s path).2 = s ∨
      s.hit path = none ∧ (summarize env s path).2 = { s with
        summaryCache := some ⟨fileLen (s.files path), ⟨s.files path, none⟩,
          uncached env ⟨s.files path, none⟩⟩ } := by
  unfold summarize
  dsimp only
  split
  · exact .inl rfl
  · rename_i hnone
    rw [hnone]
    exact .inr ⟨rfl, rfl⟩

theorem summarizeScoped_snd (s : State P F) (path : P) (scope : ProjectScope) :
    (summarizeScoped env s path scope).2 = s ∨
      s.scopedHit path scope = none ∧ (summarizeScoped env s path scope).2 = { s with
        scopedSummaryCache := makeRoom path scope.project s.scopedSummaryCache ++
          [⟨(scope.project, path, fileLen (s.files path)), ⟨s.files path, some scope⟩,
            uncached env ⟨s.files path, some scope⟩⟩] } := by
  unfold summarizeScoped
  dsimp only
  split
  · exact .inl rfl
  · rename_i hnone
    rw [hnone]
    exact .inr ⟨rfl, rfl⟩

theorem change_snd (s : State P F) (path : P) (call : Call F R) :
    ∃ files, (change env s path call).2 = { s with files := files } := by
  unfold change
  split
  · exact ⟨_, rfl⟩
  · exact ⟨s.files, rfl⟩

omit [DecidableEq P] in
theorem Sound.start (files : P → Option String) : Sound env (State.start F files) :=
  ⟨Memo.Sound.nil _, Memo.Sound.nil _⟩

theorem Sound.step {s : State P F} (h : Sound env s) (op : Op P F R) :
    Sound env (s.step env op).2 := by
  cases op with
  | change path call =>
    obtain ⟨files, hfiles⟩ := change_snd env s path call
    have hstep : (s.step env (.change path call)).2 = _ := hfiles
    rw [hstep]
    exact ⟨h.whole, h.perProject⟩
  | summarize path =>
    have hstep : (s.step env (.summarize path)).2 = (summarize env s path).2 := rfl
    rw [hstep]
    rcases summarize_snd env s path with hsame | ⟨-, hfresh⟩
    · rw [hsame]
      exact h
    · rw [hfresh]
      exact ⟨(Memo.Sound.nil _).concat _ _, h.perProject⟩
  | summarizeScoped path scope =>
    have hstep : (s.step env (.summarizeScoped path scope)).2 =
      (summarizeScoped env s path scope).2 := rfl
    rw [hstep]
    rcases summarizeScoped_snd env s path scope with hsame | ⟨-, hfresh⟩
    · rw [hsame]
      exact h
    · rw [hfresh]
      exact ⟨h.whole, (h.perProject.subset (makeRoom_subset _ _ _)).concat _ _⟩

theorem uncached_congr {a b : Source} (h : sourceReadings env a = sourceReadings env b) :
    uncached env a = uncached env b := summarizeUncached_congr env h

theorem Sound.current {s : State P F} (h : Sound env s) {op : Op P F R} (hgood : GoodHit env s op) :
    Current env s op := by
  cases op with
  | change path call => trivial
  | summarize path =>
    have hanswer : Memo.answer (uncached env) ⟨s.files path, none⟩ (s.hit path) =
        uncached env ⟨s.files path, none⟩ := by
      apply Memo.answer_eq_of_reads (fun a b => uncached_congr env)
      · intro e he
        exact h.whole e (Option.mem_toList.mpr (State.mem_of_hit he).1)
      · exact hgood
    have hreply : (s.step env (.summarize path)).1 = .summary (summarize env s path).1 := rfl
    rw [Current, hreply, summarize_fst, hanswer]
    rfl
  | summarizeScoped path scope =>
    have hanswer : Memo.answer (uncached env) ⟨s.files path, some scope⟩ (s.scopedHit path scope) =
        uncached env ⟨s.files path, some scope⟩ := by
      apply Memo.answer_eq_of_reads (fun a b => uncached_congr env)
      · intro e he
        exact h.perProject e (State.mem_of_scopedHit he).1
      · exact hgood
    have hreply : (s.step env (.summarizeScoped path scope)).1 =
      .summary (summarizeScoped env s path scope).1 := rfl
    rw [Current, hreply, summarizeScoped_fst, hanswer]
    rfl

theorem along_current (files : P → Option String) {ops : List (Op P F R)}
    (h : Trace.Along (State.step env) (GoodHit env) (State.start F files) ops) :
    Trace.Along (State.step env) (Current env) (State.start F files) ops :=
  Trace.along_of_invariant (fun _ _ hsound hgood => hsound.current env hgood)
    (fun _ op _ hsound => hsound.step env op) h (Sound.start env files)

/-! ## A ledger that only grows -/

/-- Calls that append to any ledger, summarize one of them, and name one scope for a project. -/
def GrowsOnly (ledger : P) (scopes : String → ProjectScope) : Op P F R → Prop
  | .change _ call => call.isAppend = true
  | .summarize path => path = ledger
  | .summarizeScoped _ scope => scope = scopes scope.project

/-- The file an entry was made from, which is as it was or longer by now. -/
def Behind (len : ℕ) (old now : Option String) : Prop :=
  len = fileLen old ∧ (now = old ∨ len < fileLen now)

structure Grown (ledger : P) (scopes : String → ProjectScope) (s : State P F) : Prop where
  whole : ∀ e ∈ s.summaryCache, e.source.scope = none ∧ Behind e.key e.source.file (s.files ledger)
  perProject : ∀ e ∈ s.scopedSummaryCache, e.source.scope = some (scopes e.key.1) ∧
    Behind e.key.2.2 e.source.file (s.files e.key.2.1)

theorem fileLen_append (env : Env F R) (text : String) (e : LedgerEvent F R) :
    (utf8 text).length < fileLen (some (append env text e).2) := by
  simp only [fileLen, append, utf8, String.toList_append, List.flatMap_append, List.length_append]
  have hnewline : ("\n".toList.flatMap String.utf8EncodeChar).length = 1 := by decide
  omega

/-- An append makes its file longer and leaves the others alone. -/
theorem change_append (s : State P F) (path : P) (e : LedgerEvent F R) :
    ∃ file, fileLen (s.files path) < fileLen file ∧
      (change env s path (.append e)).2 = { s with files := Function.update s.files path file } := by
  unfold change changeFile
  cases hfile : s.files path with
  | none =>
    refine ⟨some (append env.toEnv "" e).2, ?_, rfl⟩
    have hlen := fileLen_append env.toEnv "" e
    simpa [fileLen] using Nat.zero_lt_of_lt hlen
  | some text => exact ⟨some (append env.toEnv text e).2, fileLen_append env.toEnv text e, rfl⟩

theorem Behind.update {len : ℕ} {old file : Option String} {files : P → Option String} {path q : P}
    (h : Behind len old (files q)) (hgrow : fileLen (files path) < fileLen file) :
    Behind len old (Function.update files path file q) := by
  obtain ⟨hlen, hnow⟩ := h
  by_cases hq : q = path
  · subst hq
    rw [Function.update_self]
    rcases hnow with hnow | hnow
    · rw [hnow, ← hlen] at hgrow
      exact ⟨hlen, .inr hgrow⟩
    · exact ⟨hlen, .inr (hnow.trans hgrow)⟩
  · rw [Function.update_of_ne hq]
    exact ⟨hlen, hnow⟩

theorem Behind.now {old now : Option String} (h : Behind (fileLen now) old now) : old = now := by
  rcases h.2 with hnow | hnow
  · exact hnow.symm
  · exact absurd hnow (lt_irrefl _)

theorem Grown.step {ledger : P} {scopes : String → ProjectScope} {s : State P F}
    (h : Grown ledger scopes s) {op : Op P F R} (hop : GrowsOnly ledger scopes op) :
    Grown ledger scopes (s.step env op).2 := by
  cases op with
  | change path call =>
    cases call with
    | append e =>
      obtain ⟨file, hgrow, hfiles⟩ := change_append env s path e
      have hstep : (s.step env (.change path (.append e))).2 = _ := hfiles
      rw [hstep]
      constructor
      · intro entry he
        exact ⟨(h.whole entry he).1, (h.whole entry he).2.update hgrow⟩
      · intro entry he
        exact ⟨(h.perProject entry he).1, (h.perProject entry he).2.update hgrow⟩
    | approveEvent => cases hop
    | settleEvent => cases hop
    | rechain => cases hop
  | summarize path =>
    have hstep : (s.step env (.summarize path)).2 = (summarize env s path).2 := rfl
    rw [hstep]
    rcases summarize_snd env s path with hsame | ⟨-, hfresh⟩
    · rw [hsame]
      exact h
    · rw [hfresh]
      have hpath : path = ledger := hop
      refine ⟨?_, h.perProject⟩
      intro entry he
      obtain rfl := Option.some.inj he
      exact ⟨rfl, rfl, .inl (by rw [hpath])⟩
  | summarizeScoped path scope =>
    have hstep : (s.step env (.summarizeScoped path scope)).2 =
      (summarizeScoped env s path scope).2 := rfl
    rw [hstep]
    rcases summarizeScoped_snd env s path scope with hsame | ⟨-, hfresh⟩
    · rw [hsame]
      exact h
    · rw [hfresh]
      have hscope : scope = scopes scope.project := hop
      refine ⟨h.whole, ?_⟩
      intro entry he
      rcases List.mem_append.mp he with he | he
      · exact h.perProject entry (makeRoom_subset _ _ _ he)
      · rw [List.mem_singleton.mp he]
        exact ⟨congrArg some hscope, rfl, .inl rfl⟩

theorem Grown.goodHit {ledger : P} {scopes : String → ProjectScope} {s : State P F}
    (h : Grown ledger scopes s) {op : Op P F R} (hop : GrowsOnly ledger scopes op) :
    GoodHit env s op := by
  cases op with
  | change path call => trivial
  | summarize path =>
    intro entry he
    obtain ⟨hmem, hkey⟩ := State.mem_of_hit he
    obtain ⟨hscope, hbehind⟩ := h.whole entry hmem
    have hpath : path = ledger := hop
    rw [hkey, hpath] at hbehind
    have hsource : entry.source = ⟨s.files path, none⟩ := by
      rw [hpath, ← hbehind.now, ← hscope]
    rw [hsource]
  | summarizeScoped path scope =>
    intro entry he
    obtain ⟨hmem, hkey⟩ := State.mem_of_scopedHit he
    obtain ⟨hscope, hbehind⟩ := h.perProject entry hmem
    have hnamed : scope = scopes scope.project := hop
    rw [hkey] at hscope hbehind
    have hsource : entry.source = ⟨s.files path, some scope⟩ := by
      rw [← hbehind.now, hnamed, ← hscope]
    rw [hsource]

theorem growing_goodHit {ledger : P} {scopes : String → ProjectScope} (files : P → Option String)
    {ops : List (Op P F R)} (h : ∀ op ∈ ops, GrowsOnly ledger scopes op) :
    Trace.Along (State.step env) (GoodHit env) (State.start F files) ops := by
  have hstart : Grown ledger scopes (State.start F files : State P F) := by
    constructor
    · intro e he
      cases he
    · intro e he
      cases he
  exact Trace.along_of_invariant (fun _ _ hgrown hop => hgrown.goodHit env hop)
    (fun _ _ hop hgrown => hgrown.step env hop) (Trace.along_of_forall h) hstart

/-- A process that only appends, summarizes one ledger and keeps the scopes of its projects
gets every summary right. -/
theorem growing_ledger_current {ledger : P} {scopes : String → ProjectScope}
    (files : P → Option String) {ops : List (Op P F R)}
    (h : ∀ op ∈ ops, GrowsOnly ledger scopes op) :
    Trace.Along (State.step env) (Current env) (State.start F files) ops :=
  along_current env files (growing_goodHit env files h)

end Cache

/-! ## Ledgers that share a length -/

/-- Whole micro-dollars, where a quarter more and a tenth round down. -/
def microArith : Arith ℕ where
  zero := 0
  add := (· + ·)
  mul m n := m * n / 1000000
  div m n := m * 1000000 / n
  ofTokens := UInt64.toNat
  million := 1000000
  fiveQuarters := 1250000
  tenth := 100000
  isZero m := m == 0
  partialCmp m n := some (compare m n)

/-- Ledgers of whole micro-dollars without the fields about token streams. -/
noncomputable def plainSummaryEnv : SummaryEnv ℕ Unit where
  toEnv := plainEnv
  arith := microArith
  isFirstInject _ := none
  cacheWritePerMUsd _ := none
  cacheReadPerMUsd _ := none
  arrange entries := entries
  arrange_perm entries := List.Perm.refl entries

/-- A ledger that is summarized between its appends and after them. -/
def growingRun : List (Op String ℕ Unit) :=
  [.change "ledger" (.append (sampleEvent "s1")), .summarize "ledger",
    .change "ledger" (.append (sampleEvent "s2")), .summarize "ledger", .summarize "ledger",
    .summarizeScoped "ledger" ⟨"app", ["abc"], ["s2"]⟩,
    .summarizeScoped "ledger" ⟨"app", ["abc"], ["s2"]⟩]

/-- An edit that saved some of a thousand tokens. -/
def savedEvent (saved : UInt64) : LedgerEvent ℕ Unit :=
  { sampleEvent "s1" with savedTokens := saved, actualTokens := 1000 - saved }

/-- Two ledgers with one event each, summarized one after the other. -/
def twoLedgers : List (Op String ℕ Unit) :=
  [.change "first" (.append (savedEvent 800)), .change "second" (.append (savedEvent 900)),
    .summarize "first", .summarize "second"]

/-- One project before and after its session is known, on a ledger that does not change. -/
def twoScopes : List (Op String ℕ Unit) :=
  [.change "ledger" (.append (savedEvent 800)), .summarizeScoped "ledger" ⟨"app", ["app"], []⟩,
    .summarizeScoped "ledger" ⟨"app", ["app"], ["s1"]⟩]

theorem savedTokens_count {F R : Type} (env : SummaryEnv F R) (t : Tally F)
    (e : LedgerEvent F R) :
    (count env t e).savedTokens = saturatingAdd t.savedTokens e.savedTokens := by
  simp only [count, countTotals, countMechanism, countBreakdowns, countStream]
  split_ifs <;> rfl

theorem totalEvents_count {F R : Type} (env : SummaryEnv F R) (t : Tally F)
    (e : LedgerEvent F R) : (count env t e).totalEvents = t.totalEvents + 1 := by
  simp only [count, countTotals, countMechanism, countBreakdowns, countStream]
  split_ifs <;> rfl

/-- The ledger after the first append of an event. -/
noncomputable def oneEvent (saved : UInt64) : String :=
  write plainEnv [(savedEvent saved).withDefaults.chain plainEnv genesis]

theorem length_oneEvent : (utf8 (oneEvent 900)).length = (utf8 (oneEvent 800)).length := by
  have hline : ∀ saved, (oneEvent saved).toList =
      (eventLine ((savedEvent saved).withDefaults.chain plainEnv genesis)).toList ++ ['\n'] := by
    intro saved
    rw [oneEvent, write, List.map_singleton, joinLines_singleton, String.toList_append]
    rfl
  rw [utf8, utf8, hline, hline]
  simp only [eventLine, Doc.text, String.toList_ofList]
  decide +kernel

/-- The state after the first event of a new ledger. -/
theorem change_new {s : State String ℕ} {path : String} (h : s.files path = none) (saved : UInt64) :
    (s.step plainSummaryEnv (.change path (.append (savedEvent saved)))).2 =
      { s with files := Function.update s.files path (some (oneEvent saved)) } := by
  have hstep : (s.step plainSummaryEnv (.change path (.append (savedEvent saved)))).2 =
    (change plainSummaryEnv s path (.append (savedEvent saved))).2 := rfl
  have happend : (append plainSummaryEnv.toEnv "" (savedEvent saved)).2 = oneEvent saved :=
    append_empty (savedEvent saved)
  rw [hstep]
  unfold change changeFile
  rw [h]
  simp only [Call.isAppend, if_true, step, Prod.map, id, happend]

theorem savedTokens_oneEvent (saved : UInt64) :
    (summarizeUncached plainSummaryEnv (some (oneEvent saved)) fun _ => true).savedTokens =
      saturatingAdd 0 saved := by
  have hload : load plainSummaryEnv.toEnv (oneEvent saved) =
    [(savedEvent saved).withDefaults.chain plainEnv genesis] := load_write plainEnv _
  rw [summarizeUncached, hload, List.filter_cons_of_pos rfl, List.filter_nil, List.foldl_cons,
    List.foldl_nil, finish, savedTokens_count]
  rfl

theorem totalEvents_oneEvent (saved : UInt64) {scope : ProjectScope}
    (h : scope.holdsEvent ((savedEvent saved).withDefaults.chain plainEnv genesis) = true) :
    (summarizeUncached plainSummaryEnv (some (oneEvent saved)) scope.holdsEvent).totalEvents =
      1 := by
  have hload : load plainSummaryEnv.toEnv (oneEvent saved) =
    [(savedEvent saved).withDefaults.chain plainEnv genesis] := load_write plainEnv _
  rw [summarizeUncached, hload, List.filter_cons_of_pos h, List.filter_nil, List.foldl_cons,
    List.foldl_nil, finish, totalEvents_count]
  rfl

theorem totalEvents_none (saved : UInt64) {scope : ProjectScope}
    (h : scope.holdsEvent ((savedEvent saved).withDefaults.chain plainEnv genesis) = false) :
    (summarizeUncached plainSummaryEnv (some (oneEvent saved)) scope.holdsEvent).totalEvents =
      0 := by
  have hload : load plainSummaryEnv.toEnv (oneEvent saved) =
    [(savedEvent saved).withDefaults.chain plainEnv genesis] := load_write plainEnv _
  rw [summarizeUncached, hload, List.filter_cons_of_neg (by rw [h]; decide), List.filter_nil]
  rfl

section Hits

variable {P F R : Type} [DecidableEq P] (env : SummaryEnv F R)

theorem step_summarize_of_miss {s : State P F} {path : P} (h : s.hit path = none) :
    (s.step env (.summarize path : Op P F R)).2 = { s with
      summaryCache := some ⟨fileLen (s.files path), ⟨s.files path, none⟩,
        uncached env ⟨s.files path, none⟩⟩ } := by
  simp only [State.step, summarize, h, Prod.map, id, Memo.answer]

theorem step_summarizeScoped_of_miss {s : State P F} {path : P} {scope : ProjectScope}
    (h : s.scopedHit path scope = none) :
    (s.step env (.summarizeScoped path scope : Op P F R)).2 = { s with
      scopedSummaryCache := makeRoom path scope.project s.scopedSummaryCache ++
        [⟨(scope.project, path, fileLen (s.files path)), ⟨s.files path, some scope⟩,
          uncached env ⟨s.files path, some scope⟩⟩] } := by
  simp only [State.step, summarizeScoped, h, Prod.map, id, Memo.answer]

/-- A hit that answers as a fresh summary would. -/
theorem Current.of_hit {s : State P F} {path : P} {file : Option String}
    {e : Memo.Entry ℕ Source (LedgerSummary F)}
    (hcurrent : Current env s (.summarize path : Op P F R)) (hfile : s.files path = file)
    (hcache : s.summaryCache = some e) (hkey : e.key = fileLen file) :
    e.value = summarizeUncached env file fun _ => true := by
  have hreply : (s.step env (.summarize path : Op P F R)).1 =
    .summary (summarize env s path).1 := rfl
  have hhit : s.hit path = some e := by
    rw [State.hit, hcache, hfile, Option.filter_some, if_pos (decide_eq_true hkey)]
  rw [Current, hreply, Reply.summary.injEq, summarize_fst, hhit, hfile] at hcurrent
  exact hcurrent

theorem Current.of_scopedHit {s : State P F} {path : P} {scope : ProjectScope}
    {file : Option String} {e : Memo.Entry (String × P × ℕ) Source (LedgerSummary F)}
    (hcurrent : Current env s (.summarizeScoped path scope : Op P F R))
    (hfile : s.files path = file) (hcache : s.scopedSummaryCache = [e])
    (hkey : e.key = (scope.project, path, fileLen file)) :
    e.value = summarizeUncached env file scope.holdsEvent := by
  have hreply : (s.step env (.summarizeScoped path scope : Op P F R)).1 =
    .summary (summarizeScoped env s path scope).1 := rfl
  have hhit : s.scopedHit path scope = some e := by
    rw [State.scopedHit, hcache, hfile]
    exact List.find?_cons_of_pos (decide_eq_true hkey)
  rw [Current, hreply, Reply.summary.injEq, summarizeScoped_fst, hhit, hfile] at hcurrent
  exact hcurrent

end Hits

end LeanCtx.Savings
