import Mathlib.Data.List.Basic
import Mathlib.Data.List.Infix
import Mathlib.Logic.Embedding.Basic
import Mathlib.Tactic.Common

/-!
# Search deltas

One tracker remembers the match hashes of a process' searches by their pattern. What it
remembers is always the end of the list of its searches, so a delta is taken against the
last search that found something with the same pattern, in whatever directory it ran.
The delta completes an earlier answer when that search and the last one in the same
directory showed the same part of the matches and none of them has gone.
-/

namespace LeanCtx.SearchDelta

abbrev Text := List Char

variable {H K : Type} [DecidableEq H] [DecidableEq K]

/-! ## The tracker -/

structure PreviousSearch (H : Type) where
  pattern : Text
  matchHashes : List H
  recordedAt : ℕ

/-- The searches remembered, the oldest first. -/
abbrev Tracker (H : Type) := List (PreviousSearch H)

def maxEntries : ℕ := 20

def ttlSecs : ℕ := 30 * 60

def cutoff (now : ℕ) : ℕ := if ttlSecs ≤ now then now - ttlSecs else now

def gc (now : ℕ) (searches : Tracker H) : Tracker H :=
  let kept := searches.filter fun s => cutoff now < s.recordedAt
  kept.drop (kept.length - maxEntries)

def findPrevious (pattern : Text) (searches : Tracker H) : Option (PreviousSearch H) :=
  searches.reverse.find? fun s => s.pattern = pattern

def record (gcAt recordedAt : ℕ) (pattern : Text) (hashes : List H) (searches : Tracker H) :
    Tracker H :=
  gc gcAt searches ++ [⟨pattern, hashes, recordedAt⟩]

/-! ## The delta -/

structure Delta where
  newMatches : List Text
  text : Text
deriving DecidableEq

def formatDelta (pattern : Text) (newMatches : List Text) (total : ℕ) : Text :=
  newMatches.length.repr.toList ++ " NEW matches for \"".toList ++ pattern ++ "\" (of ".toList ++
    total.repr.toList ++ " total, rest unchanged):\n".toList ++
    newMatches.flatMap fun m => "+ ".toList ++ m ++ ['\n']

/-- Fewer than 60 % of the matches are new. -/
def isWorthSending (newCount total : ℕ) : Bool :=
  if total = 0 then false else decide (5 * newCount < 3 * total)

def deltaOf (hash : Text ↪ H) (pattern : Text) (found : List Text) (prev : PreviousSearch H) :
    Option Delta :=
  let newMatches := found.filter fun m => hash m ∉ prev.matchHashes
  if isWorthSending newMatches.length found.length then
    if newMatches = [] then none
    else some ⟨newMatches, formatDelta pattern newMatches found.length⟩
  else none

/-! ## The calls of a process -/

/-- A call with its directory and filters as the scope, the matches it finds, the time since the
call before it and the time between the eviction and the record. -/
structure Search (K : Type) where
  pattern : Text
  scope : K
  found : List Text
  wait : ℕ
  lap : ℕ

inductive Event (K : Type) where
  | search (c : Search K)
  | reset

structure State (H : Type) where
  clock : ℕ
  searches : Tracker H

inductive Answer where
  | noMatches
  | delta (d : Delta)
  | full (found : List Text)
deriving DecidableEq

/-- A search without matches answers before the tracker is asked. -/
def answer (hash : Text ↪ H) (s : State H) (c : Search K) : Answer :=
  if c.found = [] then .noMatches
  else ((findPrevious c.pattern s.searches).bind (deltaOf hash c.pattern c.found)).elim
    (.full c.found) .delta

def step (hash : Text ↪ H) (s : State H) : Event K → State H
  | .search c =>
    if c.found = [] then { s with clock := s.clock + c.wait }
    else
      { clock := s.clock + c.wait + c.lap
        searches := record (s.clock + c.wait) (s.clock + c.wait + c.lap) c.pattern
          (c.found.map hash) s.searches }
  | .reset => { s with searches := [] }

def run (hash : Text ↪ H) (start : ℕ) (events : List (Event K)) : State H :=
  events.foldl (step hash) ⟨start, []⟩

/-! ## What was shown before -/

def Event.search? : Event K → Option (Search K)
  | .search c => some c
  | .reset => none

/-- What the last search before a call with its pattern and scope found. -/
def lastFound (past : List (Event K)) (c : Search K) : List Text :=
  ((past.filterMap Event.search?).reverse.find? fun e =>
    decide (e.pattern = c.pattern ∧ e.scope = c.scope)).elim [] Search.found

def remember (searches : List (Search K)) : Event K → List (Search K)
  | .search c => if c.found = [] then searches else searches ++ [c]
  | .reset => []

/-- The searches that reached the tracker since it was last reset. -/
def recorded (past : List (Event K)) : List (Search K) := past.foldl remember []

/-- What the last search with a pattern showed, in whatever scope. -/
def lastShown (past : List (Event K)) (pattern : Text) : List Text :=
  ((recorded past).reverse.find? fun e => decide (e.pattern = pattern)).elim [] Search.found

/-- The lines of a delta and those of the last search like it are the matches of the call. -/
def Complete (past : List (Event K)) (c : Search K) (d : Delta) : Prop :=
  ∀ m, m ∈ c.found ↔ m ∈ d.newMatches ∨ m ∈ lastFound past c

/-- No earlier match has gone, and what another scope showed of the matches was shown in
this one. -/
def Continues (past : List (Event K)) (c : Search K) : Prop :=
  (∀ m ∈ lastFound past c, m ∈ c.found) ∧
  ∀ m ∈ c.found, m ∈ lastShown past c.pattern → m ∈ lastFound past c

/-- Every call of a run that answers with a delta has the property. -/
def EachDelta (hash : Text ↪ H) (start : ℕ) (events : List (Event K))
    (P : List (Event K) → Search K → Delta → Prop) : Prop :=
  ∀ past c rest d, events = past ++ .search c :: rest →
    answer hash (run hash start past) c = .delta d → P past c d

/-! ## The tracker holds the end of its searches -/

omit [DecidableEq H] in
theorem filter_recordedAt_suffix (cut : ℕ) {searches : Tracker H}
    (h : searches.Pairwise fun a b => a.recordedAt ≤ b.recordedAt) :
    searches.filter (fun s => cut < s.recordedAt) <:+ searches := by
  induction searches with
  | nil => exact List.suffix_refl []
  | cons s searches ih =>
    obtain ⟨hs, hrest⟩ := List.pairwise_cons.mp h
    by_cases hcut : cut < s.recordedAt
    · have hall : ∀ a ∈ s :: searches, decide (cut < a.recordedAt) = true := by
        intro a ha
        rcases List.mem_cons.mp ha with rfl | ha
        · exact decide_eq_true hcut
        · exact decide_eq_true (hcut.trans_le (hs a ha))
      rw [List.filter_eq_self.mpr hall]
    · rw [List.filter_cons_of_neg (by simpa using hcut)]
      exact (ih hrest).trans (List.suffix_cons s searches)

omit [DecidableEq H] in
theorem gc_suffix (now : ℕ) {searches : Tracker H}
    (h : searches.Pairwise fun a b => a.recordedAt ≤ b.recordedAt) :
    gc now searches <:+ searches :=
  (List.drop_suffix _ _).trans (filter_recordedAt_suffix (cutoff now) h)

/-- What the tracker knows of a search. -/
def known (s : PreviousSearch H) : Text × List H := (s.pattern, s.matchHashes)

structure Tracks (hash : Text ↪ H) (past : List (Event K)) (s : State H) : Prop where
  ordered : s.searches.Pairwise fun a b => a.recordedAt ≤ b.recordedAt
  bounded : ∀ p ∈ s.searches, p.recordedAt ≤ s.clock
  suffix : s.searches.map known <:+
    (recorded past).map fun c => (c.pattern, c.found.map hash)

omit [DecidableEq H] [DecidableEq K] in
theorem tracks_step {hash : Text ↪ H} {past : List (Event K)} {s : State H}
    (h : Tracks hash past s) (e : Event K) : Tracks hash (past ++ [e]) (step hash s e) := by
  have hrecorded : recorded (past ++ [e]) = remember (recorded past) e := by
    rw [recorded, List.foldl_append]
    rfl
  cases e with
  | reset =>
    constructor
    · exact List.Pairwise.nil
    · intro p hp
      cases hp
    · exact List.nil_suffix
  | search c =>
    by_cases hfound : c.found = []
    · have hstep : step hash s (.search c) = { s with clock := s.clock + c.wait } := if_pos hfound
      have hrem : remember (recorded past) (.search c) = recorded past := if_pos hfound
      rw [hstep]
      constructor
      · exact h.ordered
      · exact fun p hp => (h.bounded p hp).trans (Nat.le_add_right _ _)
      · rw [hrecorded, hrem]
        exact h.suffix
    · have hstep : (step hash s (.search c)).searches = gc (s.clock + c.wait) s.searches ++
          [⟨c.pattern, c.found.map hash, s.clock + c.wait + c.lap⟩] :=
        congrArg State.searches (if_neg hfound)
      have hclock : (step hash s (.search c)).clock = s.clock + c.wait + c.lap :=
        congrArg State.clock (if_neg hfound)
      have hrem : remember (recorded past) (.search c) = recorded past ++ [c] := if_neg hfound
      have hgc := gc_suffix (s.clock + c.wait) h.ordered
      have hle : ∀ p ∈ gc (s.clock + c.wait) s.searches,
          p.recordedAt ≤ s.clock + c.wait + c.lap := by
        intro p hp
        have hp := h.bounded p (hgc.subset hp)
        omega
      constructor
      · rw [hstep, List.pairwise_append]
        refine ⟨h.ordered.sublist hgc.sublist, List.pairwise_singleton _ _, ?_⟩
        intro a ha b hb
        rw [List.mem_singleton.mp hb]
        exact hle a ha
      · rw [hstep, hclock]
        intro p hp
        rcases List.mem_append.mp hp with hp | hp
        · exact hle p hp
        · rw [List.mem_singleton.mp hp]
      · rw [hstep, hrecorded, hrem, List.map_append, List.map_append]
        obtain ⟨front, hfront⟩ := (hgc.map known).trans h.suffix
        exact ⟨front, by rw [← hfront, List.append_assoc]; rfl⟩

omit [DecidableEq H] [DecidableEq K] in
theorem tracks_run (hash : Text ↪ H) (start : ℕ) (past : List (Event K)) :
    Tracks hash past (run hash start past) := by
  induction past using List.reverseRecOn with
  | nil =>
    constructor
    · exact List.Pairwise.nil
    · intro p hp
      cases hp
    · exact List.nil_suffix
  | append_singleton past e ih =>
    have hrun : run hash start (past ++ [e]) = step hash (run hash start past) e := by
      rw [run, List.foldl_append]
      rfl
    rw [hrun]
    exact tracks_step ih e

omit [DecidableEq H] [DecidableEq K] in
/-- The entry found for a pattern is the last search that showed something with it. -/
theorem mem_findPrevious {hash : Text ↪ H} {past : List (Event K)} {s : State H}
    (h : Tracks hash past s) {pattern : Text} {prev : PreviousSearch H}
    (hprev : findPrevious pattern s.searches = some prev) (m : Text) :
    hash m ∈ prev.matchHashes ↔ m ∈ lastShown past pattern := by
  let same : Text × List H → Bool := fun k => decide (k.1 = pattern)
  have hknown : (s.searches.map known).reverse.find? same = some (known prev) := by
    rw [← List.map_reverse, List.find?_map]
    exact congrArg (Option.map known) hprev
  obtain ⟨front, hfront⟩ := h.suffix
  have hlast : ((recorded past).map fun c => (c.pattern, c.found.map hash)).reverse.find? same =
      some (known prev) := by
    rw [← hfront, List.reverse_append, List.find?_append, hknown, Option.some_or]
  rw [← List.map_reverse, List.find?_map] at hlast
  obtain ⟨e, he, hkey⟩ := Option.map_eq_some_iff.mp hlast
  have hshown : lastShown past pattern = e.found := by
    rw [lastShown]
    exact congrArg (fun o => o.elim [] Search.found) he
  have hhashes : prev.matchHashes = e.found.map hash := (congrArg Prod.snd hkey).symm
  rw [hshown, hhashes]
  exact List.mem_map_of_injective hash.injective

/-! ## Complete deltas -/

omit [DecidableEq K] in
theorem exists_previous {hash : Text ↪ H} {s : State H} {c : Search K} {d : Delta}
    (h : answer hash s c = .delta d) : ∃ prev, findPrevious c.pattern s.searches = some prev ∧
      d.newMatches = c.found.filter fun m => hash m ∉ prev.matchHashes := by
  rw [answer] at h
  split_ifs at h
  cases hprev : findPrevious c.pattern s.searches with
  | none =>
    rw [hprev] at h
    cases h
  | some prev =>
    refine ⟨prev, rfl, ?_⟩
    rw [hprev, Option.bind_some] at h
    cases hdelta : deltaOf hash c.pattern c.found prev with
    | none =>
      rw [hdelta] at h
      cases h
    | some d' =>
      rw [hdelta] at h
      obtain rfl : d' = d := Answer.delta.inj h
      rw [deltaOf] at hdelta
      split_ifs at hdelta
      rw [← Option.some.inj hdelta]

theorem complete_iff_continues {hash : Text ↪ H} {start : ℕ} {past : List (Event K)}
    {c : Search K} {d : Delta} (h : answer hash (run hash start past) c = .delta d) :
    Complete past c d ↔ Continues past c := by
  obtain ⟨prev, hprev, hnew⟩ := exists_previous h
  have hmem (m : Text) : m ∈ d.newMatches ↔ m ∈ c.found ∧ m ∉ lastShown past c.pattern := by
    rw [hnew, List.mem_filter, decide_eq_true_iff,
      mem_findPrevious (tracks_run hash start past) hprev]
  constructor
  · intro hcomplete
    refine ⟨fun m hm => (hcomplete m).mpr (Or.inr hm), fun m hm hshown => ?_⟩
    exact ((hcomplete m).mp hm).resolve_left fun hin => ((hmem m).mp hin).2 hshown
  · intro hcontinues m
    constructor
    · intro hm
      by_cases hshown : m ∈ lastShown past c.pattern
      · exact Or.inr (hcontinues.2 m hm hshown)
      · exact Or.inl ((hmem m).mpr ⟨hm, hshown⟩)
    · rintro (hm | hm)
      · exact ((hmem m).mp hm).1
      · exact hcontinues.1 m hm

/-- In every run the deltas complete what was shown before exactly when each of their calls
continues it. -/
theorem eachDelta_complete_iff (hash : Text ↪ H) (start : ℕ) (events : List (Event K)) :
    EachDelta hash start events Complete ↔
      EachDelta hash start events fun past c _ => Continues past c := by
  constructor
  · intro h past c rest d hevents hdelta
    exact (complete_iff_continues hdelta).mp (h past c rest d hevents hdelta)
  · intro h past c rest d hevents hdelta
    exact (complete_iff_continues hdelta).mpr (h past c rest d hevents hdelta)

/-- A match that has gone stays standing as unchanged. -/
theorem not_each_complete : ¬ ∀ start (events : List (Event Unit)),
    EachDelta (Function.Embedding.refl Text) start events Complete := by
  intro h
  let before : Search Unit :=
    ⟨"run".toList, (), ["a.rs:1 run()".toList, "b.rs:2 run()".toList, "c.rs:3 run()".toList], 5, 0⟩
  let after : Search Unit :=
    ⟨"run".toList, (), ["a.rs:1 run()".toList, "b.rs:2 run()".toList, "d.rs:4 run()".toList], 5, 0⟩
  let shown : Delta :=
    ⟨["d.rs:4 run()".toList], formatDelta "run".toList ["d.rs:4 run()".toList] 3⟩
  have hdelta : answer (Function.Embedding.refl Text)
      (run (Function.Embedding.refl Text) 5000 [.search before]) after = .delta shown := by
    decide
  have hcomplete :=
    h 5000 [.search before, .search after] [.search before] after [] shown rfl hdelta
  have hgone := (hcomplete "c.rs:3 run()".toList).mpr (Or.inr (by decide))
  exact absurd hgone (by decide)

end LeanCtx.SearchDelta
