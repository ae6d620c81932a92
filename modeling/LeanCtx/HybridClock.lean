import LeanCtx.Word
import Mathlib.Logic.Relation
import Mathlib.Tactic

/-!
# Hybrid logical clocks of a set of engines

`Stamp`, `bump`, `send` and `receive` are the clock of one engine. A `System`
holds the clock of every engine and the history of all events, each with the
stamp its engine issued for it; a receive names the earlier event whose stamp
arrives. Wall-clock readings are arbitrary at every step, also backwards.

The proofs run on `Stamp.rank`, the position of a stamp in the lexicographic
order. The carry of a full counter into the wall is then plain addition, so
every operation adds at least one to the ranks it reads, as long as the wall
has room for the carry.
-/

namespace LeanCtx.Hlc

@[ext] structure Stamp where
  wallMs : UInt64
  counter : UInt16
deriving DecidableEq, Repr, Inhabited

namespace Stamp

/-- The derived order: first the wall, then the counter. -/
instance : LT Stamp :=
  ⟨fun a b => a.wallMs < b.wallMs ∨ (a.wallMs = b.wallMs ∧ a.counter < b.counter)⟩

instance (a b : Stamp) : Decidable (a < b) :=
  inferInstanceAs (Decidable (a.wallMs < b.wallMs ∨ (a.wallMs = b.wallMs ∧ a.counter < b.counter)))

/-- The last stamp of all: no room is left for a carry. -/
def top : Stamp := ⟨UInt64.ofNat u64Max, UInt16.ofNat 65535⟩

def rank (s : Stamp) : ℕ := s.wallMs.toNat * 65536 + s.counter.toNat

theorem counter_lt (s : Stamp) : s.counter.toNat < 65536 := s.counter.toNat_lt

theorem lt_iff {a b : Stamp} : a < b ↔ a.rank < b.rank := by
  have ha := a.counter_lt
  have hb := b.counter_lt
  change (a.wallMs < b.wallMs ∨ (a.wallMs = b.wallMs ∧ a.counter < b.counter)) ↔ _
  rw [UInt64.lt_iff_toNat_lt, ← UInt64.toNat_inj, UInt16.lt_iff_toNat_lt]
  unfold rank
  omega

theorem lt_trans {a b c : Stamp} (h : a < b) (h' : b < c) : a < c := by
  rw [lt_iff] at *
  omega

theorem rank_inj {a b : Stamp} : a.rank = b.rank ↔ a = b := by
  have ha := a.counter_lt
  have hb := b.counter_lt
  rw [Stamp.ext_iff, ← UInt64.toNat_inj, ← UInt16.toNat_inj]
  unfold rank
  omega

theorem rank_top : top.rank = 2 ^ 80 - 1 := by decide

theorem rank_lt (s : Stamp) : s.rank < 2 ^ 80 := by
  have hw := s.wallMs.toNat_lt
  have hc := s.counter_lt
  unfold rank
  omega

end Stamp

/-- A counter above 65 535 moves the wall one millisecond on; the addition on
the wall wraps where it would overflow. -/
def bump (wallMs : UInt64) (counter : UInt32) : Stamp :=
  if counter.toNat ≤ 65535 then ⟨wallMs, counter.toUInt16⟩ else ⟨wallMs + 1, 0⟩

def send (last : Stamp) (localWallMs : UInt64) : Stamp :=
  let wall := max localWallMs last.wallMs
  if wall = last.wallMs then bump wall (last.counter.toUInt32 + 1) else ⟨wall, 0⟩

def receive (last remote : Stamp) (localWallMs : UInt64) : Stamp :=
  let wall := max (max localWallMs last.wallMs) remote.wallMs
  let counter : UInt32 :=
    if wall = last.wallMs then
      if wall = remote.wallMs then (max last.counter remote.counter).toUInt32 + 1
      else last.counter.toUInt32 + 1
    else if wall = remote.wallMs then remote.counter.toUInt32 + 1
    else 0
  bump wall counter

/-- With room for the carry, the rank of a bumped stamp is a plain sum. -/
theorem rank_bump {wallMs : UInt64} {counter : UInt32} (hc : counter.toNat ≤ 65536)
    (hroom : counter.toNat = 65536 → wallMs.toNat < u64Max) :
    (bump wallMs counter).rank = wallMs.toNat * 65536 + counter.toNat := by
  unfold bump
  split_ifs with h
  · simp only [Stamp.rank, UInt32.toNat_toUInt16]
    omega
  · have hwall : (wallMs + 1).toNat = wallMs.toNat + 1 := by
      apply toNat_add_of_le
      have := hroom (by omega)
      change wallMs.toNat + 1 ≤ u64Max
      omega
    simp only [Stamp.rank, hwall, UInt16.toNat_zero]
    omega

theorem toNat_counter_succ (c : UInt16) : (c.toUInt32 + 1).toNat = c.toNat + 1 := by
  have hc := c.toNat_lt
  rw [UInt32.toNat_add, UInt16.toNat_toUInt32]
  change (c.toNat + 1) % 2 ^ 32 = c.toNat + 1
  omega

theorem toNat_max_u64 (a b : UInt64) : (max a b).toNat = max a.toNat b.toNat := by
  change (if a ≤ b then b else a).toNat = _
  simp only [UInt64.le_iff_toNat_le]
  split_ifs with h <;> omega

theorem toNat_max_u16 (a b : UInt16) : (max a b).toNat = max a.toNat b.toNat := by
  change (if a ≤ b then b else a).toNat = _
  simp only [UInt16.le_iff_toNat_le]
  split_ifs with h <;> omega

/-- A stamp other than the last one has room for one more tick. -/
theorem room_of_ne_top {s : Stamp} (h : s ≠ Stamp.top) (hc : s.counter.toNat + 1 = 65536) :
    s.wallMs.toNat < u64Max := by
  have hw := toNat_le_u64Max s.wallMs
  have hr : s.rank ≠ Stamp.top.rank := fun he => h (Stamp.rank_inj.mp he)
  rw [Stamp.rank_top] at hr
  unfold Stamp.rank at hr
  unfold u64Max at *
  omega

/-- What a send does, on ranks: one tick past the last stamp, or the reading. -/
theorem rank_send {s : Stamp} {w : UInt64} (h : s ≠ Stamp.top) :
    (send s w).rank = max (s.rank + 1) (w.toNat * 65536) := by
  have hc := s.counter_lt
  unfold send
  simp only [← UInt64.toNat_inj, toNat_max_u64]
  split_ifs with hw
  · rw [rank_bump]
    · rw [toNat_max_u64, hw, toNat_counter_succ]
      unfold Stamp.rank
      omega
    · rw [toNat_counter_succ]
      omega
    · rw [toNat_counter_succ, toNat_max_u64, hw]
      exact room_of_ne_top h
  · simp only [Stamp.rank, toNat_max_u64, UInt16.toNat_zero]
    omega

/-- What a receive does, on ranks. -/
theorem rank_receive {s r : Stamp} {w : UInt64} (hs : s ≠ Stamp.top) (hr : r ≠ Stamp.top) :
    (receive s r w).rank = max (max (s.rank + 1) (r.rank + 1)) (w.toNat * 65536) := by
  have hcs := s.counter_lt
  have hcr := r.counter_lt
  have hs' := room_of_ne_top hs
  have hr' := room_of_ne_top hr
  unfold receive
  simp only [← UInt64.toNat_inj, toNat_max_u64]
  split_ifs with h₁ h₂ h₂
  · rw [rank_bump]
    all_goals simp only [toNat_counter_succ, toNat_max_u64, toNat_max_u16, Stamp.rank]
    all_goals omega
  · rw [rank_bump]
    all_goals simp only [toNat_counter_succ, toNat_max_u64, Stamp.rank]
    all_goals omega
  · rw [rank_bump]
    all_goals simp only [toNat_counter_succ, toNat_max_u64, Stamp.rank]
    all_goals omega
  · rw [rank_bump]
    all_goals simp only [toNat_max_u64, Stamp.rank, UInt32.toNat_zero]
    all_goals omega

theorem lt_send {s : Stamp} {w : UInt64} (h : s ≠ Stamp.top) : s < send s w := by
  rw [Stamp.lt_iff, rank_send h]
  omega

theorem lt_receive {s r : Stamp} {w : UInt64} (hs : s ≠ Stamp.top) (hr : r ≠ Stamp.top) :
    s < receive s r w ∧ r < receive s r w := by
  rw [Stamp.lt_iff, Stamp.lt_iff, rank_receive hs hr]
  omega

/-! ### Engines that exchange stamps -/

variable {E : Type}

/-- An event with the stamp its engine issued for it. `last` is the engine's
clock just before, `source` the event whose stamp a receive merged. -/
structure Issued (E : Type) where
  engine : E
  source : Option ℕ
  last : Stamp
  stamp : Stamp
deriving DecidableEq, Repr

structure System (E : Type) where
  clocks : E → Stamp
  history : List (Issued E)

inductive Action (E : Type)
  | send (engine : E) (localWallMs : UInt64)
  | receive (engine : E) (source : ℕ) (localWallMs : UInt64)

namespace Action

def engine : Action E → E
  | .send e _ => e
  | .receive e _ _ => e

def wallMs : Action E → UInt64
  | .send _ w => w
  | .receive _ _ w => w

def source : Action E → Option ℕ
  | .send _ _ => none
  | .receive _ i _ => some i

end Action

variable [DecidableEq E]

namespace System

def issue (s : System E) (e : E) (source : Option ℕ) (stamp : Stamp) : System E :=
  { clocks := Function.update s.clocks e stamp
    history := s.history ++ [⟨e, source, s.clocks e, stamp⟩] }

/-- One send or receive at one engine. A receive of an event that has not
happened is no step. -/
def step (s : System E) : Action E → Option (System E)
  | .send e w => some (s.issue e none (send (s.clocks e) w))
  | .receive e i w =>
    (s.history[i]?).map fun m => s.issue e (some i) (receive (s.clocks e) m.stamp w)

def run (s : System E) : List (Action E) → Option (System E)
  | [] => some s
  | a :: actions => (s.step a).bind fun s' => s'.run actions

/-- The stamps an action reads still have a successor. -/
def HasRoom (s : System E) (a : Action E) : Prop :=
  s.clocks a.engine ≠ Stamp.top ∧
    ∀ i, a.source = some i → ∀ m, s.history[i]? = some m → m.stamp ≠ Stamp.top

/-- Every step of the run leaves room for the carry of its counter. -/
def LeavesRoom (s : System E) : List (Action E) → Prop
  | [] => True
  | a :: actions => s.HasRoom a ∧ ∀ s', s.step a = some s' → s'.LeavesRoom actions

end System

/-- What one step can do: it issues one stamp past everything it read. -/
theorem step_cases {s s' : System E} {a : Action E} (h : s.step a = some s') (hroom : s.HasRoom a) :
    ∃ stamp, s' = s.issue a.engine a.source stamp ∧ s.clocks a.engine < stamp ∧
      stamp.rank ≤ max (max ((s.clocks a.engine).rank + 1) (a.wallMs.toNat * 65536))
        ((a.source.bind fun i => s.history[i]?).elim 0 fun m => m.stamp.rank + 1) ∧
      ∀ i, a.source = some i → ∃ m, s.history[i]? = some m ∧ m.stamp < stamp := by
  obtain ⟨hclock, hsource⟩ := hroom
  cases a with
  | send e w =>
    change s.clocks e ≠ Stamp.top at hclock
    simp only [System.step, Option.some.injEq] at h
    refine ⟨send (s.clocks e) w, h.symm, lt_send hclock, ?_, ?_⟩
    · rw [rank_send hclock]
      exact le_max_left _ _
    · intro i hi
      cases hi
  | receive e i w =>
    change s.clocks e ≠ Stamp.top at hclock
    simp only [System.step, Option.map_eq_some_iff] at h
    obtain ⟨m, hm, rfl⟩ := h
    have hne := hsource i rfl m hm
    refine ⟨receive (s.clocks e) m.stamp w, rfl, (lt_receive hclock hne).1, ?_, ?_⟩
    · rw [rank_receive hclock hne]
      simp only [Action.source, Action.engine, Action.wallMs, Option.bind_some, hm, Option.elim_some]
      omega
    · intro j hj
      cases hj
      exact ⟨m, hm, (lt_receive hclock hne).2⟩

/-- Stamps of one engine grow, its clock is past all of them, and every stamp
is past the clock and the stamp it was made from. -/
structure Ordered (s : System E) : Prop where
  clock : ∀ (i : ℕ) (a : Issued E), s.history[i]? = some a → a.stamp.rank ≤ (s.clocks a.engine).rank
  issued : ∀ (i j : ℕ) (a b : Issued E), i < j → s.history[i]? = some a →
    s.history[j]? = some b → a.engine = b.engine → a.stamp < b.stamp
  merged : ∀ (j : ℕ) (b : Issued E), s.history[j]? = some b → b.last < b.stamp ∧
    ∀ i, b.source = some i → ∃ a, s.history[i]? = some a ∧ a.stamp < b.stamp

theorem get_issue {s : System E} {e : E} {src : Option ℕ} {stamp : Stamp} {i : ℕ} {a : Issued E}
    (h : (s.issue e src stamp).history[i]? = some a) :
    s.history[i]? = some a ∨ (i = s.history.length ∧ a = ⟨e, src, s.clocks e, stamp⟩) := by
  simp only [System.issue, List.getElem?_append] at h
  split_ifs at h with hi
  · exact .inl h
  · right
    rw [List.getElem?_singleton] at h
    split_ifs at h with h0
    exact ⟨by omega, (Option.some.inj h).symm⟩

theorem get_issue_of_get {s : System E} {e : E} {src : Option ℕ} {stamp : Stamp} {i : ℕ}
    {a : Issued E} (h : s.history[i]? = some a) :
    (s.issue e src stamp).history[i]? = some a := by
  rw [System.issue, List.getElem?_append_left (List.getElem?_eq_some_iff.mp h).1, h]

omit [DecidableEq E] in
theorem ordered_start (start : E → Stamp) : Ordered (System.mk start []) := by
  constructor <;> simp

theorem ordered_issue {s : System E} {e : E} {src : Option ℕ} {stamp : Stamp} (hs : Ordered s)
    (hclock : s.clocks e < stamp)
    (hsrc : ∀ i, src = some i → ∃ m, s.history[i]? = some m ∧ m.stamp < stamp) :
    Ordered (s.issue e src stamp) := by
  have hlen : ∀ {i a}, s.history[i]? = some a → i < s.history.length := by
    intro i a h
    exact (List.getElem?_eq_some_iff.mp h).1
  have hclock' := Stamp.lt_iff.mp hclock
  constructor
  · intro i a h
    simp only [System.issue, Function.update_apply]
    rcases get_issue h with h | ⟨-, rfl⟩
    · have := hs.clock i a h
      split_ifs with he
      · rw [he] at this
        omega
      · exact this
    · simp
  · intro i j a b hij ha hb heng
    rcases get_issue ha with ha | ⟨rfl, -⟩
    · rcases get_issue hb with hb | ⟨-, rfl⟩
      · exact hs.issued i j a b hij ha hb heng
      · -- The new stamp is past the clock, and the clock is past all older stamps.
        have := hs.clock i a ha
        rw [heng] at this
        rw [Stamp.lt_iff]
        exact lt_of_le_of_lt this hclock'
    · rcases get_issue hb with hb | ⟨rfl, -⟩
      · have := hlen hb
        omega
      · omega
  · intro j b hb
    rcases get_issue hb with hb | ⟨-, rfl⟩
    · refine ⟨(hs.merged j b hb).1, fun i hi => ?_⟩
      obtain ⟨a, ha, hlt⟩ := (hs.merged j b hb).2 i hi
      exact ⟨a, get_issue_of_get ha, hlt⟩
    · refine ⟨hclock, fun i hi => ?_⟩
      obtain ⟨m, hm, hlt⟩ := hsrc i hi
      exact ⟨m, get_issue_of_get hm, hlt⟩

theorem ordered_run {s s' : System E} {actions : List (Action E)} (hs : Ordered s)
    (hrun : s.run actions = some s') (hroom : s.LeavesRoom actions) : Ordered s' := by
  induction actions generalizing s with
  | nil =>
    cases hrun
    exact hs
  | cons a actions ih =>
    simp only [System.run, Option.bind_eq_some_iff] at hrun
    obtain ⟨s₁, hstep, hrun⟩ := hrun
    obtain ⟨stamp, hs₁, hclock, -, hsrc⟩ := step_cases hstep hroom.1
    have hs₁' : Ordered s₁ := hs₁ ▸ ordered_issue hs hclock hsrc
    exact ih hs₁' hrun (hroom.2 s₁ hstep)

/-- One event comes before another at the same engine, or its stamp is the one
the other received. -/
def Before (history : List (Issued E)) (i j : ℕ) : Prop :=
  ∃ a b, history[i]? = some a ∧ history[j]? = some b ∧
    ((i < j ∧ a.engine = b.engine) ∨ b.source = some i)

def HappensBefore (history : List (Issued E)) : ℕ → ℕ → Prop := Relation.TransGen (Before history)

omit [DecidableEq E] in
theorem Ordered.lt_of_happensBefore {s : System E} (hs : Ordered s) {i j : ℕ}
    (h : HappensBefore s.history i j) :
    ∃ a b, s.history[i]? = some a ∧ s.history[j]? = some b ∧ a.stamp < b.stamp := by
  have hone : ∀ {i j}, Before s.history i j →
      ∃ a b, s.history[i]? = some a ∧ s.history[j]? = some b ∧ a.stamp < b.stamp := by
    rintro i j ⟨a, b, ha, hb, ⟨hij, heng⟩ | hsrc⟩
    · exact ⟨a, b, ha, hb, hs.issued i j a b hij ha hb heng⟩
    · obtain ⟨m, hm, hlt⟩ := (hs.merged j b hb).2 i hsrc
      exact ⟨m, b, hm, hb, hlt⟩
  induction h with
  | single h => exact hone h
  | tail _ h ih =>
    obtain ⟨a, b, ha, hb, hab⟩ := ih
    obtain ⟨b', c, hb', hc, hbc⟩ := hone h
    rw [hb] at hb'
    cases hb'
    exact ⟨a, c, ha, hc, Stamp.lt_trans hab hbc⟩

/-! ### Readings that leave room -/

def Below (s : System E) (bound : ℕ) : Prop :=
  (∀ e, (s.clocks e).rank ≤ bound) ∧ ∀ m ∈ s.history, m.stamp.rank ≤ bound

omit [DecidableEq E] in
theorem Below.ne_top {s : System E} {bound : ℕ} (hs : Below s bound) (hb : bound < 2 ^ 80 - 1)
    (a : Action E) : s.HasRoom a := by
  have hne : ∀ {t : Stamp}, t.rank ≤ bound → t ≠ Stamp.top := by
    rintro t ht rfl
    rw [Stamp.rank_top] at ht
    omega
  exact ⟨hne (hs.1 _), fun i _ m hm => hne (hs.2 m (List.mem_of_getElem? hm))⟩

theorem Below.step {s s' : System E} {a : Action E} {bound : ℕ} (hs : Below s bound)
    (hb : bound < 2 ^ 80 - 1) (hw : a.wallMs.toNat * 65536 ≤ bound) (h : s.step a = some s') :
    Below s' (bound + 1) := by
  obtain ⟨stamp, rfl, -, hle, -⟩ := step_cases h (hs.ne_top hb a)
  have hstamp : stamp.rank ≤ bound + 1 := by
    have hclock := hs.1 a.engine
    have hsrc : ((a.source.bind fun i => s.history[i]?).elim 0 fun m => m.stamp.rank + 1) ≤
        bound + 1 := by
      cases hm : a.source.bind fun i => s.history[i]? with
      | none => simp
      | some m =>
        obtain ⟨i, -, hm⟩ := Option.bind_eq_some_iff.mp hm
        have := hs.2 m (List.mem_of_getElem? hm)
        simpa using this
    omega
  constructor
  · intro e
    have := hs.1 e
    simp only [System.issue, Function.update_apply]
    split_ifs <;> omega
  · intro m hm
    simp only [System.issue, List.mem_append, List.mem_singleton] at hm
    rcases hm with hm | rfl
    · have := hs.2 m hm
      omega
    · exact hstamp

/-- A run of `n` steps ticks the fastest clock at most `n` times past the
highest reading, and the wall carries once in 65 536 ticks. -/
theorem leavesRoom_of_readings {s : System E} {actions : List (Action E)} {bound : ℕ}
    (hs : Below s bound) (hw : ∀ a ∈ actions, a.wallMs.toNat * 65536 ≤ bound)
    (hb : bound + actions.length < 2 ^ 80) : s.LeavesRoom actions := by
  induction actions generalizing s bound with
  | nil => trivial
  | cons a actions ih =>
    simp only [List.length_cons] at hb
    have hlt : bound < 2 ^ 80 - 1 := by omega
    refine ⟨hs.ne_top hlt a, fun s' h => ?_⟩
    apply ih (hs.step hlt (hw a (by simp)) h)
    · intro a' ha'
      have := hw a' (by simp [ha'])
      omega
    · omega

/-! ### The order of stamps -/

/-- Every interleaving of sends and receives, with any readings that leave room
for the carry: stamps of one engine grow, a received stamp and the receiver's
clock are below the stamp of the receive, and stamps follow happens-before. -/
theorem stamps_follow_happensBefore {start : E → Stamp} {actions : List (Action E)} {s : System E}
    (hrun : (System.mk start []).run actions = some s)
    (hroom : (System.mk start []).LeavesRoom actions) :
    (∀ (i j : ℕ) (a b : Issued E), i < j → s.history[i]? = some a → s.history[j]? = some b →
      a.engine = b.engine → a.stamp < b.stamp) ∧
    (∀ (i j : ℕ) (a b : Issued E), s.history[i]? = some a → s.history[j]? = some b →
      b.source = some i → b.last < b.stamp ∧ a.stamp < b.stamp) ∧
    (∀ i j, HappensBefore s.history i j →
      ∃ a b, s.history[i]? = some a ∧ s.history[j]? = some b ∧ a.stamp < b.stamp) := by
  have hs := ordered_run (ordered_start start) hrun hroom
  refine ⟨hs.issued, ?_, fun i j => hs.lt_of_happensBefore⟩
  intro i j a b ha hb hsrc
  obtain ⟨hlast, hmerged⟩ := hs.merged j b hb
  obtain ⟨m, hm, hlt⟩ := hmerged i hsrc
  rw [ha] at hm
  cases hm
  exact ⟨hlast, hlt⟩

/-- A send at a full counter carries into the wall, and the clock of the
receiver, which is behind, moves past the carried stamp. -/
theorem stamps_follow_happensBefore_carry :
    ∃ s : System Bool,
      (System.mk (fun b => if b then ⟨5, 65535⟩ else ⟨0, 0⟩) []).run
        [.send true 5, .receive false 0 3, .send true 0] = some s ∧
      s.history.map Issued.stamp = [⟨6, 0⟩, ⟨6, 1⟩, ⟨6, 1⟩] ∧
      (∀ i j, HappensBefore s.history i j →
        ∃ a b, s.history[i]? = some a ∧ s.history[j]? = some b ∧ a.stamp < b.stamp) := by
  refine ⟨_, rfl, by decide, ?_⟩
  have hroom : (System.mk (fun b : Bool => if b then (⟨5, 65535⟩ : Stamp) else ⟨0, 0⟩) []).LeavesRoom
      [.send true 5, .receive false 0 3, .send true 0] := by
    have hbelow : Below (System.mk (fun b : Bool => if b then (⟨5, 65535⟩ : Stamp) else ⟨0, 0⟩) [])
        400000 := by
      constructor <;> decide
    exact leavesRoom_of_readings hbelow (by decide) (by decide)
  exact (stamps_follow_happensBefore rfl hroom).2.2

/-! ### The server's skew clamp -/

def serverAccepts (wallMs serverNowMs placeCreatedAtMs : UInt64) : Bool :=
  wallMs ≤ serverNowMs + 120000 && saturatingSub placeCreatedAtMs 300000 ≤ wallMs

theorem serverAccepts_iff {wallMs now created : UInt64} (hnow : now.toNat + 120000 < 2 ^ 64) :
    serverAccepts wallMs now created = true ↔
      wallMs.toNat ≤ now.toNat + 120000 ∧ created.toNat ≤ wallMs.toNat + 300000 := by
  have hsum : (now + 120000).toNat = now.toNat + 120000 := by
    rw [UInt64.toNat_add]
    exact Nat.mod_eq_of_lt hnow
  unfold serverAccepts
  rw [Bool.and_eq_true, decide_eq_true_eq, decide_eq_true_eq, UInt64.le_iff_toNat_le,
    UInt64.le_iff_toNat_le, hsum, toNat_saturatingSub]
  change _ ∧ created.toNat - 300000 ≤ _ ↔ _
  omega

/-- A stamp is not behind the reading it was made from. -/
theorem reading_le_stamp {s s' : System E} {a : Action E} (h : s.step a = some s')
    (hroom : s.HasRoom a) : ∃ stamp, s' = s.issue a.engine a.source stamp ∧
      a.wallMs.toNat * 65536 ≤ stamp.rank := by
  obtain ⟨hclock, hsource⟩ := hroom
  cases a with
  | send e w =>
    change s.clocks e ≠ Stamp.top at hclock
    refine ⟨send (s.clocks e) w, (Option.some.inj h).symm, ?_⟩
    rw [rank_send hclock]
    exact le_max_right _ _
  | receive e i w =>
    change s.clocks e ≠ Stamp.top at hclock
    obtain ⟨m, hm, rfl⟩ := Option.map_eq_some_iff.mp h
    refine ⟨receive (s.clocks e) m.stamp w, rfl, ?_⟩
    rw [rank_receive hclock (hsource i rfl m hm)]
    exact le_max_right _ _

/-- A run keeps every stamp between the readings, up to one tick for each step. -/
theorem stamps_between {s s' : System E} {actions : List (Action E)} {low bound : ℕ}
    (hs : Below s bound) (hlow : ∀ m ∈ s.history, low ≤ m.stamp.rank)
    (hread : ∀ a ∈ actions, low ≤ a.wallMs.toNat * 65536 ∧ a.wallMs.toNat * 65536 ≤ bound)
    (hb : bound + actions.length < 2 ^ 80) (hrun : s.run actions = some s') :
    Below s' (bound + actions.length) ∧ ∀ m ∈ s'.history, low ≤ m.stamp.rank := by
  induction actions generalizing s bound with
  | nil =>
    cases hrun
    exact ⟨hs, hlow⟩
  | cons a actions ih =>
    rw [List.length_cons] at hb ⊢
    obtain ⟨s₁, hstep, hrun⟩ := Option.bind_eq_some_iff.mp hrun
    obtain ⟨hreading, hbound⟩ := hread a List.mem_cons_self
    have hlt : bound < 2 ^ 80 - 1 := by omega
    have hs₁ : Below s₁ (bound + 1) := hs.step hlt hbound hstep
    obtain ⟨stamp, rfl, hstamp⟩ := reading_le_stamp hstep (hs.ne_top hlt a)
    have hlow₁ : ∀ m ∈ (s.issue a.engine a.source stamp).history, low ≤ m.stamp.rank := by
      intro m hm
      rcases List.mem_append.mp hm with hm | hm
      · exact hlow m hm
      · rw [List.mem_singleton.mp hm]
        exact hreading.trans hstamp
    have hread₁ : ∀ a ∈ actions,
        low ≤ a.wallMs.toNat * 65536 ∧ a.wallMs.toNat * 65536 ≤ bound + 1 := by
      intro a' ha'
      have h := hread a' (List.mem_cons_of_mem a ha')
      exact ⟨h.1, Nat.le_succ_of_le h.2⟩
    have hrest := ih hs₁ hlow₁ hread₁ (by omega) hrun
    rw [Nat.add_assoc, Nat.add_comm 1] at hrest
    exact hrest

/-- Engines whose readings are at most `skew` milliseconds ahead of the server, and not earlier
than the place allows, issue only stamps the server accepts, in every interleaving of as many
sends and receives as the clamp leaves carries for. -/
theorem serverAccepts_run {start : E → Stamp} {actions : List (Action E)} {s : System E}
    {now created : UInt64} {skew : ℕ} (hnow : now.toNat + 120000 < 2 ^ 64)
    (hstart : ∀ e, (start e).rank ≤ (now.toNat + skew) * 65536)
    (hread : ∀ a ∈ actions, created.toNat ≤ a.wallMs.toNat + 300000 ∧
      a.wallMs.toNat ≤ now.toNat + skew)
    (hskew : skew + actions.length / 65536 ≤ 120000)
    (hrun : (System.mk start []).run actions = some s) :
    ∀ m ∈ s.history, serverAccepts m.stamp.wallMs now created = true := by
  have hbelow : Below (System.mk start []) ((now.toNat + skew) * 65536) := ⟨hstart, nofun⟩
  have hreadings : ∀ a ∈ actions, (created.toNat - 300000) * 65536 ≤ a.wallMs.toNat * 65536 ∧
      a.wallMs.toNat * 65536 ≤ (now.toNat + skew) * 65536 := by
    intro a ha
    have h := hread a ha
    exact ⟨Nat.mul_le_mul_right _ (by omega), Nat.mul_le_mul_right _ h.2⟩
  obtain ⟨⟨-, hhigh⟩, hlow⟩ := stamps_between hbelow nofun hreadings (by omega) hrun
  intro m hm
  have hupper := hhigh m hm
  have hlower := hlow m hm
  have hcounter := m.stamp.counter_lt
  rw [serverAccepts_iff hnow]
  unfold Stamp.rank at hupper hlower
  omega

theorem serverAccepts_run_exchange : ∃ s : System Bool,
    (System.mk (fun _ => ⟨0, 0⟩) []).run
      [.send true 1000000, .receive false 0 999999, .send false 1000001] = some s ∧
    ∀ m ∈ s.history, serverAccepts m.stamp.wallMs 1000000 1200000 = true := by
  have hskew : 1 + [Action.send true 1000000, .receive false 0 999999,
      .send false 1000001].length / 65536 ≤ 120000 := by decide
  exact ⟨_, rfl, serverAccepts_run (by decide) (fun _ => by decide) (by decide) hskew rfl⟩

end LeanCtx.Hlc
