import LeanCtx.HiveSynced

/-!
# Runs of a replica

Own events are queued, pushed and tailed, in any order, while others append to
the log. Whatever fails on the way, the replica stays in step with the server,
and no own event is lost.
-/

namespace LeanCtx.Hive

open AppendLog (after Beginning Seen)
open ByteText (Bytes)

variable {σ : Type}

section Steps

variable {v : Service σ} {pk : Bytes} {own : List String} {w : World σ} {env : Env}
  {api : PlaceApi σ} {place : String}

/-! ## Push -/

theorem settleFailed_frame (answers : List (String × Outcome)) (r : Replica) :
    (answers.foldl Replica.settleFailed r) = { r with
      pendingRows := (answers.foldl Replica.settleFailed r).pendingRows } := by
  induction answers generalizing r with
  | nil => rfl
  | cons a answers ih =>
    have hone : r.settleFailed a = { r with pendingRows := (r.settleFailed a).pendingRows } := by
      unfold Replica.settleFailed
      split_ifs <;> rfl
    rw [List.foldl_cons, ih (r.settleFailed a), hone]

/-- Only what was refused for good leaves the queue. -/
theorem mem_settleFailed {answers : List (String × Outcome)} {r : Replica} {p : PendingEvent}
    (hp : p ∈ r.pendingRows) (hkept : ∀ a ∈ answers, a.2.next = some .fail → a.1 ≠ p.eventId) :
    p ∈ (answers.foldl Replica.settleFailed r).pendingRows := by
  induction answers generalizing r with
  | nil => exact hp
  | cons a answers ih =>
    obtain ⟨ha, hkept⟩ := List.forall_mem_cons.mp hkept
    refine ih ?_ hkept
    unfold Replica.settleFailed
    split_ifs with hfail
    · exact List.mem_filter.mpr ⟨hp, decide_eq_true (ha hfail).symm⟩
    · exact hp

theorem Synced.settleFailed (h : Synced v pk own w) {answers : List (String × Outcome)}
    (hrefused : ∀ a ∈ answers, a.2.next = some .fail → v.refused w.server a.1) :
    Synced v pk own { w with replica := answers.foldl Replica.settleFailed w.replica } := by
  rw [settleFailed_frame]
  refine ⟨h.rows, h.cursor, h.epoch, h.salt, fun id hid => ?_⟩
  rcases h.own id hid with hpending | hstored | hgone
  · obtain ⟨p, hp, rfl⟩ := List.mem_map.mp hpending
    by_cases hfailed : ∃ a ∈ answers, a.2.next = some .fail ∧ a.1 = p.eventId
    · obtain ⟨a, ha, hfail, heq⟩ := hfailed
      refine Or.inr (Or.inr ?_)
      rw [← heq]
      exact hrefused a ha hfail
    · refine Or.inl (List.mem_map_of_mem (mem_settleFailed hp fun a ha hfail heq => ?_))
      exact hfailed ⟨a, ha, hfail, heq⟩
  · exact Or.inr (Or.inl hstored)
  · exact Or.inr (Or.inr hgone)

theorem wp_pushBatch (hserves : v.Serves env api place pk) (h : Synced v pk own w) (now : ℕ)
    (batchId : String) (acks : List Json) (batch : List PendingEvent) (report : PushReport) :
    wp (pushBatch env api place now batchId acks batch report) (fun _ w' => Synced v pk own w' ∧
      v.Grows w.server w'.server) w := by
  unfold pushBatch
  refine wp_ofExcept_bind (fun e => ⟨h, .refl _⟩) fun events _ => ?_
  refine wp_bind_of (wp_request
    (hserves.post (eventsPath place) (request events acks) w.server)) ?_ ?_
  · rintro e w₁ ⟨hreplica, hgrows, -⟩
    exact ⟨h.move hreplica hgrows, hgrows⟩
  rintro response w₁ ⟨hreplica, hgrows, hresponse⟩
  have h₁ := h.move hreplica hgrows
  apply wp_write_bind
  have h₂ : Synced v pk own { w₁ with
      replica := if batch = [] then w₁.replica else w₁.replica.recordHistory batchId now batch } := by
    split_ifs
    · exact h₁
    · exact h₁.frame rfl rfl rfl rfl rfl
  refine wp_ofExcept_bind (fun e => ⟨h₂, hgrows⟩) fun answers hanswers => ?_
  apply wp_write_bind
  refine ⟨h₂.settleFailed ?_, hgrows⟩
  exact hserves.refuses _ _ _ _ _ answers (hresponse response rfl) hanswers

theorem wp_pushBatches (hserves : v.Serves env api place pk) (h : Synced v pk own w) (now : ℕ)
    (batches : List (List PendingEvent × String)) (acks : List Json) (report : PushReport) :
    wp (pushBatches env api place now batches acks report) (fun _ w' => Synced v pk own w' ∧
      v.Grows w.server w'.server) w := by
  induction batches generalizing w acks report with
  | nil => exact ⟨h, .refl _⟩
  | cons b batches ih =>
    refine wp_bind_of (wp_pushBatch hserves h now b.2 acks b.1 report) (fun _ _ h => h) ?_
    rintro report w₁ ⟨h₁, hgrows⟩
    refine (ih h₁ [] report).imp ?_
    rintro r w₂ ⟨h₂, hgrows₂⟩
    exact ⟨h₂, hgrows.trans hgrows₂⟩

theorem wp_pushPending (hserves : v.Serves env api place pk) (h : Synced v pk own w)
    (acks : List Json) (ids : ℕ → String) (now : ℕ) :
    wp (pushPending env api place acks ids now) (fun _ w' => Synced v pk own w' ∧
      v.Grows w.server w'.server) w := by
  unfold pushPending
  apply wp_get_bind
  exact wp_pushBatches hserves h now _ acks {}

end Steps

/-! ## Runs -/

/-- What happens to a replica and its server, one after the other. -/
inductive Action (σ : Type)
  | enqueue (event : PendingEvent)
  | others (next : σ → σ)
  | push (acks : List Json) (ids : ℕ → String) (now : ℕ)
  | tail (now : ℕ)

section Runs

variable (env : Env) (api : PlaceApi σ) (place : String)

/-- A push or a tail that fails leaves what it wrote until then. -/
def Action.act (w : World σ) : Action σ → World σ
  | .enqueue event => { w with replica := w.replica.addPending event }
  | .others next => { w with server := next w.server }
  | .push acks ids now => finalState (pushPending env api place acks ids now) w
  | .tail now => finalState (Hive.tail env api place now) w

def run (w : World σ) (actions : List (Action σ)) : World σ :=
  actions.foldl (Action.act env api place) w

end Runs

def Action.queued : Action σ → Option String
  | .enqueue event => some event.eventId
  | .others _ | .push .. | .tail _ => none

/-- The others only append. -/
def Action.Appends (v : Service σ) : Action σ → Prop
  | .others next => ∀ s, v.Grows s (next s)
  | _ => True

section

variable {v : Service σ} {pk : Bytes} {own : List String} {w : World σ} {env : Env}
  {api : PlaceApi σ} {place : String}

theorem Synced.enqueue (h : Synced v pk own w) (e : PendingEvent) :
    Synced v pk (own ++ [e.eventId]) { w with replica := w.replica.addPending e } := by
  refine ⟨h.rows, h.cursor, h.epoch, h.salt, fun id hid => ?_⟩
  change id ∈ (w.replica.pendingRows.filter (fun p => p.eventId ≠ e.eventId) ++ [e]).map
    PendingEvent.eventId ∨ _
  by_cases hsame : id = e.eventId
  · refine Or.inl (List.mem_map.mpr ⟨e, ?_, hsame.symm⟩)
    exact List.mem_append_right _ List.mem_cons_self
  · have hold : id ∈ own := by
      rcases List.mem_append.mp hid with hid | hid
      · exact hid
      · exact absurd (List.mem_singleton.mp hid) hsame
    rcases h.own id hold with hpending | hrest
    · obtain ⟨p, hp, rfl⟩ := List.mem_map.mp hpending
      refine Or.inl (List.mem_map_of_mem (List.mem_append_left _ (List.mem_filter.mpr ⟨hp, ?_⟩)))
      exact decide_eq_true hsame
    · exact Or.inr hrest

theorem Synced.act (hserves : v.Serves env api place pk) (h : Synced v pk own w) {a : Action σ}
    (ha : a.Appends v) : Synced v pk (own ++ a.queued.toList) (a.act env api place w) := by
  cases a with
  | enqueue e => exact h.enqueue e
  | others next =>
    have hgrow := h.grow (ha w.server)
    rwa [Action.queued, Option.toList_none, List.append_nil]
  | push acks ids now =>
    have hpush := (wp_pushPending hserves h acks ids now).imp fun _ _ h => h.1
    rw [Action.queued, Option.toList_none, List.append_nil]
    exact hpush.finalState
  | tail now =>
    have htail := (wp_tail hserves h now).imp fun _ _ h => h.1
    rw [Action.queued, Option.toList_none, List.append_nil]
    exact htail.finalState

end

/-! ## A place that takes one event -/

def sampleEvent : Json :=
  .object [("event_id", .string "E1"), ("op", .string "note"), ("seq", .number (.posInt 1))]

def samplePage (logged : Bool) (events : List Json) : Json :=
  .object [("events", .array events),
    ("head_seq", .number (.posInt (if logged then 1 else 0)))]

def sampleAnswer : Json :=
  .object [("results", .array [.object [("event_id", .string "E1"), ("seq", .number (.posInt 1)),
    ("status", .string "accepted")]])]

def samplePending : PendingEvent := ⟨"E1", 7, 0, none, []⟩

def sampleEnv : Env := ⟨fun _ _ => true, fun _ => .ok sampleEvent⟩

/-- Its log is empty until something is pushed. -/
def sampleApi : PlaceApi Bool where
  get path := fun logged =>
    .ok (samplePage logged (if logged ∧ path = tailPath "p" 0 then [sampleEvent] else [])) logged
  post _ _ := fun _ => .ok sampleAnswer true

def sampleService : Service Bool where
  log logged := if logged then [(1, "E1")] else []
  refused _ _ := False
  epoch := none
  ascending logged := by cases logged <;> decide
  positive logged := by cases logged <;> decide
  distinct logged := by cases logged <;> decide

theorem tailPath_zero {since : ℕ} : tailPath "p" since = tailPath "p" 0 ↔ since = 0 := by
  rw [tailPath, tailPath, String.append_right_inj, Nat.repr_inj]

theorem sampleService_page (logged : Bool) (since : ℕ) :
    ∃ page, tailPage (fun _ => true) (samplePage logged
      (if logged ∧ tailPath "p" since = tailPath "p" 0 then [sampleEvent] else [])) = .ok page ∧
      sampleService.Page logged since page := by
  by_cases hfull : logged ∧ since = 0
  · obtain ⟨rfl, rfl⟩ := hfull
    rw [if_pos ⟨rfl, rfl⟩]
    refine ⟨⟨[⟨1, sampleEvent, false⟩], none, 1, none⟩, rfl, ⟨1, rfl⟩, ?_, ?_, ?_, ?_, ?_⟩
    · decide
    · intro e he
      rw [List.mem_singleton.mp he]
      exact ⟨_, rfl⟩
    · decide
    · decide
    · decide
  · have hempty : after Prod.fst since (sampleService.log logged) = [] := by
      refine List.filter_eq_nil_iff.mpr fun e he => ?_
      rw [decide_eq_true_eq, not_lt]
      cases logged with
      | false => exact absurd he List.not_mem_nil
      | true =>
        rw [List.mem_singleton.mp he]
        exact Nat.pos_of_ne_zero fun hzero => hfull ⟨rfl, hzero⟩
    rw [if_neg (fun h => hfull ⟨h.1, tailPath_zero.mp h.2⟩)]
    refine ⟨⟨[], none, if logged then 1 else 0, none⟩, ?_, ⟨0, rfl⟩, fun _ => hempty, ?_, ?_, ?_, ?_⟩
    · cases logged <;> rfl
    · exact List.forall_mem_nil _
    · exact fun n hn => absurd hn (Option.not_mem_none n)
    · cases logged <;> decide
    · exact fun n hn => absurd hn (Option.not_mem_none n)

theorem sampleService_grows (logged : Bool) : sampleService.Grows logged true := by
  refine ⟨?_, fun _ h => h⟩
  cases logged with
  | false => exact List.nil_prefix
  | true => exact List.prefix_refl _

theorem sampleService_serves : sampleService.Serves sampleEnv sampleApi "p" [] := by
  refine ⟨fun path logged => .refl _, fun path body logged => sampleService_grows logged, ?_, ?_⟩
  · intro since logged answer logged' hanswer
    cases hanswer
    exact sampleService_page logged since
  · intro path body logged answer logged' list hanswer hlist p hp hfail
    cases hanswer
    obtain rfl := Except.ok.inj hlist
    rw [List.mem_singleton.mp hp] at hfail
    cases hfail

def sampleStart : World Bool := ⟨{ idSalt := some [] }, false⟩

theorem sampleStart_synced : Synced sampleService [] [] sampleStart := by
  refine ⟨.nil, fun c hc => absurd hc (Option.not_mem_none c),
    fun e he => absurd he (Option.not_mem_none e), rfl, fun id hid => absurd hid List.not_mem_nil⟩

end LeanCtx.Hive
