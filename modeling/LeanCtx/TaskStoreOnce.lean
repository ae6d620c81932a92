import LeanCtx.TaskStore
import Mathlib.Algebra.Order.Ring.Int

/-!
# A remote task is made once

While the record of a key is retained, a call with that key makes no task. Once
the record is dropped, only the expiry of the descriptor refuses a replay. The
retention covers the lifetime in whole seconds only: a descriptor whose
lifetime has a fraction of a second more, and whose clock is ahead by the whole
skew, outlives its record. Under the condition that no descriptor outlives the
record it makes, every run makes a task at most once.
-/

namespace LeanCtx.A2aTask

open ByteText

def retention : ℤ := seconds idempotencyRetentionSeconds

/-! ## One call -/

section Calls

variable {env : Env} {d : TaskDescriptorV1} {taskId : String} {now : Instant} {s : TaskStore}

/-- The closure makes a task only when no record with its key is retained. -/
theorem materialize_ok {result : RemoteTaskMaterialization} {changed : TaskStore}
    (h : materialize env d taskId now s = .ok (result, changed)) :
    (changed = s.pruneIdempotency now ∧ ∃ r ∈ (s.pruneIdempotency now).idempotency,
        r.key = d.idempotencyKey ∧ r.descriptorDigest = contentDigest env.crypto d) ∨
      ((∀ r ∈ (s.pruneIdempotency now).idempotency, r.key ≠ d.idempotencyKey) ∧
        ∃ task, changed.tasks = s.tasks ++ [task] ∧ changed.idempotency =
          (s.pruneIdempotency now).idempotency ++ [recordOf env.crypto d taskId now]) := by
  rw [materialize] at h
  cases hfind : (s.pruneIdempotency now).idempotency.find? fun r => r.key = d.idempotencyKey with
  | some existing =>
    simp only [hfind] at h
    split_ifs at h with hsame
    obtain ⟨-, rfl⟩ := Prod.mk.inj (Except.ok.inj h)
    exact Or.inl ⟨rfl, existing, List.mem_of_find?_eq_some hfind,
      by simpa using List.find?_some hfind, hsame.2⟩
  | none =>
    simp only [hfind] at h
    split_ifs at h
    cases htask : fromRemoteDescriptor env.crypto env.admitForStore d taskId now with
    | none => simp [htask] at h
    | some task =>
      simp only [htask] at h
      obtain ⟨-, rfl⟩ := Prod.mk.inj (Except.ok.inj h)
      refine Or.inr ⟨?_, task, rfl, rfl⟩
      intro r hr
      simpa using List.find?_eq_none.mp hfind r hr

/-- What a locked update leaves in the file: the store as it was, or what the closure made. -/
theorem mutateLocked_after {R : Type} {persist : Persist}
    {mutate : TaskStore → Except StoreError (R × TaskStore)}
    {P : TaskStore → Prop} (hsame : P s)
    (hchange : ∀ result changed, mutate s = .ok (result, changed) →
      P { changed with updatedAt := some now }) :
    P (mutateLocked persist now mutate s).2 := by
  rw [mutateLocked]
  split_ifs with hread
  · exact hsame
  · cases hm : mutate s with
    | error e => exact hsame
    | ok r =>
      obtain ⟨result, changed⟩ := r
      simp only
      split_ifs
      · exact hsame
      · cases persist with
        | saved => exact hchange result changed hm
        | unsynced => exact hchange result changed hm
        | unsaved => exact hsame
        | unreadable => exact hsame

/-- Unless the file was renamed and not synced, a failed update leaves the store as it was. -/
theorem mutateLocked_error {R : Type} {persist : Persist} (hpersist : persist ≠ .unsynced)
    {mutate : TaskStore → Except StoreError (R × TaskStore)} {e : StoreError}
    (h : (mutateLocked persist now mutate s).1 = .error e) :
    (mutateLocked persist now mutate s).2 = s := by
  rw [mutateLocked] at h ⊢
  split_ifs at h ⊢ with hread
  · rfl
  · cases hm : mutate s with
    | error e => rfl
    | ok r =>
      obtain ⟨result, changed⟩ := r
      simp only [hm] at h ⊢
      split_ifs at h ⊢
      · rfl
      · cases persist with
        | saved => cases h
        | unsynced => exact absurd rfl hpersist
        | unsaved => rfl
        | unreadable => rfl

theorem mutateLocked_result_error {R : Type} {persist : Persist}
    {mutate : TaskStore → Except StoreError (R × TaskStore)} {e : StoreError}
    (h : mutate s = .error e) : ∃ e', (mutateLocked persist now mutate s).1 = .error e' := by
  rw [mutateLocked, h]
  split_ifs
  · exact ⟨_, rfl⟩
  · exact ⟨e, rfl⟩

/-- A key that is retained for other content is refused. -/
theorem materialize_conflict (hkey : ∃ r ∈ (s.pruneIdempotency now).idempotency,
      r.key = d.idempotencyKey)
    (hother : ∀ r ∈ (s.pruneIdempotency now).idempotency, r.key = d.idempotencyKey →
      r.descriptorDigest ≠ contentDigest env.crypto d) :
    ∃ e, materialize env d taskId now s = .error e := by
  cases hm : materialize env d taskId now s with
  | error e => exact ⟨e, rfl⟩
  | ok r =>
    obtain ⟨result, changed⟩ := r
    rcases materialize_ok hm with ⟨-, r, hr, hrkey, hdigest⟩ | ⟨hnone, -⟩
    · exact absurd hdigest (hother r hr hrkey)
    · obtain ⟨r, hr, hrkey⟩ := hkey
      exact absurd hrkey (hnone r hr)

theorem mem_pruneIdempotency {r : TaskIdempotencyRecordV1} :
    r ∈ (s.pruneIdempotency now).idempotency ↔
      r ∈ s.idempotency ∧ now < r.createdAt + retention := by
  rw [TaskStore.pruneIdempotency, List.mem_filter, decide_eq_true_eq, gt_iff_lt,
    sub_lt_iff_lt_add, retention]

end Calls

/-! ## Runs -/

section Runs

variable (env : Env)

/-- What the caller of a run keeps to: the clock does not go back, and a descriptor is authorized
at the time of the call that materializes it. -/
def Admissible (w : World) (c : Call) : Prop :=
  w.clock ≤ c.now ∧ ∀ d taskId, c.operation = .materializeRemoteTask d taskId →
    ∃ policy expected, expected.now = c.now ∧
      d.verifyAuthority env.crypto policy expected = .ok ()

/-- No descriptor outlives the record that it makes, the directory is synced after the rename of a
materialization, and a snapshot is saved only with the records of the store. -/
def Meets (w : World) (c : Call) : Prop :=
  match c.operation with
  | .materializeRemoteTask d _ => c.persist ≠ .unsynced ∧
      ((∀ r ∈ w.store.idempotency, r.key = d.idempotencyKey → r.createdAt + retention ≤ c.now) →
        d.expiresAt ≤ c.now + retention)
  | .save snapshot => snapshot.idempotency = w.store.idempotency
  | _ => True

/-- The call made a task of the descriptor. -/
def Created (e : Call × Reply) (d : TaskDescriptorV1) : Prop :=
  (∃ taskId, e.1.operation = .materializeRemoteTask d taskId) ∧ e.2.after.tasks ≠ e.2.before.tasks

/-- No two calls with one key and one content both make a task. -/
def AtMostOnce (log : List (Call × Reply)) : Prop :=
  log.Pairwise fun e f => ∀ d d', Created e d → Created f d' →
    d.idempotencyKey = d'.idempotencyKey → d.unsigned ≠ d'.unsigned

/-- A key that is retained for one content is refused for another. -/
def RefusesReuse (log : List (Call × Reply)) : Prop :=
  log.Pairwise fun e f => ∀ d d' taskId, Created e d →
    f.1.operation = .materializeRemoteTask d' taskId → d.idempotencyKey = d'.idempotencyKey →
    d.unsigned ≠ d'.unsigned → f.1.now < e.1.now + retention → ∃ error, f.2.result = .error error

/-- A materialization that fails changes neither tasks nor records. -/
def FailsUnchanged (log : List (Call × Reply)) : Prop :=
  ∀ e ∈ log, ∀ d taskId error, e.1.operation = .materializeRemoteTask d taskId →
    e.2.result = .error error → e.2.after.tasks = e.2.before.tasks ∧
      e.2.after.idempotency = e.2.before.idempotency

/-- The record that a call made is still there, as the only one of its key, or its time is over. -/
def Kept (w : World) (e : Call × Reply) (d : TaskDescriptorV1) : Prop :=
  e.1.now + retention ≤ w.clock ∨
    (∃ r ∈ w.store.idempotency, r.key = d.idempotencyKey) ∧
      ∀ r ∈ w.store.idempotency, r.key = d.idempotencyKey →
        r.descriptorDigest = contentDigest env.crypto d ∧ r.createdAt = e.1.now

/-- What a run keeps between what it did and the store. -/
structure Sound (log : List (Call × Reply)) (w : World) : Prop where
  once : AtMostOnce log
  refuses : log.Pairwise fun e f => ∀ d d' taskId, Created e d →
    f.1.operation = .materializeRemoteTask d' taskId → d.idempotencyKey = d'.idempotencyKey →
    contentDigest env.crypto d ≠ contentDigest env.crypto d' → f.1.now < e.1.now + retention →
    ∃ error, f.2.result = .error error
  unchanged : FailsUnchanged log
  lives : ∀ e ∈ log, ∀ d, Created e d → d.expiresAt ≤ e.1.now + retention
  kept : ∀ e ∈ log, ∀ d, Created e d → Kept env w e d

variable {env}

/-- Dropping what is older than the retention keeps the records of later calls. -/
theorem Kept.prune {w : World} {e : Call × Reply} {d : TaskDescriptorV1} (h : Kept env w e d)
    {now : Instant} (hclock : w.clock ≤ now) :
    Kept env ⟨w.store.pruneIdempotency now, now⟩ e d := by
  rcases h with hover | ⟨⟨r, hr, hkey⟩, hall⟩
  · exact Or.inl (le_trans hover hclock)
  · by_cases hover : e.1.now + retention ≤ now
    · exact Or.inl hover
    · refine Or.inr ⟨⟨r, ?_, hkey⟩, ?_⟩
      · rw [mem_pruneIdempotency, (hall r hr hkey).2]
        exact ⟨hr, not_le.mp hover⟩
      · intro r' hr' hkey'
        exact hall r' (mem_pruneIdempotency.mp hr').1 hkey'

theorem Kept.congr {w w' : World} {e : Call × Reply} {d : TaskDescriptorV1} (h : Kept env w e d)
    (hstore : w'.store.idempotency = w.store.idempotency) (hclock : w.clock ≤ w'.clock) :
    Kept env w' e d := by
  rcases h with hover | hrecord
  · exact Or.inl (le_trans hover hclock)
  · exact Or.inr (by rwa [hstore])

/-- The records of what was made so far survive every call. -/
theorem Kept.step {w : World} {c : Call} {e : Call × Reply} {d : TaskDescriptorV1}
    (hclock : w.clock ≤ c.now) (hmeets : Meets w c) (h : Kept env w e d) :
    Kept env (step env w c).2 e d := by
  have hsame : Kept env ⟨w.store, c.now⟩ e d := h.congr rfl hclock
  have hprune := h.prune hclock
  change Kept env ⟨(answer env w.store c).2, c.now⟩ e d
  rw [answer]
  cases hop : c.operation with
  | materializeRemoteTask d' taskId =>
    simp only [materializeRemoteTask]
    cases d'.validateShape env.crypto with
    | error error => exact hsame
    | ok =>
      apply @mutateLocked_after _ _ _ _ _ (fun s => Kept env ⟨s, c.now⟩ e d) hsame
      intro result changed hm
      rcases materialize_ok hm with ⟨rfl, -⟩ | ⟨hnone, task, -, hrecords⟩
      · exact hprune.congr rfl le_rfl
      · rcases hprune with hover | ⟨⟨r, hr, hkey⟩, hall⟩
        · exact Or.inl hover
        · have hother : d'.idempotencyKey ≠ d.idempotencyKey :=
            fun hsame => hnone r hr (hkey.trans hsame.symm)
          refine Or.inr ⟨⟨r, ?_, hkey⟩, ?_⟩
          · change r ∈ changed.idempotency
            rw [hrecords]
            exact List.mem_append_left _ hr
          · intro r' hr' hkey'
            change r' ∈ changed.idempotency at hr'
            rw [hrecords] at hr'
            rcases List.mem_append.mp hr' with hold | hnew
            · exact hall r' hold hkey'
            · rw [List.mem_singleton.mp hnew] at hkey'
              exact absurd hkey' hother
  | update change =>
    apply @mutateLocked_after _ _ _ _ _ (fun s => Kept env ⟨s, c.now⟩ e d) hsame
    intro result changed hm
    cases htasks : change w.store.tasks with
    | error error => simp [htasks, Except.map] at hm
    | ok tasks =>
      simp only [htasks, Except.map, Except.ok.injEq, Prod.mk.injEq] at hm
      obtain ⟨-, rfl⟩ := hm
      exact hsame.congr rfl le_rfl
  | cleanupOld hours =>
    apply @mutateLocked_after _ _ _ _ _ (fun s => Kept env ⟨s, c.now⟩ e d) hsame
    intro result changed hm
    obtain ⟨-, rfl⟩ := Prod.mk.inj (Except.ok.inj hm)
    exact hprune.congr rfl le_rfl
  | save snapshot =>
    have hrecords : snapshot.idempotency = w.store.idempotency := by
      simpa [Meets, hop] using hmeets
    simp only [saveSnapshot]
    cases c.persist with
    | saved => exact hsame.congr hrecords le_rfl
    | unsynced => exact hsame.congr hrecords le_rfl
    | unsaved => exact hsame
    | unreadable => exact hsame

/-- What a materialization does: it makes a task only for a key that is not retained, and then the
record is the only one of its key. -/
theorem created_step {w : World} {c : Call} {d : TaskDescriptorV1}
    (h : Created (c, (step env w c).1) d) :
    (∀ r ∈ (w.store.pruneIdempotency c.now).idempotency, r.key ≠ d.idempotencyKey) ∧
      Kept env (step env w c).2 (c, (step env w c).1) d := by
  obtain ⟨⟨taskId, hop⟩, htasks⟩ := h
  change (answer env w.store c).2.tasks ≠ w.store.tasks at htasks
  change _ ∧ Kept env ⟨(answer env w.store c).2, c.now⟩ _ d
  rw [answer, hop] at htasks ⊢
  simp only [materializeRemoteTask] at htasks ⊢
  revert htasks
  cases d.validateShape env.crypto with
  | error error => exact fun htasks => absurd rfl htasks
  | ok =>
    apply @mutateLocked_after _ _ _ _ _ (fun s => s.tasks ≠ w.store.tasks →
      (∀ r ∈ (w.store.pruneIdempotency c.now).idempotency, r.key ≠ d.idempotencyKey) ∧
        Kept env ⟨s, c.now⟩ (c, (step env w c).1) d) (fun h => absurd rfl h)
    intro result changed hm htasks
    rcases materialize_ok hm with ⟨rfl, -⟩ | ⟨hnone, task, -, hrecords⟩
    · exact absurd rfl htasks
    · refine ⟨hnone, Or.inr ⟨⟨recordOf env.crypto d taskId c.now, ?_, rfl⟩, ?_⟩⟩
      · change _ ∈ changed.idempotency
        rw [hrecords]
        exact List.mem_append_right _ (List.mem_singleton_self _)
      · intro r hr hkey
        change r ∈ changed.idempotency at hr
        rw [hrecords] at hr
        rcases List.mem_append.mp hr with hold | hnew
        · exact absurd hkey (hnone r hold)
        · rw [List.mem_singleton.mp hnew]
          exact ⟨rfl, rfl⟩

/-- A descriptor that is made into a task expires within the retention. -/
theorem expires_of_created {w : World} {c : Call} {d : TaskDescriptorV1} (hmeets : Meets w c)
    (h : Created (c, (step env w c).1) d) : d.expiresAt ≤ c.now + retention := by
  obtain ⟨hnone, -⟩ := created_step h
  obtain ⟨⟨taskId, hop⟩, -⟩ := h
  rw [Meets, hop] at hmeets
  apply hmeets.2
  intro r hr hkey
  by_contra hlate
  exact hnone r (mem_pruneIdempotency.mpr ⟨hr, not_le.mp hlate⟩) hkey

/-- What was made before is not made again: its record is retained, or it is expired. -/
theorem not_created_again {w : World} {c : Call} {e : Call × Reply} {d d' : TaskDescriptorV1}
    (hadmissible : Admissible env w c) (hkept : Kept env w e d)
    (hlives : d.expiresAt ≤ e.1.now + retention) (hcreated : Created (c, (step env w c).1) d')
    (hkey : d.idempotencyKey = d'.idempotencyKey) : d.unsigned ≠ d'.unsigned := by
  intro hsame
  rcases hkept.prune hadmissible.1 with hover | ⟨⟨r, hr, hrkey⟩, -⟩
  · obtain ⟨⟨taskId, hop⟩, -⟩ := hcreated
    obtain ⟨policy, expected, hnow, hauthority⟩ := hadmissible.2 d' taskId hop
    have hlive := (verifyAuthority_ok hauthority).2
    have hexpires : d.expiresAt = d'.expiresAt := by
      change d.unsigned.expiresAt = d'.unsigned.expiresAt
      rw [hsame]
    change e.1.now + retention ≤ c.now at hover
    rw [hnow, ← hexpires] at hlive
    exact absurd (lt_of_lt_of_le hlive (le_trans hlives hover)) (lt_irrefl _)
  · exact (created_step hcreated).1 r hr (hrkey.trans hkey)

theorem refused_step {w : World} {c : Call} {e : Call × Reply} {d d' : TaskDescriptorV1}
    {taskId : String} (hclock : w.clock ≤ c.now) (hkept : Kept env w e d)
    (hop : c.operation = .materializeRemoteTask d' taskId)
    (hkey : d.idempotencyKey = d'.idempotencyKey)
    (hcontent : contentDigest env.crypto d ≠ contentDigest env.crypto d')
    (hretained : c.now < e.1.now + retention) : ∃ error, (step env w c).1.result = .error error := by
  change ∃ error, (answer env w.store c).1 = .error error
  rw [answer, hop]
  simp only [materializeRemoteTask]
  cases d'.validateShape env.crypto with
  | error error => exact ⟨_, rfl⟩
  | ok =>
    rcases hkept.prune hclock with hover | ⟨⟨r, hr, hrkey⟩, hall⟩
    · exact absurd hover (not_le.mpr hretained)
    · obtain ⟨error, herror⟩ := @materialize_conflict env d' taskId c.now w.store
        ⟨r, hr, hrkey.trans hkey⟩
        (fun r' hr' hkey' hdigest => hcontent ((hall r' hr' (hkey'.trans hkey.symm)).1 ▸ hdigest))
      exact mutateLocked_result_error herror

theorem unchanged_step {w : World} {c : Call} {d : TaskDescriptorV1} {taskId : String}
    {error : StoreError} (hmeets : Meets w c) (hop : c.operation = .materializeRemoteTask d taskId)
    (h : (step env w c).1.result = .error error) : (step env w c).1.after = w.store := by
  change (answer env w.store c).1 = .error error at h
  change (answer env w.store c).2 = w.store
  rw [Meets, hop] at hmeets
  rw [answer, hop] at h ⊢
  simp only [materializeRemoteTask] at h ⊢
  revert h
  cases d.validateShape env.crypto with
  | error error => exact fun _ => rfl
  | ok => exact mutateLocked_error hmeets.1

theorem Sound.step {log : List (Call × Reply)} {w : World} (h : Sound env log w) {c : Call}
    (hc : Admissible env w c ∧ Meets w c) :
    Sound env (log ++ [(c, (step env w c).1)]) (A2aTask.step env w c).2 := by
  obtain ⟨hadmissible, hmeets⟩ := hc
  refine ⟨?_, ?_, ?_, ?_, ?_⟩
  · refine List.pairwise_append.mpr ⟨h.once, List.pairwise_singleton _ _, ?_⟩
    intro e he f hf d d' hd hd' hkey
    rw [List.mem_singleton.mp hf] at hd'
    exact not_created_again hadmissible (h.kept e he d hd) (h.lives e he d hd) hd' hkey
  · refine List.pairwise_append.mpr ⟨h.refuses, List.pairwise_singleton _ _, ?_⟩
    intro e he f hf d d' taskId hd hop hkey hcontent hretained
    rw [List.mem_singleton.mp hf] at hop hretained ⊢
    exact refused_step hadmissible.1 (h.kept e he d hd) hop hkey hcontent hretained
  · intro e he d taskId error hop herror
    rcases List.mem_append.mp he with hold | hnew
    · exact h.unchanged e hold d taskId error hop herror
    · rw [List.mem_singleton.mp hnew] at hop herror ⊢
      have hafter := unchanged_step hmeets hop herror
      rw [hafter]
      exact ⟨rfl, rfl⟩
  · intro e he d hd
    rcases List.mem_append.mp he with hold | hnew
    · exact h.lives e hold d hd
    · rw [List.mem_singleton.mp hnew] at hd ⊢
      exact expires_of_created hmeets hd
  · intro e he d hd
    rcases List.mem_append.mp he with hold | hnew
    · exact (h.kept e hold d hd).step hadmissible.1 hmeets
    · rw [List.mem_singleton.mp hnew] at hd ⊢
      exact (created_step hd).2

/-- In every run in which no descriptor outlives the record it makes, and the file is renamed and
synced or not renamed, a task is made once, a retained key is refused for other content, and a
failed call changes nothing. Digests of the contents of the run do not collide. -/
theorem materialized_at_most_once {w : World} {calls : List Call}
    (hrun : Trace.Along (step env) (fun w c => Admissible env w c ∧ Meets w c) w calls)
    (hdigest : ∀ c ∈ calls, ∀ c' ∈ calls, ∀ d taskId d' taskId',
      c.operation = .materializeRemoteTask d taskId →
      c'.operation = .materializeRemoteTask d' taskId' →
      contentDigest env.crypto d = contentDigest env.crypto d' → d.unsigned = d'.unsigned) :
    AtMostOnce (Trace.log (step env) w calls) ∧ RefusesReuse (Trace.log (step env) w calls) ∧
      FailsUnchanged (Trace.log (step env) w calls) := by
  have hstart : Sound env [] w :=
    ⟨List.Pairwise.nil, List.Pairwise.nil, by simp [FailsUnchanged], by simp, by simp⟩
  have hsound := @Trace.log_invariant _ _ _ (step env) _ (Sound env)
    (fun log w c hc h => h.step hc) w calls [] hrun hstart
  rw [List.nil_append] at hsound
  have hcall : ∀ e ∈ Trace.log (step env) w calls, e.1 ∈ calls := by
    intro e he
    have hfst := List.mem_map_of_mem (f := Prod.fst) he
    rwa [Trace.log_map_fst] at hfst
  refine ⟨hsound.once, ?_, hsound.unchanged⟩
  refine hsound.refuses.imp_of_mem ?_
  intro e f he hf h d d' taskId hd hop hkey hcontent hretained
  refine h d d' taskId hd hop hkey ?_ hretained
  intro hsame
  obtain ⟨taskId', hop'⟩ := hd.1
  exact hcontent (hdigest _ (hcall e he) _ (hcall f hf) d taskId' d' taskId hop' hop hsame)

end Runs

/-! ## A delivery and its replay -/

/-- Signing as seen by a receiver that gets one genuine descriptor. -/
def oneSender : Env where
  crypto :=
    { signingBytes := fun d => utf8 d.description
      sha256 := fun bytes => "sha256:" ++ String.ofList (bytes.map fun b => Char.ofNat b.toNat)
      verifySignature := fun _ _ _ => true }
  admitForStore := some

/-- A descriptor that is issued and expires so many nanoseconds after the epoch. -/
def delivery (issuedAt expiresAt : Instant) : TaskDescriptorV1 where
  schemaVersion := 1
  sender := "peer-a"
  recipient := "agent-b"
  tenantId := "tenant"
  projectId := "project"
  action := taskActionSend
  issuedAt := issuedAt
  expiresAt := expiresAt
  idempotencyKey := "delivery-1"
  description := "run the tests"
  artifactRefs := []
  grantRef := ⟨1, "grant-1"⟩
  keyId := "key-1"
  signature := String.ofList (List.replicate 128 'a')

def receiverPolicy : TaskAuthorityConfigV1 where
  peers := [⟨1, "key-1", "peer-a", String.ofList (List.replicate 64 'b'), [taskActionSend],
    [⟨1, "tenant", "project"⟩], 0, seconds 1000000, false⟩]
  grants := [⟨1, "grant-1", "key-1", taskActionSend, "tenant", "project", 0, seconds 1000000,
    false⟩]

def expectedAt (now : Instant) : TaskAuthorityExpectationV1 :=
  ⟨"peer-a", "agent-b", "tenant", "project", now⟩

/-- The same descriptor is delivered at two times. -/
def deliveredTwice (d : TaskDescriptorV1) (first second : Instant) : List Call :=
  [⟨first, .materializeRemoteTask d "task-1", .saved⟩,
    ⟨second, .materializeRemoteTask d "task-2", .saved⟩]

theorem deliveredTwice_admissible {d : TaskDescriptorV1} {first second : Instant}
    (hclock : 0 ≤ first ∧ first ≤ second)
    (hfirst : d.verifyAuthority oneSender.crypto receiverPolicy (expectedAt first) = .ok ())
    (hsecond : d.verifyAuthority oneSender.crypto receiverPolicy (expectedAt second) = .ok ()) :
    Trace.Along (step oneSender) (Admissible oneSender) {} (deliveredTwice d first second) := by
  refine ⟨⟨hclock.1, ?_⟩, ⟨hclock.2, ?_⟩, trivial⟩
  · intro d' taskId hop
    obtain ⟨rfl, -⟩ := Operation.materializeRemoteTask.inj hop
    exact ⟨receiverPolicy, expectedAt first, rfl, hfirst⟩
  · intro d' taskId hop
    obtain ⟨rfl, -⟩ := Operation.materializeRemoteTask.inj hop
    exact ⟨receiverPolicy, expectedAt second, rfl, hsecond⟩

/-- A descriptor of an hour, replayed a minute later, makes one task. -/
theorem delivery_once :
    AtMostOnce (Trace.log (step oneSender) {}
      (deliveredTwice (delivery 0 (seconds 3600)) 0 (seconds 60))) := by
  obtain ⟨hfirst, hsecond⟩ :
      (delivery 0 (seconds 3600)).verifyAuthority oneSender.crypto receiverPolicy
        (expectedAt 0) = .ok () ∧
      (delivery 0 (seconds 3600)).verifyAuthority oneSender.crypto receiverPolicy
        (expectedAt (seconds 60)) = .ok () := by decide +kernel
  have hadmissible := @deliveredTwice_admissible (delivery 0 (seconds 3600)) 0 (seconds 60)
    (by decide) hfirst hsecond
  have hexpires : (delivery 0 (seconds 3600)).expiresAt ≤ 0 + retention := by decide
  have hexpires' : (delivery 0 (seconds 3600)).expiresAt ≤ seconds 60 + retention := by decide
  have hone : ∀ c ∈ deliveredTwice (delivery 0 (seconds 3600)) 0 (seconds 60), ∀ d taskId,
      c.operation = .materializeRemoteTask d taskId → d = delivery 0 (seconds 3600) := by
    intro c hc d taskId hop
    rcases List.mem_pair.mp hc with rfl | rfl
    · exact (Operation.materializeRemoteTask.inj hop).1.symm
    · exact (Operation.materializeRemoteTask.inj hop).1.symm
  have hrun : Trace.Along (step oneSender) (fun w c => Admissible oneSender w c ∧ Meets w c) {}
      (deliveredTwice (delivery 0 (seconds 3600)) 0 (seconds 60)) :=
    ⟨⟨hadmissible.1, by decide, fun _ => hexpires⟩,
      ⟨hadmissible.2.1, by decide, fun _ => hexpires'⟩, trivial⟩
  refine (materialized_at_most_once hrun ?_).1
  intro c hc c' hc' d taskId d' taskId' hop hop' _
  rw [hone c hc d taskId hop, hone c' hc' d' taskId' hop']

theorem not_atMostOnce {d : TaskDescriptorV1} {first second : Instant} {c c' : Call}
    (hcalls : deliveredTwice d first second = [c, c'])
    (hfirst : (step oneSender {} c).1.after.tasks ≠ (step oneSender {} c).1.before.tasks)
    (hsecond : (step oneSender (step oneSender {} c).2 c').1.after.tasks ≠
      (step oneSender (step oneSender {} c).2 c').1.before.tasks) :
    ¬ AtMostOnce (Trace.log (step oneSender) {} (deliveredTwice d first second)) := by
  intro h
  rw [hcalls] at h
  obtain ⟨rfl, rfl⟩ : c = ⟨first, .materializeRemoteTask d "task-1", .saved⟩ ∧
      c' = ⟨second, .materializeRemoteTask d "task-2", .saved⟩ := by
    simpa [deliveredTwice, eq_comm] using hcalls
  exact List.pairwise_pair.mp h d d ⟨⟨"task-1", rfl⟩, hfirst⟩ ⟨⟨"task-2", rfl⟩, hsecond⟩ rfl rfl

/-- A descriptor that is issued a minute ahead and lives half a second more than a day. -/
def longDelivery : TaskDescriptorV1 :=
  delivery (seconds 60) (seconds 60 + seconds 86400 + 500000000)

/-- Its replay, right when its record is dropped, makes a second task. -/
theorem longDelivery_twice :
    Trace.Along (step oneSender) (Admissible oneSender) {}
        (deliveredTwice longDelivery 0 (seconds 86460)) ∧
      ¬ AtMostOnce (Trace.log (step oneSender) {}
        (deliveredTwice longDelivery 0 (seconds 86460))) := by
  let c : Call := ⟨0, .materializeRemoteTask longDelivery "task-1", .saved⟩
  let c' : Call := ⟨seconds 86460, .materializeRemoteTask longDelivery "task-2", .saved⟩
  obtain ⟨hfirst, hsecond, hnew, hnew'⟩ :
      longDelivery.verifyAuthority oneSender.crypto receiverPolicy (expectedAt 0) = .ok () ∧
      longDelivery.verifyAuthority oneSender.crypto receiverPolicy
        (expectedAt (seconds 86460)) = .ok () ∧
      (step oneSender {} c).1.after.tasks ≠ (step oneSender {} c).1.before.tasks ∧
      (step oneSender (step oneSender {} c).2 c').1.after.tasks ≠
        (step oneSender (step oneSender {} c).2 c').1.before.tasks := by decide +kernel
  exact ⟨@deliveredTwice_admissible longDelivery 0 (seconds 86460) (by decide) hfirst hsecond,
    @not_atMostOnce longDelivery 0 (seconds 86460) c c' rfl hnew hnew'⟩

end LeanCtx.A2aTask
