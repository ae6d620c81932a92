import LeanCtx.RelayReplay
import LeanCtx.Effect
import LeanCtx.Trace

/-!
# One delivery of a signed relay

A proof that was reserved is guarded afterwards: by its row, or by the observed
clock once it has passed the signed expiry. Pruning hands the guard from the
row to the clock, and that needs the expiry to lie before the clock at which
the row is pruned; `OnTime` says so of one reservation attempt. Along a run
whose attempts are all on time, a second reservation needs a release.
-/

namespace LeanCtx.Relay

/-- A proof that cannot be reserved again. -/
def Guarded (db : Database) (id : String) (expiry : ℤ) : Prop :=
  (∃ row, db.rows[id]? = some row ∧ row.signedExpiresAt = expiry) ∨ expiry < db.lastObservedAt

/-- The clock a reservation attempt runs at. -/
def effectiveNow (db : Database) (nowSeconds : ℤ) : ℤ := max nowSeconds db.lastObservedAt

/-- Every row that pruning deletes at this clock has its signed expiry behind it. -/
def PrunedAreExpired (db : Database) (now : ℤ) : Prop :=
  ∀ (id : String) (row : Row), db.rows[id]? = some row → row.state = .completed →
    row.retainUntil ≤ now → row.signedExpiresAt < now

instance (db : Database) (now : ℤ) : Decidable (PrunedAreExpired db now) :=
  decidable_of_iff (∀ e ∈ db.rows.toList, e.2.state = .completed → e.2.retainUntil ≤ now →
      e.2.signedExpiresAt < now) (by
    simp only [Prod.forall, Std.ExtTreeMap.mem_toList_iff_getElem?_eq_some]
    rfl)

/-! ## What each operation does -/

theorem lastObservedAt_update (db : Database) (now : ℤ) :
    (updateLastObserved db now).lastObservedAt = max db.lastObservedAt now := by
  unfold updateLastObserved
  dsimp only
  split_ifs with h
  · exact (max_eq_right h.le).symm
  · exact (max_eq_left (not_lt.mp h)).symm

theorem rows_prune (db : Database) (now : ℤ) (id : String) :
    (pruneExpired db now).rows[id]? = (db.rows[id]?).filter fun row =>
      !(row.state = .completed && row.retainUntil ≤ now) :=
  Std.ExtTreeMap.getElem?_filter'

theorem duplicate_ne_reserved (r : Relayed) (existing : Row) (lease : String) :
    duplicate r existing ≠ .reserved lease := by
  unfold duplicate
  split_ifs
  · nofun
  · cases existing.state <;> nofun

theorem insertProof_ok {store : RelayReplayStore} {r : Relayed} {persisted now : ℤ}
    {leases : List String} {db db' : Database} {a : Reservation}
    (h : insertProof store r persisted now leases db = .ok (a, db')) :
    max now persisted ≤ r.signedExpiresAt ∧ ∃ row : Row,
      row.signedExpiresAt = r.signedExpiresAt ∧ db' = updateLastObserved
        { db with rows := db.rows.insert r.storageId row } (max now persisted) := by
  unfold insertProof at h
  dsimp only at h
  split at h
  · split at h <;> cases h
  · next hlate =>
    split at h
    · cases h
    · split at h
      · cases h
      · split at h
        · cases h
        · split at h
          · cases h
          · obtain ⟨-, rfl⟩ := Prod.mk.inj (Except.ok.inj h)
            exact ⟨not_lt.mp hlate, _, rfl, rfl⟩

/-- The two ways a reservation attempt commits. -/
theorem reserve_ok {store : RelayReplayStore} {r : Relayed} {now : ℤ} {leases : List String}
    {fault : Fault} {db db' : Database} {a : Reservation}
    (h : reserve store r now leases fault db = .ok (a, db')) :
    (∃ existing, (pruneExpired db (effectiveNow db now)).rows[r.storageId]? = some existing ∧
      a = duplicate r existing ∧
      db' = updateLastObserved (pruneExpired db (effectiveNow db now)) (effectiveNow db now)) ∨
    ((pruneExpired db (effectiveNow db now)).rows[r.storageId]? = none ∧
      effectiveNow db now ≤ r.signedExpiresAt ∧
      ∃ row : Row, row.signedExpiresAt = r.signedExpiresAt ∧
        db' = updateLastObserved { pruneExpired db (effectiveNow db now) with
          rows := (pruneExpired db (effectiveNow db now)).rows.insert r.storageId row }
          (effectiveNow db now)) := by
  unfold reserve at h
  obtain ⟨_, -, h⟩ := except_bind_eq_ok.mp h
  obtain ⟨_, -, h⟩ := except_bind_eq_ok.mp h
  obtain ⟨_, -, h⟩ := except_bind_eq_ok.mp h
  obtain ⟨persisted, hread, h⟩ := except_bind_eq_ok.mp h
  have hpersisted : persisted = db.lastObservedAt := by
    unfold readLastObserved at hread
    split_ifs at hread
    exact (Except.ok.inj hread).symm
  subst hpersisted
  dsimp only at h
  split at h
  · cases h
  · split at h
    · cases h
    · split at h
      · next existing hrow =>
        obtain ⟨rfl, rfl⟩ := Prod.mk.inj (Except.ok.inj h)
        exact .inl ⟨existing, hrow, rfl, rfl⟩
      · next hrow => exact .inr ⟨hrow, insertProof_ok h⟩

/-- What a change of a proof commits: nothing about any other proof, and the proof itself stays
unless it is released. -/
theorem transition_ok {storageId lease : String} {wanted : Transition} {fault : Fault}
    {db db' : Database} (h : transition storageId lease wanted fault db = .ok db') :
    db'.lastObservedAt = db.lastObservedAt ∧
      ∀ id row, (id = storageId → wanted ≠ .release) → db.rows[id]? = some row →
        ∃ row', db'.rows[id]? = some row' ∧ row'.signedExpiresAt = row.signedExpiresAt := by
  unfold transition at h
  obtain ⟨_, -, h⟩ := except_bind_eq_ok.mp h
  obtain ⟨_, -, h⟩ := except_bind_eq_ok.mp h
  obtain ⟨_, -, h⟩ := except_bind_eq_ok.mp h
  split at h
  · cases h
  · next found hfound =>
    -- the rows after a completion
    have hcompleted : ∀ (id : String) (row : Row), db.rows[id]? = some row → ∃ row' : Row,
        (db.rows.insert storageId { found with state := .completed })[id]? = some row' ∧
          row'.signedExpiresAt = row.signedExpiresAt := by
      intro id row hrow
      rw [OrdMap.get_insert]
      by_cases hid : storageId = id
      · rw [← hid, hfound] at hrow
        obtain rfl := Option.some.inj hrow
        exact ⟨_, if_pos hid, rfl⟩
      · exact ⟨row, (if_neg hid).trans hrow, rfl⟩
    split at h
    · cases h
    · split at h
      · split at h
        · obtain rfl := Except.ok.inj h
          exact ⟨rfl, fun id row _ hrow => ⟨row, hrow, rfl⟩⟩
        · cases h
      · cases h
      · split at h
        · obtain rfl := Except.ok.inj h
          exact ⟨rfl, fun id row _ hrow => hcompleted id row hrow⟩
        · split at h
          · cases h
          · obtain rfl := Except.ok.inj h
            exact ⟨rfl, fun id row _ hrow => hcompleted id row hrow⟩
      · obtain rfl := Except.ok.inj h
        refine ⟨rfl, fun id row hid hrow => ⟨row, ?_, rfl⟩⟩
        have hne : id ≠ storageId := fun heq => hid heq rfl
        rw [show (keepRows db fun id _ => id ≠ storageId).rows =
          db.rows.filter (fun id _ => id ≠ storageId) from rfl,
          Std.ExtTreeMap.getElem?_filter', hrow, Option.filter_some, if_pos (by simpa using hne)]

/-! ## The guard -/

theorem guarded_transition {storageId lease id : String} {wanted : Transition} {fault : Fault}
    {db db' : Database} {expiry : ℤ} (h : transition storageId lease wanted fault db = .ok db')
    (hid : id = storageId → wanted ≠ .release) (hguard : Guarded db id expiry) :
    Guarded db' id expiry := by
  obtain ⟨hclock, hrows⟩ := transition_ok h
  rcases hguard with ⟨row, hrow, hexpiry⟩ | hpast
  · obtain ⟨row', hrow', hsigned⟩ := hrows id row hid hrow
    exact .inl ⟨row', hrow', hsigned.trans hexpiry⟩
  · exact .inr (hclock ▸ hpast)

/-- Pruning on time hands the guard from the row to the clock. -/
theorem guarded_prune {db : Database} {id : String} {expiry now : ℤ}
    (htime : PrunedAreExpired db (effectiveNow db now)) (hguard : Guarded db id expiry) :
    (∃ row, (pruneExpired db (effectiveNow db now)).rows[id]? = some row ∧
      row.signedExpiresAt = expiry) ∨ expiry < effectiveNow db now := by
  rcases hguard with ⟨row, hrow, rfl⟩ | hpast
  · by_cases hpruned : row.state = .completed ∧ row.retainUntil ≤ effectiveNow db now
    · exact .inr (htime id row hrow hpruned.1 hpruned.2)
    · refine .inl ⟨row, ?_, rfl⟩
      rw [rows_prune, hrow, Option.filter_some, if_pos]
      rw [not_and_or] at hpruned
      simpa using hpruned
  · exact .inr (hpast.trans_le (le_max_right _ _))

theorem guarded_reserve {store : RelayReplayStore} {r : Relayed} {now : ℤ} {leases : List String}
    {fault : Fault} {db db' : Database} {a : Reservation} {id : String} {expiry : ℤ}
    (h : reserve store r now leases fault db = .ok (a, db'))
    (htime : PrunedAreExpired db (effectiveNow db now)) (hguard : Guarded db id expiry) :
    Guarded db' id expiry ∧
      ((∃ lease, a = .reserved lease) → ¬ (r.storageId = id ∧ r.signedExpiresAt = expiry)) := by
  have hclock : ∀ db₀ : Database, expiry < effectiveNow db now →
      expiry < (updateLastObserved db₀ (effectiveNow db now)).lastObservedAt := by
    intro db₀ hlt
    rw [lastObservedAt_update]
    exact hlt.trans_le (le_max_right _ _)
  rcases reserve_ok h with ⟨existing, -, rfl, rfl⟩ | ⟨hnone, hlate, row, hsigned, rfl⟩
  · refine ⟨?_, fun ⟨lease, hreserved⟩ => absurd hreserved (duplicate_ne_reserved r existing lease)⟩
    rcases guarded_prune htime hguard with hrow | hpast
    · exact .inl hrow
    · exact .inr (hclock _ hpast)
  · rcases guarded_prune htime hguard with ⟨row', hrow', hexpiry⟩ | hpast
    · have hne : r.storageId ≠ id := by
        rintro rfl
        rw [hnone] at hrow'
        cases hrow'
      refine ⟨.inl ⟨row', ?_, hexpiry⟩, fun _ hsame => hne hsame.1⟩
      exact (OrdMap.get_insert _ _ _ _).trans ((if_neg hne).trans hrow')
    · refine ⟨.inr (hclock _ hpast), fun _ hsame => ?_⟩
      rw [hsame.2] at hlate
      exact absurd hpast (not_lt.mpr hlate)

/-- A reservation is guarded from then on. -/
theorem guarded_of_reserved {store : RelayReplayStore} {r : Relayed} {now : ℤ}
    {leases : List String} {fault : Fault} {db db' : Database} {lease : String}
    (h : reserve store r now leases fault db = .ok (.reserved lease, db')) :
    Guarded db' r.storageId r.signedExpiresAt := by
  rcases reserve_ok h with ⟨existing, -, hreserved, -⟩ | ⟨-, -, row, hsigned, rfl⟩
  · exact absurd hreserved.symm (duplicate_ne_reserved r existing lease)
  · exact .inl ⟨row, (OrdMap.get_insert _ _ _ _).trans (if_pos rfl), hsigned⟩

/-! ## Runs -/

/-- The operation reserved the proof. -/
def Reserves (e : Op × Answer) (id : String) (expiry : ℤ) : Prop :=
  ∃ store r now leases fault lease, e = (.reserve store r now leases fault,
    .reservation (.reserved lease)) ∧ r.storageId = id ∧ r.signedExpiresAt = expiry

/-- The operation released the reservation of the id. -/
def Releases (e : Op × Answer) (id : String) : Prop :=
  ∃ store lease fault, e = (.release store id lease fault, .done)

/-- A reservation attempt prunes no proof at the very second of its signed expiry. -/
def OnTime (s : System) : Op → Prop
  | .reserve _ _ now _ _ => ∀ db, s.database = some db → PrunedAreExpired db (effectiveNow db now)
  | _ => True

instance (s : System) : (op : Op) → Decidable (OnTime s op)
  | .reserve _ _ now _ _ => decidable_of_iff
      (∀ db ∈ s.database, PrunedAreExpired db (effectiveNow db now)) Iff.rfl
  | .new _ _ _ => isTrue trivial
  | .complete _ _ _ _ => isTrue trivial
  | .completeWithResponse _ _ _ _ _ => isTrue trivial
  | .release _ _ _ _ => isTrue trivial

def System.Guards (s : System) (id : String) (expiry : ℤ) : Prop :=
  ∃ db, s.database = some db ∧ Guarded db id expiry

/-- What an operation on an open store did. -/
theorem operate_cases (s : System) (store : ℕ)
    (operation : RelayReplayStore → Database → Except StoreError (Answer × Database)) :
    ((∃ e, s.operate store operation = (.failed e, s)) ∨ s.operate store operation = (.noStore, s)) ∨
    ∃ handle db answer db', s.database = some db ∧ operation handle db = .ok (answer, db') ∧
      s.operate store operation = (answer, { s with database := some db' }) := by
  unfold System.operate
  split
  · next handle db _ hdb =>
    cases hop : operation handle db with
    | error e => exact .inl (.inl ⟨e, rfl⟩)
    | ok result =>
      obtain ⟨answer, db'⟩ := result
      exact .inr ⟨handle, db, answer, db', hdb, hop, rfl⟩
  · exact .inl (.inr rfl)

theorem step_reserve_cases (s : System) (store : ℕ) (r : Relayed) (now : ℤ)
    (leases : List String) (fault : Fault) :
    ((∃ e, step s (.reserve store r now leases fault) = (.failed e, s)) ∨
      step s (.reserve store r now leases fault) = (.noStore, s)) ∨
    ∃ handle db a db', s.database = some db ∧
      reserve handle r now leases fault db = .ok (a, db') ∧
      step s (.reserve store r now leases fault) =
        (.reservation a, { s with database := some db' }) := by
  simp only [step, System.operate]
  split
  · next handle db _ hdb =>
    cases hop : reserve handle r now leases fault db with
    | error e => exact .inl (.inl ⟨e, rfl⟩)
    | ok result =>
      obtain ⟨a, db'⟩ := result
      exact .inr ⟨handle, db, a, db', hdb, hop, rfl⟩
  · exact .inl (.inr rfl)

theorem guards_new {s : System} {limits : RelayReplayLimits} {retention : ℤ}
    {fault : Option OpenFault} {id : String} {expiry : ℤ} (h : s.Guards id expiry) :
    (s.new limits retention fault).2.Guards id expiry := by
  obtain ⟨db, hdb, hguard⟩ := h
  have hopened : ∀ db', openDatabase retention s.database = .ok db' → Guarded db' id expiry := by
    intro db' hopen
    rw [hdb, openDatabase] at hopen
    obtain ⟨_, -, hopen⟩ := except_bind_eq_ok.mp hopen
    obtain rfl := Except.ok.inj hopen
    exact hguard
  unfold System.new
  split
  · exact ⟨db, hdb, hguard⟩
  · exact ⟨db, hdb, hguard⟩
  · split
    · exact ⟨db, hdb, hguard⟩
    · exact ⟨db, hdb, hguard⟩
    · next db' hopen => exact ⟨db', rfl, hopened db' hopen⟩
    · next db' hopen => exact ⟨db', rfl, hopened db' hopen⟩

/-- A change of a proof keeps the guard of every proof that it does not release. -/
theorem guards_operate {s : System} {store : ℕ} {storageId lease id : String}
    {wanted : Transition} {fault : Fault} {expiry : ℤ}
    {operation : Database → Except StoreError Database}
    (hoperation : ∀ db db', operation db = .ok db' →
      transition storageId lease wanted fault db = .ok db')
    (hid : id = storageId → wanted = .release →
      (s.operate store fun _ db => (operation db).map (.done, ·)).1 ≠ .done)
    (h : s.Guards id expiry) :
    (s.operate store fun _ db => (operation db).map (.done, ·)).2.Guards id expiry := by
  rcases operate_cases s store fun _ db => (operation db).map (Answer.done, ·) with
    (⟨e, heq⟩ | heq) | ⟨handle, db, answer, db', hdb, hop, heq⟩
  · rw [heq]
    exact h
  · rw [heq]
    exact h
  · obtain ⟨db₀, hdb₀, hguard⟩ := h
    obtain rfl := Option.some.inj (hdb.symm.trans hdb₀)
    rw [heq] at hid ⊢
    cases hstep : operation db with
    | error e => rw [hstep] at hop; cases hop
    | ok db'' =>
      rw [hstep] at hop
      obtain ⟨rfl, rfl⟩ := Prod.mk.inj (Except.ok.inj hop)
      refine ⟨db'', rfl, guarded_transition (hoperation db db'' hstep) ?_ hguard⟩
      intro hsame hrelease
      exact hid hsame hrelease rfl

/-- One operation: the guard stays unless the proof is released, and a guarded proof is not
reserved. -/
theorem guards_step {s : System} {op : Op} {id : String} {expiry : ℤ} (htime : OnTime s op)
    (h : s.Guards id expiry) (hrelease : ¬ Releases (op, (step s op).1) id) :
    (step s op).2.Guards id expiry ∧ ¬ Reserves (op, (step s op).1) id expiry := by
  cases op with
  | new limits retention fault =>
    refine ⟨guards_new h, ?_⟩
    rintro ⟨_, _, _, _, _, _, heq, -⟩
    cases (Prod.mk.inj heq).1
  | reserve store r now leases fault =>
    rcases step_reserve_cases s store r now leases fault with
      (⟨e, heq⟩ | heq) | ⟨handle, db, a, db', hdb, hstep, heq⟩
    · rw [heq]
      refine ⟨h, ?_⟩
      rintro ⟨_, _, _, _, _, _, heq, -⟩
      cases (Prod.mk.inj heq).2
    · rw [heq]
      refine ⟨h, ?_⟩
      rintro ⟨_, _, _, _, _, _, heq, -⟩
      cases (Prod.mk.inj heq).2
    · obtain ⟨db₀, hdb₀, hguard⟩ := h
      obtain rfl := Option.some.inj (hdb.symm.trans hdb₀)
      obtain ⟨hguard', hnot⟩ := guarded_reserve hstep (htime db hdb) hguard
      rw [heq]
      refine ⟨⟨db', rfl, hguard'⟩, ?_⟩
      rintro ⟨store', r', now', leases', fault', lease', heq', hid, hexpiry⟩
      obtain ⟨hop', hanswer⟩ := Prod.mk.inj heq'
      obtain rfl := (Op.reserve.inj hop').2.1
      exact hnot ⟨lease', Answer.reservation.inj hanswer⟩ ⟨hid, hexpiry⟩
  | complete store storageId lease fault =>
    have htransition : ∀ db db', complete storageId lease fault db = .ok db' →
        transition storageId lease (.complete none) fault db = .ok db' := fun _ _ hok => hok
    refine ⟨guards_operate htransition (fun _ heq => by cases heq) h, ?_⟩
    rintro ⟨_, _, _, _, _, _, heq, -⟩
    cases (Prod.mk.inj heq).1
  | completeWithResponse store storageId lease body fault =>
    have htransition : ∀ db db', completeWithResponse storageId lease body fault db = .ok db' →
        transition storageId lease (.complete (some body)) fault db = .ok db' := by
      intro db db' hok
      unfold completeWithResponse at hok
      split_ifs at hok
      exact hok
    refine ⟨guards_operate htransition (fun _ heq => by cases heq) h, ?_⟩
    rintro ⟨_, _, _, _, _, _, heq, -⟩
    cases (Prod.mk.inj heq).1
  | release store storageId lease fault =>
    have htransition : ∀ db db', release storageId lease fault db = .ok db' →
        transition storageId lease .release fault db = .ok db' := fun _ _ hok => hok
    refine ⟨guards_operate htransition ?_ h, ?_⟩
    · rintro rfl - hdone
      exact hrelease ⟨store, lease, fault, by rw [step, hdone]⟩
    · rintro ⟨_, _, _, _, _, _, heq, -⟩
      cases (Prod.mk.inj heq).1

theorem guards_of_reserves {s : System} {op : Op} {id : String} {expiry : ℤ}
    (h : Reserves (op, (step s op).1) id expiry) : (step s op).2.Guards id expiry := by
  obtain ⟨store, r, now, leases, fault, lease, heq, rfl, rfl⟩ := h
  obtain ⟨rfl, hanswer⟩ := Prod.mk.inj heq
  rcases step_reserve_cases s store r now leases fault with
    (⟨e, heq⟩ | heq) | ⟨handle, db, a, db', hdb, hstep, heq⟩
  · rw [heq] at hanswer
    cases hanswer
  · rw [heq] at hanswer
    cases hanswer
  · rw [heq] at hanswer ⊢
    obtain rfl : a = .reserved lease := Answer.reservation.inj hanswer
    exact ⟨db', rfl, guarded_of_reserved hstep⟩

/-- From a guarded state, the next reservation of the proof comes after a release. -/
theorem released_of_guards {s : System} {ops : List Op} {id : String} {expiry : ℤ}
    {mid post : List (Op × Answer)} {e : Op × Answer} (htime : Trace.Along step OnTime s ops)
    (h : s.Guards id expiry) (hrun : Trace.log step s ops = mid ++ e :: post)
    (he : Reserves e id expiry) : ∃ e' ∈ mid, Releases e' id := by
  induction ops generalizing s mid with
  | nil => cases mid <;> cases hrun
  | cons op rest ih =>
    by_cases hrelease : Releases (op, (step s op).1) id
    · cases mid with
      | nil =>
        obtain ⟨rfl, -⟩ := List.cons.inj hrun
        obtain ⟨_, _, _, hop⟩ := hrelease
        obtain ⟨_, _, _, _, _, _, heq, -⟩ := he
        rw [hop] at heq
        cases (Prod.mk.inj heq).1
      | cons e' mid =>
        obtain ⟨rfl, -⟩ := List.cons.inj hrun
        exact ⟨_, List.mem_cons_self, hrelease⟩
    · obtain ⟨hguards, hnot⟩ := guards_step htime.1 h hrelease
      cases mid with
      | nil =>
        obtain ⟨rfl, -⟩ := List.cons.inj hrun
        exact absurd he hnot
      | cons e' mid =>
        obtain ⟨e'', hmem, hreleases⟩ := ih htime.2 hguards (List.cons.inj hrun).2
        exact ⟨e'', List.mem_cons_of_mem _ hmem, hreleases⟩

/-- Between two reservations of one storage id with one signed expiry lies a release of it. -/
def DeliveredOnce (run : List (Op × Answer)) : Prop :=
  ∀ (pre mid post : List (Op × Answer)) (e e' : Op × Answer) (id : String) (expiry : ℤ),
    run = pre ++ e :: (mid ++ e' :: post) → Reserves e id expiry → Reserves e' id expiry →
    ∃ r ∈ mid, Releases r id

theorem deliveredOnce_from {s : System} {ops : List Op} (htime : Trace.Along step OnTime s ops) :
    DeliveredOnce (Trace.log step s ops) := by
  intro pre mid post e e' id expiry hrun he he'
  induction pre generalizing s ops with
  | nil =>
    cases ops with
    | nil => cases hrun
    | cons op rest =>
      obtain ⟨rfl, hrest⟩ := List.cons.inj hrun
      exact released_of_guards htime.2 (guards_of_reserves he) hrest he'
  | cons _ pre ih =>
    cases ops with
    | nil => cases hrun
    | cons op rest => exact ih htime.2 (List.cons.inj hrun).2

/-- In a run of any processes and clocks in which no reservation attempt prunes a proof at the
second of its signed expiry, no signed relay is reserved twice without a release in between. -/
theorem delivered_once (ops : List Op) (h : Trace.Along step OnTime .empty ops) :
    DeliveredOnce (Trace.log step .empty ops) := deliveredOnce_from h

/-! ## A run at the second of the expiry -/

def digest (c : Char) : String := String.ofList (List.replicate 64 c)

def hexLease (c : Char) : String := String.ofList (List.replicate 32 c)

def sampleRelay (expiry : ℤ) : Relayed where
  storageId := digest 'a'
  origin := "o"
  tenant := "t"
  project := "p"
  fingerprint := digest 'f'
  signedExpiresAt := expiry

def sampleLimits : RelayReplayLimits where
  maxRows := 4
  perOriginMaxRows := 4
  maxDatabaseBytes := 4096

/-- Reserve, complete, and reserve again at time `now`, with an expiry behind the retention. -/
def sampleRun (now : ℤ) : List Op :=
  [.new sampleLimits minRetentionSeconds none,
   .reserve 0 (sampleRelay 100000) 0 [hexLease '1'] none,
   .complete 0 (digest 'a') (hexLease '1') none,
   .reserve 0 (sampleRelay 100000) now [hexLease '2'] none]

/-- One second later the second attempt is refused. -/
theorem delivered_once_after_expiry : Trace.Along step OnTime .empty (sampleRun 100001) ∧
    DeliveredOnce (Trace.log step .empty (sampleRun 100001)) := by
  have htime : Trace.Along step OnTime .empty (sampleRun 100001) := by decide +kernel
  exact ⟨htime, delivered_once (sampleRun 100001) htime⟩

/-- At the second of the expiry the completed proof is pruned and the relay accepted again. -/
theorem sampleRun_reserved_twice : ¬ DeliveredOnce (Trace.log step .empty (sampleRun 100000)) := by
  have hanswers : (Trace.log step .empty (sampleRun 100000)).map Prod.snd =
      [.opened, .reservation (.reserved (hexLease '1')), .done,
        .reservation (.reserved (hexLease '2'))] := by decide +kernel
  intro hone
  rw [Trace.log_eq_zip hanswers] at hone
  obtain ⟨r, hr, _, _, _, hrelease⟩ := hone [_] [_] [] _ _ (digest 'a') 100000 rfl
    ⟨_, _, _, _, _, _, rfl, rfl, rfl⟩ ⟨_, _, _, _, _, _, rfl, rfl, rfl⟩
  obtain rfl := List.mem_singleton.mp hr
  cases (Prod.mk.inj hrelease).1

end LeanCtx.Relay
