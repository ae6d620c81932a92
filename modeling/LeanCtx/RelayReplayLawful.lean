import LeanCtx.RelayReplayOnce

/-!
# What a replay database holds

Over any run of stores on one database the rows stay within the limits of the stores, no two
rows share a lease, and a response belongs to a completed proof.
-/

namespace LeanCtx.Relay

/-! ## Counting rows -/

/-- How much a row adds to a count. -/
def weight (origin : Option String) (_ : String) (row : Row) : ℕ :=
  if origin.isNone || origin = some row.origin then 1 else 0

theorem weight_some (origin id : String) (row : Row) :
    weight (some origin) id row = if origin = row.origin then 1 else 0 := by
  simp only [weight, Option.isNone_some, Bool.false_or, Option.some.injEq, decide_eq_true_eq]

theorem length_filter_eq_sum {α : Type} (p : α → Bool) (l : List α) :
    (l.filter p).length = (l.map fun a => if p a then 1 else 0).sum := by
  induction l with
  | nil => rfl
  | cons a l ih =>
    rw [List.map_cons, List.sum_cons, ← ih]
    cases h : p a with
    | true => rw [List.filter_cons_of_pos h, if_pos rfl, List.length_cons, Nat.add_comm]
    | false => rw [List.filter_cons_of_neg (by rw [h]; decide), if_neg (by decide), Nat.zero_add]

theorem countRows_eq (db : Database) (origin : Option String) :
    countRows db origin = OrdMap.mapSum (weight origin) db.rows := by
  cases origin with
  | none =>
    have hsize : db.rows.toList.length = db.rows.size := Std.ExtTreeMap.length_toList
    rw [countRows, OrdMap.mapSum, ← hsize]
    simp only [weight, Option.isNone_none, Bool.true_or, if_true, List.map_const',
      List.sum_replicate, smul_eq_mul, mul_one]
  | some origin =>
    rw [countRows, length_filter_eq_sum, OrdMap.mapSum]
    congr 1
    refine List.map_congr_left fun e _ => ?_
    simp only [weight, Option.isNone_some, Bool.false_or, Option.some.injEq, eq_comm]

theorem countRows_keepRows_le (db : Database) (keep : String → Row → Bool)
    (origin : Option String) : countRows (keepRows db keep) origin ≤ countRows db origin := by
  rw [countRows_eq, countRows_eq]
  refine OrdMap.mapSum_le fun id => ?_
  have hget : (keepRows db keep).rows[id]? = (db.rows[id]?).filter (keep id) :=
    Std.ExtTreeMap.getElem?_filter'
  rw [hget]
  cases db.rows[id]? with
  | none => exact Nat.le_refl 0
  | some row =>
    rw [Option.filter_some]
    split_ifs
    · exact Nat.le_refl _
    · exact Nat.zero_le _

theorem countRows_insert {db db' : Database} {id : String} {row : Row} (origin : Option String)
    (hrows : db'.rows = db.rows.insert id row) :
    countRows db' origin + (db.rows[id]?).elim 0 (weight origin id) =
      countRows db origin + weight origin id row := by
  rw [countRows_eq, countRows_eq, hrows]
  exact OrdMap.mapSum_insert _ _ _ _

/-! ## One transaction -/

/-- The rows are within the limits, their leases tell them apart, and what has a response is
completed. -/
structure Lawful (maxRows perOrigin : ℕ) (db : Database) : Prop where
  total : countRows db none ≤ maxRows
  origins : ∀ origin, countRows db (some origin) ≤ perOrigin
  leases : ∀ (id id' : String) (row row' : Row), db.rows[id]? = some row →
    db.rows[id']? = some row' → row.lease = row'.lease → id = id'
  responses : ∀ (id body : String), db.responses[id]? = some body →
    ∃ row, db.rows[id]? = some row ∧ row.state = .completed

section Transactions

variable {maxRows perOrigin : ℕ} {db db' : Database}

theorem get_keepRows {keep : String → Row → Bool} {id : String} {row : Row} :
    (keepRows db keep).rows[id]? = some row ↔ db.rows[id]? = some row ∧ keep id row = true := by
  have hget : (keepRows db keep).rows[id]? = (db.rows[id]?).filter (keep id) :=
    Std.ExtTreeMap.getElem?_filter'
  rw [hget, Option.filter_eq_some_iff]

theorem Lawful.keepRows (h : Lawful maxRows perOrigin db) (keep : String → Row → Bool) :
    Lawful maxRows perOrigin (keepRows db keep) := by
  constructor
  · exact (countRows_keepRows_le db keep none).trans h.total
  · exact fun origin => (countRows_keepRows_le db keep (some origin)).trans (h.origins origin)
  · exact fun id id' row row' hrow hrow' =>
      h.leases id id' row row' (get_keepRows.mp hrow).1 (get_keepRows.mp hrow').1
  · intro id body hbody
    have hget : (Relay.keepRows db keep).responses[id]? =
        (db.responses[id]?).filter fun _ => (db.rows.filter keep).contains id :=
      Std.ExtTreeMap.getElem?_filter'
    rw [hget, Option.filter_eq_some_iff] at hbody
    obtain ⟨row, hrow, hcompleted⟩ := h.responses id body hbody.1
    obtain ⟨row', hrow'⟩ := (OrdMap.mem_iff _ _).mp (Std.ExtTreeMap.contains_iff_mem.mp hbody.2)
    have hsame : some row' = some row := by
      rw [← (get_keepRows.mp hrow').1, hrow]
    rw [Option.some.inj hsame] at hrow'
    exact ⟨row, hrow', hcompleted⟩

theorem lawful_of_eq (h : Lawful maxRows perOrigin db) (hrows : db'.rows = db.rows)
    (hresponses : db'.responses = db.responses) : Lawful maxRows perOrigin db' := by
  have hcount : ∀ origin, countRows db' origin = countRows db origin := by
    intro origin
    rw [countRows_eq, countRows_eq, hrows]
  constructor
  · rw [hcount]
    exact h.total
  · intro origin
    rw [hcount]
    exact h.origins origin
  · rw [hrows]
    exact h.leases
  · rw [hrows, hresponses]
    exact h.responses

theorem lease_of_fresh {leases : List String} {lease : String}
    (h : freshLease db leases = some lease) {id : String} {row : Row}
    (hrow : db.rows[id]? = some row) : row.lease ≠ lease := by
  intro heq
  have hnone := List.find?_some h
  rw [Bool.not_eq_true', ← Bool.not_eq_true, OrdMap.any_toList_iff] at hnone
  exact hnone ⟨id, row, hrow, decide_eq_true heq⟩

/-- What the reservation of a new proof has checked, and the row it writes. -/
theorem insertProof_cases {store : RelayReplayStore} {r : Relayed} {persisted now : ℤ}
    {leases : List String} {a : Reservation}
    (h : insertProof store r persisted now leases db = .ok (a, db')) :
    countRows db none < store.limits.maxRows ∧
    countRows db (some r.origin) < store.limits.perOriginMaxRows ∧
    ∃ row : Row, row.origin = r.origin ∧ freshLease db leases = some row.lease ∧
      db'.rows = db.rows.insert r.storageId row ∧ db'.responses = db.responses := by
  unfold insertProof at h
  dsimp only at h
  split at h
  · split at h <;> cases h
  · split at h
    · cases h
    · split at h
      · cases h
      · next htotal =>
        split at h
        · cases h
        · next horigin =>
          split at h
          · cases h
          · next lease hlease =>
            obtain ⟨-, rfl⟩ := Prod.mk.inj (Except.ok.inj h)
            exact ⟨not_le.mp htotal, not_le.mp horigin, _, rfl, hlease, rfl, rfl⟩

theorem lawful_insertProof {store : RelayReplayStore} {r : Relayed} {persisted now : ℤ}
    {leases : List String} {a : Reservation} (h : Lawful maxRows perOrigin db)
    (hlimits : store.limits.maxRows ≤ maxRows ∧ store.limits.perOriginMaxRows ≤ perOrigin)
    (hnone : db.rows[r.storageId]? = none)
    (hdone : insertProof store r persisted now leases db = .ok (a, db')) :
    Lawful maxRows perOrigin db' := by
  obtain ⟨htotal, horigin, row, hrow, hfresh, hrows, hresponses⟩ := insertProof_cases hdone
  have hcount (origin : Option String) := countRows_insert origin hrows
  have hget (id : String) := OrdMap.get_insert db.rows r.storageId id row
  simp only [hnone, Option.elim_none, Nat.add_zero] at hcount
  constructor
  · have hone : weight none r.storageId row = 1 := rfl
    rw [hcount, hone]
    omega
  · intro origin
    rw [hcount, weight_some, hrow]
    split_ifs with heq
    · rw [heq]
      omega
    · exact h.origins origin
  · intro id id' x x' hx hx' hsame
    rw [hrows, hget] at hx hx'
    split_ifs at hx hx' with hid hid' hid'
    · exact hid.symm.trans hid'
    · obtain rfl := Option.some.inj hx
      exact absurd hsame.symm (lease_of_fresh hfresh hx')
    · obtain rfl := Option.some.inj hx'
      exact absurd hsame (lease_of_fresh hfresh hx)
    · exact h.leases id id' x x' hx hx' hsame
  · intro id body hbody
    rw [hresponses] at hbody
    obtain ⟨x, hx, hcompleted⟩ := h.responses id body hbody
    refine ⟨x, ?_, hcompleted⟩
    rw [hrows, hget, if_neg, hx]
    rintro rfl
    rw [hnone] at hx
    cases hx

theorem lawful_reserve {store : RelayReplayStore} {r : Relayed} {now : ℤ} {leases : List String}
    {fault : Fault} {a : Reservation} (h : Lawful maxRows perOrigin db)
    (hlimits : store.limits.maxRows ≤ maxRows ∧ store.limits.perOriginMaxRows ≤ perOrigin)
    (hdone : reserve store r now leases fault db = .ok (a, db')) :
    Lawful maxRows perOrigin db' := by
  unfold reserve at hdone
  obtain ⟨_, -, hdone⟩ := except_bind_eq_ok.mp hdone
  obtain ⟨_, -, hdone⟩ := except_bind_eq_ok.mp hdone
  obtain ⟨_, -, hdone⟩ := except_bind_eq_ok.mp hdone
  obtain ⟨persisted, -, hdone⟩ := except_bind_eq_ok.mp hdone
  dsimp only at hdone
  split at hdone
  · cases hdone
  · split at hdone
    · cases hdone
    · have hpruned : Lawful maxRows perOrigin (pruneExpired db (max now persisted)) :=
        h.keepRows _
      split at hdone
      · obtain ⟨-, rfl⟩ := Prod.mk.inj (Except.ok.inj hdone)
        exact lawful_of_eq hpruned rfl rfl
      · next hnone => exact lawful_insertProof hpruned hlimits hnone hdone

/-- Completing a pending proof changes its state alone, and keeps its response if it has one. -/
theorem lawful_completed {id : String} {row : Row} (h : Lawful maxRows perOrigin db)
    (hrow : db.rows[id]? = some row) (hrows : db'.rows = db.rows.insert id
      { row with state := .completed })
    (hresponses : ∀ x body, db'.responses[x]? = some body → x = id ∨
      db.responses[x]? = some body) : Lawful maxRows perOrigin db' := by
  have hcount : ∀ origin, countRows db' origin = countRows db origin := by
    intro origin
    have hsum := countRows_insert origin hrows
    rw [hrow, Option.elim_some] at hsum
    exact Nat.add_right_cancel hsum
  have hget (x : String) := OrdMap.get_insert db.rows id x { row with state := .completed }
  -- a row of the new map has the lease of the row it comes from
  have hlease : ∀ (x : String) (y : Row), db'.rows[x]? = some y →
      ∃ y₀, db.rows[x]? = some y₀ ∧ y.lease = y₀.lease := by
    intro x y hy
    rw [hrows, hget] at hy
    split_ifs at hy with hx
    · subst hx
      obtain rfl := Option.some.inj hy
      exact ⟨row, hrow, rfl⟩
    · exact ⟨y, hy, rfl⟩
  constructor
  · rw [hcount]
    exact h.total
  · intro origin
    rw [hcount]
    exact h.origins origin
  · intro x x' y y' hy hy' hsame
    obtain ⟨y₀, hy₀, heq⟩ := hlease x y hy
    obtain ⟨y₀', hy₀', heq'⟩ := hlease x' y' hy'
    exact h.leases x x' y₀ y₀' hy₀ hy₀' (heq.symm.trans (hsame.trans heq'))
  · intro x body hbody
    rw [hrows, hget]
    by_cases hx : id = x
    · rw [if_pos hx]
      exact ⟨_, rfl, rfl⟩
    · rw [if_neg hx]
      exact h.responses x body ((hresponses x body hbody).resolve_left (Ne.symm hx))

theorem lawful_transition {storageId lease : String} {wanted : Transition} {fault : Fault}
    (h : Lawful maxRows perOrigin db)
    (hdone : transition storageId lease wanted fault db = .ok db') :
    Lawful maxRows perOrigin db' := by
  unfold transition at hdone
  obtain ⟨_, -, hdone⟩ := except_bind_eq_ok.mp hdone
  obtain ⟨_, -, hdone⟩ := except_bind_eq_ok.mp hdone
  obtain ⟨_, -, hdone⟩ := except_bind_eq_ok.mp hdone
  split at hdone
  · cases hdone
  · next row hrow =>
    split at hdone
    · cases hdone
    · split at hdone
      · split at hdone
        · obtain rfl := Except.ok.inj hdone
          exact h
        · cases hdone
      · cases hdone
      · split at hdone
        · obtain rfl := Except.ok.inj hdone
          exact lawful_completed h hrow rfl fun x body hbody => Or.inr hbody
        · split at hdone
          · cases hdone
          · obtain rfl := Except.ok.inj hdone
            refine lawful_completed h hrow rfl fun x body hbody => ?_
            rw [OrdMap.get_insert] at hbody
            split_ifs at hbody with hx
            · exact Or.inl hx.symm
            · exact Or.inr hbody
      · obtain rfl := Except.ok.inj hdone
        exact h.keepRows _

end Transactions

/-! ## A run -/

/-- Every open store keeps to the limits, and so does the database. -/
structure System.Within (maxRows perOrigin : ℕ) (s : System) : Prop where
  stores : ∀ store ∈ s.stores,
    store.limits.maxRows ≤ maxRows ∧ store.limits.perOriginMaxRows ≤ perOrigin
  lawful : ∀ db, s.database = some db → Lawful maxRows perOrigin db

/-- A store is only opened within the limits. -/
def OpensWithin (maxRows perOrigin : ℕ) : Op → Prop
  | .new limits _ _ => limits.maxRows ≤ maxRows ∧ limits.perOriginMaxRows ≤ perOrigin
  | _ => True

theorem lawful_openDatabase {maxRows perOrigin : ℕ} {retention : ℤ} {found : Option Database}
    {db : Database} (h : ∀ old, found = some old → Lawful maxRows perOrigin old)
    (hopen : openDatabase retention found = .ok db) : Lawful maxRows perOrigin db := by
  cases found with
  | none =>
    obtain rfl := Except.ok.inj hopen
    have hcount : ∀ origin, countRows ⟨retention, 0, ∅, ∅⟩ origin = 0 := by
      intro origin
      rw [countRows_eq]
      exact OrdMap.mapSum_empty _
    refine ⟨?_, ?_, nofun, nofun⟩
    · rw [hcount]
      exact Nat.zero_le _
    · intro origin
      rw [hcount]
      exact Nat.zero_le _
  | some old =>
    obtain ⟨_, -, hopen⟩ := except_bind_eq_ok.mp hopen
    obtain rfl := Except.ok.inj hopen
    exact lawful_of_eq (h old rfl) rfl rfl

theorem within_operate {maxRows perOrigin : ℕ} {s : System} {store : ℕ}
    {operation : RelayReplayStore → Database → Except StoreError (Answer × Database)}
    (h : s.Within maxRows perOrigin)
    (hoperation : ∀ handle ∈ s.stores, ∀ db answer db', Lawful maxRows perOrigin db →
      operation handle db = .ok (answer, db') → Lawful maxRows perOrigin db') :
    (s.operate store operation).2.Within maxRows perOrigin := by
  unfold System.operate
  split
  · next handle db hhandle hdb =>
    cases hop : operation handle db with
    | error e => exact h
    | ok result =>
      obtain ⟨answer, db'⟩ := result
      refine ⟨h.stores, fun db'' hdb'' => ?_⟩
      obtain rfl := Option.some.inj hdb''
      exact hoperation handle (List.mem_of_getElem? hhandle) db answer db' (h.lawful db hdb) hop
  · exact h

theorem within_change {maxRows perOrigin : ℕ} {s : System} {store : ℕ}
    {operation : Database → Except StoreError Database} (h : s.Within maxRows perOrigin)
    (hoperation : ∀ db db', Lawful maxRows perOrigin db → operation db = .ok db' →
      Lawful maxRows perOrigin db') :
    (s.operate store fun _ db => (operation db).map (.done, ·)).2.Within maxRows perOrigin := by
  refine within_operate h fun _ _ db answer db' hdb hdone => ?_
  cases hop : operation db with
  | error e => rw [hop] at hdone; cases hdone
  | ok db'' =>
    rw [hop] at hdone
    obtain ⟨-, rfl⟩ := Prod.mk.inj (Except.ok.inj hdone)
    exact hoperation db db'' hdb hop

theorem within_new {maxRows perOrigin : ℕ} {s : System} {limits : RelayReplayLimits}
    {retention : ℤ} {fault : Option OpenFault} (h : s.Within maxRows perOrigin)
    (hlimits : limits.maxRows ≤ maxRows ∧ limits.perOriginMaxRows ≤ perOrigin) :
    (s.new limits retention fault).2.Within maxRows perOrigin := by
  have hopened : ∀ db, openDatabase retention s.database = .ok db →
      ∀ db', some db = some db' → Lawful maxRows perOrigin db' := by
    intro db hopen db' hdb'
    rw [← Option.some.inj hdb']
    exact lawful_openDatabase h.lawful hopen
  unfold System.new
  split
  · exact h
  · exact h
  · split
    · exact h
    · exact h
    · next db hopen => exact ⟨h.stores, hopened db hopen⟩
    · next db hopen =>
      refine ⟨fun store hstore => ?_, hopened db hopen⟩
      rcases List.mem_append.mp hstore with hstore | hstore
      · exact h.stores store hstore
      · rw [List.mem_singleton.mp hstore]
        exact hlimits

theorem within_step {maxRows perOrigin : ℕ} {s : System} {op : Op}
    (hop : OpensWithin maxRows perOrigin op) (h : s.Within maxRows perOrigin) :
    (step s op).2.Within maxRows perOrigin := by
  cases op with
  | new limits retention fault => exact within_new h hop
  | reserve store r now leases fault =>
    refine within_operate h fun handle hhandle db answer db' hdb hdone => ?_
    cases hreserve : reserve handle r now leases fault db with
    | error e => rw [hreserve] at hdone; cases hdone
    | ok result =>
      rw [hreserve] at hdone
      obtain ⟨-, rfl⟩ := Prod.mk.inj (Except.ok.inj hdone)
      exact lawful_reserve hdb (h.stores handle hhandle) hreserve
  | complete store storageId lease fault =>
    exact within_change h fun db db' hdb hdone => lawful_transition hdb hdone
  | completeWithResponse store storageId lease body fault =>
    refine within_change h fun db db' hdb hdone => ?_
    unfold completeWithResponse at hdone
    split_ifs at hdone
    exact lawful_transition hdb hdone
  | release store storageId lease fault =>
    exact within_change h fun db db' hdb hdone => lawful_transition hdb hdone

/-- In every run of stores that are opened within the limits, the database keeps to them, its
leases tell the proofs apart, and only completed proofs have a response. -/
theorem lawful_run {maxRows perOrigin : ℕ} {ops : List Op}
    (h : ∀ op ∈ ops, OpensWithin maxRows perOrigin op) {db : Database}
    (hdb : (Trace.final step .empty ops).database = some db) : Lawful maxRows perOrigin db := by
  have hstart : System.empty.Within maxRows perOrigin := ⟨nofun, nofun⟩
  have halong : Trace.Along step (fun _ op => OpensWithin maxRows perOrigin op) .empty ops :=
    Trace.along_of_forall h
  have hrun := Trace.invariant (fun s op hop hs => within_step hop hs) halong hstart
  exact hrun.lawful db hdb

theorem lawful_run_sample : (∀ op ∈ sampleRun 100001, OpensWithin 4 4 op) ∧
    ∃ db, (Trace.final step .empty (sampleRun 100001)).database = some db ∧ Lawful 4 4 db := by
  have hopens : ∀ op ∈ sampleRun 100001, OpensWithin 4 4 op := by
    intro op hop
    simp only [sampleRun, List.mem_cons, List.not_mem_nil, or_false] at hop
    rcases hop with rfl | rfl | rfl | rfl
    · exact ⟨Nat.le_refl 4, Nat.le_refl 4⟩
    · trivial
    · trivial
    · trivial
  have hopened : (Trace.final step .empty (sampleRun 100001)).database.isSome = true := by
    decide +kernel
  obtain ⟨db, hdb⟩ := Option.isSome_iff_exists.mp hopened
  exact ⟨hopens, db, hdb, lawful_run hopens hdb⟩

end LeanCtx.Relay
