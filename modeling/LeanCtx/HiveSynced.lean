import LeanCtx.AppendLog
import LeanCtx.HiveConverge
import LeanCtx.HiveDriver

/-!
# A replica holds the beginning of the log

Against a server that only appends to its log, whatever others append meanwhile
and whichever requests fail, the rows of a replica are the log up to some event,
and an own event that is no longer pending is stored or was refused for good. A
tail that succeeds has read what the log held when it began.
-/

namespace LeanCtx.Hive

open AppendLog (after Beginning Seen)
open ByteText (Bytes)

variable {σ α : Type}

/-! ## The server -/

/-- What is known of a server: its log as `seq` and `event_id`, and what it refused for good. -/
structure Service (σ : Type) where
  log : σ → List (ℕ × String)
  refused : σ → String → Prop
  epoch : Option ℕ
  ascending : ∀ s, AppendLog.Ascending Prod.fst (log s)
  positive : ∀ s, ∀ e ∈ log s, 0 < e.1
  distinct : ∀ s, ((log s).map Prod.snd).Nodup

namespace Service

variable (v : Service σ)

/-- Nothing is taken back. -/
structure Grows (s s' : σ) : Prop where
  log : v.log s <+: v.log s'
  refused : ∀ id, v.refused s id → v.refused s' id

/-- The first events of the log behind `since`, one at least if there are any. -/
structure Page (s : σ) (since : ℕ) (page : TailPage) : Prop where
  window : ∃ k, keptIds page.events = (after Prod.fst since (v.log s)).take k
  progress : page.events = [] → after Prod.fst since (v.log s) = []
  storable : ∀ e ∈ page.events, ∃ row, rowOf e = .ok row
  next : ∀ n ∈ page.nextSince, page.events ≠ [] → (page.events.map StoredEvent.seq).max? = some n
  head : ∀ e ∈ v.log s, e.1 ≤ page.headSeq
  epoch : ∀ e ∈ page.epoch, v.epoch = some e

/-- The routes of a place, on a server that only appends. -/
structure Serves (env : Env) (api : PlaceApi σ) (place : String) (pk : Bytes) : Prop where
  get : ∀ path s, v.Grows s (finalState (api.get path) s)
  post : ∀ path body s, v.Grows s (finalState (api.post path body) s)
  page : ∀ since s answer s', api.get (tailPath place since) s = .ok answer s' →
    ∃ page, tailPage (env.eventVerifies pk) answer = .ok page ∧ v.Page s' since page
  refuses : ∀ path body s answer s' list, api.post path body s = .ok answer s' →
    results answer = .ok list → ∀ p ∈ list, p.2.next = some .fail → v.refused s' p.1

variable {v} {s s' s'' : σ}

theorem Grows.refl (s : σ) : v.Grows s s := ⟨List.prefix_refl _, fun _ h => h⟩

theorem Grows.trans (h : v.Grows s s') (h' : v.Grows s' s'') : v.Grows s s'' :=
  ⟨h.log.trans h'.log, fun id hid => h'.refused id (h.refused id hid)⟩

theorem seq_inj {a b : ℕ × String} (ha : a ∈ v.log s) (hb : b ∈ v.log s) (h : a.1 = b.1) :
    a = b := by
  have hnodup : ((v.log s).map Prod.fst).Nodup :=
    List.pairwise_map.mpr ((v.ascending s).imp fun hlt => Nat.ne_of_lt hlt)
  exact List.inj_on_of_nodup_map hnodup ha hb h

theorem id_inj {a b : ℕ × String} (ha : a ∈ v.log s) (hb : b ∈ v.log s) (h : a.2 = b.2) :
    a = b := List.inj_on_of_nodup_map (v.distinct s) ha hb h

end Service

/-! ## Rows -/

def Row.key (row : Row) : ℕ × String := (row.seq, row.eventId)

/-- What is stored, as the log lists it. -/
def Replica.stored (r : Replica) : List (ℕ × String) := r.events.map Row.key

theorem rowOf_key {e : StoredEvent} {row : Row} (h : rowOf e = .ok row) :
    str e.event "event_id" = some row.eventId ∧ row.seq = e.seq := by
  unfold rowOf at h
  split at h
  · cases h
  · next id hid =>
    split at h
    · next hseq _ _ =>
      obtain rfl := Except.ok.inj h
      refine ⟨hid, ?_⟩
      unfold checkI64 at hseq
      split_ifs at hseq
      exact (Except.ok.inj hseq).symm
    all_goals cases h

theorem mem_insertRow {rows : List Row} {row : Row} {log : List (ℕ × String)}
    (hseq : ∀ a ∈ log, ∀ b ∈ log, a.1 = b.1 → a = b) (hid : ∀ a ∈ log, ∀ b ∈ log, a.2 = b.2 → a = b)
    (hrows : ∀ e ∈ rows.map Row.key, e ∈ log) (hrow : row.key ∈ log) (e : ℕ × String) :
    e ∈ (insertRow rows row).map Row.key ↔ e ∈ rows.map Row.key ∨ e = row.key := by
  unfold insertRow
  split_ifs with hany
  · obtain ⟨r, hr, hsame⟩ := List.any_eq_true.mp hany
    have hkey : r.key ∈ rows.map Row.key := List.mem_map_of_mem hr
    have heq : r.key = row.key := by
      rcases Bool.or_eq_true _ _ |>.mp hsame with h | h
      · exact hseq _ (hrows _ hkey) _ hrow (of_decide_eq_true h)
      · exact hid _ (hrows _ hkey) _ hrow (of_decide_eq_true h)
    refine ⟨Or.inl, ?_⟩
    rintro (h | rfl)
    · exact h
    · rw [← heq]
      exact hkey
  · rw [List.map_append, List.mem_append]
    exact or_congr Iff.rfl List.mem_singleton

/-- Rows of one log never stand in each other's way. -/
theorem mem_insertRows {rows new : List Row} {log : List (ℕ × String)}
    (hseq : ∀ a ∈ log, ∀ b ∈ log, a.1 = b.1 → a = b) (hid : ∀ a ∈ log, ∀ b ∈ log, a.2 = b.2 → a = b)
    (hrows : ∀ e ∈ rows.map Row.key, e ∈ log) (hnew : ∀ e ∈ new.map Row.key, e ∈ log)
    (e : ℕ × String) : e ∈ (new.foldl insertRow rows).map Row.key ↔
      e ∈ rows.map Row.key ∨ e ∈ new.map Row.key := by
  induction new generalizing rows with
  | nil => exact (or_iff_left List.not_mem_nil).symm
  | cons row new ih =>
    rw [List.map_cons, List.forall_mem_cons] at hnew
    have hone := mem_insertRow hseq hid hrows hnew.1
    have hall : ∀ x ∈ (insertRow rows row).map Row.key, x ∈ log := by
      intro x hx
      rcases (hone x).mp hx with hx | rfl
      · exact hrows x hx
      · exact hnew.1
    rw [List.foldl_cons, ih hall hnew.2, hone, List.map_cons, List.mem_cons, or_assoc]

theorem mapM_rowOf {events : List StoredEvent} (h : ∀ e ∈ events, ∃ row, rowOf e = .ok row) :
    ∃ rows, events.mapM rowOf = .ok rows ∧ rows.map Row.key = keptIds events := by
  induction events with
  | nil => exact ⟨[], rfl, rfl⟩
  | cons e events ih =>
    obtain ⟨row, hrow⟩ := h e List.mem_cons_self
    obtain ⟨rows, hrows, hkeys⟩ := ih fun x hx => h x (List.mem_cons_of_mem e hx)
    obtain ⟨hid, hseq⟩ := rowOf_key hrow
    refine ⟨row :: rows, ?_, ?_⟩
    · rw [List.mapM_cons, hrow, hrows]
      rfl
    · rw [List.map_cons, hkeys, Row.key, hseq]
      unfold keptIds
      rw [List.filterMap_cons, hid]
      rfl

theorem keptIds_seq {events : List StoredEvent} (h : ∀ e ∈ events, ∃ row, rowOf e = .ok row) :
    (keptIds events).map Prod.fst = events.map StoredEvent.seq := by
  induction events with
  | nil => rfl
  | cons e events ih =>
    obtain ⟨row, hrow⟩ := h e List.mem_cons_self
    obtain ⟨hid, -⟩ := rowOf_key hrow
    have hrest := ih fun x hx => h x (List.mem_cons_of_mem e hx)
    unfold keptIds at hrest ⊢
    rw [List.filterMap_cons, hid]
    exact congrArg (e.seq :: ·) hrest

theorem seq_lt_of_rowOf {e : StoredEvent} {row : Row} (h : rowOf e = .ok row) : e.seq < 2 ^ 63 := by
  unfold rowOf at h
  split at h
  · cases h
  · split at h
    · next hseq _ _ =>
      unfold checkI64 at hseq
      split_ifs at hseq with hlt
      exact hlt
    all_goals cases h

/-! ## What comes is kept -/

theorem settleAll (ids : List String) (r : Replica) : ids.foldl Replica.settlePending r =
    { r with pendingRows := r.pendingRows.filter fun p => p.eventId ∉ ids } := by
  induction ids generalizing r with
  | nil =>
    have hall : (r.pendingRows.filter fun p => p.eventId ∉ ([] : List String)) = r.pendingRows :=
      List.filter_eq_self.mpr fun p _ => decide_eq_true List.not_mem_nil
    rw [hall]
    rfl
  | cons id ids ih =>
    rw [List.foldl_cons, ih, Replica.settlePending, List.filter_filter]
    congr 2
    funext p
    rw [← Bool.decide_and, decide_eq_decide, List.mem_cons, not_or, and_comm]

theorem noteReceived_ok {seqs : List ℕ} (h : ∀ seq ∈ seqs, seq < 2 ^ 63) (now : ℕ) (r : Replica) :
    ∃ received, noteReceived now seqs r = .ok ⟨⟩ { r with received } := by
  induction seqs generalizing r with
  | nil => exact ⟨r.received, rfl⟩
  | cons seq seqs ih =>
    obtain ⟨hseq, hseqs⟩ := List.forall_mem_cons.mp h
    have hcheck : checkI64 "value" seq = .ok seq := if_pos hseq
    obtain ⟨received, hrest⟩ := ih hseqs (r.note now seq)
    refine ⟨received, ?_⟩
    rw [noteReceived, hcheck]
    exact hrest

theorem keep_ok {events : List StoredEvent} (h : ∀ e ∈ events, ∃ row, rowOf e = .ok row) (now : ℕ)
    (r : Replica) : ∃ (n : ℕ) (received : List (ℕ × ℕ)) (rows : List Row),
      rows.map Row.key = keptIds events ∧
      keep events now r = .ok n { r with
        received
        pendingRows := r.pendingRows.filter fun p =>
          p.eventId ∉ events.filterMap fun e => str e.event "event_id"
        events := rows.foldl insertRow r.events } := by
  obtain ⟨rows, hrows, hkeys⟩ := mapM_rowOf h
  have hseqs : ∀ seq ∈ events.map StoredEvent.seq, seq < 2 ^ 63 := by
    intro seq hseq
    obtain ⟨e, he, rfl⟩ := List.mem_map.mp hseq
    obtain ⟨row, hrow⟩ := h e he
    exact seq_lt_of_rowOf hrow
  obtain ⟨received, hnote⟩ := noteReceived_ok hseqs now
    ((events.filterMap fun e => str e.event "event_id").foldl Replica.settlePending r)
  refine ⟨(rows.foldl insertRow r.events).length - r.events.length, received, rows, hkeys, ?_⟩
  rw [settleAll] at hnote
  unfold keep
  change EStateM.bind (noteReceived now _) _ (List.foldl _ r _) = _
  rw [settleAll]
  unfold EStateM.bind
  rw [hnote]
  unfold insertEvents
  rw [hrows]
  rfl

/-! ## What a replica and its server agree on -/

/-- The rows begin the log, the cursor stands among them, and every own event is pending, stored,
or refused for good. -/
structure Synced (v : Service σ) (pk : Bytes) (own : List String) (w : World σ) : Prop where
  rows : Beginning Prod.fst (v.log w.server) w.replica.stored
  cursor : ∀ c ∈ w.replica.cursor, Seen Prod.fst w.replica.stored c
  epoch : ∀ e ∈ w.replica.epoch, v.epoch = some e
  salt : w.replica.idSalt = some pk
  own : ∀ id ∈ own, id ∈ w.replica.pendingRows.map PendingEvent.eventId ∨
    id ∈ w.replica.stored.map Prod.snd ∨ v.refused w.server id

section Steps

variable {v : Service σ} {pk : Bytes} {own : List String} {w : World σ} {env : Env}
  {api : PlaceApi σ} {place : String}

theorem wp_onReplica {m : ReplicaM α} {Q : Except HiveError α → World σ → Prop} :
    wp (onReplica m) Q w ↔ wp m (fun r replica => Q r { w with replica }) w.replica := by
  unfold wp onReplica
  cases m w.replica <;> rfl

/-- Work on the replica leaves the server as it is. -/
theorem wp_local {m : ReplicaM α} {P : Except HiveError α → Replica → Prop} (h : wp m P w.replica) :
    wp (onReplica m) (fun r w' => P r w'.replica ∧ w'.server = w.server) w :=
  wp_onReplica.mpr (h.imp fun _ _ hP => ⟨hP, rfl⟩)

theorem wp_onServer {m : EStateM HiveError σ α} {Q : Except HiveError α → World σ → Prop} :
    wp (onServer m) Q w ↔ wp m (fun r server => Q r { w with server }) w.server := by
  unfold wp onServer
  cases m w.server <;> rfl

theorem wp_write_bind {f : Replica → Replica} {β : Type} {k : PUnit → DriverM σ β}
    {Q : Except HiveError β → World σ → Prop} (h : wp (k ⟨⟩) Q { w with replica := f w.replica }) :
    wp (onReplica (modify f) >>= k) Q w := h

/-- The server may have appended. -/
theorem Synced.grow (h : Synced v pk own w) {server : σ} (hgrows : v.Grows w.server server) :
    Synced v pk own { w with server } := by
  refine ⟨h.rows.grow hgrows.log (v.ascending server), h.cursor, h.epoch, h.salt, fun id hid => ?_⟩
  rcases h.own id hid with hpending | hstored | hrefused
  · exact Or.inl hpending
  · exact Or.inr (Or.inl hstored)
  · exact Or.inr (Or.inr (hgrows.refused id hrefused))

/-- Nothing that is agreed on has changed. -/
theorem Synced.frame (h : Synced v pk own w) {r : Replica} (hstored : r.stored = w.replica.stored)
    (hcursor : r.cursor = w.replica.cursor) (hepoch : r.epoch = w.replica.epoch)
    (hsalt : r.idSalt = w.replica.idSalt) (hpending : r.pendingRows = w.replica.pendingRows) :
    Synced v pk own { w with replica := r } := by
  refine ⟨?_, ?_, ?_, hsalt.trans h.salt, ?_⟩
  · change Beginning Prod.fst (v.log w.server) r.stored
    rw [hstored]
    exact h.rows
  · change ∀ c ∈ r.cursor, Seen Prod.fst r.stored c
    rw [hcursor, hstored]
    exact h.cursor
  · change ∀ e ∈ r.epoch, v.epoch = some e
    rw [hepoch]
    exact h.epoch
  · change ∀ id ∈ own, id ∈ r.pendingRows.map PendingEvent.eventId ∨
      id ∈ r.stored.map Prod.snd ∨ v.refused w.server id
    rw [hpending, hstored]
    exact h.own

theorem Synced.move (h : Synced v pk own w) {w' : World σ} (hreplica : w'.replica = w.replica)
    (hgrows : v.Grows w.server w'.server) : Synced v pk own w' := by
  obtain ⟨replica, server⟩ := w'
  obtain rfl : replica = w.replica := hreplica
  exact h.grow hgrows

/-- A request: the server may append, the replica stays as it is. -/
theorem wp_request {m : EStateM HiveError σ α}
    (hgrows : v.Grows w.server (finalState m w.server)) :
    wp (onServer m) (fun r w' => w'.replica = w.replica ∧ v.Grows w.server w'.server ∧
      ∀ a, r = .ok a → m w.server = .ok a w'.server) w := by
  rw [wp_onServer]
  unfold finalState at hgrows
  unfold wp
  cases hm : m w.server with
  | ok a server =>
    rw [hm] at hgrows
    exact ⟨rfl, hgrows, fun b hb => by rw [Except.ok.inj hb]⟩
  | error e server =>
    rw [hm] at hgrows
    refine ⟨rfl, hgrows, fun b hb => ?_⟩
    cases hb

theorem wp_fetchPage (hserves : v.Serves env api place pk) (since : ℕ) :
    wp (fetchPage env api place pk since) (fun r w' => w'.replica = w.replica ∧
      v.Grows w.server w'.server ∧ ∀ page, r = .ok page → v.Page w'.server since page) w := by
  refine wp_bind_of (wp_request (hserves.get (tailPath place since) w.server)) ?_ ?_
  · rintro e w' ⟨hreplica, hgrows, -⟩
    refine ⟨hreplica, hgrows, fun page hpage => ?_⟩
    cases hpage
  · rintro answer w' ⟨hreplica, hgrows, hanswer⟩
    obtain ⟨page, hpage, hv⟩ := hserves.page since w.server answer w'.server (hanswer answer rfl)
    rw [hpage]
    exact ⟨hreplica, hgrows, fun p hp => by rw [← Except.ok.inj hp]; exact hv⟩

/-- The events are stored, and a pending one that is gone is among what is stored. -/
structure Kept (events : List StoredEvent) (w w' : World σ) : Prop where
  server : w'.server = w.server
  stored : ∀ e, e ∈ w'.replica.stored ↔ e ∈ w.replica.stored ∨ e ∈ keptIds events
  cursor : w'.replica.cursor = w.replica.cursor
  epoch : w'.replica.epoch = w.replica.epoch
  salt : w'.replica.idSalt = w.replica.idSalt
  pending : ∀ p ∈ w.replica.pendingRows,
    p ∈ w'.replica.pendingRows ∨ p.eventId ∈ w'.replica.stored.map Prod.snd

theorem wp_keep {events : List StoredEvent} (hstorable : ∀ e ∈ events, ∃ row, rowOf e = .ok row)
    (hrows : ∀ e ∈ w.replica.stored, e ∈ v.log w.server)
    (hnew : ∀ e ∈ keptIds events, e ∈ v.log w.server) (now : ℕ) :
    wp (onReplica (keep events now)) (fun r w' => (∃ n, r = .ok n) ∧ Kept events w w') w := by
  obtain ⟨n, received, rows, hkeys, hkeep⟩ := keep_ok hstorable now w.replica
  rw [← hkeys] at hnew
  have hmem := mem_insertRows (fun a ha b hb => v.seq_inj ha hb) (fun a ha b hb => v.id_inj ha hb)
    hrows hnew
  rw [hkeys] at hmem
  rw [wp_onReplica]
  unfold wp
  rw [hkeep]
  refine ⟨⟨n, rfl⟩, rfl, hmem, rfl, rfl, rfl, fun p hp => ?_⟩
  by_cases hcame : p.eventId ∈ events.filterMap fun e => str e.event "event_id"
  · obtain ⟨e, he, hid⟩ := List.mem_filterMap.mp hcame
    refine Or.inr (List.mem_map.mpr ⟨(e.seq, p.eventId), (hmem _).mpr (Or.inr ?_), rfl⟩)
    refine List.mem_filterMap.mpr ⟨e, he, ?_⟩
    rw [hid]
    rfl
  · exact Or.inl (List.mem_filter.mpr ⟨hp, decide_eq_true hcame⟩)

/-- A page that follows what was seen is stored, and own events that it holds are settled. -/
theorem Synced.keep {since : ℕ} {page : TailPage} (h : Synced v pk own w)
    (hpage : v.Page w.server since page) (hseen : Seen Prod.fst w.replica.stored since) (now : ℕ) :
    wp (onReplica (keep page.events now)) (fun r w' => (∃ n, r = .ok n) ∧ Synced v pk own w' ∧
      w'.server = w.server ∧
      ∀ e, e ∈ w'.replica.stored ↔ e ∈ w.replica.stored ∨ e ∈ keptIds page.events) w := by
  obtain ⟨k, hwindow⟩ := hpage.window
  have hnew : ∀ e ∈ keptIds page.events, e ∈ v.log w.server := by
    intro e he
    rw [hwindow] at he
    exact (AppendLog.mem_after.mp (List.mem_of_mem_take he)).1
  refine (wp_keep hpage.storable h.rows.sound hnew now).imp ?_
  rintro r w' ⟨hok, hkept⟩
  have hold : ∀ e ∈ w.replica.stored, e ∈ w'.replica.stored :=
    fun e he => (hkept.stored e).mpr (Or.inl he)
  refine ⟨hok, ⟨?_, fun c hc => ?_, fun e he => ?_, hkept.salt.trans h.salt, ?_⟩, hkept.server,
    hkept.stored⟩
  · rw [hkept.server]
    refine h.rows.read (v.ascending w.server) (h.rows.of_seen (v.positive w.server) hseen) k ?_
    intro e
    rw [← hwindow]
    exact hkept.stored e
  · rw [hkept.cursor] at hc
    exact (h.cursor c hc).mono hold
  · rw [hkept.epoch] at he
    exact h.epoch e he
  · intro id hid
    rw [hkept.server]
    rcases h.own id hid with hpending | hstored | hrefused
    · obtain ⟨p, hp, rfl⟩ := List.mem_map.mp hpending
      exact (hkept.pending p hp).imp List.mem_map_of_mem Or.inl
    · obtain ⟨e, he, rfl⟩ := List.mem_map.mp hstored
      exact Or.inr (Or.inl (List.mem_map_of_mem (hold e he)))
    · exact Or.inr (Or.inr hrefused)

/-! ## The tail -/

/-- The next page starts behind the last event of this one. -/
theorem Service.Page.next_eq {s : σ} {since n : ℕ} {page : TailPage} (h : v.Page s since page)
    (hnext : page.next since = some n) :
    (∃ e ∈ keptIds page.events, e.1 = n) ∧ ∀ e ∈ keptIds page.events, e.1 ≤ n := by
  obtain ⟨hn, hgoes⟩ := Option.filter_eq_some_iff.mp hnext
  have hne : page.events ≠ [] := by
    rintro hnil
    rw [hnil] at hgoes
    exact absurd hgoes (by simp)
  have hmax : (page.events.map StoredEvent.seq).max? = some n := by
    cases hsome : page.nextSince with
    | some m =>
      rw [hsome] at hn
      obtain rfl : m = n := Option.some.inj hn
      exact h.next m hsome hne
    | none =>
      rw [hsome] at hn
      exact hn
  rw [← keptIds_seq h.storable] at hmax
  obtain ⟨hmem, hle⟩ := List.max?_eq_some_iff.mp hmax
  refine ⟨?_, fun e he => hle e.1 (List.mem_map_of_mem he)⟩
  obtain ⟨e, he, rfl⟩ := List.mem_map.mp hmem
  exact ⟨e, he, rfl⟩

/-- There is no next page only where this one is empty. -/
theorem Service.Page.next_none {s : σ} {since : ℕ} {page : TailPage} (h : v.Page s since page)
    (hnext : page.next since = none) : after Prod.fst since (v.log s) = [] := by
  by_contra hmore
  have hne : page.events ≠ [] := fun hnil => hmore (h.progress hnil)
  obtain ⟨k, hwindow⟩ := h.window
  have hbehind : ∀ m, (page.events.map StoredEvent.seq).max? = some m → since < m := by
    intro m hm
    rw [← keptIds_seq h.storable, List.max?_eq_some_iff] at hm
    obtain ⟨e, he, rfl⟩ := List.mem_map.mp hm.1
    rw [hwindow] at he
    exact (AppendLog.mem_after.mp (List.mem_of_mem_take he)).2
  have hgoes : ∀ m, since < m → (decide (since < m) && !page.events.isEmpty) = true := by
    intro m hm
    rw [decide_eq_true hm, Bool.true_and, Bool.not_eq_true', List.isEmpty_eq_false_iff]
    exact hne
  unfold TailPage.next at hnext
  cases hsome : page.nextSince with
  | some m =>
    rw [hsome, Option.some_or, Option.filter_eq_none_iff] at hnext
    exact hnext m rfl (hgoes m (hbehind m (h.next m hsome hne)))
  | none =>
    rw [hsome, Option.none_or, Option.filter_eq_none_iff] at hnext
    cases hmax : (page.events.map StoredEvent.seq).max? with
    | none => exact hne (List.map_eq_nil_iff.mp (List.max?_eq_none_iff.mp hmax))
    | some m => exact hnext m hmax (hgoes m (hbehind m hmax))

theorem Service.Page.le_of_next_none {s : σ} {since : ℕ} {page : TailPage}
    (h : v.Page s since page) (hnext : page.next since = none) {e : ℕ × String}
    (he : e ∈ v.log s) : e.1 ≤ since := by
  have hend := List.filter_eq_nil_iff.mp (h.next_none hnext) e he
  rwa [decide_eq_true_eq, not_lt] at hend

/-- Each page leaves one page less to read of what the log held. -/
theorem Service.Page.fewer {s : σ} {since next pages : ℕ} {page : TailPage}
    {held : List (ℕ × String)} (h : v.Page s since page) (hheld : held <+: v.log s)
    (hnext : page.next since = some next)
    (hfew : (after Prod.fst since held).length ≤ pages + 1) :
    (after Prod.fst next held).length ≤ pages := by
  obtain ⟨k, hwindow⟩ := h.window
  obtain ⟨⟨last, hlast, rfl⟩, hmax⟩ := h.next_eq hnext
  rw [hwindow] at hlast hmax
  by_cases hnone : after Prod.fst since held = []
  · have hbehind := (AppendLog.mem_after.mp (List.mem_of_mem_take hlast)).2
    rw [AppendLog.after_eq_nil hnone hbehind.le]
    exact Nat.zero_le _
  · have hless := AppendLog.length_after_lt (v.ascending s) hheld hlast hnone hmax
    omega

/-- Such a server never fails over. -/
theorem Synced.not_failedOver {since : ℕ} {page : TailPage} (h : Synced v pk own w)
    (hpage : v.Page w.server since page) (hseen : Seen Prod.fst w.replica.stored since) :
    page.failedOver w.replica.epoch since = false := by
  unfold TailPage.failedOver
  rw [Bool.or_eq_false_iff]
  refine ⟨?_, ?_⟩
  · cases hepoch : page.epoch with
    | none => rfl
    | some e =>
      cases hknown : w.replica.epoch with
      | none => rfl
      | some k =>
        have hsame := (hpage.epoch e hepoch).symm.trans (h.epoch k hknown)
        obtain rfl : e = k := Option.some.inj hsame
        exact decide_eq_false (Nat.lt_irrefl e)
  · rw [← Bool.decide_and, decide_eq_false_iff_not]
    rintro ⟨-, hback⟩
    rcases hseen with rfl | ⟨e, he, hle⟩
    · exact absurd hback (Nat.not_lt_zero _)
    · have hhead := hpage.head e (h.rows.sound e he)
      omega

theorem Synced.setEpoch {since : ℕ} {page : TailPage} (h : Synced v pk own w)
    (hpage : v.Page w.server since page) :
    wp (onReplica (setEpoch (w.replica.epoch.or page.epoch))) (fun r w' => (∃ u, r = .ok u) ∧
      Synced v pk own w' ∧ w'.server = w.server ∧ w'.replica.stored = w.replica.stored) w := by
  refine ⟨⟨⟨⟩, rfl⟩, ⟨h.rows, h.cursor, ?_, h.salt, h.own⟩, rfl, rfl⟩
  intro e he
  change (w.replica.epoch.or page.epoch).or w.replica.epoch = some e at he
  cases hknown : w.replica.epoch with
  | some k =>
    rw [hknown] at he
    exact h.epoch e (hknown.trans he)
  | none =>
    rw [hknown, Option.none_or, Option.or_none] at he
    exact hpage.epoch e he

/-- The pages that are left reach the end of what the log held. -/
theorem wp_tailPages (hserves : v.Serves env api place pk) (now pages : ℕ) {held : List (ℕ × String)}
    {since stored : ℕ} {lost : List String} (h : Synced v pk own w)
    (hheld : held <+: v.log w.server) (hseen : Seen Prod.fst w.replica.stored since) :
    wp (tailPages env api place pk now pages since stored lost) (fun r w' => Synced v pk own w' ∧
      v.Grows w.server w'.server ∧ ∀ result, r = .ok result → (∃ stored, result = .inr stored) ∧
        ((after Prod.fst since held).length ≤ pages → ∀ e ∈ held, e ∈ w'.replica.stored)) w := by
  induction pages generalizing w since stored lost with
  | zero =>
    refine ⟨h, .refl _, fun result hresult => ⟨⟨_, (Except.ok.inj hresult).symm⟩, ?_⟩⟩
    intro hnone e he
    have hall := List.filter_eq_nil_iff.mp (List.length_eq_zero_iff.mp (Nat.le_zero.mp hnone)) e he
    rw [decide_eq_true_eq, not_lt] at hall
    exact h.rows.of_seen (v.positive _) hseen e (hheld.subset he) hall
  | succ pages ih =>
    rw [tailPages]
    refine wp_bind_of (wp_fetchPage hserves since) ?_ ?_
    · rintro e w' ⟨hreplica, hgrows, -⟩
      refine ⟨h.move hreplica hgrows, hgrows, fun result hresult => ?_⟩
      cases hresult
    rintro page w₁ ⟨hreplica, hgrows₁, hpage⟩
    have h₁ := h.move hreplica hgrows₁
    have hpage := hpage page rfl
    rw [← hreplica] at hseen
    have hheld₁ : held <+: v.log w₁.server := hheld.trans hgrows₁.log
    apply wp_get_bind
    rw [h₁.not_failedOver hpage hseen, if_neg Bool.false_ne_true]
    refine wp_bind_of (h₁.setEpoch hpage) ?_ ?_
    · rintro e w' ⟨⟨u, hu⟩, -⟩
      cases hu
    rintro - w₂ ⟨-, h₂, hserver₂, hstored₂⟩
    rw [← hserver₂] at hpage hgrows₁ hheld₁
    rw [← hstored₂] at hseen
    refine wp_bind_of (h₂.keep hpage hseen now) ?_ ?_
    · rintro e w' ⟨⟨n, hn⟩, -⟩
      cases hn
    rintro new w₃ ⟨-, h₃, hserver₃, hstored₃⟩
    rw [← hserver₃] at hpage hgrows₁ hheld₁
    cases hnext : page.next since with
    | none =>
      refine ⟨h₃, hgrows₁, fun result hresult => ⟨⟨_, (Except.ok.inj hresult).symm⟩, ?_⟩⟩
      rintro - e he
      have hbelow := h₂.rows.of_seen (v.positive _) hseen
      rw [← hserver₃] at hbelow
      have hmem := hheld₁.subset he
      exact (hstored₃ e).mpr (Or.inl (hbelow e hmem (hpage.le_of_next_none hnext hmem)))
    | some next =>
      obtain ⟨⟨last, hlast, rfl⟩, -⟩ := hpage.next_eq hnext
      have hseen₃ : Seen Prod.fst w₃.replica.stored last.1 :=
        Or.inr ⟨last, (hstored₃ last).mpr (Or.inr hlast), Nat.le_refl _⟩
      refine (@ih w₃ last.1 (stored + new) (lost ++ page.lost) h₃ hheld₁ hseen₃).imp ?_
      rintro r w' ⟨hsynced, hgrows, hresult⟩
      refine ⟨hsynced, hgrows₁.trans hgrows, fun result hr => ?_⟩
      obtain ⟨hread, hall⟩ := hresult result hr
      exact ⟨hread, fun hfew => hall (hpage.fewer hheld₁ hnext hfew)⟩

/-- A graph's cursor is that of an event that was folded. -/
theorem refold_cursor {r : Replica} {a : Unit} {graph : Graph}
    (h : fold (r.events.map Row.foldEvent) Graph.empty = .ok a graph) :
    Seen Prod.fst r.stored graph.cursor := by
  rcases replay_cursor_eq (fold_ok.mp h).2 with hzero | ⟨e, he, hcursor⟩
  · exact Or.inl hzero
  · obtain ⟨row, hrow, rfl⟩ := List.mem_map.mp (mem_unseen.mp (mem_replayed he)).1
    exact Or.inr ⟨row.key, List.mem_map_of_mem hrow, hcursor.le⟩

theorem shred_key (ids : OrdSet String) (row : Row) : (row.shred ids).key = row.key := by
  unfold Row.shred
  split_ifs <;> rfl

/-- The rows stay the same events, and a cursor that moved stands among them. -/
structure Refolded (w w' : World σ) : Prop where
  server : w'.server = w.server
  stored : w'.replica.stored = w.replica.stored
  epoch : w'.replica.epoch = w.replica.epoch
  salt : w'.replica.idSalt = w.replica.idSalt
  pending : w'.replica.pendingRows = w.replica.pendingRows
  cursor : w'.replica.cursor = w.replica.cursor ∨
    ∃ c, w'.replica.cursor = some c ∧ Seen Prod.fst w.replica.stored c

theorem wp_setCursor (seq : ℕ) (r : Replica) :
    wp (setCursor seq) (fun a r' => (∀ u, a = .ok u → r' = { r with cursor := some seq }) ∧
      ∀ e, a = .error e → r' = r) r := by
  unfold setCursor
  apply wp_get_bind
  refine wp_rejectIf_bind ⟨fun u hu => ?_, fun _ _ => rfl⟩ fun _ => ⟨fun _ _ => rfl, fun e he => ?_⟩
  · cases hu
  · cases he

/-- A fold that succeeds moves the cursor, unless there is nothing to fold. -/
theorem wp_refold (w : World σ) :
    wp (onReplica refold) (fun r w' => Refolded w w' ∧ ∀ graph, r = .ok graph →
      (∃ e ∈ w.replica.stored, 0 < e.1) →
        ∃ c, w'.replica.cursor = some c ∧ Seen Prod.fst w.replica.stored c) w := by
  rw [wp_onReplica]
  unfold refold
  apply wp_get_bind
  cases hfold : fold (w.replica.events.map Row.foldEvent) Graph.empty with
  | error e graph =>
    refine ⟨⟨rfl, rfl, rfl, rfl, rfl, Or.inl rfl⟩, fun graph hgraph => ?_⟩
    cases hgraph
  | ok u graph =>
    have hstored : (w.replica.events.map (Row.shred graph.purgedEvents)).map Row.key =
        w.replica.stored := by
      rw [List.map_map]
      exact List.map_congr_left fun row _ => shred_key _ row
    have hseen := refold_cursor hfold
    apply wp_set_bind
    split_ifs with hpos
    · refine wp_bind_of (wp_setCursor graph.cursor _) ?_ ?_
      · rintro e r ⟨-, hr⟩
        obtain rfl := hr e rfl
        refine ⟨⟨rfl, hstored, rfl, rfl, rfl, Or.inl rfl⟩, fun graph hgraph => ?_⟩
        cases hgraph
      · rintro a r ⟨hr, -⟩
        obtain rfl := hr a rfl
        exact ⟨⟨rfl, hstored, rfl, rfl, rfl, Or.inr ⟨graph.cursor, rfl, hseen⟩⟩,
          fun _ _ _ => ⟨graph.cursor, rfl, hseen⟩⟩
    · refine ⟨⟨rfl, hstored, rfl, rfl, rfl, Or.inl rfl⟩, fun _ _ => ?_⟩
      rintro ⟨e, he, hlt⟩
      obtain ⟨row, hrow, rfl⟩ := List.mem_map.mp he
      have hle := (fold_cursor hfold).2 row.foldEvent (List.mem_map_of_mem hrow)
      exact absurd (hlt.trans_le hle) hpos

theorem Synced.refold (h : Synced v pk own w) {w' : World σ} (hrefolded : Refolded w w') :
    Synced v pk own w' := by
  refine ⟨?_, fun c hc => ?_, ?_, hrefolded.salt.trans h.salt, ?_⟩
  · rw [hrefolded.server, hrefolded.stored]
    exact h.rows
  · rw [hrefolded.stored]
    rcases hrefolded.cursor with hsame | ⟨c', hmoved, hseen⟩
    · exact h.cursor c (hsame ▸ hc)
    · obtain rfl := Option.some.inj (hmoved.symm.trans hc)
      exact hseen
  · rw [hrefolded.epoch]
    exact h.epoch
  · rw [hrefolded.pending, hrefolded.stored, hrefolded.server]
    exact h.own

theorem wp_repairKeyLost (hserves : v.Serves env api place pk) (lost : List String) :
    wp (repairKeyLost env api place lost) (fun _ w' => w'.replica = w.replica ∧
      v.Grows w.server w'.server) w := by
  unfold repairKeyLost
  apply wp_get_bind
  refine wp_ofExcept_bind (fun e => ⟨rfl, .refl _⟩) fun own _ => ?_
  split_ifs with hnil
  · exact ⟨rfl, .refl _⟩
  · refine wp_bind_of (wp_request (hserves.post (eventsPath place) (request own []) w.server)) ?_ ?_
    · rintro e w' ⟨hreplica, hgrows, -⟩
      exact ⟨hreplica, hgrows⟩
    · rintro a w' ⟨hreplica, hgrows, -⟩
      exact ⟨hreplica, hgrows⟩

theorem restoreBody_stored (r : Replica) (id : String) (body : Json) :
    (r.restoreBody id body).stored = r.stored := by
  unfold Replica.restoreBody Replica.stored
  rw [List.map_map]
  refine List.map_congr_left fun row _ => ?_
  rw [Function.comp_apply]
  split_ifs <;> rfl

theorem wp_refetchOne (hserves : v.Serves env api place pk) (h : Synced v pk own w) (id : String) :
    wp (refetchOne env api place pk id) (fun _ w' => Synced v pk own w' ∧
      w'.replica.stored = w.replica.stored ∧ v.Grows w.server w'.server) w := by
  unfold refetchOne
  refine wp_bind_of (wp_request (hserves.get (bodyPath place id) w.server)) ?_ ?_
  · rintro e w' ⟨hreplica, hgrows, -⟩
    exact ⟨h.move hreplica hgrows, congrArg Replica.stored hreplica, hgrows⟩
  rintro answer w₁ ⟨hreplica, hgrows, -⟩
  have h₁ := h.move hreplica hgrows
  have hstored := congrArg Replica.stored hreplica
  apply wp_get_bind
  cases hbody : member answer "body" with
  | none => exact ⟨h₁, hstored, hgrows⟩
  | some body =>
    cases hevent : w₁.replica.storedEnvelope id with
    | none => exact ⟨h₁, hstored, hgrows⟩
    | some event =>
      dsimp only
      split_ifs with hverifies
      · have hsame := restoreBody_stored w₁.replica id body
        exact ⟨h₁.frame hsame rfl rfl rfl rfl, hsame.trans hstored, hgrows⟩
      · exact ⟨h₁, hstored, hgrows⟩

theorem wp_refetchLost (hserves : v.Serves env api place pk) (h : Synced v pk own w)
    (ids : List String) (restored : ℕ) : wp (refetchLost env api place pk ids restored)
      (fun _ w' => Synced v pk own w' ∧ w'.replica.stored = w.replica.stored ∧
        v.Grows w.server w'.server) w := by
  induction ids generalizing w restored with
  | nil => exact ⟨h, rfl, .refl _⟩
  | cons id ids ih =>
    refine wp_bind_of (wp_refetchOne hserves h id) (fun _ _ h => h) ?_
    rintro one w₁ ⟨h₁, hstored, hgrows⟩
    refine (ih h₁ (restored + one)).imp ?_
    rintro r w' ⟨hsynced, hstored', hgrows'⟩
    exact ⟨hsynced, hstored'.trans hstored, hgrows.trans hgrows'⟩

theorem wp_pkId (h : w.replica.idSalt = some pk) : wp pkId (fun r w' => r = .ok pk ∧ w' = w) w := by
  unfold pkId
  apply wp_get_bind
  rw [h]
  exact ⟨rfl, rfl⟩

theorem Synced.prune (h : Synced v pk own w) (now : ℕ) :
    Synced v pk own { w with replica := w.replica.pruneHistory now } :=
  h.frame rfl rfl rfl rfl rfl

theorem wp_tailEnd (hserves : v.Serves env api place pk) (h : Synced v pk own w) (stored : ℕ)
    (lost : List String) : wp (tailEnd env api place pk stored lost) (fun _ w' =>
      Synced v pk own w' ∧ v.Grows w.server w'.server ∧
      w'.replica.stored = w.replica.stored) w := by
  unfold tailEnd
  refine wp_bind_of (wp_refold w) ?_ ?_
  · rintro e w₁ ⟨hrefolded, -⟩
    exact ⟨h.refold hrefolded, hrefolded.server ▸ .refl _, hrefolded.stored⟩
  rintro graph w₁ ⟨hrefolded, -⟩
  have h₁ := h.refold hrefolded
  rw [← hrefolded.server, ← hrefolded.stored]
  refine wp_bind_of (wp_repairKeyLost hserves lost) ?_ ?_
  · rintro e w₂ ⟨hreplica₂, hgrows₂⟩
    exact ⟨h₁.move hreplica₂ hgrows₂, hgrows₂, congrArg Replica.stored hreplica₂⟩
  rintro repaired w₂ ⟨hreplica₂, hgrows₂⟩
  have h₂ := h₁.move hreplica₂ hgrows₂
  rw [← hreplica₂]
  apply wp_get_bind
  refine wp_bind_of (wp_refetchLost hserves h₂ _ 0) ?_ ?_
  · rintro e w₃ ⟨h₃, hstored₃, hgrows₃⟩
    exact ⟨h₃, hgrows₂.trans hgrows₃, hstored₃⟩
  rintro restored w₃ ⟨h₃, hstored₃, hgrows₃⟩
  rw [← hstored₃]
  have hgrows := hgrows₂.trans hgrows₃
  split_ifs with hrestored
  · refine wp_bind_of (wp_refold w₃) ?_ ?_
    · rintro e w₄ ⟨hrefolded₄, -⟩
      exact ⟨h₃.refold hrefolded₄, hrefolded₄.server ▸ hgrows, hrefolded₄.stored⟩
    · rintro graph w₄ ⟨hrefolded₄, -⟩
      exact ⟨h₃.refold hrefolded₄, hrefolded₄.server ▸ hgrows, hrefolded₄.stored⟩
  · exact ⟨h₃, hgrows, rfl⟩

/-- A tail stores what the log held when it began, unless its pages run out. -/
theorem wp_tail (hserves : v.Serves env api place pk) (h : Synced v pk own w) (now : ℕ) :
    wp (tail env api place now) (fun r w' => Synced v pk own w' ∧ v.Grows w.server w'.server ∧
      ∀ report, r = .ok report →
        (after Prod.fst (w.replica.cursor.getD 0) (v.log w.server)).length ≤ maxTailPages →
          ∀ e ∈ v.log w.server, e ∈ w'.replica.stored) w := by
  have hseen : Seen Prod.fst w.replica.stored (w.replica.cursor.getD 0) := by
    cases hcursor : w.replica.cursor with
    | none => exact Or.inl rfl
    | some c => exact h.cursor c hcursor
  unfold tail
  refine wp_bind_of (wp_pkId h.salt) ?_ ?_
  · rintro e w' ⟨hr, -⟩
    cases hr
  rintro key w' ⟨hr, rfl⟩
  obtain rfl := Except.ok.inj hr
  apply wp_write_bind
  apply wp_get_bind
  refine wp_bind_of (wp_tailPages hserves now maxTailPages (h.prune now) (List.prefix_refl _)
    hseen) ?_ ?_
  · rintro e w₁ ⟨h₁, hgrows, -⟩
    refine ⟨h₁, hgrows, fun report hreport => ?_⟩
    cases hreport
  rintro result w₁ ⟨h₁, hgrows₁, hresult⟩
  obtain ⟨⟨⟨stored, lost⟩, rfl⟩, hall⟩ := hresult result rfl
  refine (wp_tailEnd hserves h₁ stored lost).imp ?_
  rintro r w₂ ⟨h₂, hgrows₂, hstored₂⟩
  rw [hstored₂]
  exact ⟨h₂, hgrows₁.trans hgrows₂, fun report _ => hall⟩

end Steps

end LeanCtx.Hive
