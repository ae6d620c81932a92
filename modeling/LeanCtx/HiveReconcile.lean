import LeanCtx.HiveRuns

/-!
# The repair after a failover

A server that lost the end of its log holds other events there than the replica.
The repair fetches the log again from a number below which both agree: it leaves
in the replica what the server holds, keeps the rows below the number, and
settles a pending event only where it has stored it.
-/

namespace LeanCtx.Hive

open AppendLog (after Beginning Seen ReadTo)
open ByteText (Bytes)

variable {σ : Type} {v : Service σ} {pk : Bytes} {w : World σ} {env : Env} {api : PlaceApi σ}
  {place : String}

/-! ## Requests -/

theorem wp_repush (hserves : v.Serves env api place pk) (batches : List (List Bytes)) (count : ℕ) :
    wp (repush env api place batches count) (fun _ w' => w'.replica = w.replica ∧
      v.Grows w.server w'.server) w := by
  induction batches generalizing w count with
  | nil => exact ⟨rfl, .refl _⟩
  | cons batch batches ih =>
    refine wp_ofExcept_bind (fun e => ⟨rfl, .refl _⟩) fun events _ => ?_
    refine wp_bind_of
      (wp_request (hserves.post (eventsPath place) (request events []) w.server)) ?_ ?_
    · rintro e w₁ ⟨hreplica, hgrows, -⟩
      exact ⟨hreplica, hgrows⟩
    rintro answer w₁ ⟨hreplica, hgrows, -⟩
    refine (@ih w₁ (count + events.length)).imp ?_
    rintro r w₂ ⟨hreplica₂, hgrows₂⟩
    exact ⟨hreplica₂.trans hreplica, hgrows.trans hgrows₂⟩

/-- What was fetched, next to what is held below it, is the beginning of the log. -/
structure Fetched (v : Service σ) (low : List (ℕ × String)) (s : σ) (fetched : List StoredEvent) :
    Prop where
  begins : Beginning Prod.fst (v.log s) (low ++ keptIds fetched)
  storable : ∀ e ∈ fetched, ∃ row, rowOf e = .ok row

theorem Fetched.grow {low : List (ℕ × String)} {s s' : σ} {fetched : List StoredEvent}
    (h : Fetched v low s fetched) (hgrows : v.Grows s s') : Fetched v low s' fetched :=
  ⟨h.begins.grow hgrows.log (v.ascending s'), h.storable⟩

theorem Fetched.page {low : List (ℕ × String)} {s : σ} {fetched : List StoredEvent} {since : ℕ}
    {page : TailPage} (h : Fetched v low s fetched) (hpage : v.Page s since page)
    (hread : ReadTo Prod.fst (v.log s) (low ++ keptIds fetched) since) :
    Fetched v low s (fetched ++ page.events) := by
  obtain ⟨k, hwindow⟩ := hpage.window
  refine ⟨h.begins.read (v.ascending s) hread.below k fun e => ?_, fun e he => ?_⟩
  · rw [← hwindow, keptIds, List.filterMap_append, ← List.append_assoc, List.mem_append]
    rfl
  · rcases List.mem_append.mp he with he | he
    · exact h.storable e he
    · exact hpage.storable e he

theorem mem_keptIds_append {e : ℕ × String} {a b : List StoredEvent} :
    e ∈ keptIds (a ++ b) ↔ e ∈ keptIds a ∨ e ∈ keptIds b := by
  rw [keptIds, List.filterMap_append, List.mem_append]
  rfl

theorem wp_fetchPages (hserves : v.Serves env api place pk) {low held : List (ℕ × String)}
    (pages : ℕ) {since : ℕ} {fetched : List StoredEvent} (h : Fetched v low w.server fetched)
    (hheld : held <+: v.log w.server)
    (hread : ReadTo Prod.fst (v.log w.server) (low ++ keptIds fetched) since) :
    wp (fetchPages env api place pk pages since fetched) (fun r w' => w'.replica = w.replica ∧
      v.Grows w.server w'.server ∧ ∀ all, r = .ok all → Fetched v low w'.server all ∧
        ((after Prod.fst since held).length ≤ pages → ∀ e ∈ held, e ∈ low ++ keptIds all)) w := by
  induction pages generalizing w since fetched with
  | zero =>
    refine ⟨rfl, .refl _, fun all hall => ?_⟩
    obtain rfl := Except.ok.inj hall
    refine ⟨h, fun hnone e he => hread.below e (hheld.subset he) ?_⟩
    have hend := List.filter_eq_nil_iff.mp (List.length_eq_zero_iff.mp (Nat.le_zero.mp hnone)) e he
    rwa [decide_eq_true_eq, not_lt] at hend
  | succ pages ih =>
    rw [fetchPages]
    refine wp_bind_of (wp_fetchPage hserves since) ?_ ?_
    · rintro e w₁ ⟨hreplica, hgrows, -⟩
      refine ⟨hreplica, hgrows, fun all hall => ?_⟩
      cases hall
    rintro page w₁ ⟨hreplica, hgrows, hpage⟩
    have hpage := hpage page rfl
    have hread₁ := hread.grow (v.positive w₁.server) hgrows.log (v.ascending w₁.server)
    have h₁ := (h.grow hgrows).page hpage hread₁
    have hheld₁ : held <+: v.log w₁.server := hheld.trans hgrows.log
    cases hnext : page.next since with
    | none =>
      refine ⟨hreplica, hgrows, fun all hall => ?_⟩
      obtain rfl := Except.ok.inj hall
      refine ⟨h₁, fun _ e he => ?_⟩
      have hmem := hheld₁.subset he
      have hlow := hread₁.below e hmem (hpage.le_of_next_none hnext hmem)
      rw [List.mem_append, mem_keptIds_append]
      exact (List.mem_append.mp hlow).imp_right Or.inl
    | some next =>
      obtain ⟨⟨last, hlast, rfl⟩, -⟩ := hpage.next_eq hnext
      have hseen : Seen Prod.fst (low ++ keptIds (fetched ++ page.events)) last.1 :=
        Or.inr ⟨last, List.mem_append_right _ (mem_keptIds_append.mpr (Or.inr hlast)), Nat.le_refl _⟩
      refine (@ih w₁ last.1 (fetched ++ page.events) h₁ hheld₁
        (h₁.begins.readTo (v.positive w₁.server) hseen)).imp ?_
      rintro r w₂ ⟨hreplica₂, hgrows₂, hall⟩
      refine ⟨hreplica₂.trans hreplica, hgrows.trans hgrows₂, fun all hr => ?_⟩
      obtain ⟨hfetched, hwhole⟩ := hall all hr
      exact ⟨hfetched, fun hfew => hwhole (hpage.fewer hheld₁ hnext hfew)⟩

/-! ## The repair -/

theorem wp_dropChangedFrom (start : ℕ) (kept : List (ℕ × String)) (r : Replica) :
    wp (dropChangedFrom start kept) (fun a r' => (∀ e, a = .error e → r' = r) ∧
      ∀ n, a = .ok n → r' = { r with
        events := r.events.filter fun row => row.seq < start || kept.contains (row.seq, row.eventId)
        cursor := some (start - 1) }) r := by
  unfold dropChangedFrom
  refine wp_ofExcept_bind (fun e => ⟨fun _ _ => rfl, fun n hn => ?_⟩) fun n hn => ?_
  · cases hn
  · unfold checkI64 at hn
    split_ifs at hn
    obtain rfl := Except.ok.inj hn
    refine ⟨fun e he => ?_, fun _ _ => rfl⟩
    cases he

/-- The rows that a re-tail leaves are those that stood below and those that came. -/
theorem mem_dropped {r : Replica} {start : ℕ} {kept : List (ℕ × String)} {e : ℕ × String} :
    e ∈ (r.events.filter fun row => row.seq < start || kept.contains (row.seq, row.eventId)).map
      Row.key ↔ e ∈ r.stored ∧ (e.1 < start ∨ e ∈ kept) := by
  unfold Replica.stored
  constructor
  · intro he
    obtain ⟨row, hrow, rfl⟩ := List.mem_map.mp he
    obtain ⟨hmem, hstays⟩ := List.mem_filter.mp hrow
    refine ⟨List.mem_map_of_mem hmem, ?_⟩
    rwa [Bool.or_eq_true, decide_eq_true_eq, List.contains_iff_mem] at hstays
  · rintro ⟨he, hstays⟩
    obtain ⟨row, hrow, rfl⟩ := List.mem_map.mp he
    refine List.mem_map_of_mem (List.mem_filter.mpr ⟨hrow, ?_⟩)
    rwa [Bool.or_eq_true, decide_eq_true_eq, List.contains_iff_mem]

/-- The rows are those below the number and what was fetched, and no pending event is lost. -/
structure Taken (start : ℕ) (fetched : List StoredEvent) (r r' : Replica) : Prop where
  stored : ∀ e, e ∈ r'.stored ↔ (e ∈ r.stored ∧ e.1 < start) ∨ e ∈ keptIds fetched
  cursor : (∃ c, r'.cursor = some c ∧ Seen Prod.fst r'.stored c) ∨
    r'.cursor = some (start - 1) ∧ ¬∃ e ∈ r'.stored, 0 < e.1
  epoch : r'.epoch = r.epoch
  salt : r'.idSalt = r.idSalt

def NoneLost (r r' : Replica) : Prop :=
  ∀ p ∈ r.pendingRows, p ∈ r'.pendingRows ∨ p.eventId ∈ r'.stored.map Prod.snd

theorem NoneLost.refl (r : Replica) : NoneLost r r := fun _ hp => Or.inl hp

theorem wp_takeFetched {start : ℕ} {fetched : List StoredEvent} {s : σ} {r : Replica}
    (hstorable : ∀ e ∈ fetched, ∃ row, rowOf e = .ok row)
    (hlow : ∀ e ∈ r.stored, e.1 < start → e ∈ v.log s) (hnew : ∀ e ∈ keptIds fetched, e ∈ v.log s)
    (now : ℕ) : wp (takeFetched start fetched now) (fun a r' => NoneLost r r' ∧
      ∀ n, a = .ok n → Taken start fetched r r') r := by
  unfold takeFetched
  refine wp_bind_of (wp_dropChangedFrom start (keptIds fetched) r) ?_ ?_
  · rintro e r₁ ⟨hsame, -⟩
    obtain rfl := hsame e rfl
    refine ⟨.refl _, fun n hn => ?_⟩
    cases hn
  rintro dropped r₁ ⟨-, hr₁⟩
  have hr₁ := hr₁ dropped rfl
  have hstored₁ : ∀ e, e ∈ r₁.stored ↔ e ∈ r.stored ∧ (e.1 < start ∨ e ∈ keptIds fetched) := by
    intro e
    rw [hr₁]
    exact mem_dropped
  have hrows : ∀ e ∈ r₁.stored, e ∈ v.log s := by
    intro e he
    obtain ⟨hmem, hbelow | hcame⟩ := (hstored₁ e).mp he
    · exact hlow e hmem hbelow
    · exact hnew e hcame
  have hkeep := wp_onReplica.mp (@wp_keep σ v ⟨r₁, s⟩ fetched hstorable hrows hnew now)
  refine wp_bind_of hkeep ?_ ?_
  · rintro e r₂ ⟨⟨n, hn⟩, -⟩
    cases hn
  rintro stored r₂ ⟨-, hkept⟩
  have hstored₂ : ∀ e, e ∈ r₂.stored ↔ (e ∈ r.stored ∧ e.1 < start) ∨ e ∈ keptIds fetched := by
    intro e
    rw [hkept.stored e, hstored₁]
    tauto
  have hpending : NoneLost r r₂ := by
    intro p hp
    refine hkept.pending p ?_
    rw [hr₁]
    exact hp
  refine wp_bind_of (wp_onReplica.mp (wp_refold ⟨r₂, s⟩)) ?_ ?_
  · rintro e r₃ ⟨hrefolded, -⟩
    refine ⟨?_, fun n hn => ?_⟩
    · intro p hp
      rw [hrefolded.pending, hrefolded.stored]
      exact hpending p hp
    · cases hn
  rintro graph r₃ ⟨hrefolded, hmoved⟩
  refine ⟨?_, fun n _ => ⟨?_, ?_, ?_, ?_⟩⟩
  · intro p hp
    rw [hrefolded.pending, hrefolded.stored]
    exact hpending p hp
  · rw [hrefolded.stored]
    exact hstored₂
  · rw [hrefolded.stored]
    by_cases hrow : ∃ e ∈ r₂.stored, 0 < e.1
    · exact Or.inl (hmoved graph rfl hrow)
    · refine hrefolded.cursor.symm.imp_right fun hstays => ⟨?_, hrow⟩
      rw [hstays, hkept.cursor, hr₁]
  · rw [hrefolded.epoch, hkept.epoch, hr₁]
  · rw [hrefolded.salt, hkept.salt, hr₁]

/-- The replica and the log agree below the number, and the log still reaches it. -/
structure AgreeBelow (v : Service σ) (start : ℕ) (w : World σ) : Prop where
  same : ∀ e, e.1 < start → (e ∈ w.replica.stored ↔ e ∈ v.log w.server)
  reached : start = 1 ∨ ∃ e ∈ v.log w.server, start ≤ e.1 + 1

section Repair

variable {start : ℕ}

theorem AgreeBelow.grow (h : AgreeBelow v start w) {server : σ} (hgrows : v.Grows w.server server) :
    AgreeBelow v start { w with server } := by
  have hlog : ∀ e, e.1 < start → e ∈ v.log server → e ∈ v.log w.server := by
    intro e hlt he
    obtain ⟨more, hmore⟩ := hgrows.log
    have hasc := v.ascending server
    have hpos := v.positive server e he
    rw [← hmore] at he hasc
    rcases List.mem_append.mp he with hold | hnew
    · exact hold
    · rcases h.reached with rfl | ⟨b, hb, hreach⟩
      · omega
      · have hafter := (List.pairwise_append.mp hasc).2.2 b hb e hnew
        omega
  refine ⟨fun e hlt => ⟨fun he => ?_, fun he => ?_⟩, ?_⟩
  · exact hgrows.log.subset ((h.same e hlt).mp he)
  · exact (h.same e hlt).mpr (hlog e hlt he)
  · refine h.reached.imp_right ?_
    rintro ⟨e, he, hle⟩
    exact ⟨e, hgrows.log.subset he, hle⟩

/-- The rows below the number. -/
def lowRows (start : ℕ) (r : Replica) : List (ℕ × String) := r.stored.filter fun e => e.1 < start

theorem mem_lowRows {r : Replica} {e : ℕ × String} :
    e ∈ lowRows start r ↔ e ∈ r.stored ∧ e.1 < start := by
  rw [lowRows, List.mem_filter, decide_eq_true_eq]

theorem AgreeBelow.fetched (h : AgreeBelow v start w) :
    Fetched v (lowRows start w.replica) w.server [] := by
  refine ⟨⟨fun e he => ?_, fun a ha b hb hle => ?_⟩, fun e he => absurd he List.not_mem_nil⟩
  · obtain ⟨hmem, hlt⟩ := mem_lowRows.mp ((List.append_nil _) ▸ he)
    exact (h.same e hlt).mp hmem
  · obtain ⟨-, hlt⟩ := mem_lowRows.mp ((List.append_nil _) ▸ hb)
    have hbelow : a.1 < start := Nat.lt_of_le_of_lt hle hlt
    exact List.mem_append_left _ (mem_lowRows.mpr ⟨(h.same a hbelow).mpr ha, hbelow⟩)

theorem AgreeBelow.readTo (h : AgreeBelow v start w) (hpos : 1 ≤ start) :
    ReadTo Prod.fst (v.log w.server) (lowRows start w.replica ++ keptIds []) (start - 1) := by
  refine ⟨fun a ha hle => ?_, ?_⟩
  · have hlt : a.1 < start := by omega
    exact List.mem_append_left _ (mem_lowRows.mpr ⟨(h.same a hlt).mpr ha, hlt⟩)
  · rcases h.reached with rfl | ⟨e, he, hle⟩
    · exact Or.inl rfl
    · exact Or.inr ⟨e, he, by omega⟩

theorem one_le_reconcileFrom (r : Replica) (now : ℕ) (headSeq : Option ℕ) :
    1 ≤ r.reconcileFrom now headSeq := Nat.le_max_right _ 1

section Taken

variable {fetched : List StoredEvent} {r r' : Replica}

theorem Taken.mem (h : Taken start fetched r r') {e : ℕ × String} :
    e ∈ r'.stored ↔ e ∈ lowRows start r ++ keptIds fetched := by
  rw [h.stored, List.mem_append, mem_lowRows]

/-- The rows below the number are those that were there. -/
theorem Taken.below {s : σ} (h : Taken start fetched r r')
    (hbegins : Beginning Prod.fst (v.log s) r'.stored) (hagree : AgreeBelow v start ⟨r, s⟩)
    {e : ℕ × String} (hlt : e.1 < start) : e ∈ r'.stored ↔ e ∈ r.stored := by
  refine ⟨fun he => (hagree.same e hlt).mpr (hbegins.sound e he), fun he => ?_⟩
  exact (h.stored e).mpr (Or.inl ⟨he, hlt⟩)

/-- With the whole of an earlier log in the rows, replica and server are in step. -/
theorem Taken.synced {s : σ} {held : List (ℕ × String)} {epoch : Option ℕ}
    (h : Taken start fetched r r') (hsalt : r.idSalt = some pk)
    (hepoch : ∀ e ∈ epoch.or r.epoch, v.epoch = some e) (hpending : NoneLost r r')
    (hbegins : Beginning Prod.fst (v.log s) r'.stored) (hall : ∀ e ∈ held, e ∈ r'.stored)
    (hreached : start = 1 ∨ ∃ e ∈ held, start ≤ e.1 + 1) :
    Synced v pk (r.pendingRows.map PendingEvent.eventId)
      ⟨{ r' with epoch := epoch.or r'.epoch }, s⟩ := by
  refine ⟨hbegins, fun c hc => ?_, ?_, h.salt.trans hsalt, fun id hid => ?_⟩
  · rcases h.cursor with ⟨c', hmoved, hseen⟩ | ⟨hstays, hnone⟩
    · obtain rfl := Option.some.inj (hmoved.symm.trans hc)
      exact hseen
    · obtain rfl := Option.some.inj (hstays.symm.trans hc)
      rcases hreached with rfl | ⟨e, he, -⟩
      · exact Or.inl rfl
      · exact absurd ⟨e, hall e he, v.positive s e (hbegins.sound e (hall e he))⟩ hnone
  · rw [h.epoch]
    exact hepoch
  · obtain ⟨p, hp, rfl⟩ := List.mem_map.mp hid
    exact (hpending p hp).imp List.mem_map_of_mem Or.inl

end Taken

end Repair

/-- The replica has an event that the server lost, and another came in its place. -/
def sampleDiverged : World Bool where
  replica := {
    events := [⟨1, "E0", "note", "", 7, 0, none, none, none, none, false, false, false, false, none,
      none, .object []⟩]
    received := [(1, 5)]
    idSalt := some []
    cursor := some 1 }
  server := true

theorem sampleDiverged_agrees : AgreeBelow sampleService 1 sampleDiverged := by
  refine ⟨fun e hlt => ⟨fun he => ?_, fun he => ?_⟩, Or.inl rfl⟩
  · rw [List.mem_singleton.mp he] at hlt
    exact absurd hlt (by decide)
  · rw [List.mem_singleton.mp he] at hlt
    exact absurd hlt (by decide)

end LeanCtx.Hive
