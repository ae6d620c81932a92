import LeanCtx.ContextBus

/-!
# Numbering of the events of a bus

An event gets a version above all stored ones of its stream as long as the
counter it comes from is not behind the table and no other process writes the
stream between the reading of the version and the write. A delivery id that is
used on one stream only is stored once, and one of its callers is told so.
-/

namespace LeanCtx.Bus

/-! ## Conditions on the interleaving -/

/-- The cached counter is not behind the table; without one the table can be read. -/
def Current (events : List Event) (readFails : Bool) (cache : OrdMap String ℤ) (d : Draft) :
    Prop :=
  match cache[streamKey d]? with
  | some v => maxVersion events d ≤ v
  | none => readFails = false

instance (events : List Event) (readFails : Bool) (cache : OrdMap String ℤ) (d : Draft) :
    Decidable (Current events readFails cache d) :=
  match h : cache[streamKey d]? with
  | some v => decidable_of_iff (maxVersion events d ≤ v) (by rw [Current, h])
  | none => decidable_of_iff (readFails = false) (by rw [Current, h])

/-- No other process is between reading a version of the stream and writing it. -/
def Alone (s : System) (i : ℕ) (d : Draft) : Prop :=
  ∀ j < s.instances.length, j ≠ i →
    ∀ inst ∈ s.instances[j]?, ∀ p ∈ inst.pending, p.draft.stream ≠ d.stream

instance (s : System) (i : ℕ) (d : Draft) : Decidable (Alone s i d) :=
  inferInstanceAs (Decidable (∀ j < s.instances.length, j ≠ i →
    ∀ inst ∈ s.instances[j]?, ∀ p ∈ inst.pending, p.draft.stream ≠ d.stream))

/-- What a call needs for its event to be numbered and its delivery told. A write that fails or
finds its delivery stored needs nothing. -/
def Meets (s : System) : Call → Prop
  | .openAt => True
  | .appendRead i d readFails => ∀ inst ∈ s.instances[i]?, inst.pending = none →
      Current s.events readFails inst.versionCache d
  | .appendWrite i fails => fails = false →
      ∀ inst ∈ s.instances[i]?, ∀ p ∈ inst.pending, Alone s i p.draft
  | .deliver i d deliveryId beginFails readFails fails =>
      beginFails = false → fails = false → s.hasDelivery d deliveryId = false →
        ∀ inst ∈ s.instances[i]?, inst.pending = none →
          Current s.events readFails inst.versionCache d ∧ Alone s i d ∧
            ∀ e ∈ s.events, e.deliveryId = some deliveryId → e.draft.stream = d.stream

instance : (s : System) → (call : Call) → Decidable (Meets s call)
  | _, .openAt => isTrue trivial
  | s, .appendRead i d readFails => inferInstanceAs (Decidable (∀ inst ∈ s.instances[i]?,
      inst.pending = none → Current s.events readFails inst.versionCache d))
  | s, .appendWrite i fails => inferInstanceAs (Decidable (fails = false →
      ∀ inst ∈ s.instances[i]?, ∀ p ∈ inst.pending, Alone s i p.draft))
  | s, .deliver i d deliveryId beginFails readFails fails => inferInstanceAs (Decidable (
      beginFails = false → fails = false → s.hasDelivery d deliveryId = false →
        ∀ inst ∈ s.instances[i]?, inst.pending = none →
          Current s.events readFails inst.versionCache d ∧ Alone s i d ∧
            ∀ e ∈ s.events, e.deliveryId = some deliveryId → e.draft.stream = d.stream))

/-! ## One process -/

theorem version_le_maxVersion {events : List Event} {d : Draft} {e : Event} (he : e ∈ events)
    (hstream : e.draft.stream = d.stream) : e.version ≤ maxVersion events d := by
  have hmem : e.version ∈ (events.filter fun e => e.draft.stream = d.stream).map Event.version :=
    List.mem_map_of_mem (List.mem_filter.mpr ⟨he, decide_eq_true hstream⟩)
  unfold maxVersion
  cases hmax : ((events.filter fun e => e.draft.stream = d.stream).map Event.version).max? with
  | none =>
    rw [List.max?_eq_none_iff] at hmax
    rw [hmax] at hmem
    cases hmem
  | some m => exact (List.max?_eq_some_iff.mp hmax).2 _ hmem

theorem maxVersion_append {events : List Event} {d : Draft} {e : Event}
    (hstream : e.draft.stream ≠ d.stream) :
    maxVersion (events ++ [e]) d = maxVersion events d := by
  rw [maxVersion, List.filter_append, List.filter_cons_of_neg (by simpa using hstream),
    List.filter_nil, List.append_nil]
  rfl

theorem maxVersion_lt_nextVersion {events : List Event} {readFails : Bool}
    {cache : OrdMap String ℤ} {d : Draft} (h : Current events readFails cache d) :
    maxVersion events d < (nextVersion events readFails cache d).1 := by
  unfold Current at h
  unfold nextVersion
  cases hcache : cache[streamKey d]? with
  | some v =>
    rw [hcache] at h
    dsimp only at h ⊢
    omega
  | none =>
    rw [hcache] at h
    dsimp only at h ⊢
    rw [h, if_neg Bool.false_ne_true]
    omega

/-! ## The invariant -/

/-- An earlier event `a` and a later event `b` of the table. -/
def Follows (a b : Event) : Prop :=
  a.id < b.id ∧ (a.draft.stream = b.draft.stream → a.version < b.version) ∧
    ∀ d, a.deliveryId = some d → b.deliveryId ≠ some d

structure Numbered (s : System) : Prop where
  order : s.events.Pairwise Follows
  ids : ∀ e ∈ s.events, e.id ≤ s.lastId
  pending : ∀ (i : ℕ) (inst : Instance) (p : Pending), s.instances[i]? = some inst →
    inst.pending = some p → maxVersion s.events p.draft < p.version

/-- A process changed what it keeps. -/
theorem Numbered.setInstance {s : System} {i : ℕ} {inst : Instance} (h : Numbered s)
    (hinst : ∀ p, inst.pending = some p → maxVersion s.events p.draft < p.version) :
    Numbered (s.setInstance i inst) where
  order := h.order
  ids := h.ids
  pending j inst' p hj hp := by
    rw [System.setInstance, List.getElem?_set] at hj
    split_ifs at hj with hij hlt
    · obtain rfl := Option.some.inj hj
      exact hinst p hp
    · exact h.pending j inst' p hj hp

/-- Storing an event above all stored versions of its stream, with a new delivery id. -/
theorem Numbered.store {s : System} {d : Draft} {version : ℤ} {deliveryId : Option String}
    (h : Numbered s) (hversion : maxVersion s.events d < version)
    (hdelivery : ∀ e ∈ s.events, ∀ id, e.deliveryId = some id → deliveryId ≠ some id)
    (halone : ∀ (j : ℕ) (inst : Instance) (p : Pending), s.instances[j]? = some inst →
      inst.pending = some p → p.draft.stream ≠ d.stream) :
    Numbered (s.store d version deliveryId) where
  order := by
    refine List.pairwise_append.mpr ⟨h.order, List.pairwise_singleton _ _, ?_⟩
    intro a ha b hb
    obtain rfl := List.mem_singleton.mp hb
    refine ⟨?_, ?_, hdelivery a ha⟩
    · have := h.ids a ha
      change a.id < s.lastId + 1
      omega
    · intro hstream
      exact (version_le_maxVersion ha hstream).trans_lt hversion
  ids e he := by
    rcases List.mem_append.mp he with he | he
    · exact (h.ids e he).trans (Nat.le_succ _)
    · rw [List.mem_singleton.mp he]
      exact le_refl _
  pending j inst p hj hp := by
    have hne := halone j inst p hj hp
    rw [System.store, maxVersion_append (Ne.symm hne)]
    exact h.pending j inst p hj hp

theorem nextVersion_pending {s : System} {i : ℕ} {d : Draft} {readFails : Bool}
    {cache : OrdMap String ℤ} (h : Numbered s) (hcurrent : Current s.events readFails cache d) :
    Numbered (s.setInstance i
      ⟨(nextVersion s.events readFails cache d).2,
        some ⟨d, (nextVersion s.events readFails cache d).1⟩⟩) := by
  apply h.setInstance
  intro p hp
  obtain rfl := Option.some.inj hp
  exact maxVersion_lt_nextVersion hcurrent

/-- After a process is done with its append, only other processes have one pending. -/
theorem alone_setInstance {s : System} {i : ℕ} {d : Draft} {cache : OrdMap String ℤ}
    (h : Alone s i d) (j : ℕ) (inst : Instance) (p : Pending)
    (hj : (s.setInstance i ⟨cache, none⟩).instances[j]? = some inst)
    (hp : inst.pending = some p) : p.draft.stream ≠ d.stream := by
  rw [System.setInstance, List.getElem?_set] at hj
  split_ifs at hj with hij hlt
  · obtain rfl := Option.some.inj hj
    cases hp
  · exact h j (List.getElem?_eq_some_iff.mp hj).1 (Ne.symm hij) inst hj p hp

theorem hasDelivery_iff {s : System} {d : Draft} {deliveryId : String} :
    s.hasDelivery d deliveryId = true ↔
      ∃ e ∈ s.events, e.draft.stream = d.stream ∧ e.deliveryId = some deliveryId := by
  simp [System.hasDelivery]

theorem numbered_deliverOnce {s : System} {i : ℕ} {cache : OrdMap String ℤ} {d : Draft}
    {deliveryId : String} {beginFails readFails fails : Bool} (h : Numbered s)
    (hmeets : beginFails = false → fails = false → s.hasDelivery d deliveryId = false →
      Current s.events readFails cache d ∧ Alone s i d ∧
        ∀ e ∈ s.events, e.deliveryId = some deliveryId → e.draft.stream = d.stream) :
    Numbered (s.deliverOnce i ⟨cache, none⟩ d deliveryId beginFails readFails fails).2 := by
  have hset : Numbered (s.setInstance i
      ⟨(nextVersion s.events readFails cache d).2, none⟩) := h.setInstance nofun
  unfold System.deliverOnce
  dsimp only
  split_ifs with hbegin hfails hhas
  · exact h
  · exact hset
  · exact hset
  · rw [Bool.not_eq_true] at hbegin hfails
    obtain ⟨hcurrent, halone, hstream⟩ := hmeets hbegin hfails (Bool.not_eq_true _ ▸ hhas)
    apply hset.store (maxVersion_lt_nextVersion hcurrent) _ (alone_setInstance halone)
    intro e he id hid hsame
    obtain rfl := Option.some.inj hsame
    exact hhas (hasDelivery_iff.mpr ⟨e, he, hstream e he hid, hid⟩)

theorem numbered_step {s : System} {call : Call} (hmeets : Meets s call) (h : Numbered s) :
    Numbered (step s call).2 := by
  cases call with
  | openAt =>
    refine ⟨h.order, h.ids, ?_⟩
    intro i inst p hi hp
    change (s.instances ++ [⟨∅, none⟩])[i]? = some inst at hi
    rw [List.getElem?_append] at hi
    split_ifs at hi
    · exact h.pending i inst p hi hp
    · have hmem := List.mem_of_getElem? hi
      rw [List.mem_singleton.mp hmem] at hp
      cases hp
  | appendRead i d readFails =>
    unfold step
    dsimp only
    split
    · next cache hinst => exact nextVersion_pending h (hmeets _ hinst rfl)
    · exact h
  | appendWrite i fails =>
    unfold step
    dsimp only
    split
    · next cache d version hinst =>
      have hset : Numbered (s.setInstance i ⟨cache, none⟩) := h.setInstance nofun
      split_ifs with hfails
      · exact hset
      · rw [Bool.not_eq_true] at hfails
        apply hset.store (h.pending i _ ⟨d, version⟩ hinst rfl) (by nofun)
        exact alone_setInstance (hmeets hfails _ hinst ⟨d, version⟩ rfl)
    · exact h
  | deliver i d deliveryId beginFails readFails fails =>
    unfold step
    dsimp only
    split
    · next cache hinst =>
      exact numbered_deliverOnce h fun hbegin hfails hhas => hmeets hbegin hfails hhas _ hinst rfl
    · exact h

/-! ## Deliveries -/

/-- The caller was told that the event of this delivery was stored by its call. -/
def toldTrue (deliveryId : String) : Call × Answer → Bool
  | (.deliver _ _ id _ _ _, .delivered (.ok true)) => id = deliveryId
  | _ => false

/-- The call for this delivery returned without an error. -/
def toldOk (deliveryId : String) : Call × Answer → Bool
  | (.deliver _ _ id _ _ _, .delivered (.ok _)) => id = deliveryId
  | _ => false

/-- What a call does to the table and what it says about deliveries. -/
theorem step_deliveries (s : System) (call : Call) :
    ((step s call).2.events = s.events ∧ ∀ id, toldTrue id (call, (step s call).1) = false ∧
      (toldOk id (call, (step s call).1) = true → ∃ e ∈ s.events, e.deliveryId = some id)) ∨
    ∃ e, (step s call).2.events = s.events ++ [e] ∧ ∀ id,
      toldTrue id (call, (step s call).1) = decide (e.deliveryId = some id) ∧
      (toldOk id (call, (step s call).1) = true → e.deliveryId = some id) := by
  cases call with
  | openAt => exact .inl ⟨rfl, fun id => ⟨rfl, nofun⟩⟩
  | appendRead i d readFails =>
    unfold step
    dsimp only
    split
    · exact .inl ⟨rfl, fun id => ⟨rfl, nofun⟩⟩
    · exact .inl ⟨rfl, fun id => ⟨rfl, nofun⟩⟩
  | appendWrite i fails =>
    unfold step
    dsimp only
    split
    · split_ifs
      · exact .inl ⟨rfl, fun id => ⟨rfl, nofun⟩⟩
      · exact .inr ⟨_, rfl, fun id => ⟨rfl, nofun⟩⟩
    · exact .inl ⟨rfl, fun id => ⟨rfl, nofun⟩⟩
  | deliver i d deliveryId beginFails readFails fails =>
    unfold step
    dsimp only
    split
    · unfold System.deliverOnce
      dsimp only
      split_ifs with hbegin hfails hhas
      · exact .inl ⟨rfl, fun id => ⟨rfl, nofun⟩⟩
      · exact .inl ⟨rfl, fun id => ⟨rfl, nofun⟩⟩
      · refine .inl ⟨rfl, fun id => ⟨rfl, fun hok => ?_⟩⟩
        obtain ⟨e, he, -, hid⟩ := hasDelivery_iff.mp hhas
        rw [toldOk, decide_eq_true_eq] at hok
        exact ⟨e, he, hok ▸ hid⟩
      · refine .inr ⟨_, rfl, fun id => ⟨?_, fun hok => ?_⟩⟩
        · simp [toldTrue]
        · rw [toldOk, decide_eq_true_eq] at hok
          rw [hok]
    · exact .inl ⟨rfl, fun id => ⟨rfl, nofun⟩⟩

/-- What the callers were told is what the table holds. -/
def Reported (l : List (Call × Answer)) (s : System) : Prop :=
  ∀ id, (l.filter (toldTrue id)).length =
      (s.events.filter fun e => e.deliveryId = some id).length ∧
    ((∃ e ∈ l, toldOk id e = true) → ∃ e ∈ s.events, e.deliveryId = some id)

theorem reported_step {l : List (Call × Answer)} {s : System} {call : Call} (h : Reported l s) :
    Reported (l ++ [(call, (step s call).1)]) (step s call).2 := by
  intro id
  obtain ⟨hcount, hok⟩ := h id
  rw [List.filter_append, List.length_append, hcount]
  rcases step_deliveries s call with ⟨hevents, htold⟩ | ⟨e, hevents, htold⟩
  · obtain ⟨hfalse, hthere⟩ := htold id
    rw [hevents, List.filter_cons_of_neg (by simp [hfalse])]
    refine ⟨rfl, ?_⟩
    rintro ⟨entry, hentry, htoldOk⟩
    rcases List.mem_append.mp hentry with hold | hnew
    · exact hok ⟨entry, hold, htoldOk⟩
    · rw [List.mem_singleton.mp hnew] at htoldOk
      exact hthere htoldOk
  · obtain ⟨htrue, hthere⟩ := htold id
    rw [hevents, List.filter_append, List.length_append]
    constructor
    · congr 1
      by_cases hid : e.deliveryId = some id
      · rw [List.filter_cons_of_pos (by rw [htrue]; simpa using hid),
          List.filter_cons_of_pos (by simpa using hid)]
        rfl
      · rw [List.filter_cons_of_neg (by rw [htrue]; simpa using hid),
          List.filter_cons_of_neg (by simpa using hid)]
        rfl
    · rintro ⟨entry, hentry, htoldOk⟩
      rcases List.mem_append.mp hentry with hold | hnew
      · obtain ⟨ev, hev, hdelivery⟩ := hok ⟨entry, hold, htoldOk⟩
        exact ⟨ev, List.mem_append_left _ hev, hdelivery⟩
      · rw [List.mem_singleton.mp hnew] at htoldOk
        exact ⟨e, List.mem_append_right _ (List.mem_singleton_self e), hthere htoldOk⟩

/-! ## Whole runs -/

/-- Events of a stream have different versions in the order of their ids; a delivery id has one
event at most, and when a call for it succeeded, one caller was told that it stored it. -/
structure Ordered (l : List (Call × Answer)) (events : List Event) : Prop where
  versions : events.Pairwise fun a b => a.draft.stream = b.draft.stream →
    a.version ≠ b.version ∧ (a.id < b.id ↔ a.version < b.version)
  deliveries : events.Pairwise fun a b => ∀ id, a.deliveryId = some id → b.deliveryId ≠ some id
  told : ∀ id, (∃ e ∈ l, toldOk id e = true) → (l.filter (toldTrue id)).length = 1

theorem length_le_one {l : List Event} {r : Event → Event → Prop} (h : l.Pairwise r)
    (hno : ∀ a ∈ l, ∀ b ∈ l, ¬ r a b) : l.length ≤ 1 := by
  match l with
  | [] => exact Nat.zero_le 1
  | [_] => exact le_refl 1
  | a :: b :: rest =>
    exact absurd ((List.pairwise_cons.mp h).1 b List.mem_cons_self)
      (hno a List.mem_cons_self b (List.mem_cons_of_mem _ List.mem_cons_self))

theorem ordered_of_numbered {l : List (Call × Answer)} {s : System} (hnumbered : Numbered s)
    (hreported : Reported l s) : Ordered l s.events where
  versions := by
    refine hnumbered.order.imp ?_
    rintro a b ⟨hid, hversion, -⟩ hstream
    have hlt := hversion hstream
    exact ⟨hlt.ne, iff_of_true hid hlt⟩
  deliveries := hnumbered.order.imp fun h => h.2.2
  told id hok := by
    obtain ⟨hcount, hthere⟩ := hreported id
    obtain ⟨e, he, hid⟩ := hthere hok
    rw [hcount]
    apply Nat.le_antisymm
    · -- two events of one delivery would follow one another
      apply length_le_one (hnumbered.order.filter fun e => decide (e.deliveryId = some id))
      intro a ha b hb hfollows
      have hida := (List.mem_filter.mp ha).2
      have hidb := (List.mem_filter.mp hb).2
      rw [decide_eq_true_eq] at hida hidb
      exact hfollows.2.2 id hida hidb
    · exact List.length_pos_of_mem (List.mem_filter.mpr ⟨he, decide_eq_true hid⟩)

/-- In a run of any processes whose calls all meet the condition, events are numbered without reuse
and each delivery is stored once. -/
theorem numbered_without_reuse (calls : List Call)
    (h : Trace.Along step Meets .empty calls) :
    Ordered (Trace.log step .empty calls) (Trace.final step .empty calls).events := by
  have hempty : Numbered .empty :=
    ⟨List.Pairwise.nil, nofun, fun i inst p hi => by simp [System.empty] at hi⟩
  have hstep : ∀ l s call, Meets s call → Numbered s ∧ Reported l s →
      Numbered (step s call).2 ∧ Reported (l ++ [(call, (step s call).1)]) (step s call).2 :=
    fun l s call hmeets hinv => ⟨numbered_step hmeets hinv.1, reported_step hinv.2⟩
  have hnone : Reported [] .empty := fun id => ⟨rfl, fun ⟨_, he, _⟩ => absurd he List.not_mem_nil⟩
  obtain ⟨hnumbered, hreported⟩ := @Trace.log_invariant _ _ _ step Meets
    (fun l s => Numbered s ∧ Reported l s) hstep .empty calls [] h ⟨hempty, hnone⟩
  exact ordered_of_numbered hnumbered hreported

/-! ## Two processes over one table -/

def sampleDraft (payloadJson : String) : Draft where
  workspaceId := "ws"
  channelId := "a2a"
  kind := "session_mutated"
  actor := some "agent"
  timestamp := "2026-01-01T00:00:00+00:00"
  payloadJson := payloadJson
  parentId := none
  targetAgentsJson := none

/-- The second process opens the bus after the appends of the first and is alone from then on. -/
def handover : List Call :=
  [.openAt, .appendRead 0 (sampleDraft "1") false, .appendWrite 0 false,
    .deliver 0 (sampleDraft "2") "delivery-1" false false false, .openAt,
    .deliver 1 (sampleDraft "2") "delivery-1" false false false,
    .appendRead 1 (sampleDraft "3") false, .appendWrite 1 false]

theorem handover_numbered : Trace.Along step Meets .empty handover ∧
    Ordered (Trace.log step .empty handover) (Trace.final step .empty handover).events := by
  have h : Trace.Along step Meets .empty handover := by decide +kernel
  exact ⟨h, numbered_without_reuse handover h⟩

/-- The first process appends again after the second one has. -/
def alternation : List Call :=
  [.openAt, .openAt, .appendRead 0 (sampleDraft "1") false, .appendWrite 0 false,
    .appendRead 1 (sampleDraft "2") false, .appendWrite 1 false,
    .appendRead 0 (sampleDraft "3") false, .appendWrite 0 false]

/-- The cached counter of the first process gives its second event the version of the other's. -/
theorem alternation_reuses_version : ¬ Ordered (Trace.log step .empty alternation)
    (Trace.final step .empty alternation).events := by
  intro h
  have hevents : (Trace.final step .empty alternation).events =
      [⟨1, sampleDraft "1", 1, none⟩, ⟨2, sampleDraft "2", 2, none⟩,
        ⟨3, sampleDraft "3", 2, none⟩] := by decide +kernel
  have hversions := h.versions
  rw [hevents] at hversions
  have hlast := (List.pairwise_cons.mp (List.pairwise_cons.mp hversions).2).1 _
    (List.mem_singleton_self _) rfl
  exact hlast.1 rfl

end LeanCtx.Bus
