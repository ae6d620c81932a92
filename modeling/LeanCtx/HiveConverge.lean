import LeanCtx.HiveFold

/-!
# Replicas converge

What a fold does depends on the set of events and on the cursor alone: neither
the order of arrival nor a cut of the log at a sequence number changes the
graph, and events that were folded before are skipped.
-/

namespace LeanCtx.Hive

variable {g g' : Graph} {events : List FoldEvent}

/-- The events of a log that a graph has not folded yet. -/
def unseen (g : Graph) (events : List FoldEvent) : List FoldEvent :=
  events.filter fun e => e.seq > g.cursor

abbrev Coherent (events : List FoldEvent) : Prop := SeqLog.Coherent FoldEvent.seq events

theorem mem_unseen {e : FoldEvent} : e ∈ unseen g events ↔ e ∈ events ∧ g.cursor < e.seq := by
  simp [unseen]

theorem fold_eq (events : List FoldEvent) (g : Graph) : fold events g =
    (match SeqLog.firstClash FoldEvent.seq (SeqLog.sorted FoldEvent.seq (unseen g events)) with
    | some seq => throw (.seqConflict seq)
    | none => foldOrdered (SeqLog.onePerSeq FoldEvent.seq
        (SeqLog.sorted FoldEvent.seq (unseen g events))) : FoldM Unit) g :=
  rfl

theorem fold_of_coherent (h : Coherent (unseen g events)) : fold events g =
    foldOrdered (SeqLog.onePerSeq FoldEvent.seq (SeqLog.sorted FoldEvent.seq (unseen g events))) g := by
  have hnone : SeqLog.firstClash FoldEvent.seq
      (SeqLog.sorted FoldEvent.seq (unseen g events)) = none :=
    (SeqLog.firstClash_eq_none (SeqLog.sorted_ascending _)).mpr
      (h.mono fun _ ha => SeqLog.mem_sorted.mp ha)
  rw [fold_eq, hnone]

theorem fold_of_clash {s : ℕ} (h : SeqLog.firstClash FoldEvent.seq
    (SeqLog.sorted FoldEvent.seq (unseen g events)) = some s) :
    fold events g = .error (.seqConflict s) g := by
  rw [fold_eq, h]
  rfl

/-- A fold that succeeds met no two different events with one sequence number. -/
theorem coherent_of_fold {a : Unit} (h : fold events g = .ok a g') : Coherent (unseen g events) := by
  cases hclash : SeqLog.firstClash FoldEvent.seq
      (SeqLog.sorted FoldEvent.seq (unseen g events)) with
  | none =>
    have hcoherent := (SeqLog.firstClash_eq_none (SeqLog.sorted_ascending _)).mp hclash
    exact hcoherent.mono fun _ ha => SeqLog.mem_sorted.mpr ha
  | some s =>
    rw [fold_of_clash hclash] at h
    cases h

/-! ## Order of arrival -/

theorem fold_perm {events' : List FoldEvent} (h : events.Perm events') (g : Graph) :
    fold events' g = fold events g := by
  have hunseen : (unseen g events).Perm (unseen g events') := h.filter _
  have hsorted : (SeqLog.sorted FoldEvent.seq (unseen g events)).Perm
      (SeqLog.sorted FoldEvent.seq (unseen g events')) :=
    (SeqLog.sorted_perm _).trans (hunseen.trans (SeqLog.sorted_perm _).symm)
  have hclash := SeqLog.firstClash_perm (SeqLog.sorted_ascending _) (SeqLog.sorted_ascending _)
    hsorted
  cases hc : SeqLog.firstClash FoldEvent.seq (SeqLog.sorted FoldEvent.seq (unseen g events)) with
  | some s => rw [fold_of_clash hc, fold_of_clash (hclash ▸ hc)]
  | none =>
    have hcoherent : Coherent (unseen g events) :=
      ((SeqLog.firstClash_eq_none (SeqLog.sorted_ascending _)).mp hc).mono
        fun _ ha => SeqLog.mem_sorted.mpr ha
    have hcoherent' : Coherent (unseen g events') :=
      hcoherent.mono fun _ ha => hunseen.mem_iff.mpr ha
    rw [fold_of_coherent hcoherent, fold_of_coherent hcoherent',
      hcoherent.sorted_eq (SeqLog.sorted_ascending _) (hunseen.trans (SeqLog.sorted_perm _).symm)]

/-! ## The cursor -/

theorem purgeEvent_cursor (purge : Purge) (g : Graph) (id : String) :
    (Graph.purgeEvent purge g id).cursor = g.cursor := by
  unfold Graph.purgeEvent
  dsimp only
  split
  · rfl
  · split <;> rfl

theorem purgeEvents_cursor (purge : Purge) (seq : ℕ) (ids : List String) (g : Graph) :
    (g.purgeEvents purge seq ids).cursor = g.cursor := by
  unfold Graph.purgeEvents
  generalize hg₀ : ({ g with tombstones := insert (purge.purgeId, seq) g.tombstones } : Graph) = g₀
  have hcursor : g₀.cursor = g.cursor := by rw [← hg₀]
  clear hg₀
  induction ids generalizing g₀ with
  | nil => exact hcursor
  | cons id ids ih => exact ih _ ((purgeEvent_cursor purge g₀ id).trans hcursor)

theorem setField_cursor (g : Graph) (e : FoldEvent) (target : String) :
    (g.setField e target).cursor = g.cursor := by
  unfold Graph.setField
  split
  · split_ifs
    · rfl
    · split <;> rfl
  · rfl

theorem addEdge_cursor (g : Graph) (e : FoldEvent) (target : String) :
    (g.addEdge e target).cursor = g.cursor := by
  unfold Graph.addEdge
  split <;> rfl

theorem setRetracted_cursor (g : Graph) (e : FoldEvent) (target : String) (retracted : Bool) :
    (g.setRetracted e target retracted).cursor = g.cursor := by
  unfold Graph.setRetracted
  split
  · rfl
  · split <;> rfl

theorem apply_cursor {e : FoldEvent} (h : apply g e = .ok g') : g'.cursor = g.cursor := by
  unfold apply at h
  split at h
  · obtain rfl := Except.ok.inj h
    rfl
  · obtain rfl := Except.ok.inj h
    exact setField_cursor _ _ _
  · obtain rfl := Except.ok.inj h
    exact addEdge_cursor _ _ _
  · obtain rfl := Except.ok.inj h
    exact setRetracted_cursor _ _ _ _
  · obtain rfl := Except.ok.inj h
    exact setRetracted_cursor _ _ _ _
  · unfold applyPurge at h
    split at h
    · obtain rfl := Except.ok.inj h
      rfl
    · dsimp only at h
      split_ifs at h
      obtain rfl := Except.ok.inj h
      exact purgeEvents_cursor _ _ _ _
  · obtain rfl := Except.ok.inj h
    rfl

/-- Folding one event, without the state a failure leaves. -/
def step (g : Graph) (e : FoldEvent) : Except FoldError Graph :=
  if e.sigInvalid then .ok { g with cursor := e.seq } else apply { g with cursor := e.seq } e

theorem foldEvent_eq (g : Graph) (e : FoldEvent) : foldEvent e g = match step g e with
    | .ok g' => .ok () g'
    | .error err => .error err { g with cursor := e.seq } := by
  unfold step
  cases hs : e.sigInvalid with
  | true =>
    simp only [foldEvent, hs]
    rfl
  | false =>
    simp only [foldEvent, hs, Bool.false_eq_true, if_false]
    change (ofExcept id (apply { g with cursor := e.seq } e) >>= fun g' => set g' : FoldM Unit)
      { g with cursor := e.seq } = _
    cases apply { g with cursor := e.seq } e <;> rfl

theorem foldOrdered_ok {l : List FoldEvent} {a : Unit} :
    foldOrdered l g = .ok a g' ↔ l.foldlM step g = .ok g' := by
  induction l generalizing g with
  | nil =>
    constructor
    · intro h
      cases h
      rfl
    · intro h
      obtain rfl := Except.ok.inj h
      rfl
  | cons e l ih =>
    rw [List.foldlM_cons]
    change (foldEvent e >>= fun _ => foldOrdered l : FoldM Unit) g = .ok a g' ↔ _
    simp only [bind, EStateM.bind, foldEvent_eq]
    cases step g e with
    | ok g₁ => exact ih
    | error err => simp [Except.bind]

theorem step_cursor {e : FoldEvent} (h : step g e = .ok g') : g'.cursor = e.seq := by
  unfold step at h
  split_ifs at h
  · obtain rfl := Except.ok.inj h
    rfl
  · exact apply_cursor h

theorem replay_cursor {l : List FoldEvent} (h : l.foldlM step g = .ok g')
    (hasc : SeqLog.Ascending FoldEvent.seq l) (hfrom : ∀ e ∈ l, g.cursor ≤ e.seq) :
    g.cursor ≤ g'.cursor ∧ ∀ e ∈ l, e.seq ≤ g'.cursor := by
  induction l generalizing g with
  | nil =>
    obtain rfl := Except.ok.inj h
    exact ⟨le_rfl, nofun⟩
  | cons e l ih =>
    rw [List.foldlM_cons, except_bind_eq_ok] at h
    obtain ⟨g₁, h₁, h⟩ := h
    obtain ⟨he, hrest⟩ := List.pairwise_cons.mp hasc
    have hcursor := step_cursor h₁
    obtain ⟨hle, hall⟩ := ih h hrest fun x hx => hcursor.trans_le (he x hx)
    have hge := hfrom e (by simp)
    refine ⟨by omega, fun x hx => ?_⟩
    rcases List.mem_cons.mp hx with rfl | hx
    · omega
    · exact hall x hx

theorem replay_cursor_eq {l : List FoldEvent} (h : l.foldlM step g = .ok g') :
    g'.cursor = g.cursor ∨ ∃ e ∈ l, g'.cursor = e.seq := by
  induction l generalizing g with
  | nil =>
    obtain rfl := Except.ok.inj h
    exact .inl rfl
  | cons e l ih =>
    rw [List.foldlM_cons, except_bind_eq_ok] at h
    obtain ⟨g₁, h₁, h⟩ := h
    rcases ih h with hcursor | ⟨x, hx, hcursor⟩
    · exact .inr ⟨e, by simp, hcursor.trans (step_cursor h₁)⟩
    · exact .inr ⟨x, List.mem_cons_of_mem _ hx, hcursor⟩

theorem onePerSeq_ascending (l : List FoldEvent) : SeqLog.Ascending FoldEvent.seq
    (SeqLog.onePerSeq FoldEvent.seq (SeqLog.sorted FoldEvent.seq l)) :=
  (SeqLog.sorted_ascending l).sublist (SeqLog.onePerSeq_sublist _)

/-- The events a fold replays, in order. -/
def replayed (g : Graph) (events : List FoldEvent) : List FoldEvent :=
  SeqLog.onePerSeq FoldEvent.seq (SeqLog.sorted FoldEvent.seq (unseen g events))

theorem fold_ok {a : Unit} : fold events g = .ok a g' ↔
    Coherent (unseen g events) ∧ (replayed g events).foldlM step g = .ok g' := by
  constructor
  · intro h
    have hcoherent := coherent_of_fold h
    rw [fold_of_coherent hcoherent] at h
    exact ⟨hcoherent, foldOrdered_ok.mp h⟩
  · rintro ⟨hcoherent, h⟩
    rw [fold_of_coherent hcoherent]
    exact foldOrdered_ok.mpr h

theorem mem_replayed {e : FoldEvent} (h : e ∈ replayed g events) : e ∈ unseen g events :=
  SeqLog.mem_sorted.mp ((SeqLog.onePerSeq_sublist _).subset h)

/-- A fold moves the cursor past everything it was given. -/
theorem fold_cursor {a : Unit} (h : fold events g = .ok a g') :
    g.cursor ≤ g'.cursor ∧ ∀ e ∈ events, e.seq ≤ g'.cursor := by
  obtain ⟨-, hreplay⟩ := fold_ok.mp h
  obtain ⟨hle, hall⟩ := replay_cursor hreplay (onePerSeq_ascending _) fun e he =>
    (mem_unseen.mp (mem_replayed he)).2.le
  refine ⟨hle, fun e he => ?_⟩
  by_cases hseen : g.cursor < e.seq
  · have hmem : e ∈ SeqLog.sorted FoldEvent.seq (unseen g events) :=
      SeqLog.mem_sorted.mpr (mem_unseen.mpr ⟨he, hseen⟩)
    obtain ⟨b, hb, hseq⟩ : ∃ b ∈ replayed g events, b.seq = e.seq :=
      SeqLog.exists_mem_onePerSeq hmem
    rw [← hseq]
    exact hall b hb
  · omega

/-! ## Cuts and repetitions -/

theorem fold_seen (h : ∀ e ∈ events, e.seq ≤ g.cursor) : fold events g = .ok () g := by
  have hunseen : unseen g events = [] := by
    rw [unseen, List.filter_eq_nil_iff]
    intro e he
    have := h e he
    simp only [gt_iff_lt, decide_eq_true_eq]
    omega
  refine fold_ok.mpr ⟨?_, ?_⟩
  · rw [hunseen]
    exact nofun
  · rw [replayed, hunseen]
    rfl

/-- A log cut at a sequence number folds part by part. -/
theorem fold_append {first second : List FoldEvent} {g₁ : Graph} {a b : Unit}
    (hlt : ∀ x ∈ first, ∀ y ∈ second, x.seq < y.seq) (hfirst : fold first g = .ok a g₁)
    (hsecond : fold second g₁ = .ok b g') : fold (first ++ second) g = .ok () g' := by
  obtain ⟨hcoh₁, hreplay₁⟩ := fold_ok.mp hfirst
  obtain ⟨hcoh₂, hreplay₂⟩ := fold_ok.mp hsecond
  obtain ⟨hle, -⟩ := fold_cursor hfirst
  have hsame : unseen g second = unseen g₁ second := by
    refine List.filter_congr fun y hy => ?_
    have hafter : g.cursor < y.seq → g₁.cursor < y.seq := by
      intro hy'
      rcases replay_cursor_eq hreplay₁ with heq | ⟨x, hx, heq⟩
      · rwa [heq]
      · rw [heq]
        exact hlt x (mem_unseen.mp (mem_replayed hx)).1 y hy
    simp only [gt_iff_lt, decide_eq_decide]
    exact ⟨hafter, fun h => by omega⟩
  have hunseen : unseen g (first ++ second) = unseen g first ++ unseen g₁ second := by
    rw [← hsame, unseen, List.filter_append]
    rfl
  have hparts : ∀ x ∈ unseen g first, ∀ y ∈ unseen g₁ second, x.seq < y.seq :=
    fun x hx y hy => hlt x (mem_unseen.mp hx).1 y (mem_unseen.mp hy).1
  have hcoherent : Coherent (unseen g first ++ unseen g₁ second) := by
    intro x hx y hy hxy
    rcases List.mem_append.mp hx with hx | hx
    · rcases List.mem_append.mp hy with hy | hy
      · exact hcoh₁ x hx y hy hxy
      · exact absurd hxy (hparts x hx y hy).ne
    · rcases List.mem_append.mp hy with hy | hy
      · exact absurd hxy.symm (hparts y hy x hx).ne
      · exact hcoh₂ x hx y hy hxy
  have hsorted : SeqLog.sorted FoldEvent.seq (unseen g first ++ unseen g₁ second) =
      SeqLog.sorted FoldEvent.seq (unseen g first) ++
        SeqLog.sorted FoldEvent.seq (unseen g₁ second) := by
    refine hcoherent.sorted_eq ?_ ((SeqLog.sorted_perm _).symm.append (SeqLog.sorted_perm _).symm)
    refine List.pairwise_append.mpr ⟨SeqLog.sorted_ascending _, SeqLog.sorted_ascending _, ?_⟩
    exact fun x hx y hy => (hparts x (SeqLog.mem_sorted.mp hx) y (SeqLog.mem_sorted.mp hy)).le
  refine fold_ok.mpr ⟨hunseen ▸ hcoherent, ?_⟩
  rw [replayed, hunseen, hsorted, SeqLog.onePerSeq_append fun x hx y hy =>
    hparts x (SeqLog.mem_sorted.mp hx) y (SeqLog.mem_sorted.mp hy), List.foldlM_append,
    except_bind_eq_ok]
  exact ⟨g₁, hreplay₁, hreplay₂⟩

/-- Replicas converge. The order of arrival does not change what a fold returns; a log cut at a
sequence number folds to the graph of the whole; and folding events again changes nothing. -/
theorem fold_converges :
    (∀ events events' : List FoldEvent, events.Perm events' →
      fold events' Graph.empty = fold events Graph.empty) ∧
    (∀ (events first second : List FoldEvent) (g₁ g₂ g : Graph), events.Perm (first ++ second) →
      (∀ x ∈ first, ∀ y ∈ second, x.seq < y.seq) → fold first Graph.empty = .ok () g₁ →
      fold second g₁ = .ok () g₂ → fold events Graph.empty = .ok () g → g₂ = g) ∧
    (∀ (events again : List FoldEvent) (g : Graph), fold events Graph.empty = .ok () g →
      (∀ e ∈ again, e ∈ events) → fold again g = .ok () g) := by
  refine ⟨fun events events' h => fold_perm h _, ?_, ?_⟩
  · intro events first second g₁ g₂ g hperm hlt hfirst hsecond hwhole
    rw [← fold_perm hperm, fold_append hlt hfirst hsecond] at hwhole
    exact (EStateM.Result.ok.inj hwhole).2
  · intro events again g h hagain
    exact fold_seen fun e he => (fold_cursor h).2 e (hagain e he)

/-- A claim is added and given a field, then purged for a leaked secret. -/
def purgedClaim : List FoldEvent :=
  [⟨1, "E1", "node.add", some "n_a", some "fact",
      some (.object [("statement", .string "Secret.")]), false, none, none⟩,
    ⟨2, "E2", "field.set", some "n_a", none,
      some (.object [("field", .string "evidence"), ("value", .string "observed")]), false, none,
      none⟩,
    ⟨3, "E3", "purge", none, none,
      some (.object [("cascade", .array []), ("purge_id", .string "prg_1"),
        ("reason", .string "leaked_secret"), ("targets", .array [.string "E1"])]), false, none,
      none⟩]

def succeeded : EStateM.Result FoldError Graph Unit → Bool
  | .ok _ _ => true
  | .error _ _ => false

theorem exists_of_succeeded {r : EStateM.Result FoldError Graph Unit} (h : succeeded r = true) :
    ∃ g, r = .ok () g := by
  cases r with
  | ok a g => exact ⟨g, rfl⟩
  | error e g => cases h

/-- The graph a computation left, whatever it returned. -/
def leftGraph (r : EStateM.Result FoldError Graph Unit) : Graph :=
  match r with
  | .ok _ g => g
  | .error _ g => g

theorem fold_converges_purged :
    fold purgedClaim.reverse Graph.empty = fold purgedClaim Graph.empty ∧
      ∃ g₁ g, fold (purgedClaim.take 2) Graph.empty = .ok () g₁ ∧
        fold (purgedClaim.drop 2) g₁ = .ok () g ∧ fold purgedClaim Graph.empty = .ok () g ∧
        fold (purgedClaim.take 1) g = .ok () g := by
  refine ⟨fold_converges.1 _ _ (List.reverse_perm _).symm, ?_⟩
  have hwhole : succeeded (fold purgedClaim Graph.empty) = true := by decide +kernel
  have hfirst : succeeded (fold (purgedClaim.take 2) Graph.empty) = true := by decide +kernel
  have hsecond : succeeded (fold (purgedClaim.drop 2)
      (leftGraph (fold (purgedClaim.take 2) Graph.empty))) = true := by decide +kernel
  obtain ⟨g, hg⟩ := exists_of_succeeded hwhole
  obtain ⟨g₁, hg₁⟩ := exists_of_succeeded hfirst
  rw [hg₁] at hsecond
  obtain ⟨g₂, hg₂⟩ := exists_of_succeeded hsecond
  have hcut : ∀ x ∈ purgedClaim.take 2, ∀ y ∈ purgedClaim.drop 2, x.seq < y.seq := by decide
  obtain rfl := fold_converges.2.1 purgedClaim _ _ g₁ g₂ g (by rw [List.take_append_drop]) hcut hg₁
    hg₂ hg
  exact ⟨g₁, g₂, hg₁, hg₂, hg, fold_converges.2.2 purgedClaim _ g₂ hg fun e he =>
    List.mem_of_mem_take he⟩

end LeanCtx.Hive
