import LeanCtx.AgentLeaseFence

/-!
# Waiters are not passed over

A refused agent is recorded as a waiter for its resource. While it keeps
asking and every ask is answered, its entry stays and keeps the time from which
it waits (`InLine`), so a free resource that overlaps it goes to nobody who
waits for less long. An ask that meets a full registry is answered with an
error and leaves no trace: an agent with only such asks loses its place.
-/

namespace LeanCtx.Lease

open Registry

variable {blake3 : String → String}

/-- The call asks for resource `R` on behalf of agent `w`. -/
def asksFor (w : String) (R : Resource) (call : Call) : Bool :=
  match call.op with
  | .acquire q => q.ownerAgentId == w && q.resource == R
  | _ => false

def isGranted : Except AgentLeaseError Reply → Bool
  | .ok (.acquired (.granted _)) => true
  | _ => false

/-- Agent `w` waits for `R` throughout the calls: it last asked at `seen`, no
call comes `waiterTtlMs` or more after its last ask, and none of its asks is
granted. -/
def keepsAsking (blake3 : String → String) (w : String) (R : Resource) :
    Registry → UInt64 → List Call → Bool
  | _, _, [] => true
  | r, seen, call :: calls =>
    call.nowEpochMs.toNat < seen.toNat + waiterTtlMs.toNat &&
      (!asksFor w R call || !isGranted (r.step blake3 call).1) &&
      keepsAsking blake3 w R (r.step blake3 call).2
        (if asksFor w R call then call.nowEpochMs else seen) calls

/-- The request is valid, and it does not meet a full registry while nothing
else stands in its way. -/
def Answerable (r : Registry) (q : AgentLeaseRequest) (now : UInt64) : Prop :=
  q.validate = .ok () ∧
    ((r.removeExpired now).leases[q.resource]? = none → (r.removeExpired now).overlappingPath q = none →
      (r.removeExpired now).waitingBefore q = none → (r.removeExpired now).leases.size < r.maxLeases)

/-- Every ask of `w` for `R` is answered, and the clock has not reached its end. -/
def EveryAskAnswered (blake3 : String → String) (w : String) (R : Resource) :
    Registry → List Call → Prop
  | _, [] => True
  | r, call :: calls => call.nowEpochMs.toNat < u64Max ∧
      (∀ q, call.op = .acquire q → q.ownerAgentId = w → q.resource = R →
        Answerable r q call.nowEpochMs) ∧
      EveryAskAnswered blake3 w R (r.step blake3 call).2 calls

/-! ## The place of a waiter -/

def waitsFor (w : String) (R : Resource) (v : LeaseWaiter) : Bool :=
  v.ownerAgentId == w && v.resource == R

theorem isOwn_eq (q : AgentLeaseRequest) : isOwn q = waitsFor q.ownerAgentId q.resource := by
  funext v
  have hkey : (v.resource == q.resource) =
      (v.resourceKind == q.resourceKind && v.resourceRef == q.resourceRef) := rfl
  rw [isOwn, waitsFor, hkey, Bool.and_assoc]

/-- The entry of `w` for `R` dates from `t₀` or earlier and was last seen at `seen`. -/
def InLine (w : String) (R : Resource) (t₀ seen : UInt64) (r : Registry) : Prop :=
  ∃ v, r.waiters.find? (waitsFor w R) = some v ∧ v.sinceEpochMs ≤ t₀ ∧ v.seenEpochMs = seen

theorem find?_filter_of_keep {α : Type} {p keep : α → Bool} {l : List α} {a : α}
    (h : l.find? p = some a) (ha : keep a = true) : (l.filter keep).find? p = some a := by
  induction l with
  | nil => cases h
  | cons b l ih =>
    rw [List.find?_cons] at h
    cases hb : p b with
    | true =>
      rw [hb] at h
      cases h
      rw [List.filter_cons_of_pos ha, List.find?_cons_of_pos hb]
    | false =>
      rw [hb] at h
      rw [List.filter_cons]
      split_ifs
      · rw [List.find?_cons_of_neg (by simp [hb])]
        exact ih h
      · exact ih h

/-- A call within the waiting time leaves the entry in place. -/
theorem InLine.removeExpired {w : String} {R : Resource} {t₀ seen now : UInt64} {r : Registry}
    (h : InLine w R t₀ seen r) (hgap : now.toNat < seen.toNat + waiterTtlMs.toNat)
    (hnow : now.toNat < u64Max) : InLine w R t₀ seen (r.removeExpired now) := by
  obtain ⟨v, hv, hsince, rfl⟩ := h
  refine ⟨v, find?_filter_of_keep hv ?_, hsince, rfl⟩
  rw [decide_eq_true_eq, UInt64.lt_iff_toNat_lt, toNat_saturatingAdd]
  omega

theorem InLine.of_waiters {w : String} {R : Resource} {t₀ seen : UInt64} {r r' : Registry}
    (h : InLine w R t₀ seen r) (heq : r'.waiters = r.waiters) : InLine w R t₀ seen r' := by
  obtain ⟨v, hv, hrest⟩ := h
  exact ⟨v, heq ▸ hv, hrest⟩

section Lists

variable {α : Type} {p own : α → Bool} {f : α → α}

/-- Rewriting the first match in place keeps it the first match. -/
theorem find?_modify_own (hf : ∀ a, p a = true → p (f a) = true) {l : List α} {a : α}
    (h : l.find? p = some a) : ∃ i, l.findIdx? p = some i ∧ (l.modify i f).find? p = some (f a) := by
  induction l with
  | nil => cases h
  | cons b l ih =>
    rw [List.find?_cons] at h
    rw [List.findIdx?_cons]
    cases hb : p b with
    | true =>
      rw [hb] at h
      cases h
      refine ⟨0, rfl, ?_⟩
      rw [List.modify_zero_cons, List.find?_cons_of_pos (hf a hb)]
    | false =>
      rw [hb] at h
      obtain ⟨i, hi, hfind⟩ := ih h
      refine ⟨i + 1, by simp [hi], ?_⟩
      rw [List.modify_succ_cons, List.find?_cons_of_neg (by simp [hb]), hfind]

/-- Rewriting an entry that does not match, to one that does not, changes no match. -/
theorem find?_modify_other (hf : ∀ a, own a = true → p a = false ∧ p (f a) = false) {l : List α}
    {i : ℕ} (h : l.findIdx? own = some i) : (l.modify i f).find? p = l.find? p := by
  induction l generalizing i with
  | nil => cases h
  | cons b l ih =>
    rw [List.findIdx?_cons] at h
    cases hb : own b with
    | true =>
      rw [hb] at h
      cases h
      obtain ⟨hp, hpf⟩ := hf b hb
      rw [List.modify_zero_cons, List.find?_cons_of_neg (by simp [hpf]),
        List.find?_cons_of_neg (by simp [hp])]
    | false =>
      rw [hb] at h
      simp only [Bool.false_eq_true, if_false, Option.map_eq_some_iff] at h
      obtain ⟨j, hj, rfl⟩ := h
      rw [List.modify_succ_cons, List.find?_cons, List.find?_cons, ih hj]

end Lists

/-- The waiting agent asks again and is refused again. -/
theorem InLine.wait_own {q : AgentLeaseRequest} {t₀ seen now : UInt64} {r : Registry}
    (h : InLine q.ownerAgentId q.resource t₀ seen r) :
    InLine q.ownerAgentId q.resource t₀ now (r.wait q now) := by
  obtain ⟨v, hv, hsince, -⟩ := h
  obtain ⟨i, hi, hfind⟩ := find?_modify_own
    (p := waitsFor q.ownerAgentId q.resource) (f := fun v => { v with seenEpochMs := now })
    (fun a ha => ha) hv
  refine ⟨{ v with seenEpochMs := now }, ?_, hsince, rfl⟩
  rw [Registry.wait, isOwn_eq, hi]
  exact hfind

/-- Another request is refused: the entry of `w` for `R` is not touched. -/
theorem InLine.wait_other {w : String} {R : Resource} {q : AgentLeaseRequest}
    {t₀ seen now : UInt64} {r : Registry} (h : InLine w R t₀ seen r)
    (hother : ¬ (q.ownerAgentId = w ∧ q.resource = R)) : InLine w R t₀ seen (r.wait q now) := by
  obtain ⟨v, hv, hrest⟩ := h
  refine ⟨v, ?_, hrest⟩
  unfold Registry.wait
  split
  · rename_i i hi
    rw [isOwn_eq] at hi
    have hf : ∀ a : LeaseWaiter, waitsFor q.ownerAgentId q.resource a = true →
        waitsFor w R a = false ∧ waitsFor w R { a with seenEpochMs := now } = false := by
      intro a ha
      simp only [waitsFor, Bool.and_eq_true, beq_iff_eq] at ha
      have hne : waitsFor w R a = false := by
        rw [waitsFor, ha.1, ha.2]
        simpa using hother
      exact ⟨hne, hne⟩
    rw [find?_modify_other hf hi]
    exact hv
  · split_ifs
    · rw [List.find?_append, hv]
      rfl
    · exact hv

theorem InLine.filter_other {w : String} {R : Resource} {q : AgentLeaseRequest}
    {t₀ seen : UInt64} {r r' : Registry} (h : InLine w R t₀ seen r)
    (hother : ¬ (q.ownerAgentId = w ∧ q.resource = R))
    (heq : r'.waiters = r.waiters.filter fun v => !isOwn q v) : InLine w R t₀ seen r' := by
  obtain ⟨v, hv, hrest⟩ := h
  refine ⟨v, ?_, hrest⟩
  rw [heq]
  apply find?_filter_of_keep hv
  have hvw := List.find?_some hv
  simp only [waitsFor, Bool.and_eq_true, beq_iff_eq] at hvw
  rw [isOwn_eq, waitsFor, hvw.1, hvw.2]
  simp only [Bool.not_eq_true', Bool.eq_false_iff, ne_eq, Bool.and_eq_true, beq_iff_eq]
  exact fun hsame => hother ⟨hsame.1.symm, hsame.2.symm⟩

/-! ## Along a run -/

theorem asksFor_iff {w : String} {R : Resource} {call : Call} {q : AgentLeaseRequest}
    (hop : call.op = .acquire q) :
    asksFor w R call = true ↔ q.ownerAgentId = w ∧ q.resource = R := by
  simp [asksFor, hop]

theorem InLine.step (blake3 : String → String) {w : String} {R : Resource} {t₀ seen : UInt64} {r : Registry} {call : Call}
    (h : InLine w R t₀ seen r) (hgap : call.nowEpochMs.toNat < seen.toNat + waiterTtlMs.toNat)
    (hnow : call.nowEpochMs.toNat < u64Max)
    (hrefused : asksFor w R call = true → isGranted (r.step blake3 call).1 = false)
    (hanswered : ∀ q, call.op = .acquire q → q.ownerAgentId = w → q.resource = R →
      Answerable r q call.nowEpochMs) :
    InLine w R t₀ (if asksFor w R call then call.nowEpochMs else seen) (r.step blake3 call).2 := by
  have hexpired := h.removeExpired hgap hnow
  have hstep : Stepped blake3 r call (r.step blake3 call) := step_spec r call
  generalize r.step blake3 call = out at hstep hrefused
  cases hstep with
  | acquire q result r' hop hacq =>
    by_cases hown : q.ownerAgentId = w ∧ q.resource = R
    · -- Of the answers to its own ask only the refusals are left.
      have hask := (asksFor_iff hop).mpr hown
      have hgrant := hrefused hask
      obtain ⟨hvalid, hroom⟩ := hanswered q hop hown.1 hown.2
      obtain ⟨rfl, rfl⟩ := hown
      rw [if_pos hask]
      cases hacq with
      | invalid e he => rw [hvalid] at he; cases he
      | replay => cases hgrant
      | held => exact hexpired.wait_own
      | reserved => exact hexpired.wait_own
      | full _ hfree hpath hfirst hfull => exact absurd (hroom hfree hpath hfirst) (not_lt.mpr hfull)
      | inserted => cases hgrant
    · have hask : asksFor w R call = false := by
        rw [Bool.eq_false_iff, ne_eq, asksFor_iff hop]
        exact hown
      rw [if_neg (by simp [hask])]
      cases hacq with
      | invalid => exact h
      | replay => exact hexpired.filter_other hown rfl
      | held => exact hexpired.wait_other hown
      | reserved => exact hexpired.wait_other hown
      | full => exact hexpired
      | inserted => exact hexpired.filter_other hown rfl
  | drop reply r' hop _ hwaits =>
    have hask : asksFor w R call = false := by
      unfold asksFor
      split
      · exact absurd ‹_› (hop _)
      · rfl
    rw [if_neg (by simp [hask])]
    rcases hwaits.1 with heq | heq
    · exact h.of_waiters heq
    · exact hexpired.of_waiters heq
  | renew kind ref owner leaseRef durationMs l hop =>
    have hask : asksFor w R call = false := by simp [asksFor, hop]
    rw [if_neg (by simp [hask])]
    exact hexpired.of_waiters rfl

/-- The last ask of `w` for `R` in the calls, or `seen` before them. -/
def lastAsk (w : String) (R : Resource) (seen : UInt64) (calls : List Call) : UInt64 :=
  calls.foldl (fun seen call => if asksFor w R call then call.nowEpochMs else seen) seen

theorem InLine.run {w : String} {R : Resource} {t₀ seen : UInt64} {r : Registry}
    {calls : List Call} (h : InLine w R t₀ seen r)
    (hasks : keepsAsking blake3 w R r seen calls = true)
    (hanswered : EveryAskAnswered blake3 w R r calls) :
    InLine w R t₀ (lastAsk w R seen calls) (r.run blake3 calls) := by
  induction calls generalizing r seen with
  | nil => exact h
  | cons call calls ih =>
    simp only [keepsAsking, Bool.and_eq_true, Bool.or_eq_true, Bool.not_eq_true',
      decide_eq_true_eq] at hasks
    obtain ⟨⟨hgap, hrefused⟩, hasks⟩ := hasks
    obtain ⟨hnow, hcall, hanswered⟩ := hanswered
    have hstep := h.step blake3 hgap hnow (fun hask => by simpa [hask] using hrefused) hcall
    exact ih hstep hasks hanswered

/-! ## Entering the line -/

theorem mem_wait {q : AgentLeaseRequest} {now : UInt64} {r : Registry} {v : LeaseWaiter}
    (h : v ∈ (r.wait q now).waiters) :
    v.sinceEpochMs = now ∨ ∃ u ∈ r.waiters, v.sinceEpochMs = u.sinceEpochMs := by
  unfold Registry.wait at h
  split at h
  · right
    obtain ⟨i, hi, hv⟩ := List.mem_iff_getElem.mp h
    rw [List.getElem_modify] at hv
    split_ifs at hv
    · exact ⟨_, List.getElem_mem _, by rw [← hv]⟩
    · exact ⟨v, hv ▸ List.getElem_mem _, rfl⟩
  · split_ifs at h
    · rw [List.mem_append, List.mem_singleton] at h
      rcases h with h | rfl
      · exact .inr ⟨v, h, rfl⟩
      · exact .inl rfl
    · exact .inr ⟨v, h, rfl⟩

/-- A waiter dates from its call, or it waited before. -/
theorem mem_step {r : Registry} {call : Call} {v : LeaseWaiter}
    (h : v ∈ (r.step blake3 call).2.waiters) :
    v.sinceEpochMs = call.nowEpochMs ∨ ∃ u ∈ r.waiters, v.sinceEpochMs = u.sinceEpochMs := by
  have hexpired : ∀ u ∈ (r.removeExpired call.nowEpochMs).waiters, u ∈ r.waiters :=
    fun u hu => List.mem_of_mem_filter hu
  have hstep : Stepped blake3 r call (r.step blake3 call) := step_spec r call
  generalize r.step blake3 call = out at hstep h
  have hwait : ∀ q, v ∈ ((r.removeExpired call.nowEpochMs).wait q call.nowEpochMs).waiters →
      v.sinceEpochMs = call.nowEpochMs ∨ ∃ u ∈ r.waiters, v.sinceEpochMs = u.sinceEpochMs := by
    intro q hv
    rcases mem_wait hv with hv | ⟨u, hu, hv⟩
    · exact .inl hv
    · exact .inr ⟨u, hexpired u hu, hv⟩
  cases hstep with
  | acquire q result r' hop hacq =>
    cases hacq with
    | invalid => exact .inr ⟨v, h, rfl⟩
    | replay => exact .inr ⟨v, hexpired v (List.mem_of_mem_filter h), rfl⟩
    | held => exact hwait q h
    | reserved => exact hwait q h
    | full => exact .inr ⟨v, hexpired v h, rfl⟩
    | inserted => exact .inr ⟨v, hexpired v (List.mem_of_mem_filter h), rfl⟩
  | drop reply r' _ _ hwaits =>
    rcases hwaits.1 with heq | heq
    · exact .inr ⟨v, heq ▸ h, rfl⟩
    · exact .inr ⟨v, hexpired v (heq ▸ h), rfl⟩
  | renew => exact .inr ⟨v, hexpired v h, rfl⟩

theorem since_le_run {r : Registry} {calls : List Call} {t₀ : UInt64}
    (hr : ∀ v ∈ r.waiters, v.sinceEpochMs ≤ t₀) (hcalls : ∀ call ∈ calls, call.nowEpochMs ≤ t₀) :
    ∀ v ∈ (r.run blake3 calls).waiters, v.sinceEpochMs ≤ t₀ := by
  induction calls generalizing r with
  | nil => exact hr
  | cons call calls ih =>
    refine ih ?_ fun c hc => hcalls c (by simp [hc])
    intro v hv
    rcases mem_step hv with hv | ⟨u, hu, hv⟩
    · rw [hv]
      exact hcalls call (by simp)
    · rw [hv]
      exact hr u hu

/-- A refused agent has a place from then on, if not from earlier. -/
theorem InLine.enter {q : AgentLeaseRequest} {t₀ : UInt64} {r : Registry}
    (hr : ∀ v ∈ r.waiters, v.sinceEpochMs ≤ t₀) (hlist : r.waiters.length < r.maxLeases) :
    InLine q.ownerAgentId q.resource t₀ t₀ (r.wait q t₀) := by
  cases hv : r.waiters.find? (waitsFor q.ownerAgentId q.resource) with
  | some v =>
    have hplace : InLine q.ownerAgentId q.resource t₀ v.seenEpochMs r :=
      ⟨v, hv, hr v (List.mem_of_find?_eq_some hv), rfl⟩
    exact hplace.wait_own
  | none =>
    have hidx : r.waiters.findIdx? (waitsFor q.ownerAgentId q.resource) = none := by
      rw [List.findIdx?_eq_none_iff]
      intro v hmem
      simpa using List.find?_eq_none.mp hv v hmem
    refine ⟨⟨q.resourceKind, q.resourceRef, q.ownerAgentId, t₀, t₀⟩, ?_, UInt64.le_refl t₀, rfl⟩
    rw [Registry.wait, isOwn_eq, hidx]
    simp only [hlist, if_true]
    rw [List.find?_append, hv]
    simp [waitsFor, LeaseWaiter.resource, AgentLeaseRequest.resource]

/-! ## Who comes first -/

theorem ownSince_le {r : Registry} {q : AgentLeaseRequest} {v : LeaseWaiter} (hv : v ∈ r.waiters)
    (hown : isOwn q v = true) : r.ownSince q ≤ v.sinceEpochMs := by
  have hmem : v.sinceEpochMs ∈ (r.waiters.filter (isOwn q)).map LeaseWaiter.sinceEpochMs :=
    List.mem_map.mpr ⟨v, List.mem_filter.mpr ⟨hv, hown⟩, rfl⟩
  obtain ⟨m, hm⟩ := Option.isSome_iff_exists.mp (List.isSome_min?_of_mem hmem)
  rw [ownSince, hm, Option.getD_some]
  exact (List.min?_eq_some_iff.mp hm).2 _ hmem

theorem exists_own_of_lt {r : Registry} {q : AgentLeaseRequest}
    (h : (r.ownSince q).toNat < u64Max) :
    ∃ v ∈ r.waiters, isOwn q v = true ∧ v.sinceEpochMs = r.ownSince q := by
  cases hm : ((r.waiters.filter (isOwn q)).map LeaseWaiter.sinceEpochMs).min? with
  | none =>
    rw [ownSince, hm, Option.getD_none, toNat_ofNat_u64Max] at h
    exact absurd h (lt_irrefl _)
  | some m =>
    obtain ⟨v, hv, rfl⟩ := List.mem_map.mp (List.min?_mem hm)
    obtain ⟨hmem, hown⟩ := List.mem_filter.mp hv
    exact ⟨v, hmem, hown, by rw [ownSince, hm, Option.getD_some]⟩

theorem firstWaiting_mem {ws : List LeaseWaiter} {v : LeaseWaiter}
    (h : firstWaiting ws = some v) : v ∈ ws := by
  cases ws with
  | nil => cases h
  | cons w ws =>
    have hfold : ∀ (us : List LeaseWaiter) (m : LeaseWaiter),
        us.foldl (fun m v => if v.sinceEpochMs < m.sinceEpochMs then v else m) m ∈ m :: us := by
      intro us
      induction us with
      | nil => simp
      | cons u us ih =>
        intro m
        rw [List.foldl_cons]
        have := ih (if u.sinceEpochMs < m.sinceEpochMs then u else m)
        split_ifs at this ⊢ <;> simp only [List.mem_cons] at this ⊢ <;> tauto
    cases h
    exact hfold ws w

/-- No waiter comes before the request exactly when every overlapping one of
another agent waits for at most as long. -/
theorem waitingBefore_eq_none_iff {r : Registry} {q : AgentLeaseRequest} :
    r.waitingBefore q = none ↔ ∀ v ∈ r.waiters, v.ownerAgentId ≠ q.ownerAgentId →
      resourcesOverlap v.resourceKind v.resourceRef q.resourceKind q.resourceRef = true →
      r.ownSince q ≤ v.sinceEpochMs := by
  unfold waitingBefore
  constructor
  · intro h v hv howner hoverlap
    by_contra hlt
    have hmem : v ∈ r.waiters.filter fun w => w.ownerAgentId != q.ownerAgentId &&
        w.sinceEpochMs < r.ownSince q &&
          resourcesOverlap w.resourceKind w.resourceRef q.resourceKind q.resourceRef := by
      rw [List.mem_filter]
      refine ⟨hv, ?_⟩
      rw [hoverlap, Bool.and_true, Bool.and_eq_true, bne_iff_ne, decide_eq_true_eq]
      exact ⟨howner, UInt64.not_le.mp hlt⟩
    cases hws : r.waiters.filter fun w => w.ownerAgentId != q.ownerAgentId &&
        w.sinceEpochMs < r.ownSince q &&
          resourcesOverlap w.resourceKind w.resourceRef q.resourceKind q.resourceRef with
    | nil => rw [hws] at hmem; cases hmem
    | cons w ws => rw [hws] at h; cases h
  · intro h
    rw [Option.eq_none_iff_forall_ne_some]
    intro v hv
    obtain ⟨hmem, hcond⟩ := List.mem_filter.mp (firstWaiting_mem hv)
    rw [Bool.and_eq_true, Bool.and_eq_true, bne_iff_ne, decide_eq_true_eq] at hcond
    exact UInt64.not_lt.mpr (h v hmem hcond.1.1 hcond.2) hcond.1.2

/-- Whoever is granted a resource that overlaps `R` has waited for it since
`t₀` or longer. -/
theorem InLine.not_bypassed {w : String} {R : Resource} {t₀ seen : UInt64} {r : Registry}
    {call : Call} (h : InLine w R t₀ seen r) (ht₀ : t₀.toNat < u64Max)
    (hgap : call.nowEpochMs.toNat < seen.toNat + waiterTtlMs.toNat)
    (hnow : call.nowEpochMs.toNat < u64Max) {q : AgentLeaseRequest} (hop : call.op = .acquire q)
    (howner : q.ownerAgentId ≠ w)
    (hoverlap : resourcesOverlap R.1 R.2 q.resourceKind q.resourceRef = true)
    (hgrant : (newGrant blake3 r call).isSome = true) :
    ∃ v ∈ r.waiters, v.ownerAgentId = q.ownerAgentId ∧ v.resource = q.resource ∧
      v.sinceEpochMs ≤ t₀ := by
  obtain ⟨v, hv, hsince, -⟩ := h.removeExpired hgap hnow
  have hvw := List.find?_some hv
  simp only [waitsFor, Bool.and_eq_true, beq_iff_eq] at hvw
  obtain ⟨hvowner, rfl⟩ := hvw
  rcases newGrant_cases blake3 r call with ⟨hnone, -⟩ | ⟨q', hop', hadmits, -⟩
  · rw [hnone] at hgrant
    cases hgrant
  rw [hop] at hop'
  cases hop'
  have hown := waitingBefore_eq_none_iff.mp hadmits.first v (List.mem_of_find?_eq_some hv)
    (by rw [hvowner]; exact Ne.symm howner) hoverlap
  have hle : (r.removeExpired call.nowEpochMs).ownSince q ≤ t₀ := UInt64.le_trans hown hsince
  obtain ⟨u, hu, hmine, heq⟩ := exists_own_of_lt (lt_of_le_of_lt (UInt64.le_iff_toNat_le.mp hle) ht₀)
  rw [isOwn_eq, waitsFor, Bool.and_eq_true, beq_iff_eq, beq_iff_eq] at hmine
  exact ⟨u, List.mem_of_mem_filter hu, hmine.1, hmine.2, heq ▸ hle⟩

theorem overlap_of_overlappingPath {r : Registry} {q : AgentLeaseRequest} {l : AgentLease}
    (h : r.overlappingPath q = some l) : ∃ k : Resource, r.leases[k]? = some l ∧
      resourcesOverlap l.request.resourceKind l.request.resourceRef q.resourceKind
        q.resourceRef = true := by
  unfold overlappingPath at h
  split_ifs at h with hkind
  obtain ⟨scheme, hscheme, hfind⟩ := Option.bind_eq_some_iff.mp h
  obtain ⟨⟨k, l'⟩, hmem, rfl⟩ := List.mem_map.mp (List.mem_of_find?_eq_some hfind)
  have hcond := List.find?_some hfind
  simp only [Bool.and_eq_true, beq_iff_eq] at hcond
  obtain ⟨⟨hlkind, hl⟩, hclaims⟩ := hcond
  refine ⟨k, Std.ExtTreeMap.mem_toList_iff_getElem?_eq_some.mp hmem, ?_⟩
  have hany : (hierarchicalPathSchemes.any fun s => startsWith l'.request.resourceRef s &&
      startsWith q.resourceRef s && pathClaimsOverlap l'.request.resourceRef q.resourceRef) = true := by
    rw [List.any_eq_true]
    have hq : startsWith q.resourceRef scheme = true := by simpa using List.find?_some hscheme
    exact ⟨scheme, List.mem_of_find?_eq_some hscheme, by rw [hl, hq, hclaims]; rfl⟩
  simp [resourcesOverlap, hlkind, hkind, hany]

/-- The longest waiter is served as soon as its resource is free. -/
theorem InLine.served {t₀ seen : UInt64} {r : Registry} {call : Call} {q : AgentLeaseRequest}
    (h : InLine q.ownerAgentId q.resource t₀ seen r) (hexclusive : Exclusive r)
    (hgap : call.nowEpochMs.toNat < seen.toNat + waiterTtlMs.toNat)
    (hnow : call.nowEpochMs.toNat < u64Max) (hop : call.op = .acquire q)
    (hvalid : q.validate = .ok ()) {v : LeaseWaiter}
    (hv : r.waiters.find? (waitsFor q.ownerAgentId q.resource) = some v)
    (hlongest : ∀ u ∈ r.waiters,
      resourcesOverlap u.resourceKind u.resourceRef q.resourceKind q.resourceRef = true →
      v.sinceEpochMs ≤ u.sinceEpochMs)
    (hfree : ∀ (k : Resource) (l : AgentLease), r.leases[k]? = some l →
      resourcesOverlap l.request.resourceKind l.request.resourceRef q.resourceKind
        q.resourceRef = false)
    (hroom : r.leases.size < r.maxLeases) : isGranted (r.step blake3 call).1 = true := by
  have hself : resourcesOverlap q.resourceKind q.resourceRef q.resourceKind q.resourceRef = true := by
    simp [resourcesOverlap]
  have hsize : (r.removeExpired call.nowEpochMs).leases.size ≤ r.leases.size :=
    Std.ExtTreeMap.size_filter_le_size
  obtain ⟨v', hv', -, hseen⟩ := h
  rw [hv] at hv'
  cases hv'
  have hkeep : v ∈ (r.removeExpired call.nowEpochMs).waiters := by
    refine List.mem_filter.mpr ⟨List.mem_of_find?_eq_some hv, ?_⟩
    rw [decide_eq_true_eq, UInt64.lt_iff_toNat_lt, toNat_saturatingAdd, hseen]
    omega
  have hfirst : (r.removeExpired call.nowEpochMs).waitingBefore q = none := by
    rw [waitingBefore_eq_none_iff]
    intro u hu _ hoverlap
    have hown := ownSince_le (q := q) hkeep (by rw [isOwn_eq]; exact List.find?_some hv)
    exact UInt64.le_trans hown (hlongest u (List.mem_of_mem_filter hu) hoverlap)
  have hspec : Acquired blake3 r q call.nowEpochMs (r.acquire blake3 q call.nowEpochMs) :=
    acquire_spec r q _
  have hstep : r.step blake3 call = ((r.acquire blake3 q call.nowEpochMs).1.map .acquired,
      (r.acquire blake3 q call.nowEpochMs).2) := by
    rw [Registry.step, hop]
  rw [hstep]
  generalize r.acquire blake3 q call.nowEpochMs = out at hspec
  cases hspec with
  | invalid e he => rw [hvalid] at he; cases he
  | replay => rfl
  | held existing _ hheld =>
    exfalso
    rcases hheld with hget | hpath
    · have hget' := get_of_get_removeExpired hget
      have hkey := hexclusive.keyed _ existing hget'
      have hno := hfree _ existing hget'
      have hkind : existing.request.resourceKind = q.resourceKind := congrArg Prod.fst hkey
      have href : existing.request.resourceRef = q.resourceRef := congrArg Prod.snd hkey
      rw [hkind, href, hself] at hno
      cases hno
    · obtain ⟨k, hget, hyes⟩ := overlap_of_overlappingPath hpath
      rw [hfree k existing (get_of_get_removeExpired hget)] at hyes
      cases hyes
  | reserved u _ hu => rw [hfirst] at hu; cases hu
  | full _ _ _ _ hfull => omega
  | inserted => rfl

/-! ## Bounded bypass -/

def isRefused : Except AgentLeaseError Reply → Bool
  | .ok (.acquired (.heldBy ..)) => true
  | _ => false

/-- The refused agent stands in line behind nobody newer. -/
theorem InLine.of_refused {q : AgentLeaseRequest} {r : Registry} {call : Call}
    (hop : call.op = .acquire q) (hrefused : isRefused (r.step blake3 call).1 = true)
    (hsince : ∀ v ∈ r.waiters, v.sinceEpochMs ≤ call.nowEpochMs)
    (hlist : r.waiters.length < r.maxLeases) :
    InLine q.ownerAgentId q.resource call.nowEpochMs call.nowEpochMs (r.step blake3 call).2 := by
  have hlist' : (r.removeExpired call.nowEpochMs).waiters.length < r.maxLeases :=
    lt_of_le_of_lt (List.length_filter_le _ _) hlist
  have hsince' : ∀ v ∈ (r.removeExpired call.nowEpochMs).waiters,
      v.sinceEpochMs ≤ call.nowEpochMs := fun v hv => hsince v (List.mem_of_mem_filter hv)
  have hstep : Stepped blake3 r call (r.step blake3 call) := step_spec r call
  generalize r.step blake3 call = out at hstep hrefused
  cases hstep with
  | acquire q' result r' hop' hacq =>
    rw [hop] at hop'
    cases hop'
    cases hacq with
    | held => exact InLine.enter hsince' hlist'
    | reserved => exact InLine.enter hsince' hlist'
    | invalid => cases hrefused
    | replay => cases hrefused
    | full => cases hrefused
    | inserted => cases hrefused
  | drop reply r' hno => exact absurd hop (hno q)
  | renew kind ref owner leaseRef durationMs l hop' => rw [hop] at hop'; cases hop'

theorem run_append (r : Registry) (calls calls' : List Call) :
    r.run blake3 (calls ++ calls') = (r.run blake3 calls).run blake3 calls' := by
  induction calls generalizing r with
  | nil => rfl
  | cons call calls ih => exact ih _

/-- An agent asks for a resource (`first`) and is refused, with room in the
list of waiters. It keeps asking in time through `between` and up to `last`, and
every ask is answered. Then `last` inserts no lease that overlaps the resource
for another agent, unless that agent has been a recorded waiter for the very
resource it asks for since `first` or earlier. And if `last` is the next ask of
the agent, which waits longest of all that overlap its resource, while no lease
overlaps it and capacity remains, then it is granted. -/
theorem waiters_not_bypassed {maxLeases : ℕ} {before between : List Call} {first last : Call}
    {q₀ : AgentLeaseRequest} (hfirst : first.op = .acquire q₀)
    (hclock : ∀ call ∈ before, call.nowEpochMs ≤ first.nowEpochMs)
    (hlist : ((Registry.new maxLeases).run blake3 before).waiters.length <
      ((Registry.new maxLeases).run blake3 before).maxLeases)
    (hrefused : isRefused (((Registry.new maxLeases).run blake3 before).step blake3 first).1 = true)
    (hasks : keepsAsking blake3 q₀.ownerAgentId q₀.resource
      ((Registry.new maxLeases).run blake3 (before ++ [first])) first.nowEpochMs between = true)
    (hgap : last.nowEpochMs.toNat <
      (lastAsk q₀.ownerAgentId q₀.resource first.nowEpochMs between).toNat + waiterTtlMs.toNat)
    (hanswered : EveryAskAnswered blake3 q₀.ownerAgentId q₀.resource
      ((Registry.new maxLeases).run blake3 (before ++ [first])) between)
    (hends : first.nowEpochMs.toNat < u64Max ∧ last.nowEpochMs.toNat < u64Max) :
    let r := (Registry.new maxLeases).run blake3 (before ++ first :: between)
    (∀ q, last.op = .acquire q → q.ownerAgentId ≠ q₀.ownerAgentId →
      resourcesOverlap q₀.resourceKind q₀.resourceRef q.resourceKind q.resourceRef = true →
      (newGrant blake3 r last).isSome = true →
      ∃ v ∈ r.waiters, v.ownerAgentId = q.ownerAgentId ∧ v.resource = q.resource ∧
        v.sinceEpochMs ≤ first.nowEpochMs) ∧
    (∀ q v, last.op = .acquire q → q.validate = .ok () → q.ownerAgentId = q₀.ownerAgentId →
      q.resource = q₀.resource → r.waiters.find? (waitsFor q.ownerAgentId q.resource) = some v →
      (∀ u ∈ r.waiters,
        resourcesOverlap u.resourceKind u.resourceRef q.resourceKind q.resourceRef = true →
        v.sinceEpochMs ≤ u.sinceEpochMs) →
      (∀ (k : Resource) (l : AgentLease), r.leases[k]? = some l →
        resourcesOverlap l.request.resourceKind l.request.resourceRef q.resourceKind
          q.resourceRef = false) →
      r.leases.size < r.maxLeases → isGranted (r.step blake3 last).1 = true) := by
  intro r
  have hsince : ∀ v ∈ ((Registry.new maxLeases).run blake3 before).waiters,
      v.sinceEpochMs ≤ first.nowEpochMs := since_le_run (by simp [Registry.new]) hclock
  have henter := InLine.of_refused hfirst hrefused hsince hlist
  rw [run_append] at hasks hanswered
  have hline : InLine q₀.ownerAgentId q₀.resource first.nowEpochMs
      (lastAsk q₀.ownerAgentId q₀.resource first.nowEpochMs between) r := by
    have hrun := InLine.run henter hasks hanswered
    have hr : r = ((((Registry.new maxLeases).run blake3 before).step blake3 first).2).run blake3
        between := run_append _ _ _
    rw [hr]
    exact hrun
  constructor
  · intro q hop howner hoverlap hgrant
    exact hline.not_bypassed hends.1 hgap hends.2 hop howner hoverlap hgrant
  · intro q v hop hvalid howner hresource hv hlongest hfree hroom
    rw [← howner, ← hresource] at hline
    exact hline.served ((exclusive_new maxLeases).run _) (by rwa [howner, hresource]) hends.2 hop
      hvalid hv hlongest hfree hroom

/-! ## A place that is lost -/

def askPath (ownerAgentId resourceRef : String) (durationMs : UInt64) : AgentLeaseRequest :=
  ⟨agentLeaseSchemaVersion, "request:" ++ ownerAgentId, .path, resourceRef, ownerAgentId, durationMs⟩

def releasePath (q : AgentLeaseRequest) (grantedAt : UInt64) : Op :=
  .release q.resourceKind q.resourceRef q.ownerAgentId (Grant.leaseRef id ⟨q, grantedAt⟩)

theorem waiters_not_bypassed_reserved :
    let before : List Call := [⟨.acquire (askPath "agent-h" "pathref:r" 60000), 0⟩]
    let first : Call := ⟨.acquire (askPath "agent-w" "pathref:r" 60000), 1⟩
    let between : List Call := [⟨releasePath (askPath "agent-h" "pathref:r" 60000) 0, 2⟩,
      ⟨.acquire (askPath "agent-x" "pathref:r" 60000), 3⟩]
    let last : Call := ⟨.acquire (askPath "agent-w" "pathref:r" 60000), 4⟩
    isGranted (((Registry.new 4).run id (before ++ first :: between)).step id last).1 = true := by
  intro before first between last
  have hanswered : EveryAskAnswered id "agent-w" (.path, "pathref:r")
      ((Registry.new 4).run id (before ++ [first])) between := by
    refine ⟨by decide, ?_, by decide, ?_, trivial⟩
    · intro q hop
      cases hop
    · intro q hop howner
      cases hop
      exact absurd howner (by decide)
  have hfirst : first.op = .acquire (askPath "agent-w" "pathref:r" 60000) := rfl
  obtain ⟨hlist, hrefused, hasks⟩ :
      ((Registry.new 4).run id before).waiters.length < ((Registry.new 4).run id before).maxLeases ∧
      isRefused (((Registry.new 4).run id before).step id first).1 = true ∧
      keepsAsking id "agent-w" (.path, "pathref:r") ((Registry.new 4).run id (before ++ [first])) 1
        between = true := by decide +kernel
  -- where the last call meets the registry, `w` is the first to wait and nothing is leased
  obtain ⟨hwaiters, hempty, hroom⟩ :
      ((Registry.new 4).run id (before ++ first :: between)).waiters =
        [⟨.path, "pathref:r", "agent-w", 1, 1⟩, ⟨.path, "pathref:r", "agent-x", 3, 3⟩] ∧
      ((Registry.new 4).run id (before ++ first :: between)).leases.toList = [] ∧
      ((Registry.new 4).run id (before ++ first :: between)).leases.size <
        ((Registry.new 4).run id (before ++ first :: between)).maxLeases := by decide +kernel
  refine (waiters_not_bypassed hfirst (by decide) hlist hrefused hasks (by decide) hanswered
    (by decide)).2 _ ⟨.path, "pathref:r", "agent-w", 1, 1⟩ rfl (by decide +kernel) rfl rfl
    ?_ ?_ ?_ hroom
  · rw [hwaiters]
    decide
  · rw [hwaiters]
    decide
  · intro k l hl
    rw [← Std.ExtTreeMap.mem_toList_iff_getElem?_eq_some, hempty] at hl
    cases hl

/-- Agent `w` is refused at 1 and asks again at 60 000, when its resource is
free but the registry is full: the error leaves no trace of the ask, its entry
runs out two minutes after the first, and the newcomer `x` is served. At the
end of the clock all waiters are forgotten at once. -/
theorem waiter_bypassed :
    (let before : List Call := [⟨.acquire (askPath "agent-h" "pathref:r" 60000), 0⟩]
     let first : Call := ⟨.acquire (askPath "agent-w" "pathref:r" 60000), 1⟩
     let between : List Call := [⟨releasePath (askPath "agent-h" "pathref:r" 60000) 0, 2⟩,
       ⟨.acquire (askPath "agent-a" "pathref:a" 3600000), 3⟩,
       ⟨.acquire (askPath "agent-b" "pathref:b" 3600000), 4⟩,
       ⟨.acquire (askPath "agent-w" "pathref:r" 60000), 60000⟩,
       ⟨releasePath (askPath "agent-a" "pathref:a" 3600000) 3, 125000⟩]
     let last : Call := ⟨.acquire (askPath "agent-x" "pathref:r" 60000), 125001⟩
     let calls := before ++ first :: between ++ [last]
     (∀ n ≤ calls.length, ((Registry.new 2).run id (calls.take n)).waiters.length < 2) ∧
     isRefused (((Registry.new 2).run id before).step id first).1 = true ∧
     keepsAsking id "agent-w" (.path, "pathref:r") ((Registry.new 2).run id (before ++ [first])) 1
       (between ++ [last]) = true ∧
     (newGrant id ((Registry.new 2).run id (before ++ first :: between)) last).isSome = true ∧
     ∀ v ∈ ((Registry.new 2).run id (before ++ first :: between)).waiters,
       v.ownerAgentId ≠ "agent-x") ∧
    (let late : UInt64 := 18446744073709551605
     let before : List Call := [⟨.acquire (askPath "agent-h" "pathref:r" 5), late⟩]
     let first : Call := ⟨.acquire (askPath "agent-w" "pathref:r" 5), late + 1⟩
     let last : Call := ⟨.acquire (askPath "agent-x" "pathref:r" 5), late + 10⟩
     isRefused (((Registry.new 2).run id before).step id first).1 = true ∧
     keepsAsking id "agent-w" (.path, "pathref:r") ((Registry.new 2).run id (before ++ [first]))
       (late + 1) [last] = true ∧
     (newGrant id ((Registry.new 2).run id (before ++ [first])) last).isSome = true ∧
     ∀ v ∈ ((Registry.new 2).run id (before ++ [first])).waiters, v.ownerAgentId ≠ "agent-x") := by
  decide +kernel

end LeanCtx.Lease
