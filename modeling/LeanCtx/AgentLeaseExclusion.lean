import LeanCtx.AgentLease

/-!
# Leases exclude each other

No two stored leases overlap, in every registry that any sequence of calls
reaches. `Acquired` lists what an acquire can do; `step_leases` says once what
any call can do to the stored leases: it drops some of them, it inserts a lease
that overlaps none of the active ones, or it prolongs a stored one.
-/

namespace LeanCtx.Lease

open Registry

variable {blake3 : String → String}

theorem get_removeExpired (r : Registry) (now : UInt64) (k : Resource) :
    (r.removeExpired now).leases[k]? = r.leases[k]?.filter fun l => l.isActiveAt now := by
  simp only [removeExpired]
  rw [Std.ExtTreeMap.getElem?_filter']

theorem get_of_get_removeExpired {r : Registry} {now : UInt64} {k : Resource} {l : AgentLease}
    (h : (r.removeExpired now).leases[k]? = some l) : r.leases[k]? = some l := by
  rw [get_removeExpired, Option.filter_eq_some_iff] at h
  exact h.1

theorem get_removeExpired_of_active {r : Registry} {now : UInt64} {k : Resource} {l : AgentLease}
    (h : r.leases[k]? = some l) (hactive : l.isActiveAt now = true) :
    (r.removeExpired now).leases[k]? = some l := by
  rw [get_removeExpired, Option.filter_eq_some_iff]
  exact ⟨h, hactive⟩

theorem wait_leases (r : Registry) (q : AgentLeaseRequest) (now : UInt64) :
    (r.wait q now).leases = r.leases := by
  unfold Registry.wait
  split
  · rfl
  · split_ifs <;> rfl

/-! ## What an acquire can do -/

/-- The cases of `acquire`, with what each one has checked. `r₁` is the
registry without what has expired. -/
inductive Acquired (blake3 : String → String) (r : Registry) (q : AgentLeaseRequest)
    (now : UInt64) : Except AgentLeaseError AgentLeaseAcquire × Registry → Prop
  | invalid (e : AgentLeaseError) : q.validate = .error e → Acquired blake3 r q now (.error e, r)
  | replay (existing : AgentLease) : q.validate = .ok () →
      (r.removeExpired now).leases[q.resource]? = some existing →
      existing.request.ownerAgentId = q.ownerAgentId →
      existing.request.leaseRequestRef = q.leaseRequestRef →
      Acquired blake3 r q now (.ok (.granted existing),
        { r.removeExpired now with
          waiters := (r.removeExpired now).waiters.filter fun w => !isOwn q w
          heldSince := (r.removeExpired now).heldSince.insertIfNew existing.leaseRef now })
  | held (existing : AgentLease) : q.validate = .ok () →
      ((r.removeExpired now).leases[q.resource]? = some existing ∨
        (r.removeExpired now).overlappingPath q = some existing) →
      Acquired blake3 r q now (.ok (heldByLease existing), (r.removeExpired now).wait q now)
  | reserved (w : LeaseWaiter) : q.validate = .ok () →
      (r.removeExpired now).waitingBefore q = some w →
      Acquired blake3 r q now
        (.ok (.heldBy w.ownerAgentId reservedLeaseRef (saturatingAdd w.seenEpochMs waiterTtlMs)),
          (r.removeExpired now).wait q now)
  | full : q.validate = .ok () → (r.removeExpired now).leases[q.resource]? = none →
      (r.removeExpired now).overlappingPath q = none →
      (r.removeExpired now).waitingBefore q = none →
      r.maxLeases ≤ (r.removeExpired now).leases.size →
      Acquired blake3 r q now (.error (.capacityExceeded r.maxLeases), r.removeExpired now)
  | inserted : q.validate = .ok () → (r.removeExpired now).leases[q.resource]? = none →
      (r.removeExpired now).overlappingPath q = none →
      (r.removeExpired now).waitingBefore q = none →
      (r.removeExpired now).leases.size < r.maxLeases →
      Acquired blake3 r q now (.ok (.granted (grant blake3 q now)),
        { r.removeExpired now with
          leases := (r.removeExpired now).leases.insert q.resource (grant blake3 q now)
          waiters := (r.removeExpired now).waiters.filter fun w => !isOwn q w
          heldSince := (r.removeExpired now).heldSince.insertIfNew
            (grant blake3 q now).leaseRef now })

theorem acquire_spec (r : Registry) (q : AgentLeaseRequest) (now : UInt64) :
    Acquired blake3 r q now (r.acquire blake3 q now) := by
  unfold acquire
  cases hv : q.validate with
  | error e => exact .invalid e hv
  | ok u =>
    simp only [acquireUnfair]
    cases hget : (r.removeExpired now).leases[q.resource]? with
    | some existing =>
      by_cases hsame : existing.request.ownerAgentId = q.ownerAgentId ∧
          existing.request.leaseRequestRef = q.leaseRequestRef
      · simp only [hsame, and_self, if_true]
        exact .replay existing hv hget hsame.1 hsame.2
      · simp only [hsame, if_false]
        exact .held existing hv (.inl hget)
    | none => cases hpath : (r.removeExpired now).overlappingPath q with
      | some existing => exact .held existing hv (.inr hpath)
      | none => cases hwait : (r.removeExpired now).waitingBefore q with
        | some w => exact .reserved w hv hwait
        | none =>
          by_cases hfull : (r.removeExpired now).leases.size ≥ (r.removeExpired now).maxLeases
          · simp only [hfull, if_true]
            exact .full hv hget hpath hwait hfull
          · simp only [hfull, if_false]
            exact .inserted hv hget hpath hwait (not_le.mp hfull)

/-! ## What any call can do -/

/-- No lease is new and none has changed. -/
def Kept (r r' : Registry) : Prop :=
  ∀ (k : Resource) (l : AgentLease), r'.leases[k]? = some l → r.leases[k]? = some l

/-- The waiters are those of before, or those of them that still wait. -/
def Waits (r : Registry) (now : UInt64) (r' : Registry) : Prop :=
  (r'.waiters = r.waiters ∨ r'.waiters = (r.removeExpired now).waiters) ∧ r'.maxLeases = r.maxLeases

theorem kept_removeExpired (r : Registry) (now : UInt64) : Kept r (r.removeExpired now) :=
  fun _ _ => get_of_get_removeExpired

theorem Kept.refl (r : Registry) : Kept r r := fun _ _ => id

theorem Kept.trans {r r' r'' : Registry} (h : Kept r r') (h' : Kept r' r'') : Kept r r'' :=
  fun k l hl => h k l (h' k l hl)

theorem kept_of_leases {r r' : Registry} (now : UInt64)
    (h : r'.leases = (r.removeExpired now).leases) : Kept r r' := by
  intro k l hl
  rw [h] at hl
  exact get_of_get_removeExpired hl

theorem kept_erase (r : Registry) (key : Resource) :
    Kept r { r with leases := r.leases.erase key } := by
  intro k l hl
  rw [OrdMap.get_erase] at hl
  split_ifs at hl
  exact hl

theorem release_spec (r : Registry) (kind : ResourceKind) (ref owner leaseRef : String)
    (now : UInt64) :
    Kept r (r.release kind ref owner leaseRef now).2 ∧
      Waits r now (r.release kind ref owner leaseRef now).2 := by
  unfold release
  split
  · exact ⟨Kept.refl r, .inl rfl, rfl⟩
  · dsimp only
    split
    · exact ⟨kept_removeExpired r now, .inr rfl, rfl⟩
    · split_ifs
      · exact ⟨kept_removeExpired r now, .inr rfl, rfl⟩
      · exact ⟨(kept_removeExpired r now).trans (kept_erase _ _), .inr rfl, rfl⟩

theorem releaseFence_spec (r : Registry) (owner fence : String) (now : UInt64) :
    Kept r (r.releaseFence owner fence now).2 ∧ Waits r now (r.releaseFence owner fence now).2 := by
  unfold releaseFence
  split
  · exact ⟨Kept.refl r, .inl rfl, rfl⟩
  · refine ⟨(kept_removeExpired r now).trans ?_, .inr rfl, rfl⟩
    intro k l hl
    rw [Std.ExtTreeMap.getElem?_filter', Option.filter_eq_some_iff] at hl
    exact hl.1

theorem revoke_spec (r : Registry) (leaseRef : String) (now : UInt64) :
    Kept r (r.revoke leaseRef).2 ∧ Waits r now (r.revoke leaseRef).2 := by
  unfold revoke
  split
  · exact ⟨Kept.refl r, .inl rfl, rfl⟩
  · exact ⟨kept_erase _ _, .inl rfl, rfl⟩

/-- A stored lease with a new duration and expiry. -/
def prolong (l : AgentLease) (durationMs now : UInt64) : AgentLease :=
  { l with
    request := { l.request with durationMs := durationMs }
    expiresAtEpochMs := saturatingAdd now durationMs }

theorem renew_spec (r : Registry) (kind : ResourceKind) (ref owner leaseRef : String)
    (durationMs now : UInt64) :
    ((∃ e, (r.renew kind ref owner leaseRef durationMs now).1 = .error e) ∧
      Kept r (r.renew kind ref owner leaseRef durationMs now).2 ∧
      Waits r now (r.renew kind ref owner leaseRef durationMs now).2) ∨
    ∃ l, r.leases[(kind, ref)]? = some l ∧ l.isActiveAt now = true ∧
      l.request.ownerAgentId = owner ∧ l.leaseRef = leaseRef ∧
      r.renew kind ref owner leaseRef durationMs now = (.ok (prolong l durationMs now),
        { r.removeExpired now with
          leases := (r.removeExpired now).leases.insert (kind, ref) (prolong l durationMs now) }) := by
  unfold renew
  split
  · exact .inl ⟨⟨_, rfl⟩, Kept.refl r, .inl rfl, rfl⟩
  · split
    · exact .inl ⟨⟨_, rfl⟩, Kept.refl r, .inl rfl, rfl⟩
    · rename_i l hget
      dsimp only
      split_ifs with hactive howner
      · exact .inl ⟨⟨_, rfl⟩, kept_erase _ _, .inl rfl, rfl⟩
      · exact .inl ⟨⟨_, rfl⟩, Kept.refl r, .inl rfl, rfl⟩
      · exact .inl ⟨⟨_, rfl⟩, kept_removeExpired r now, .inr rfl, rfl⟩
      · push Not at howner
        exact .inr ⟨l, hget, by simpa using hactive, howner.1, howner.2, rfl⟩

/-- The cases of any call. -/
inductive Stepped (blake3 : String → String) (r : Registry) (call : Call) :
    Except AgentLeaseError Reply × Registry → Prop
  | acquire (q : AgentLeaseRequest) (result : Except AgentLeaseError AgentLeaseAcquire)
      (r' : Registry) : call.op = .acquire q → Acquired blake3 r q call.nowEpochMs (result, r') →
      Stepped blake3 r call (result.map .acquired, r')
  | drop (reply : Except AgentLeaseError Reply) (r' : Registry) : (∀ q, call.op ≠ .acquire q) →
      Kept r r' → Waits r call.nowEpochMs r' →
      Stepped blake3 r call (reply, r')
  | renew (kind : ResourceKind) (ref owner leaseRef : String) (durationMs : UInt64)
      (l : AgentLease) : call.op = .renew kind ref owner leaseRef durationMs →
      r.leases[(kind, ref)]? = some l → l.isActiveAt call.nowEpochMs = true →
      l.request.ownerAgentId = owner → l.leaseRef = leaseRef →
      Stepped blake3 r call (.ok (.renewed (prolong l durationMs call.nowEpochMs)),
        { r.removeExpired call.nowEpochMs with
          leases := (r.removeExpired call.nowEpochMs).leases.insert (kind, ref)
            (prolong l durationMs call.nowEpochMs) })

theorem step_spec (r : Registry) (call : Call) : Stepped blake3 r call (r.step blake3 call) := by
  obtain ⟨op, now⟩ := call
  cases op with
  | acquire q => exact .acquire q _ _ rfl (acquire_spec r q now)
  | release kind ref owner leaseRef =>
    obtain ⟨hkept, hwaits⟩ := release_spec r kind ref owner leaseRef now
    exact .drop _ _ (by simp) hkept hwaits
  | releaseFence owner fence =>
    obtain ⟨hkept, hwaits⟩ := releaseFence_spec r owner fence now
    exact .drop _ _ (by simp) hkept hwaits
  | renew kind ref owner leaseRef durationMs =>
    rcases renew_spec r kind ref owner leaseRef durationMs now with
      ⟨-, hkept, hwaits⟩ | ⟨l, hget, hactive, howner, href, heq⟩
    · exact .drop _ _ (by simp) hkept hwaits
    · simp only [step, heq]
      exact .renew kind ref owner leaseRef durationMs l rfl hget hactive howner href
  | revoke leaseRef =>
    obtain ⟨hkept, hwaits⟩ := revoke_spec r leaseRef now
    exact .drop _ _ (by simp) hkept hwaits

/-! ## Overlap -/

theorem resourcesOverlap_comm (kind kind' : ResourceKind) (ref ref' : String) :
    resourcesOverlap kind ref kind' ref' = resourcesOverlap kind' ref' kind ref := by
  by_cases hk : kind = kind'
  · subst hk
    unfold resourcesOverlap
    simp only [pathClaimsOverlap_comm ref ref', Bool.and_comm (startsWith ref _),
      BEq.comm (a := ref)]
  · have h : (kind == kind') = false := beq_eq_false_iff_ne.mpr hk
    have h' : (kind' == kind) = false := beq_eq_false_iff_ne.mpr (Ne.symm hk)
    rw [resourcesOverlap, resourcesOverlap, h, h', Bool.false_and, Bool.false_and]

/-- A reference belongs to one namespace at most. -/
theorem scheme_unique {scheme scheme' ref : String} (h : scheme ∈ hierarchicalPathSchemes)
    (h' : scheme' ∈ hierarchicalPathSchemes) (hs : startsWith ref scheme = true)
    (hs' : startsWith ref scheme' = true) : scheme = scheme' := by
  simp only [startsWith, List.isPrefixOf_iff_prefix] at hs hs'
  simp only [hierarchicalPathSchemes, List.mem_cons, List.not_mem_nil, or_false] at h h'
  have hcompare := List.prefix_or_prefix_of_prefix hs hs'
  rcases h with rfl | rfl <;> rcases h' with rfl | rfl
  · rfl
  · revert hcompare; decide
  · revert hcompare; decide
  · rfl

theorem overlappingPath_eq_none {r : Registry} {q : AgentLeaseRequest} {scheme : String}
    {k : Resource} {l : AgentLease} (h : r.overlappingPath q = none)
    (hkind : q.resourceKind = .path) (hscheme : scheme ∈ hierarchicalPathSchemes)
    (hq : startsWith q.resourceRef scheme = true) (hget : r.leases[k]? = some l)
    (hlkind : l.request.resourceKind = .path)
    (hl : startsWith l.request.resourceRef scheme = true) :
    pathClaimsOverlap l.request.resourceRef q.resourceRef = false := by
  unfold overlappingPath at h
  rw [if_pos hkind] at h
  cases hfind : hierarchicalPathSchemes.find? fun s => startsWith q.resourceRef s with
  | none => exact absurd hq (by simpa using List.find?_eq_none.mp hfind scheme hscheme)
  | some found =>
    have hfound : startsWith q.resourceRef found = true := by simpa using List.find?_some hfind
    have heq : found = scheme :=
      scheme_unique (List.mem_of_find?_eq_some hfind) hscheme hfound hq
    rw [hfind, Option.bind_some, List.find?_eq_none] at h
    have hmem : l ∈ r.leases.toList.map Prod.snd :=
      List.mem_map.mpr ⟨(k, l), Std.ExtTreeMap.mem_toList_iff_getElem?_eq_some.mpr hget, rfl⟩
    have := h l hmem
    simpa [hlkind, heq, hl] using this

/-! ## The invariant -/

/-- Leases are stored under their resource, and no two of them overlap. -/
structure Exclusive (r : Registry) : Prop where
  keyed : ∀ (k : Resource) (l : AgentLease), r.leases[k]? = some l → l.request.resource = k
  apart : ∀ (k k' : Resource) (l l' : AgentLease), k ≠ k' → r.leases[k]? = some l →
    r.leases[k']? = some l' → resourcesOverlap l.request.resourceKind l.request.resourceRef l'.request.resourceKind
      l'.request.resourceRef = false

/-- An admitted request overlaps none of the stored leases. -/
theorem Exclusive.admitted {r : Registry} (hr : Exclusive r) {q : AgentLeaseRequest}
    (hkey : r.leases[q.resource]? = none) (hpath : r.overlappingPath q = none) {k : Resource}
    {l : AgentLease} (hget : r.leases[k]? = some l) :
    resourcesOverlap l.request.resourceKind l.request.resourceRef q.resourceKind
      q.resourceRef = false := by
  by_contra hoverlap
  rw [Bool.not_eq_false, resourcesOverlap, Bool.and_eq_true, beq_iff_eq, Bool.or_eq_true,
    beq_iff_eq] at hoverlap
  obtain ⟨hkind, href | hpaths⟩ := hoverlap
  · have hk : q.resource = k := by
      rw [← hr.keyed k l hget]
      exact Prod.ext hkind.symm href.symm
    rw [hk, hget] at hkey
    cases hkey
  · simp only [Bool.and_eq_true, beq_iff_eq, List.any_eq_true] at hpaths
    obtain ⟨hlkind, scheme, hscheme, ⟨hl, hq⟩, hclaims⟩ := hpaths
    rw [overlappingPath_eq_none hpath (hkind ▸ hlkind) hscheme hq hget hlkind hl] at hclaims
    cases hclaims

theorem Exclusive.mono {r r' : Registry} (hr : Exclusive r) (h : Kept r r') : Exclusive r' := by
  constructor
  · intro k l hl
    exact hr.keyed k l (h k l hl)
  · intro k k' l l' hne hl hl'
    exact hr.apart k k' l l' hne (h k l hl) (h k' l' hl')

theorem Exclusive.insert {r r' : Registry} (hr : Exclusive r) {key : Resource} {lease : AgentLease}
    (h : r'.leases = r.leases.insert key lease) (hkey : lease.request.resource = key)
    (hapart : ∀ (k : Resource) (l : AgentLease), k ≠ key → r.leases[k]? = some l →
      resourcesOverlap l.request.resourceKind l.request.resourceRef lease.request.resourceKind
        lease.request.resourceRef = false) : Exclusive r' := by
  constructor
  · intro k l hl
    rw [h, OrdMap.get_insert] at hl
    split_ifs at hl with hk
    · cases hl
      rw [hkey, hk]
    · exact hr.keyed k l hl
  · intro k k' l l' hne hl hl'
    rw [h, OrdMap.get_insert] at hl hl'
    split_ifs at hl hl' with hk hk'
    · exact absurd (hk.symm.trans hk') hne
    · cases hl
      rw [resourcesOverlap_comm]
      exact hapart k' l' (fun he => hne (hk ▸ he.symm)) hl'
    · cases hl'
      rename_i hk'
      exact hapart k l (fun he => hne (he.trans hk')) hl
    · exact hr.apart k k' l l' hne hl hl'

theorem exclusive_new (maxLeases : ℕ) : Exclusive (Registry.new maxLeases) := by
  constructor <;> simp [Registry.new]

theorem Exclusive.acquired {r r' : Registry} (hr : Exclusive r) {q : AgentLeaseRequest}
    {now : UInt64} {result : Except AgentLeaseError AgentLeaseAcquire}
    (h : Acquired blake3 r q now (result, r')) : Exclusive r' := by
  have hexpired := hr.mono (kept_removeExpired r now)
  cases h with
  | invalid e => exact hr
  | replay existing => exact hr.mono (kept_of_leases now rfl)
  | held existing => exact hr.mono (kept_of_leases now (wait_leases _ q now))
  | reserved w => exact hr.mono (kept_of_leases now (wait_leases _ q now))
  | full => exact hexpired
  | inserted hv hkey hpath =>
    exact hexpired.insert rfl rfl fun k l _ hl => hexpired.admitted hkey hpath hl

theorem Exclusive.step {r : Registry} (hr : Exclusive r) (call : Call) :
    Exclusive (r.step blake3 call).2 := by
  have hexpired := hr.mono (kept_removeExpired r call.nowEpochMs)
  have hstep : Stepped blake3 r call (r.step blake3 call) := step_spec r call
  generalize r.step blake3 call = out at hstep
  cases hstep with
  | acquire q result r' _ h => exact hr.acquired h
  | drop reply r' _ hkept _ => exact hr.mono hkept
  | renew kind ref owner leaseRef durationMs l _ hget hactive =>
    -- A prolonged lease keeps its resource, so it is as far apart as before.
    have hl := get_removeExpired_of_active hget hactive
    refine hexpired.insert rfl (hr.keyed (kind, ref) l hget) ?_
    intro k l' hne hl'
    exact hexpired.apart k (kind, ref) l' l hne hl' hl

theorem Exclusive.run {r : Registry} (hr : Exclusive r) (calls : List Call) :
    Exclusive (r.run blake3 calls) := by
  induction calls generalizing r with
  | nil => exact hr
  | cons call calls ih => exact ih (hr.step call)

/-- The call was refused or failed. -/
def Refused : Except AgentLeaseError Reply → Prop
  | .error _ => True
  | .ok (.acquired (.heldBy ..)) => True
  | .ok _ => False

theorem kept_of_refused {r : Registry} {call : Call} (h : Refused (r.step blake3 call).1) :
    Kept r (r.step blake3 call).2 := by
  have hstep : Stepped blake3 r call (r.step blake3 call) := step_spec r call
  generalize r.step blake3 call = out at hstep h
  cases hstep with
  | acquire q result r' _ hacq =>
    cases hacq with
    | invalid e => exact Kept.refl r
    | replay existing => exact absurd h (by simp [Refused, Except.map])
    | held existing => exact kept_of_leases call.nowEpochMs (wait_leases _ q _)
    | reserved w => exact kept_of_leases call.nowEpochMs (wait_leases _ q _)
    | full => exact kept_removeExpired r _
    | inserted => exact absurd h (by simp [Refused, Except.map])
  | drop reply r' _ hkept _ => exact hkept
  | renew => exact absurd h (by simp [Refused])

/-- In every registry that any calls reach, at any clock readings, no two
leases overlap; and a refused or failed call neither adds nor extends a lease. -/
theorem leases_exclusive (blake3 : String → String) (maxLeases : ℕ) (calls : List Call) :
    (∀ (k k' : Resource) (l l' : AgentLease), k ≠ k' →
      ((Registry.new maxLeases).run blake3 calls).leases[k]? = some l →
      ((Registry.new maxLeases).run blake3 calls).leases[k']? = some l' →
      resourcesOverlap l.request.resourceKind l.request.resourceRef l'.request.resourceKind
        l'.request.resourceRef = false) ∧
    (∀ call, Refused (((Registry.new maxLeases).run blake3 calls).step blake3 call).1 →
      ∀ (k : Resource) (l : AgentLease),
        (((Registry.new maxLeases).run blake3 calls).step blake3 call).2.leases[k]? = some l →
        ((Registry.new maxLeases).run blake3 calls).leases[k]? = some l) :=
  ⟨((exclusive_new maxLeases).run calls).apart, fun _ => kept_of_refused⟩

end LeanCtx.Lease
