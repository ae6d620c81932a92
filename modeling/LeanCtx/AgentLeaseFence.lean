import LeanCtx.AgentLeaseExclusion

/-!
# Fencing tokens

A token is the digest of a request and its expiry, so two inserted leases share
one exactly when they were granted for equal requests with equal expiries:
at the same clock reading, or both so late that the expiry is capped. In a run
that never grants a request again in this way every inserted lease has a token
of its own, and the token of a lease whose resource was granted again opens
nothing.
-/

namespace LeanCtx.Lease

open Registry

variable {blake3 : String → String}

/-! ## The token determines request and expiry -/

theorem repr_text_inj {m n : ℕ} {text r r' : List Char}
    (htext : ∃ c tail, text = c :: tail ∧ c.isDigit = false)
    (h : m.repr.toList ++ (text ++ r) = n.repr.toList ++ (text ++ r')) : m = n ∧ r = r' := by
  obtain ⟨c, tail, rfl, hc⟩ := htext
  obtain ⟨hmn, htail⟩ := JsonText.repr_append_inj hc hc h
  exact ⟨hmn, List.append_cancel_left htail⟩

theorem serialized_inj {kind kind' : ResourceKind} (h : kind.serialized = kind'.serialized) :
    kind = kind' := by
  cases kind <;> cases kind' <;> first | rfl | (revert h; decide)

theorem leaseJson_inj {q q' : AgentLeaseRequest} {expires expires' : UInt64}
    (h : leaseJson q expires = leaseJson q' expires') : q = q' ∧ expires = expires' := by
  unfold leaseJson at h
  obtain ⟨hversion, h⟩ := repr_text_inj ⟨',', _, rfl, rfl⟩ (List.append_cancel_left h)
  obtain ⟨href, h⟩ := JsonText.quote_append_inj h
  obtain ⟨hkind, h⟩ := JsonText.quote_append_inj (List.append_cancel_left h)
  obtain ⟨hresource, h⟩ := JsonText.quote_append_inj (List.append_cancel_left h)
  obtain ⟨howner, h⟩ := JsonText.quote_append_inj (List.append_cancel_left h)
  obtain ⟨hduration, h⟩ := repr_text_inj ⟨'\x7d', _, rfl, rfl⟩ (List.append_cancel_left h)
  have hexpires := (JsonText.repr_append_inj (by decide) (by decide) h).1
  exact ⟨AgentLeaseRequest.ext (UInt16.toNat_inj.mp hversion) href (serialized_inj hkind) hresource
    howner (UInt64.toNat_inj.mp hduration), UInt64.toNat_inj.mp hexpires⟩

theorem computeLeaseRef_inj (hinj : Function.Injective blake3) {q q' : AgentLeaseRequest}
    {expires expires' : UInt64}
    (h : computeLeaseRef blake3 q expires = computeLeaseRef blake3 q' expires') :
    q = q' ∧ expires = expires' := by
  have hdigest := hinj ((String.append_right_inj "lease:").mp h)
  exact leaseJson_inj (String.ofList_inj.mp hdigest)

/-! ## The leases a run inserts -/

/-- An inserted lease is determined by its request and the clock reading. -/
structure Grant where
  request : AgentLeaseRequest
  nowEpochMs : UInt64
deriving DecidableEq, Repr

def Grant.leaseRef (blake3 : String → String) (g : Grant) : String :=
  (grant blake3 g.request g.nowEpochMs).leaseRef

/-- The checks of `acquire` before it inserts a lease. -/
structure Admits (r : Registry) (q : AgentLeaseRequest) (now : UInt64) : Prop where
  valid : q.validate = .ok ()
  free : (r.removeExpired now).leases[q.resource]? = none
  path : (r.removeExpired now).overlappingPath q = none
  first : (r.removeExpired now).waitingBefore q = none
  room : (r.removeExpired now).leases.size < r.maxLeases

/-- The lease a call inserts: granted, and not a replay of a stored one. -/
def newGrant (blake3 : String → String) (r : Registry) (call : Call) : Option Grant :=
  match call.op, (r.step blake3 call).1 with
  | .acquire q, .ok (.acquired (.granted _)) =>
    if (r.removeExpired call.nowEpochMs).leases[q.resource]?.isNone then
      some ⟨q, call.nowEpochMs⟩
    else none
  | _, _ => none

/-- The leases a run inserts, in order. -/
def grants (blake3 : String → String) (r : Registry) : List Call → List Grant
  | [] => []
  | call :: calls =>
    (newGrant blake3 r call).toList ++ grants blake3 (r.step blake3 call).2 calls

/-- Either nothing is inserted, or the call is an admitted acquire and its
lease is inserted. -/
theorem newGrant_cases (blake3 : String → String) (r : Registry) (call : Call) :
    (newGrant blake3 r call = none ∧ ∀ (k : Resource) (l : AgentLease),
      (r.step blake3 call).2.leases[k]? = some l →
        ∃ l', r.leases[k]? = some l' ∧ l'.leaseRef = l.leaseRef) ∨
    ∃ q, call.op = .acquire q ∧ Admits r q call.nowEpochMs ∧
      newGrant blake3 r call = some ⟨q, call.nowEpochMs⟩ ∧
      (r.step blake3 call).1 = .ok (.acquired (.granted (grant blake3 q call.nowEpochMs))) ∧
      (r.step blake3 call).2.leases = (r.removeExpired call.nowEpochMs).leases.insert q.resource
        (grant blake3 q call.nowEpochMs) := by
  have hkept : ∀ {r' : Registry}, Kept r r' → ∀ (k : Resource) (l : AgentLease),
      r'.leases[k]? = some l → ∃ l', r.leases[k]? = some l' ∧ l'.leaseRef = l.leaseRef :=
    fun h k l hl => ⟨l, h k l hl, rfl⟩
  have hstep : Stepped blake3 r call (r.step blake3 call) := step_spec r call
  unfold newGrant
  generalize r.step blake3 call = out at hstep
  cases hstep with
  | acquire q result r' hop hacq =>
    have hwait : Kept r ((r.removeExpired call.nowEpochMs).wait q call.nowEpochMs) :=
      kept_of_leases call.nowEpochMs (wait_leases _ q _)
    cases hacq with
    | invalid e => exact .inl ⟨by simp [hop, Except.map], hkept (Kept.refl r)⟩
    | replay existing _ hget =>
      exact .inl ⟨by simp [hop, Except.map, hget], hkept (kept_of_leases call.nowEpochMs rfl)⟩
    | held existing => exact .inl ⟨by simp [hop, Except.map, heldByLease], hkept hwait⟩
    | reserved w => exact .inl ⟨by simp [hop, Except.map], hkept hwait⟩
    | full => exact .inl ⟨by simp [hop, Except.map], hkept (kept_removeExpired r _)⟩
    | inserted hv hget hpath hfirst hroom =>
      exact .inr ⟨q, hop, ⟨hv, hget, hpath, hfirst, hroom⟩, by simp [hop, Except.map, hget], rfl, rfl⟩
  | drop reply r' hop hk _ =>
    refine .inl ⟨?_, hkept hk⟩
    cases h : call.op with
    | acquire q => exact absurd h (hop q)
    | _ => rfl
  | renew kind ref owner leaseRef durationMs l hop hget hactive =>
    refine .inl ⟨by rw [hop], ?_⟩
    intro k l' hl'
    dsimp only at hl'
    rw [OrdMap.get_insert] at hl'
    split_ifs at hl' with hk
    · cases hl'
      exact ⟨l, hk ▸ hget, rfl⟩
    · exact ⟨l', get_of_get_removeExpired hl', rfl⟩

/-! ## Runs without a repeated grant -/

/-- Leases of this duration run out at the same reading: they start at the same
one, or both expiries are capped at `u64::MAX`. -/
def SameExpiry (durationMs now now' : UInt64) : Prop :=
  now = now' ∨
    (u64Max ≤ now.toNat + durationMs.toNat ∧ u64Max ≤ now'.toNat + durationMs.toNat)

theorem saturatingAdd_eq_iff {d t t' : UInt64} :
    saturatingAdd t d = saturatingAdd t' d ↔ SameExpiry d t t' := by
  have ht := toNat_le_u64Max t
  have ht' := toNat_le_u64Max t'
  rw [SameExpiry, ← UInt64.toNat_inj, toNat_saturatingAdd, toNat_saturatingAdd,
    ← UInt64.toNat_inj]
  omega

theorem Grant.leaseRef_inj (hinj : Function.Injective blake3) {g g' : Grant}
    (h : g.leaseRef blake3 = g'.leaseRef blake3) :
    g.request = g'.request ∧ SameExpiry g'.request.durationMs g.nowEpochMs g'.nowEpochMs := by
  obtain ⟨hrequest, hexpires⟩ := computeLeaseRef_inj hinj h
  rw [hrequest] at hexpires
  exact ⟨hrequest, saturatingAdd_eq_iff.mp hexpires⟩

/-- An admitted acquire does not repeat an inserted lease's request at a clock
reading that gives it the same expiry. -/
def Unrepeated (log : List Grant) (r : Registry) (call : Call) : Prop :=
  ∀ q, call.op = .acquire q → Admits r q call.nowEpochMs →
    ∀ g ∈ log, g.request = q → ¬ SameExpiry q.durationMs g.nowEpochMs call.nowEpochMs

/-- No step of the run repeats a grant; `log` holds the leases inserted before. -/
def NeverRepeats (blake3 : String → String) (log : List Grant) (r : Registry) : List Call → Prop
  | [] => True
  | call :: calls => Unrepeated log r call ∧
      NeverRepeats blake3 (log ++ (newGrant blake3 r call).toList) (r.step blake3 call).2 calls

/-- Inserted leases have different tokens, and a stored lease carries the token
of the last lease inserted for its resource. -/
structure Fenced (blake3 : String → String) (log : List Grant) (r : Registry) : Prop where
  fresh : (log.map (Grant.leaseRef blake3)).Nodup
  latest : ∀ (k : Resource) (l : AgentLease), r.leases[k]? = some l →
    ∃ (i : ℕ) (g : Grant), log[i]? = some g ∧ g.leaseRef blake3 = l.leaseRef ∧
      ∀ (j : ℕ) (g' : Grant), i < j → log[j]? = some g' → g'.request.resource ≠ k

theorem Fenced.step (hinj : Function.Injective blake3) {log : List Grant} {r : Registry}
    (hr : Fenced blake3 log r) {call : Call} (hcall : Unrepeated log r call) :
    Fenced blake3 (log ++ (newGrant blake3 r call).toList) (r.step blake3 call).2 := by
  rcases newGrant_cases blake3 r call with
    ⟨hnone, hold⟩ | ⟨q, hop, hadmits, hsome, -, hleases⟩
  · rw [hnone, Option.toList_none, List.append_nil]
    refine ⟨hr.fresh, ?_⟩
    intro k l hl
    obtain ⟨l', hl', href⟩ := hold k l hl
    rw [← href]
    exact hr.latest k l' hl'
  · rw [hsome, Option.toList_some]
    constructor
    · rw [List.map_append, List.nodup_append]
      refine ⟨hr.fresh, by simp, ?_⟩
      rintro ref href ref' href' rfl
      obtain ⟨g, hg, rfl⟩ := List.mem_map.mp href
      have heq : g.leaseRef blake3 = Grant.leaseRef blake3 ⟨q, call.nowEpochMs⟩ := by
        simpa using href'
      obtain ⟨hrequest, hexpiry⟩ := Grant.leaseRef_inj hinj heq
      exact hcall q hop hadmits g hg hrequest hexpiry
    · intro k l hl
      rw [hleases, OrdMap.get_insert] at hl
      split_ifs at hl with hk
      · cases hl
        refine ⟨log.length, ⟨q, call.nowEpochMs⟩, by simp, rfl, ?_⟩
        intro j g' hj hg'
        have hlt := (List.getElem?_eq_some_iff.mp hg').1
        simp only [List.length_append, List.length_singleton] at hlt
        omega
      · obtain ⟨i, g, hi, href, hlast⟩ := hr.latest k l (get_of_get_removeExpired hl)
        have hlt := (List.getElem?_eq_some_iff.mp hi).1
        refine ⟨i, g, by rw [List.getElem?_append_left hlt, hi], href, ?_⟩
        intro j g' hij hg'
        rw [List.getElem?_append] at hg'
        split_ifs at hg' with hj
        · exact hlast j g' hij hg'
        · rw [List.getElem?_singleton] at hg'
          split_ifs at hg'
          cases hg'
          exact hk

theorem Fenced.run (hinj : Function.Injective blake3) {log : List Grant} {r : Registry}
    (hr : Fenced blake3 log r) {calls : List Call} (hcalls : NeverRepeats blake3 log r calls) :
    Fenced blake3 (log ++ grants blake3 r calls) (r.run blake3 calls) := by
  induction calls generalizing log r with
  | nil => simpa [grants, Registry.run] using hr
  | cons call calls ih =>
    have hnext := ih (hr.step hinj hcalls.1) hcalls.2
    rwa [List.append_assoc] at hnext

/-- A renewal with a token that is not the stored one fails and removes nothing that is active. -/
theorem renew_stale {r : Registry} {kind : ResourceKind} {ref leaseRef : String}
    (h : ∀ l, r.leases[(kind, ref)]? = some l → l.leaseRef ≠ leaseRef) (owner : String)
    (durationMs now : UInt64) :
    (∃ e, (r.renew kind ref owner leaseRef durationMs now).1 = .error e) ∧
    ∀ (k : Resource) (l : AgentLease), r.leases[k]? = some l → l.isActiveAt now = true →
      (r.renew kind ref owner leaseRef durationMs now).2.leases[k]? = some l := by
  unfold renew
  split
  · exact ⟨⟨_, rfl⟩, fun _ _ hl _ => hl⟩
  · split
    · exact ⟨⟨_, rfl⟩, fun _ _ hl _ => hl⟩
    · rename_i existing hget
      have hne : existing.request.ownerAgentId ≠ owner ∨ existing.leaseRef ≠ leaseRef :=
        .inr (h existing hget)
      simp only [hne, if_true]
      split_ifs with hactive
      · refine ⟨⟨_, rfl⟩, fun k l hl hlive => ?_⟩
        rw [OrdMap.get_erase, if_neg, hl]
        rintro rfl
        rw [hget] at hl
        cases hl
        simp [hlive] at hactive
      · exact ⟨⟨_, rfl⟩, fun _ _ hl _ => hl⟩

theorem release_stale {r : Registry} {kind : ResourceKind} {ref leaseRef : String}
    (h : ∀ l, r.leases[(kind, ref)]? = some l → l.leaseRef ≠ leaseRef) (owner : String)
    (now : UInt64) :
    (r.release kind ref owner leaseRef now).1 ≠ .ok true ∧
    ∀ (k : Resource) (l : AgentLease), r.leases[k]? = some l → l.isActiveAt now = true →
      (r.release kind ref owner leaseRef now).2.leases[k]? = some l := by
  unfold release
  split
  · exact ⟨by simp, fun _ _ hl _ => hl⟩
  · dsimp only
    split
    · exact ⟨by simp, fun _ _ hl hlive => get_removeExpired_of_active hl hlive⟩
    · rename_i existing hget
      have hne := h existing (get_of_get_removeExpired hget)
      rw [if_pos (.inr hne)]
      exact ⟨by simp, fun _ _ hl hlive => get_removeExpired_of_active hl hlive⟩

/-- In every run that never repeats a grant, all inserted leases carry
different tokens; and once the resource of an inserted lease has been granted
again, a renewal with the old token fails, a release with it releases nothing,
and neither removes a lease that is still active. -/
theorem tokens_fresh (hinj : Function.Injective blake3) {maxLeases : ℕ} {calls : List Call}
    (hcalls : NeverRepeats blake3 [] (Registry.new maxLeases) calls) :
    ((grants blake3 (Registry.new maxLeases) calls).map (Grant.leaseRef blake3)).Nodup ∧
    ∀ (i j : ℕ) (g g' : Grant), i < j → (grants blake3 (Registry.new maxLeases) calls)[i]? = some g →
      (grants blake3 (Registry.new maxLeases) calls)[j]? = some g' →
      g.request.resource = g'.request.resource → ∀ (owner : String) (durationMs now : UInt64),
        let r := (Registry.new maxLeases).run blake3 calls
        let renewed := r.renew g.request.resourceKind g.request.resourceRef owner
          (g.leaseRef blake3) durationMs now
        let released := r.release g.request.resourceKind g.request.resourceRef owner
          (g.leaseRef blake3) now
        (∃ e, renewed.1 = .error e) ∧ released.1 ≠ .ok true ∧
        ∀ (k : Resource) (l : AgentLease), r.leases[k]? = some l → l.isActiveAt now = true →
          renewed.2.leases[k]? = some l ∧ released.2.leases[k]? = some l := by
  have hstart : Fenced blake3 [] (Registry.new maxLeases) := by
    constructor
    · simp
    · simp [Registry.new]
  have hend := hstart.run hinj hcalls
  rw [List.nil_append] at hend
  refine ⟨hend.fresh, ?_⟩
  intro i j g g' hij hi hj hresource owner durationMs now
  -- The stored lease carries the token of a grant at `j` or later.
  have hstale : ∀ l, ((Registry.new maxLeases).run blake3 calls).leases[
      (g.request.resourceKind, g.request.resourceRef)]? = some l →
      l.leaseRef ≠ g.leaseRef blake3 := by
    intro l hl heq
    obtain ⟨m, gm, hm, href, hlast⟩ := hend.latest _ l hl
    have hjm : j ≤ m := by
      by_contra hlt
      exact hlast j g' (not_le.mp hlt) hj hresource.symm
    have him : i = m := by
      have hi' := congrArg (Option.map (Grant.leaseRef blake3)) hi
      have hm' := congrArg (Option.map (Grant.leaseRef blake3)) hm
      rw [← List.getElem?_map] at hi' hm'
      have hlt := (List.getElem?_eq_some_iff.mp hi').1
      apply (List.getElem?_inj hlt hend.fresh).mp
      rw [hi', hm', Option.map_some, Option.map_some, href, heq]
    omega
  obtain ⟨hrenew, hrenewed⟩ := renew_stale hstale owner durationMs now
  obtain ⟨hrelease, hreleased⟩ := release_stale hstale owner now
  exact ⟨hrenew, hrelease, fun k l hl hlive => ⟨hrenewed k l hl hlive, hreleased k l hl hlive⟩⟩

/-! ## Grants that share a token -/

def pathRequest (ownerAgentId leaseRequestRef : String) : AgentLeaseRequest :=
  ⟨agentLeaseSchemaVersion, leaseRequestRef, .path, "pathref:src-core-main", ownerAgentId, 100⟩

def pathRelease (g : Grant) : Op :=
  .release .path "pathref:src-core-main" g.request.ownerAgentId (g.leaseRef id)

theorem tokens_fresh_reclaimed :
    let calls : List Call := [⟨.acquire (pathRequest "agent-a" "request:a"), 10⟩,
      ⟨pathRelease ⟨pathRequest "agent-a" "request:a", 10⟩, 20⟩,
      ⟨.acquire (pathRequest "agent-a" "request:a"), 21⟩]
    grants id (Registry.new 4) calls = [⟨pathRequest "agent-a" "request:a", 10⟩,
        ⟨pathRequest "agent-a" "request:a", 21⟩] ∧
      ((grants id (Registry.new 4) calls).map (Grant.leaseRef id)).Nodup := by
  refine ⟨by decide +kernel, (tokens_fresh Function.injective_id ?_).1⟩
  refine ⟨?_, ?_, ?_, trivial⟩
  · intro q _ _ g hg
    cases hg
  · intro q hop
    cases hop
  · intro q hop _ g hg _
    have hlog : [] ++ (newGrant id (Registry.new 4)
        ⟨.acquire (pathRequest "agent-a" "request:a"), 10⟩).toList ++
        (newGrant id ((Registry.new 4).step id
          ⟨.acquire (pathRequest "agent-a" "request:a"), 10⟩).2
          ⟨pathRelease ⟨pathRequest "agent-a" "request:a", 10⟩, 20⟩).toList =
        [⟨pathRequest "agent-a" "request:a", 10⟩] := by decide +kernel
    rw [hlog, List.mem_singleton] at hg
    cases hop
    subst hg
    unfold SameExpiry
    decide

/-- A lease that is released and granted again at one clock reading keeps its
token, and the old token releases the new lease. A lease that runs out at the
end of the clock is granted again with its old token, too. -/
theorem token_issued_twice :
    (let q := pathRequest "agent-a" "request:a"
     let calls : List Call := [⟨.acquire q, 10⟩, ⟨pathRelease ⟨q, 10⟩, 10⟩, ⟨.acquire q, 10⟩]
     grants id (Registry.new 4) calls = [⟨q, 10⟩, ⟨q, 10⟩] ∧
     (((Registry.new 4).run id calls).step id ⟨pathRelease ⟨q, 10⟩, 10⟩).1 = .ok (.released true)) ∧
    (let q := pathRequest "agent-a" "request:a"
     let late : UInt64 := 18446744073709551605
     let calls : List Call := [⟨.acquire q, late⟩, ⟨.acquire q, late + 10⟩]
     grants id (Registry.new 4) calls = [⟨q, late⟩, ⟨q, late + 10⟩] ∧
     Grant.leaseRef id ⟨q, late⟩ = Grant.leaseRef id ⟨q, late + 10⟩) := by
  decide +kernel

end LeanCtx.Lease
