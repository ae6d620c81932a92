import LeanCtx.WorkGraphCore

/-!
# Fusing the results of an accepted path

The claims of the receipts on the accepted path are grouped by key and value; a
key with one value is accepted, the others are reported as conflicts. The path
holds the accepted nodes and all their ancestors, and an ancestor may carry a
receipt of its own that was not accepted: `Stray` is a claim of such a receipt
that no accepted one makes, or that turns an agreement of accepted receipts
into a conflict. Fusion uses accepted work only exactly when there is none.
-/

namespace LeanCtx.BoundedWorkGraph

open Std

variable {g g' : BoundedWorkGraph} {blake3 : String → String}

structure ResultConflict where
  key : String
  values : List String
  nodeIds : List String
  deriving DecidableEq, Repr

structure FusedResults where
  accepted : OrdMap String String
  conflicts : List ResultConflict

/-- Node ids by claimed value. -/
abbrev Values := OrdMap String (List String)

/-- Values by claimed key. -/
abbrev Candidates := OrdMap String Values

def addCandidate (nodeId : String) (candidates : Candidates) (claim : ResultClaim) : Candidates :=
  let values := (candidates[claim.key]?).getD ∅
  candidates.insert claim.key
    (values.insert claim.value ((values[claim.value]?).getD [] ++ [nodeId]))

def addReceiptClaims (g : BoundedWorkGraph) (candidates : Candidates)
    (receipt : ChildExecutionReceipt) : Candidates :=
  if receipt.nodeId ∈ g.acceptedPath then
    receipt.claims.foldl (addCandidate receipt.nodeId) candidates
  else candidates

def candidates (g : BoundedWorkGraph) : Candidates :=
  (g.receipts.toList.map (·.2)).foldl g.addReceiptClaims ∅

def soleValue (values : Values) : Option String :=
  match values.toList with
  | [(value, _)] => some value
  | _ => none

def conflictOf (key : String) (values : Values) : ResultConflict where
  key := key
  values := values.keys
  nodeIds := ((values.toList.flatMap (·.2)).insertionSort (· ≤ ·)).destutter (· ≠ ·)

def fuseKey (fused : FusedResults) (entry : String × Values) : FusedResults :=
  match soleValue entry.2 with
  | some value => { fused with accepted := fused.accepted.insert entry.1 value }
  | none => { fused with conflicts := fused.conflicts ++ [conflictOf entry.1 entry.2] }

def fuseAcceptedResults (g : BoundedWorkGraph) : Except WorkGraphError FusedResults :=
  .ok (g.candidates.toList.foldl fuseKey ⟨∅, []⟩)

/-! ## What is grouped -/

/-- Some receipt of the graph that satisfies `P` claims the value for the key. -/
def Claimed (g : BoundedWorkGraph) (P : ChildExecutionReceipt → Prop) (key value : String) : Prop :=
  ∃ (id : String) (receipt : ChildExecutionReceipt), g.receipts[id]? = some receipt ∧ P receipt ∧
    ⟨key, value⟩ ∈ receipt.claims

def OnPath (g : BoundedWorkGraph) (receipt : ChildExecutionReceipt) : Prop :=
  receipt.nodeId ∈ g.acceptedPath

def Accepted (receipt : ChildExecutionReceipt) : Prop := receipt.outcome = .accepted

/-- The candidates hold the value under the key. -/
def Has (candidates : Candidates) (key value : String) : Prop :=
  ∃ values : Values, candidates[key]? = some values ∧ value ∈ values

/-- No key is kept without a value. -/
def Filled (candidates : Candidates) : Prop :=
  ∀ (key : String) (values : Values), candidates[key]? = some values → ∃ value, value ∈ values

theorem has_addCandidate {m : Candidates} {nodeId key value : String} {claim : ResultClaim} :
    Has (addCandidate nodeId m claim) key value ↔ Has m key value ∨ claim = ⟨key, value⟩ := by
  obtain ⟨k, v⟩ := claim
  unfold Has addCandidate
  simp only [OrdMap.get_insert, ResultClaim.mk.injEq]
  by_cases hk : k = key
  · subst hk
    simp only [if_true, Option.some.injEq, exists_eq_left', ExtTreeMap.mem_insert,
      Std.compare_eq_iff_eq, true_and]
    cases hm : m[k]? with
    | none => simp
    | some values => simp [or_comm]
  · simp [hk]

theorem filled_addCandidate {m : Candidates} (h : Filled m) (nodeId : String)
    (claim : ResultClaim) : Filled (addCandidate nodeId m claim) := by
  intro key values hget
  unfold addCandidate at hget
  rw [OrdMap.get_insert] at hget
  by_cases hk : claim.key = key
  · rw [if_pos hk, Option.some.injEq] at hget
    subst hget
    exact ⟨claim.value, ExtTreeMap.mem_insert_self⟩
  · rw [if_neg hk] at hget
    exact h key values hget

theorem has_addClaims {nodeId key value : String} (claims : List ResultClaim) (m : Candidates) :
    Has (claims.foldl (addCandidate nodeId) m) key value ↔ Has m key value ∨ ⟨key, value⟩ ∈ claims := by
  induction claims generalizing m with
  | nil => simp
  | cons claim claims ih =>
    rw [List.foldl_cons, ih, has_addCandidate, List.mem_cons, or_assoc, eq_comm (a := claim)]

theorem filled_addClaims {nodeId : String} (claims : List ResultClaim) {m : Candidates}
    (h : Filled m) : Filled (claims.foldl (addCandidate nodeId) m) := by
  induction claims generalizing m with
  | nil => exact h
  | cons claim claims ih => exact ih (filled_addCandidate h nodeId claim)

theorem has_addReceipts {key value : String} (receipts : List ChildExecutionReceipt)
    (m : Candidates) : Has (receipts.foldl g.addReceiptClaims m) key value ↔
      Has m key value ∨ ∃ r ∈ receipts, OnPath g r ∧ ⟨key, value⟩ ∈ r.claims := by
  induction receipts generalizing m with
  | nil => simp
  | cons r receipts ih =>
    have hone : Has (g.addReceiptClaims m r) key value ↔
        Has m key value ∨ (OnPath g r ∧ ⟨key, value⟩ ∈ r.claims) := by
      unfold addReceiptClaims
      by_cases hpath : r.nodeId ∈ g.acceptedPath
      · rw [if_pos hpath, has_addClaims]
        simp [OnPath, hpath]
      · rw [if_neg hpath]
        simp [OnPath, hpath]
    rw [List.foldl_cons, ih, hone, or_assoc]
    simp

theorem filled_addReceipts (receipts : List ChildExecutionReceipt) {m : Candidates}
    (h : Filled m) : Filled (receipts.foldl g.addReceiptClaims m) := by
  induction receipts generalizing m with
  | nil => exact h
  | cons r receipts ih =>
    refine ih ?_
    unfold addReceiptClaims
    split_ifs
    · exact filled_addClaims r.claims h
    · exact h

theorem has_candidates {key value : String} :
    Has g.candidates key value ↔ Claimed g (OnPath g) key value := by
  unfold candidates
  rw [has_addReceipts]
  have hempty : ¬ Has ∅ key value := by
    rintro ⟨values, hget, -⟩
    simp at hget
  simp only [hempty, false_or, List.mem_map, Prod.exists, exists_eq_right, Claimed,
    ExtTreeMap.mem_toList_iff_getElem?_eq_some]
  constructor
  · rintro ⟨r, ⟨id, hr⟩, h⟩
    exact ⟨id, r, hr, h⟩
  · rintro ⟨id, r, hr, h⟩
    exact ⟨r, ⟨id, hr⟩, h⟩

theorem filled_candidates (g : BoundedWorkGraph) : Filled g.candidates := by
  refine filled_addReceipts _ fun key values hget => ?_
  simp at hget

/-! ## What is fused -/

theorem soleValue_eq_some {values : Values} {value : String} :
    soleValue values = some value ↔ ∀ w, w ∈ values ↔ w = value := by
  have hkeys : ∀ w, w ∈ values ↔ w ∈ values.toList.map Prod.fst := by
    intro w
    rw [ExtTreeMap.map_fst_toList_eq_keys, ExtTreeMap.mem_keys]
  have hnodup : (values.toList.map Prod.fst).Nodup := by
    rw [ExtTreeMap.map_fst_toList_eq_keys]
    exact ExtTreeMap.nodup_keys
  simp only [hkeys]
  unfold soleValue
  generalize values.toList = entries at hnodup
  rcases entries with _ | ⟨⟨v, ids⟩, _ | ⟨⟨v', ids'⟩, rest⟩⟩
  · simp only [List.map_nil, List.not_mem_nil, false_iff, reduceCtorEq]
    intro h
    exact h value rfl
  · simp only [Option.some.injEq, List.map_cons, List.map_nil, List.mem_singleton]
    exact ⟨fun h w => by rw [h], fun h => (h v).mp rfl⟩
  · simp only [List.map_cons, reduceCtorEq, false_iff]
    intro h
    have hv := (h v).mp (by simp)
    have hv' := (h v').mp (by simp)
    simp [hv, hv'] at hnodup

/-- Keys are distinct, so each is written once. -/
theorem fuseKeys (l : List (String × Values)) (fused : FusedResults)
    (hnodup : (l.map Prod.fst).Nodup) :
    (∀ k v, (l.foldl fuseKey fused).accepted[k]? = some v ↔
      (∃ values, (k, values) ∈ l ∧ soleValue values = some v) ∨
        (fused.accepted[k]? = some v ∧ ∀ values, (k, values) ∈ l → soleValue values = none)) ∧
    (l.foldl fuseKey fused).conflicts = fused.conflicts ++
      (l.filter fun entry => (soleValue entry.2).isNone).map fun entry =>
        conflictOf entry.1 entry.2 := by
  induction l generalizing fused with
  | nil => simp
  | cons entry l ih =>
    obtain ⟨key, values⟩ := entry
    obtain ⟨hkey, hnodup⟩ := List.nodup_cons.mp hnodup
    have hother : ∀ values', (key, values') ∉ l := fun values' hmem =>
      hkey (List.mem_map.mpr ⟨(key, values'), hmem, rfl⟩)
    obtain ⟨hget, hconf⟩ := ih (fuseKey fused (key, values)) hnodup
    rw [List.foldl_cons]
    refine ⟨fun k v => (hget k v).trans ?_, hconf.trans ?_⟩
    · by_cases hk : k = key
      · subst hk
        simp only [hother, false_and, exists_false, false_or, List.mem_cons, Prod.mk.injEq, true_and,
          or_false, exists_eq_left, forall_eq, false_imp_iff, implies_true, and_true]
        cases hs : soleValue values with
        | some w => simp [fuseKey, hs]
        | none => simp [fuseKey, hs]
      · have hne : key ≠ k := fun h => hk h.symm
        simp only [List.mem_cons, Prod.mk.injEq, hk, false_and, false_or]
        cases hs : soleValue values with
        | some w => simp only [fuseKey, hs, OrdMap.get_insert, if_neg hne]
        | none => simp only [fuseKey, hs]
    · cases hs : soleValue values with
      | some w => simp [fuseKey, hs]
      | none => simp [fuseKey, hs]

/-- The results of a fusion, key by key. -/
structure Fuses (g : BoundedWorkGraph) (fused : FusedResults) : Prop where
  accepted : ∀ key value, fused.accepted[key]? = some value ↔
    ∀ w, Claimed g (OnPath g) key w ↔ w = value
  conflicts : ∀ conflict ∈ fused.conflicts, ∀ value,
    value ∈ conflict.values ↔ Claimed g (OnPath g) conflict.key value
  conflictKeys : ∀ key, key ∈ fused.conflicts.map (·.key) ↔
    ∃ v w, v ≠ w ∧ Claimed g (OnPath g) key v ∧ Claimed g (OnPath g) key w
  nodup : (fused.conflicts.map (·.key)).Nodup

theorem mem_candidates {key : String} {values : Values} (h : g.candidates[key]? = some values)
    (w : String) : w ∈ values ↔ Claimed g (OnPath g) key w := by
  rw [← has_candidates]
  exact ⟨fun hw => ⟨values, h, hw⟩, fun ⟨values', h', hw⟩ => by
    rwa [Option.some.inj (h.symm.trans h')]⟩

theorem fuses (g : BoundedWorkGraph) : Fuses g (g.candidates.toList.foldl fuseKey ⟨∅, []⟩) := by
  have hnodup : (g.candidates.toList.map Prod.fst).Nodup := by
    rw [ExtTreeMap.map_fst_toList_eq_keys]
    exact ExtTreeMap.nodup_keys
  obtain ⟨hget, hconf⟩ := fuseKeys g.candidates.toList ⟨∅, []⟩ hnodup
  rw [List.nil_append] at hconf
  have hkeys : ((g.candidates.toList.filter fun entry => (soleValue entry.2).isNone).map
      fun entry => conflictOf entry.1 entry.2).map (·.key) =
        (g.candidates.toList.filter fun entry => (soleValue entry.2).isNone).map Prod.fst := by
    rw [List.map_map]
    rfl
  refine ⟨fun key value => ?_, fun conflict hmem value => ?_, fun key => ?_, ?_⟩
  · rw [hget]
    simp only [ExtTreeMap.mem_toList_iff_getElem?_eq_some, ExtTreeMap.getElem?_empty, reduceCtorEq,
      false_and, or_false]
    constructor
    · rintro ⟨values, hvalues, hsole⟩ w
      rw [← mem_candidates hvalues]
      exact soleValue_eq_some.mp hsole w
    · intro h
      obtain ⟨values, hvalues, -⟩ := has_candidates.mpr ((h value).mpr rfl)
      exact ⟨values, hvalues, soleValue_eq_some.mpr fun w => (mem_candidates hvalues w).trans (h w)⟩
  · rw [hconf, List.mem_map] at hmem
    obtain ⟨⟨key, values⟩, hentry, rfl⟩ := hmem
    have hvalues := ExtTreeMap.mem_toList_iff_getElem?_eq_some.mp (List.mem_filter.mp hentry).1
    change value ∈ values.keys ↔ _
    rw [ExtTreeMap.mem_keys]
    exact mem_candidates hvalues value
  · rw [hconf, hkeys]
    simp only [List.mem_map, List.mem_filter, Prod.exists, exists_and_right, exists_eq_right,
      ExtTreeMap.mem_toList_iff_getElem?_eq_some, Option.isNone_iff_eq_none]
    constructor
    · rintro ⟨values, hvalues, hsole⟩
      obtain ⟨v, hv⟩ := filled_candidates g key values hvalues
      by_contra hagree
      refine absurd (soleValue_eq_some.mpr fun w => ?_) (by rw [hsole]; exact (Option.some_ne_none v).symm)
      constructor
      · intro hw
        by_contra hne
        exact hagree ⟨v, w, Ne.symm hne, (mem_candidates hvalues v).mp hv,
          (mem_candidates hvalues w).mp hw⟩
      · rintro rfl
        exact hv
    · rintro ⟨v, w, hne, hv, hw⟩
      obtain ⟨values, hvalues, hmem⟩ := has_candidates.mpr hv
      refine ⟨values, hvalues, ?_⟩
      cases hsole : soleValue values with
      | none => rfl
      | some u =>
        have hvu := (soleValue_eq_some.mp hsole v).mp hmem
        have hwu := (soleValue_eq_some.mp hsole w).mp ((mem_candidates hvalues w).mpr hw)
        exact absurd (hvu.trans hwu.symm) hne
  · rw [hconf, hkeys]
    exact hnodup.sublist (List.filter_sublist.map _)

/-! ## Accepted work only -/

/-- A receipt that was accepted and lies on the accepted path. -/
def AcceptedOnPath (g : BoundedWorkGraph) (receipt : ChildExecutionReceipt) : Prop :=
  OnPath g receipt ∧ Accepted receipt

/-- Two accepted receipts of the path claim different values for the key. -/
def Disagree (g : BoundedWorkGraph) (key : String) : Prop :=
  ∃ (id id' : String) (r r' : ChildExecutionReceipt) (v v' : String), id ≠ id' ∧
    g.receipts[id]? = some r ∧ g.receipts[id']? = some r' ∧ AcceptedOnPath g r ∧
    AcceptedOnPath g r' ∧ ⟨key, v⟩ ∈ r.claims ∧ ⟨key, v'⟩ ∈ r'.claims ∧ v ≠ v'

structure UsesAcceptedWorkOnly (g : BoundedWorkGraph) (fused : FusedResults) : Prop where
  accepted : ∀ key value, fused.accepted[key]? = some value → Claimed g Accepted key value
  conflicts : ∀ conflict ∈ fused.conflicts, ∀ value ∈ conflict.values,
    Claimed g Accepted conflict.key value
  once : ∀ key value, Claimed g (AcceptedOnPath g) key value →
    (fused.accepted.keys ++ fused.conflicts.map (·.key)).count key = 1
  conflict_iff : ∀ key value, Claimed g (AcceptedOnPath g) key value →
    (key ∈ fused.conflicts.map (·.key) ↔ Disagree g key)

/-- A claim of a receipt on the path that was not accepted: no accepted receipt makes it, or
the accepted receipts of the path agree on another value for its key. -/
def Stray (g : BoundedWorkGraph) (key value : String) : Prop :=
  Claimed g (fun receipt => OnPath g receipt ∧ ¬ Accepted receipt) key value ∧
    (¬ Claimed g Accepted key value ∨
      ∃ agreed, agreed ≠ value ∧ ∀ w, Claimed g (AcceptedOnPath g) key w ↔ w = agreed)

theorem Claimed.mono {P Q : ChildExecutionReceipt → Prop} {key value : String}
    (h : Claimed g P key value) (hPQ : ∀ r, P r → Q r) : Claimed g Q key value := by
  obtain ⟨id, r, hr, hP, hmem⟩ := h
  exact ⟨id, r, hr, hPQ r hP, hmem⟩

theorem claimed_onPath_cases {key value : String} (h : Claimed g (OnPath g) key value) :
    Claimed g (AcceptedOnPath g) key value ∨
      Claimed g (fun receipt => OnPath g receipt ∧ ¬ Accepted receipt) key value := by
  obtain ⟨id, r, hr, hpath, hmem⟩ := h
  by_cases ha : Accepted r
  · exact .inl ⟨id, r, hr, ⟨hpath, ha⟩, hmem⟩
  · exact .inr ⟨id, r, hr, ⟨hpath, ha⟩, hmem⟩

/-- Each stored receipt passed its check, which refuses two claims of one key. -/
def ReceiptsValid (g : BoundedWorkGraph) : Prop :=
  ∀ (id : String) (receipt : ChildExecutionReceipt), g.receipts[id]? = some receipt →
    validateReceipt receipt = .ok ()

theorem Reachable.receiptsValid (h : Reachable blake3 g) : ReceiptsValid g := by
  refine (Reachable.induction (P := ReceiptsValid) ?_ ?_ h).2
  · intro a b id receipt hget
    simp [BoundedWorkGraph.new] at hget
  · intro g g' _ hvalid hwrite id receipt hget
    cases hwrite.receiptChange with
    | same heq => exact hvalid id receipt (heq ▸ hget)
    | added hallowed _ _ _ heq =>
      rw [heq, OrdMap.get_insert] at hget
      split_ifs at hget with hid
      · obtain rfl := Option.some.inj hget
        exact hallowed.valid
      · exact hvalid id receipt hget

theorem validateReceiptClaims_keys {claims : List ResultClaim} {keys : List String}
    (h : validateReceiptClaims claims keys = .ok ()) :
    (claims.map (·.key)).Nodup ∧ ∀ claim ∈ claims, claim.key ∉ keys := by
  induction claims generalizing keys with
  | nil => simp
  | cons claim claims ih =>
    rw [validateReceiptClaims, except_seq_eq_ok, except_seq_eq_ok] at h
    obtain ⟨-, -, h⟩ := h
    split_ifs at h with hseen
    obtain ⟨hnodup, hfresh⟩ := ih h
    refine ⟨?_, ?_⟩
    · rw [List.map_cons, List.nodup_cons]
      refine ⟨fun hmem => ?_, hnodup⟩
      obtain ⟨other, hother, hkey⟩ := List.mem_map.mp hmem
      exact hfresh other hother (hkey ▸ List.mem_cons_self ..)
    · intro other hother
      rcases List.mem_cons.mp hother with rfl | hother
      · exact hseen
      · exact fun hmem => hfresh other hother (List.mem_cons_of_mem _ hmem)

theorem validateReceipt_claims {receipt : ChildExecutionReceipt}
    (h : validateReceipt receipt = .ok ()) {key v v' : String} (hv : ⟨key, v⟩ ∈ receipt.claims)
    (hv' : ⟨key, v'⟩ ∈ receipt.claims) : v = v' := by
  have hclaims : validateReceiptClaims receipt.claims [] = .ok () := by
    unfold validateReceipt at h
    simp only [except_seq_eq_ok] at h
    obtain ⟨-, -, -, h⟩ := h
    split_ifs at h
    exact h
  have heq := List.inj_on_of_nodup_map (validateReceiptClaims_keys hclaims).1 hv hv' rfl
  exact congrArg ResultClaim.value heq

theorem ReceiptsValid.disagree_iff (hvalid : ReceiptsValid g) {key : String} :
    Disagree g key ↔ ∃ v w, v ≠ w ∧ Claimed g (AcceptedOnPath g) key v ∧
      Claimed g (AcceptedOnPath g) key w := by
  constructor
  · rintro ⟨id, id', r, r', v, w, -, hr, hr', hp, hp', hv, hw, hne⟩
    exact ⟨v, w, hne, ⟨id, r, hr, hp, hv⟩, ⟨id', r', hr', hp', hw⟩⟩
  · rintro ⟨v, w, hne, ⟨id, r, hr, hp, hv⟩, ⟨id', r', hr', hp', hw⟩⟩
    refine ⟨id, id', r, r', v, w, ?_, hr, hr', hp, hp', hv, hw, hne⟩
    rintro rfl
    obtain rfl := Option.some.inj (hr.symm.trans hr')
    exact hne (validateReceipt_claims (hvalid id r hr) hv hw)

/-- A key that an accepted receipt of the path claims is listed once. -/
theorem Fuses.once {fused : FusedResults} (h : Fuses g fused) {key value : String}
    (hclaimed : Claimed g (OnPath g) key value) :
    (fused.accepted.keys ++ fused.conflicts.map (·.key)).count key = 1 := by
  have hdistinct : (fused.accepted.keys ++ fused.conflicts.map (·.key)).Nodup := by
    refine List.nodup_append.mpr ⟨ExtTreeMap.nodup_keys, h.nodup, ?_⟩
    rintro k hk _ hk' rfl
    obtain ⟨u, hu⟩ := (OrdMap.mem_iff _ _).mp (ExtTreeMap.mem_keys.mp hk)
    obtain ⟨v, w, hne, hv, hw⟩ := (h.conflictKeys k).mp hk'
    have hsole := (h.accepted k u).mp hu
    exact hne (((hsole v).mp hv).trans ((hsole w).mp hw).symm)
  refine List.count_eq_one_of_mem hdistinct ?_
  rw [List.mem_append, ExtTreeMap.mem_keys, OrdMap.mem_iff, h.conflictKeys]
  by_cases hdiff : ∃ w, w ≠ value ∧ Claimed g (OnPath g) key w
  · obtain ⟨w, hne, hw⟩ := hdiff
    exact .inr ⟨w, value, hne, hw, hclaimed⟩
  · refine .inl ⟨value, (h.accepted key value).mpr fun w => ⟨fun hw => ?_, ?_⟩⟩
    · by_contra hne
      exact hdiff ⟨w, hne, hw⟩
    · rintro rfl
      exact hclaimed

/-- A child's work is accepted below a parent whose own, partial receipt claims a draft. -/
def partialParent : List GraphOp :=
  [.addRoot "root" "lead" "capsule:1" ⟨100, 0, 100, 0⟩,
    .delegate "root" "parent" "planner" "capsule:2" ⟨60, 0, 60, 0⟩,
    .delegate "parent" "child" "worker" "capsule:3" ⟨20, 0, 20, 0⟩,
    .recordChildReceipt ⟨"receipt:1", "child", "outcome:1", .accepted, 5, 5, none,
      [⟨"answer", "yes"⟩], .reported⟩,
    .recordChildReceipt ⟨"receipt:2", "parent", "outcome:2", .partialResult, 5, 5, none,
      [⟨"plan", "draft"⟩], .reported⟩,
    .markAcceptedPath ["child"]]

end LeanCtx.BoundedWorkGraph
