import LeanCtx.Effect
import LeanCtx.KeyedList
import Mathlib.Data.List.Chain
import Mathlib.Data.List.Induction
import Mathlib.Data.List.Nodup
import Mathlib.Data.List.Permutation
import Mathlib.Data.String.Basic

/-!
# The receipts of the two arms

An offline verifier finds the receipts of a bundle among its artifacts. It
walks back from the receipt of each arm, and accepts when the walks end at first
receipts, meet no receipt twice and leave none over. What it accepts is two
whole chains and nothing else.
-/

namespace LeanCtx.ReceiptChain

open KeyedList

/-! ## The bundle -/

structure VerifiedReceipt where
  chainId : String
  sequenceNumber : UInt64
  receiptId : String
  previousReceiptId : Option String
  previousSignatureDigest : Option String
  signatureDigest : String
  deriving DecidableEq

def VerifiedReceipt.position (r : VerifiedReceipt) : String × UInt64 :=
  (r.chainId, r.sequenceNumber)

inductive Kind
  | armReceipt
  | receiptPredecessor
  | other
  deriving DecidableEq

/-- An artifact; its receipt is what its bytes were verified to be, where it is one. -/
structure Artifact where
  kind : Kind
  receipt : VerifiedReceipt
  deriving DecidableEq

structure Item where
  reference : String
  digest : String
  artifact : Artifact
  deriving DecidableEq

/-- The items that are present, which were checked to have digests and references of their own. -/
structure VerifiedInventory where
  items : List Item
  digests : (items.map Item.digest).Nodup
  references : (items.map Item.reference).Nodup

namespace VerifiedInventory

variable (inv : VerifiedInventory)

def artifacts : List (String × Artifact) :=
  putAll [] (inv.items.map fun i => (i.digest, i.artifact))

def refs : List (String × String) := putAll [] (inv.items.map fun i => (i.reference, i.digest))

def receiptRefs : List String :=
  (inv.items.filter fun i => i.artifact.kind = .armReceipt).map Item.reference

end VerifiedInventory

structure TrustedReceiptChainHead where
  chainId : String
  sequenceNumber : UInt64
  receiptId : String

structure TrustStore where
  receiptChainHeads : List TrustedReceiptChainHead

/-! ## Verification -/

abbrev Result := Except String

def joinArm (receiptRefs : List String) (name : String) (evidenceRefs : List String) :
    Result String :=
  match evidenceRefs.filter fun reference => reference ∈ receiptRefs with
  | [reference] => .ok reference
  | _ => .error (name ++ " must join one distinct arm_receipt")

/-- The references that the arms join, in order. -/
def joinArms (inv : VerifiedInventory) (control treatment : List String) :
    Result (List String) := do
  let c ← joinArm inv.receiptRefs "control" control
  let t ← joinArm inv.receiptRefs "treatment" treatment
  if c = t then .error "treatment must join one distinct arm_receipt"
  else
    let joined := if c < t then [c, t] else [t, c]
    if inv.receiptRefs.length ≠ joined.length then
      .error "unreferenced or missing arm receipt inventory item"
    else .ok joined

structure Gathered where
  verified : List (String × VerifiedReceipt)
  receiptByRef : List (String × String)
  predecessorIds : List String
  positions : List (String × UInt64)

def Gathered.empty : Gathered := ⟨[], [], [], []⟩

def gather (inv : VerifiedInventory) (g : Gathered) (entry : String × Artifact) :
    Result Gathered :=
  let receipt := entry.2.receipt
  if entry.2.kind = .other then .ok g
  else if receipt.position ∈ g.positions ∨ (g.verified.lookup receipt.receiptId).isSome then
    .error "receipt inventory contains a duplicate chain position or ID"
  else
    let g := { g with
      positions := receipt.position :: g.positions
      verified := put receipt.receiptId receipt g.verified }
    if entry.2.kind = .armReceipt then
      match inv.refs.find? fun candidate => candidate.2 = entry.1 with
      | none => .error "arm receipt has no verified inventory ref"
      | some found =>
        .ok { g with receiptByRef := put found.1 receipt.receiptId g.receiptByRef }
    else .ok { g with predecessorIds := receipt.receiptId :: g.predecessorIds }

def checkedAdd (a b : UInt64) : Option UInt64 :=
  if a.toNat + b.toNat < 2 ^ 64 then some (a + b) else none

theorem checkedAdd_one {a b : UInt64} (h : checkedAdd a 1 = some b) :
    a.toNat + 1 = b.toNat := by
  unfold checkedAdd at h
  split_ifs at h with hlt
  obtain rfl := Option.some.inj h
  rw [UInt64.toNat_add]
  exact (Nat.mod_eq_of_lt hlt).symm

/-- Whether a receipt may come right before another. -/
def precedes (previous current : VerifiedReceipt) : Prop :=
  previous.chainId = current.chainId ∧
    checkedAdd previous.sequenceNumber 1 = some current.sequenceNumber ∧
    current.previousSignatureDigest = some previous.signatureDigest

instance (previous current : VerifiedReceipt) : Decidable (precedes previous current) :=
  inferInstanceAs (Decidable (_ ∧ _))

/-- The walk back from a receipt; it ends because the sequence numbers go down. -/
def verifyReceiptChain (receipts : List (String × VerifiedReceipt)) (current : VerifiedReceipt)
    (reachable : List String) : Result (List String) :=
  if current.receiptId ∈ reachable then
    .error "receipt chain contains a cycle or shared fork"
  else if current.sequenceNumber = 1 then .ok (current.receiptId :: reachable)
  else
    match current.previousReceiptId with
    | none => .error "non-genesis receipt omits predecessor ID"
    | some previousId =>
      match receipts.lookup previousId with
      | none => .error "receipt predecessor bytes are absent from inventory"
      | some previous =>
        if _h : precedes previous current then
          verifyReceiptChain receipts previous (current.receiptId :: reachable)
        else .error "receipt predecessor chain or signature binding is invalid"
termination_by current.sequenceNumber.toNat
decreasing_by
  have hnumber := checkedAdd_one _h.2.1
  omega

structure Walked where
  verifiedChains : List String
  reachable : List String

def walkArm (g : Gathered) (trust : TrustStore) (w : Walked) (reference : String) :
    Result Walked :=
  match g.receiptByRef.lookup reference with
  | none => .error "arm receipt ref did not resolve to verified bytes"
  | some receiptId =>
    match g.verified.lookup receiptId with
    | none => .error "arm receipt did not resolve to verified bytes"
    | some receipt =>
      match trust.receiptChainHeads.filter fun head => head.chainId = receipt.chainId with
      | [head] =>
        if head.sequenceNumber ≠ receipt.sequenceNumber ∨ head.receiptId ≠ receipt.receiptId ∨
            receipt.chainId ∈ w.verifiedChains then
          .error "receipt is stale, forked, duplicated, or absent from trusted chain heads"
        else do
          let reachable ← verifyReceiptChain g.verified receipt w.reachable
          .ok ⟨receipt.chainId :: w.verifiedChains, reachable⟩
      | _ => .error "receipt is stale, forked, duplicated, or absent from trusted chain heads"

/-- What follows once the arms are joined. -/
def verifyChains (inv : VerifiedInventory) (trust : TrustStore) (joined : List String) :
    Result Unit := do
  let g ← inv.artifacts.foldlM (gather inv) .empty
  let w ← joined.foldlM (walkArm g trust) ⟨[], []⟩
  if g.predecessorIds.any fun receiptId => receiptId ∉ w.reachable then
    .error "receipt inventory contains an unreferenced predecessor"
  else .ok ()

def verifyArmReceipts (inv : VerifiedInventory) (trust : TrustStore)
    (control treatment : List String) : Result String := do
  let joined ← joinArms inv control treatment
  verifyChains inv trust joined
  .ok (toString joined.length ++
    " canonical signed receipts resolve all lineage/evidence digests")

/-! ## Whole chains -/

/-- A chain from its first receipt to its head, without a gap. -/
structure CompleteChain (chain : List VerifiedReceipt) (head : VerifiedReceipt) : Prop where
  ends : chain.getLast? = some head
  numbered : chain.map (fun r => r.sequenceNumber.toNat) = List.range' 1 chain.length
  oneChain : ∀ r ∈ chain, r.chainId = head.chainId
  linked : chain.IsChain fun previous current =>
    current.previousReceiptId = some previous.receiptId ∧
      current.previousSignatureDigest = some previous.signatureDigest

/-- A chain as it is walked, from its head back. -/
inductive Lineage : VerifiedReceipt → List VerifiedReceipt → Prop
  | first {r : VerifiedReceipt} (h : r.sequenceNumber = 1) : Lineage r [r]
  | next {r p : VerifiedReceipt} {back : List VerifiedReceipt} (hnumber : r.sequenceNumber ≠ 1)
    (hid : r.previousReceiptId = some p.receiptId) (hp : precedes p r) (hback : Lineage p back) :
    Lineage r (r :: back)

theorem Lineage.head {r : VerifiedReceipt} {back : List VerifiedReceipt} (h : Lineage r back) :
    ∃ rest, back = r :: rest := by
  cases h <;> exact ⟨_, rfl⟩

theorem checkedAdd_eq_some {a b : UInt64} (h : a.toNat + 1 = b.toNat) :
    checkedAdd a 1 = some b := by
  have hlt : a.toNat + (1 : UInt64).toNat < 2 ^ 64 := by
    have hb := b.toNat_lt
    have hone : (1 : UInt64).toNat = 1 := rfl
    omega
  unfold checkedAdd
  rw [if_pos hlt]
  congr 1
  apply UInt64.toNat_inj.mp
  rw [UInt64.toNat_add, Nat.mod_eq_of_lt hlt, ← h]
  rfl

theorem Lineage.complete {r : VerifiedReceipt} {back : List VerifiedReceipt} (h : Lineage r back) :
    CompleteChain back.reverse r := by
  induction h with
  | @first r h =>
    refine ⟨rfl, ?_, ?_, List.isChain_singleton r⟩
    · rw [List.reverse_singleton, List.map_singleton, h]
      rfl
    · intro r' hr'
      rw [List.mem_singleton.mp hr']
  | @next r p back hnumber hid hp hback ih =>
    obtain ⟨hchain, hadd, hsignature⟩ := hp
    obtain ⟨rest, rfl⟩ := hback.head
    have hlast : (rest.reverse ++ [p]).map (fun r => r.sequenceNumber.toNat) =
        List.range' 1 (rest.length + 1) := by
      have hnumbered := ih.numbered
      rwa [List.reverse_cons, List.length_append, List.length_reverse] at hnumbered
    have hpnumber : p.sequenceNumber.toNat = 1 + rest.length := by
      rw [List.map_append, List.range'_concat, Nat.one_mul] at hlast
      exact (List.cons.inj (List.append_inj_right' hlast rfl)).1
    refine ⟨?_, ?_, ?_, ?_⟩
    · rw [List.reverse_cons, List.getLast?_concat]
    · have hrnumber := checkedAdd_one hadd
      rw [List.reverse_cons, List.map_append, ih.numbered, List.length_append, List.length_reverse,
        List.length_singleton, List.range'_concat, List.map_singleton]
      congr 2
      rw [← hrnumber, hpnumber, List.length_cons]
      omega
    · intro r' hr'
      rw [List.reverse_cons] at hr'
      rcases List.mem_append.mp hr' with hr' | hr'
      · exact (ih.oneChain r' hr').trans hchain
      · rw [List.mem_singleton.mp hr']
    · rw [List.reverse_cons]
      refine List.isChain_append.mpr ⟨ih.linked, List.isChain_singleton r, ?_⟩
      intro x hx y hy
      rw [ih.ends] at hx
      obtain rfl := Option.some.inj hx
      obtain rfl := Option.some.inj hy
      exact ⟨hid, hsignature⟩

theorem CompleteChain.lineage {chain : List VerifiedReceipt} {head : VerifiedReceipt}
    (h : CompleteChain chain head) : Lineage head chain.reverse := by
  induction chain using List.reverseRecOn generalizing head with
  | nil => exact absurd h.ends nofun
  | append_singleton front r ih =>
    obtain rfl : r = head := by
      have hends := h.ends
      rw [List.getLast?_concat] at hends
      exact Option.some.inj hends
    have hnumbered := h.numbered
    rw [List.length_append, List.length_singleton, List.range'_concat, List.map_append,
      Nat.one_mul] at hnumbered
    obtain ⟨hfront, hr⟩ := List.append_inj' hnumbered rfl
    have hnumber : r.sequenceNumber.toNat = 1 + front.length := (List.cons.inj hr).1
    rw [List.reverse_append, List.reverse_singleton, List.singleton_append]
    rcases List.eq_nil_or_concat front with rfl | ⟨front', p, rfl⟩
    · exact .first (UInt64.toNat_inj.mp hnumber)
    · obtain ⟨hlinked, -, hstep⟩ := List.isChain_append.mp h.linked
      have hlast : (front'.concat p).getLast? = some p := by
        rw [List.concat_eq_append, List.getLast?_concat]
      obtain ⟨hid, hsignature⟩ := hstep p hlast r rfl
      have hpchain : p.chainId = r.chainId := h.oneChain p (by simp)
      have hpcomplete : CompleteChain (front'.concat p) p := by
        refine ⟨by simp, hfront, ?_, hlinked⟩
        intro r' hr'
        exact (h.oneChain r' (List.mem_append_left _ hr')).trans hpchain.symm
      have hpnumber : p.sequenceNumber.toNat = 1 + front'.length := by
        have hlast := hpcomplete.numbered
        rw [List.concat_eq_append, List.length_append, List.length_singleton, List.range'_concat,
          List.map_append, Nat.one_mul] at hlast
        exact (List.cons.inj (List.append_inj_right' hlast rfl)).1
      have hadd : p.sequenceNumber.toNat + 1 = r.sequenceNumber.toNat := by
        rw [hpnumber, hnumber, List.length_concat]
        omega
      refine .next ?_ hid ⟨hpchain, checkedAdd_eq_some hadd, hsignature⟩ (ih hpcomplete)
      rintro hone
      rw [hone] at hadd
      exact absurd hadd (by rw [hpnumber, show (1 : UInt64).toNat = 1 from rfl]; omega)

/-! ## The walk -/

/-- A map of receipts by their ids. -/
def ById (receipts : List (String × VerifiedReceipt)) : Prop :=
  ∀ id r, receipts.lookup id = some r → r.receiptId = id

/-- A walk that succeeds has followed a lineage to its first receipt. -/
theorem verifyReceiptChain_ok {receipts : List (String × VerifiedReceipt)} (hids : ById receipts)
    {current : VerifiedReceipt} {reachable reachable' : List String}
    (h : verifyReceiptChain receipts current reachable = .ok reachable') :
    ∃ back, Lineage current back ∧
      (∀ r ∈ back.tail, receipts.lookup r.receiptId = some r) ∧
      reachable' = (back.map VerifiedReceipt.receiptId).reverse ++ reachable ∧
      (reachable.Nodup → reachable'.Nodup) := by
  induction hn : current.sequenceNumber.toNat using Nat.strongRecOn
    generalizing current reachable with
  | ind n ih =>
    unfold verifyReceiptChain at h
    split_ifs at h with hseen hone
    · obtain rfl := Except.ok.inj h
      exact ⟨[current], .first hone, nofun, rfl, fun hnodup => List.nodup_cons.mpr ⟨hseen, hnodup⟩⟩
    · cases hid : current.previousReceiptId with
      | none => rw [hid] at h; cases h
      | some previousId =>
        cases hprevious : receipts.lookup previousId with
        | none => simp only [hid, hprevious] at h; cases h
        | some previous =>
          simp only [hid, hprevious] at h
          split_ifs at h with hprecedes
          have hlt := checkedAdd_one hprecedes.2.1
          obtain ⟨back, hback, htail, hreach, hnodup⟩ := ih _ (by omega) h rfl
          obtain ⟨rest, rfl⟩ := hback.head
          refine ⟨current :: previous :: rest, ?_, ?_, ?_, ?_⟩
          · exact .next hone (by rw [hid, hids _ _ hprevious]) hprecedes hback
          · refine List.forall_mem_cons.mpr ⟨?_, htail⟩
            rw [hids _ _ hprevious]
            exact hprevious
          · rw [hreach]
            simp
          · exact fun hn => hnodup (List.nodup_cons.mpr ⟨hseen, hn⟩)

/-- Along a lineage whose receipts are there and were not met before, a walk succeeds. -/
theorem Lineage.walk {receipts : List (String × VerifiedReceipt)} {current : VerifiedReceipt}
    {back : List VerifiedReceipt} (h : Lineage current back) {reachable : List String}
    (htail : ∀ r ∈ back.tail, receipts.lookup r.receiptId = some r)
    (hnodup : ((back.map VerifiedReceipt.receiptId).reverse ++ reachable).Nodup) :
    verifyReceiptChain receipts current reachable =
      .ok ((back.map VerifiedReceipt.receiptId).reverse ++ reachable) := by
  induction h generalizing reachable with
  | @first r hone =>
    have hfresh : r.receiptId ∉ reachable := (List.nodup_cons.mp hnodup).1
    unfold verifyReceiptChain
    rw [if_neg hfresh, if_pos hone]
    rfl
  | @next r p back hnumber hid hp hback ih =>
    obtain ⟨rest, rfl⟩ := hback.head
    have hsplit : ((r :: p :: rest).map VerifiedReceipt.receiptId).reverse ++ reachable =
        ((p :: rest).map VerifiedReceipt.receiptId).reverse ++ r.receiptId :: reachable := by simp
    rw [hsplit] at hnodup ⊢
    have hfresh : r.receiptId ∉ reachable :=
      (List.nodup_cons.mp (hnodup.sublist (List.sublist_append_right _ _))).1
    have hlookup : receipts.lookup p.receiptId = some p := htail p List.mem_cons_self
    unfold verifyReceiptChain
    rw [if_neg hfresh, if_neg hnumber]
    simp only [hid, hlookup]
    rw [dif_pos hp]
    exact ih (fun r' hr' => htail r' (List.mem_cons_of_mem _ hr')) hnodup

/-! ## The receipts that are gathered -/

namespace VerifiedInventory

variable (inv : VerifiedInventory)

theorem mem_artifacts {e : String × Artifact} :
    e ∈ inv.artifacts ↔ ∃ i ∈ inv.items, (i.digest, i.artifact) = e := by
  rw [artifacts, mem_putAll_nil, List.mem_map]
  rw [List.map_map]
  exact inv.digests

theorem mem_refs {e : String × String} :
    e ∈ inv.refs ↔ ∃ i ∈ inv.items, (i.reference, i.digest) = e := by
  rw [refs, mem_putAll_nil, List.mem_map]
  rw [List.map_map]
  exact inv.references

theorem ascending_artifacts : Ascending inv.artifacts := Ascending.putAll List.Pairwise.nil

/-- A digest has one reference, and a reference one digest. -/
theorem refs_inj {d x y : String} (hx : (x, d) ∈ inv.refs) (hy : (y, d) ∈ inv.refs) : x = y := by
  obtain ⟨i, hi, hxi⟩ := inv.mem_refs.mp hx
  obtain ⟨j, hj, hyj⟩ := inv.mem_refs.mp hy
  obtain ⟨rfl, rfl⟩ := Prod.mk.inj hxi
  obtain ⟨rfl, hd⟩ := Prod.mk.inj hyj
  rw [List.inj_on_of_nodup_map inv.digests hj hi hd]

theorem refs_functional {x d d' : String} (h : (x, d) ∈ inv.refs) (h' : (x, d') ∈ inv.refs) :
    d = d' := by
  obtain ⟨i, hi, hxi⟩ := inv.mem_refs.mp h
  obtain ⟨j, hj, hyj⟩ := inv.mem_refs.mp h'
  obtain ⟨rfl, rfl⟩ := Prod.mk.inj hxi
  obtain ⟨hx, rfl⟩ := Prod.mk.inj hyj
  rw [List.inj_on_of_nodup_map inv.references hj hi hx]

/-- Every artifact has a reference. -/
theorem find_ref {e : String × Artifact} (h : e ∈ inv.artifacts) :
    ∃ reference, (reference, e.1) ∈ inv.refs ∧
      inv.refs.find? (fun candidate => candidate.2 = e.1) = some (reference, e.1) := by
  obtain ⟨i, hi, rfl⟩ := inv.mem_artifacts.mp h
  have href : (i.reference, i.digest) ∈ inv.refs := inv.mem_refs.mpr ⟨i, hi, rfl⟩
  cases hfind : inv.refs.find? (fun candidate => candidate.2 = i.digest) with
  | none =>
    have hnone := List.find?_eq_none.mp hfind _ href
    exact absurd (decide_eq_true rfl) hnone
  | some found =>
    have hdigest : found.2 = i.digest := by simpa using List.find?_some hfind
    have hmem : (found.1, i.digest) ∈ inv.refs := hdigest ▸ List.mem_of_find?_eq_some hfind
    refine ⟨found.1, hmem, ?_⟩
    rw [← hdigest]

end VerifiedInventory

def isReceipt (e : String × Artifact) : Bool := e.2.kind ≠ .other

def receiptsOf (l : List (String × Artifact)) : List VerifiedReceipt :=
  (l.filter isReceipt).map fun e => e.2.receipt

theorem receiptsOf_concat (l : List (String × Artifact)) (e : String × Artifact) :
    receiptsOf (l ++ [e]) = receiptsOf l ++ if isReceipt e then [e.2.receipt] else [] := by
  unfold receiptsOf
  rw [List.filter_append, List.map_append]
  congr 1
  cases h : isReceipt e <;> simp [h]

/-- The receipts so far, by their ids and positions. -/
structure Indexed (rs : List VerifiedReceipt) (verified : List (String × VerifiedReceipt))
    (positions : List (String × UInt64)) : Prop where
  ids : (rs.map VerifiedReceipt.receiptId).Nodup
  spots : (rs.map VerifiedReceipt.position).Nodup
  lookup : ∀ id r, verified.lookup id = some r ↔ r ∈ rs ∧ r.receiptId = id
  seen : ∀ p, p ∈ positions ↔ p ∈ rs.map VerifiedReceipt.position

theorem Indexed.fresh_iff {rs : List VerifiedReceipt} {verified : List (String × VerifiedReceipt)}
    {positions : List (String × UInt64)} (h : Indexed rs verified positions) (r : VerifiedReceipt) :
    ¬(r.position ∈ positions ∨ (verified.lookup r.receiptId).isSome = true) ↔
      ((rs ++ [r]).map VerifiedReceipt.receiptId).Nodup ∧
        ((rs ++ [r]).map VerifiedReceipt.position).Nodup := by
  have hlookup : (verified.lookup r.receiptId).isSome = true ↔
      r.receiptId ∈ rs.map VerifiedReceipt.receiptId := by
    rw [Option.isSome_iff_exists, List.mem_map]
    exact exists_congr fun r' => h.lookup _ r'
  rw [hlookup, h.seen, List.map_append, List.map_append, List.map_singleton, List.map_singleton,
    List.nodup_append, List.nodup_append, not_or, and_comm]
  simp [h.ids, h.spots]

theorem Indexed.add {rs : List VerifiedReceipt} {verified : List (String × VerifiedReceipt)}
    {positions : List (String × UInt64)} (h : Indexed rs verified positions) {r : VerifiedReceipt}
    (hids : ((rs ++ [r]).map VerifiedReceipt.receiptId).Nodup)
    (hspots : ((rs ++ [r]).map VerifiedReceipt.position).Nodup) :
    Indexed (rs ++ [r]) (put r.receiptId r verified) (r.position :: positions) where
  ids := hids
  spots := hspots
  lookup id r' := by
    have hfresh : r.receiptId ∉ rs.map VerifiedReceipt.receiptId := by
      rw [List.map_append, List.map_singleton] at hids
      intro hmem
      exact (List.nodup_append.mp hids).2.2 _ hmem _ List.mem_cons_self rfl
    rw [lookup_put, List.mem_append, List.mem_singleton]
    by_cases hid : id = r.receiptId
    · rw [if_pos hid, hid]
      constructor
      · rintro heq
        obtain rfl := Option.some.inj heq
        exact ⟨.inr rfl, rfl⟩
      · rintro ⟨hr' | rfl, heq⟩
        · exact absurd (heq ▸ List.mem_map_of_mem hr') hfresh
        · rfl
    · rw [if_neg hid, h.lookup]
      constructor
      · exact fun ⟨hr', heq⟩ => ⟨.inl hr', heq⟩
      · rintro ⟨hr' | rfl, heq⟩
        · exact ⟨hr', heq⟩
        · exact absurd heq.symm hid
  seen p := by
    rw [List.mem_cons, h.seen, List.map_append, List.mem_append, List.map_singleton,
      List.mem_singleton, or_comm]

/-- What the loop over the artifacts has gathered. -/
structure Holds (inv : VerifiedInventory) (l : List (String × Artifact)) (g : Gathered) : Prop where
  indexed : Indexed (receiptsOf l) g.verified g.positions
  byRef : ∀ e ∈ l, e.2.kind = .armReceipt → ∀ reference, (reference, e.1) ∈ inv.refs →
    g.receiptByRef.lookup reference = some e.2.receipt.receiptId
  predecessors : ∀ id, id ∈ g.predecessorIds ↔
    ∃ e ∈ l, e.2.kind = .receiptPredecessor ∧ e.2.receipt.receiptId = id

theorem holds_empty (inv : VerifiedInventory) : Holds inv [] .empty where
  indexed := ⟨List.Pairwise.nil, List.Pairwise.nil, by simp [Gathered.empty, receiptsOf],
    by simp [Gathered.empty, receiptsOf]⟩
  byRef := nofun
  predecessors := by simp [Gathered.empty]

section Step

variable {inv : VerifiedInventory} {l : List (String × Artifact)} {g : Gathered}
  {e : String × Artifact}

theorem Holds.other (h : Holds inv l g) (he : e.2.kind = .other) : Holds inv (l ++ [e]) g where
  indexed := by
    have hno : isReceipt e = false := by rw [isReceipt, he]; rfl
    rw [receiptsOf_concat, hno, if_neg (by decide), List.append_nil]
    exact h.indexed
  byRef e' he' hkind := by
    rcases List.mem_append.mp he' with he' | he'
    · exact h.byRef e' he' hkind
    · rw [List.mem_singleton.mp he', he] at hkind
      cases hkind
  predecessors id := by
    rw [h.predecessors]
    constructor
    · exact fun ⟨e', he', hid⟩ => ⟨e', List.mem_append_left _ he', hid⟩
    · rintro ⟨e', he', hkind, hid⟩
      rcases List.mem_append.mp he' with he' | he'
      · exact ⟨e', he', hkind, hid⟩
      · rw [List.mem_singleton.mp he', he] at hkind
        cases hkind

theorem Holds.arm (h : Holds inv l g) (hkey : ∀ e' ∈ l, e'.1 ≠ e.1) (he : e.2.kind = .armReceipt)
    (hindexed : Indexed (receiptsOf (l ++ [e])) (put e.2.receipt.receiptId e.2.receipt g.verified)
      (e.2.receipt.position :: g.positions)) {reference : String}
    (href : (reference, e.1) ∈ inv.refs) :
    Holds inv (l ++ [e]) ⟨put e.2.receipt.receiptId e.2.receipt g.verified,
      put reference e.2.receipt.receiptId g.receiptByRef, g.predecessorIds,
      e.2.receipt.position :: g.positions⟩ where
  indexed := hindexed
  byRef e' he' hkind reference' href' := by
    rw [lookup_put]
    rcases List.mem_append.mp he' with he' | he'
    · rw [if_neg]
      · exact h.byRef e' he' hkind reference' href'
      · rintro rfl
        exact hkey e' he' (inv.refs_functional href' href)
    · obtain rfl := List.mem_singleton.mp he'
      rw [if_pos (inv.refs_inj href' href)]
  predecessors id := by
    rw [h.predecessors]
    constructor
    · exact fun ⟨e', he', hid⟩ => ⟨e', List.mem_append_left _ he', hid⟩
    · rintro ⟨e', he', hkind, hid⟩
      rcases List.mem_append.mp he' with he' | he'
      · exact ⟨e', he', hkind, hid⟩
      · rw [List.mem_singleton.mp he', he] at hkind
        cases hkind

theorem Holds.predecessor (h : Holds inv l g) (he : e.2.kind = .receiptPredecessor)
    (hindexed : Indexed (receiptsOf (l ++ [e])) (put e.2.receipt.receiptId e.2.receipt g.verified)
      (e.2.receipt.position :: g.positions)) :
    Holds inv (l ++ [e]) ⟨put e.2.receipt.receiptId e.2.receipt g.verified, g.receiptByRef,
      e.2.receipt.receiptId :: g.predecessorIds, e.2.receipt.position :: g.positions⟩ where
  indexed := hindexed
  byRef e' he' hkind := by
    rcases List.mem_append.mp he' with he' | he'
    · exact h.byRef e' he' hkind
    · rw [List.mem_singleton.mp he', he] at hkind
      cases hkind
  predecessors id := by
    rw [List.mem_cons, h.predecessors]
    constructor
    · rintro (rfl | ⟨e', he', hid⟩)
      · exact ⟨e, List.mem_append_right _ List.mem_cons_self, he, rfl⟩
      · exact ⟨e', List.mem_append_left _ he', hid⟩
    · rintro ⟨e', he', hkind, hid⟩
      rcases List.mem_append.mp he' with he' | he'
      · exact .inr ⟨e', he', hkind, hid⟩
      · obtain rfl := List.mem_singleton.mp he'
        exact .inl hid.symm

/-- The next artifact is taken in exactly when its id and position are new. -/
theorem Holds.step (h : Holds inv l g) (hmem : e ∈ inv.artifacts) (hkey : ∀ e' ∈ l, e'.1 ≠ e.1) :
    (∃ g', gather inv g e = .ok g' ∧ Holds inv (l ++ [e]) g') ∨
      (∃ message, gather inv g e = .error message) ∧
        ¬(((receiptsOf (l ++ [e])).map VerifiedReceipt.receiptId).Nodup ∧
          ((receiptsOf (l ++ [e])).map VerifiedReceipt.position).Nodup) := by
  by_cases hother : e.2.kind = .other
  · exact .inl ⟨g, by rw [gather, if_pos hother], h.other hother⟩
  · have hreceipt : isReceipt e = true := by
      rw [isReceipt]
      exact decide_eq_true hother
    have hconcat : receiptsOf (l ++ [e]) = receiptsOf l ++ [e.2.receipt] := by
      rw [receiptsOf_concat, if_pos hreceipt]
    have hfresh := h.indexed.fresh_iff e.2.receipt
    unfold gather
    rw [if_neg hother, hconcat]
    by_cases hclash : e.2.receipt.position ∈ g.positions ∨
        (g.verified.lookup e.2.receipt.receiptId).isSome = true
    · rw [if_pos hclash]
      exact .inr ⟨⟨_, rfl⟩, fun hnodup => hfresh.mpr hnodup hclash⟩
    · rw [if_neg hclash]
      obtain ⟨hids, hspots⟩ := hfresh.mp hclash
      have hindexed := h.indexed.add hids hspots
      rw [← hconcat] at hindexed
      refine .inl ?_
      by_cases harm : e.2.kind = .armReceipt
      · obtain ⟨reference, href, hfind⟩ := inv.find_ref hmem
        simp only [if_pos harm, hfind]
        exact ⟨_, rfl, h.arm hkey harm hindexed href⟩
      · have hpredecessor : e.2.kind = .receiptPredecessor := by
          cases hkind : e.2.kind with
          | armReceipt => exact absurd hkind harm
          | receiptPredecessor => rfl
          | other => exact absurd hkind hother
        simp only [if_neg harm]
        exact ⟨_, rfl, h.predecessor hpredecessor hindexed⟩

end Step

/-- The loop succeeds exactly when all ids and positions are distinct. -/
theorem foldlM_gather {inv : VerifiedInventory} {l rest : List (String × Artifact)} {g : Gathered}
    (h : Holds inv l g) (hall : inv.artifacts = l ++ rest) :
    (∃ g', rest.foldlM (gather inv) g = .ok g' ∧ Holds inv inv.artifacts g') ∨
      (∃ message, rest.foldlM (gather inv) g = .error message) ∧
        ¬(((receiptsOf inv.artifacts).map VerifiedReceipt.receiptId).Nodup ∧
          ((receiptsOf inv.artifacts).map VerifiedReceipt.position).Nodup) := by
  induction rest generalizing l g with
  | nil =>
    rw [List.append_nil] at hall
    exact .inl ⟨g, rfl, hall ▸ h⟩
  | cons e rest ih =>
    have hsplit : inv.artifacts = (l ++ [e]) ++ rest := by rw [hall, List.append_assoc]; rfl
    have hmem : e ∈ inv.artifacts := by rw [hall]; simp
    have hkey : ∀ e' ∈ l, e'.1 ≠ e.1 := by
      intro e' he'
      have hsorted := inv.ascending_artifacts
      rw [hall] at hsorted
      exact ((List.pairwise_append.mp hsorted).2.2 e' he' e List.mem_cons_self).ne
    rw [List.foldlM_cons]
    rcases h.step hmem hkey with ⟨g', hg', hnext⟩ | ⟨⟨message, hmessage⟩, hclash⟩
    · rw [hg']
      exact ih hnext hsplit
    · rw [hmessage]
      refine .inr ⟨⟨message, rfl⟩, fun hnodup => hclash ?_⟩
      have hsublist : (receiptsOf (l ++ [e])).Sublist (receiptsOf inv.artifacts) := by
        rw [hsplit]
        exact ((List.sublist_append_left _ _).filter _).map _
      exact ⟨hnodup.1.sublist (hsublist.map _), hnodup.2.sublist (hsublist.map _)⟩

/-! ## Two whole chains -/

namespace VerifiedInventory

variable (inv : VerifiedInventory)

/-- The receipts of the arms and their predecessors. -/
def receipts : List VerifiedReceipt :=
  (inv.items.filter fun i => i.artifact.kind ≠ .other).map fun i => i.artifact.receipt

def armItems : List Item := inv.items.filter fun i => i.artifact.kind = .armReceipt

def armReceipts : List VerifiedReceipt := inv.armItems.map fun i => i.artifact.receipt

theorem perm_receipts : (receiptsOf inv.artifacts).Perm inv.receipts := by
  have hartifacts : inv.artifacts.Perm (inv.items.map fun i => (i.digest, i.artifact)) := by
    have hnodup : (inv.items.map fun i => (i.digest, i.artifact)).Nodup := by
      apply List.Nodup.of_map Prod.fst
      rw [List.map_map]
      exact inv.digests
    have hsorted : inv.artifacts.Nodup :=
      inv.ascending_artifacts.imp fun hlt heq => absurd (heq ▸ hlt) (lt_irrefl _)
    refine (List.perm_ext_iff_of_nodup hsorted hnodup).mpr fun e => ?_
    rw [inv.mem_artifacts, List.mem_map]
  have hreceipts := (hartifacts.filter isReceipt).map fun e => e.2.receipt
  rw [List.filter_map, List.map_map] at hreceipts
  exact hreceipts

end VerifiedInventory

/-- The only trusted head of the chain. -/
def Trusted (trust : TrustStore) (r : VerifiedReceipt) : Prop :=
  ∃ head, trust.receiptChainHeads.filter (fun head => head.chainId = r.chainId) = [head] ∧
    head.sequenceNumber = r.sequenceNumber ∧ head.receiptId = r.receiptId

/-- The receipts are two whole chains, one for each arm. -/
structure TwoChains (inv : VerifiedInventory) (trust : TrustStore) : Prop where
  ids : (inv.receipts.map VerifiedReceipt.receiptId).Nodup
  positions : (inv.receipts.map VerifiedReceipt.position).Nodup
  chains : ∃ c d a b, inv.receipts.Perm (c ++ d) ∧ inv.armReceipts.Perm [a, b] ∧
    CompleteChain c a ∧ CompleteChain d b ∧ a.chainId ≠ b.chainId ∧ Trusted trust a ∧
    Trusted trust b

theorem joinArm_ok {receiptRefs evidenceRefs : List String} {name reference : String}
    (h : joinArm receiptRefs name evidenceRefs = .ok reference) : reference ∈ receiptRefs := by
  unfold joinArm at h
  cases hfilter : evidenceRefs.filter fun reference => reference ∈ receiptRefs with
  | nil => rw [hfilter] at h; cases h
  | cons r rest =>
    cases rest with
    | cons => rw [hfilter] at h; cases h
    | nil =>
      rw [hfilter] at h
      obtain rfl := Except.ok.inj h
      have hmem : r ∈ evidenceRefs.filter fun reference => reference ∈ receiptRefs := by
        rw [hfilter]
        exact List.mem_cons_self
      simpa using (List.mem_filter.mp hmem).2

/-- The arms join the two arm receipts there are. -/
theorem joinArms_ok {inv : VerifiedInventory} {control treatment joined : List String}
    (h : joinArms inv control treatment = .ok joined) :
    ∃ i j, joined = [i.reference, j.reference] ∧ inv.armItems.Perm [i, j] := by
  unfold joinArms at h
  cases hc : joinArm inv.receiptRefs "control" control with
  | error => rw [hc] at h; cases h
  | ok c =>
    cases ht : joinArm inv.receiptRefs "treatment" treatment with
    | error => rw [hc, ht] at h; cases h
    | ok t =>
      have hjoin : (if c = t then
          Except.error "treatment must join one distinct arm_receipt" else
          if inv.receiptRefs.length ≠ (if c < t then [c, t] else [t, c]).length then
            .error "unreferenced or missing arm receipt inventory item"
          else .ok (if c < t then [c, t] else [t, c])) = Except.ok joined := by
        rw [hc, ht] at h
        exact h
      have hpair : (if c < t then [c, t] else [t, c]).length = 2 := by
        split_ifs <;> rfl
      rw [hpair] at hjoin
      by_cases hne : c = t
      · rw [if_pos hne] at hjoin
        cases hjoin
      · rw [if_neg hne] at hjoin
        by_cases hlength : inv.receiptRefs.length ≠ 2
        · rw [if_pos hlength] at hjoin
          cases hjoin
        · rw [if_neg hlength] at hjoin
          obtain rfl := Except.ok.inj hjoin
          have hrefs : inv.receiptRefs = inv.armItems.map Item.reference := rfl
          rw [not_not, hrefs, List.length_map] at hlength
          obtain ⟨p, q, hpq⟩ := List.length_eq_two.mp hlength
          rw [hrefs, hpq] at hc ht
          have hcmem := joinArm_ok hc
          have htmem := joinArm_ok ht
          simp only [List.map_cons, List.map_nil, List.mem_cons, List.not_mem_nil, or_false]
            at hcmem htmem
          rw [hpq]
          rcases hcmem with rfl | rfl <;> rcases htmem with rfl | rfl
          · exact absurd rfl hne
          · split_ifs
            · exact ⟨p, q, rfl, .refl _⟩
            · exact ⟨q, p, rfl, .swap _ _ _⟩
          · split_ifs
            · exact ⟨q, p, rfl, .swap _ _ _⟩
            · exact ⟨p, q, rfl, .refl _⟩
          · exact absurd rfl hne

/-- The walk of one arm. -/
theorem walkArm_iff {inv : VerifiedInventory} {g : Gathered} (hg : Holds inv inv.artifacts g)
    {i : Item} (hi : i ∈ inv.armItems) (trust : TrustStore) (w w' : Walked) :
    walkArm g trust w i.reference = .ok w' ↔
      Trusted trust i.artifact.receipt ∧ i.artifact.receipt.chainId ∉ w.verifiedChains ∧
        ∃ reachable, verifyReceiptChain g.verified i.artifact.receipt w.reachable = .ok reachable ∧
          w' = ⟨i.artifact.receipt.chainId :: w.verifiedChains, reachable⟩ := by
  obtain ⟨hitem, hkind⟩ := List.mem_filter.mp hi
  have harm : i.artifact.kind = .armReceipt := of_decide_eq_true hkind
  have hartifact : (i.digest, i.artifact) ∈ inv.artifacts := inv.mem_artifacts.mpr ⟨i, hitem, rfl⟩
  have hby := hg.byRef _ hartifact harm i.reference (inv.mem_refs.mpr ⟨i, hitem, rfl⟩)
  have hreceipt : i.artifact.receipt ∈ receiptsOf inv.artifacts := by
    refine List.mem_map.mpr ⟨_, List.mem_filter.mpr ⟨hartifact, ?_⟩, rfl⟩
    rw [isReceipt, harm]
    rfl
  have hverified := (hg.indexed.lookup _ _).mpr ⟨hreceipt, rfl⟩
  unfold walkArm
  simp only [hby, hverified]
  unfold Trusted
  cases hheads : trust.receiptChainHeads.filter fun head =>
      head.chainId = i.artifact.receipt.chainId with
  | nil => simp
  | cons head rest =>
    cases rest with
    | cons => simp
    | nil =>
      simp only [List.cons.injEq, and_true, exists_eq_left']
      by_cases hstale : head.sequenceNumber ≠ i.artifact.receipt.sequenceNumber ∨
          head.receiptId ≠ i.artifact.receipt.receiptId ∨
          i.artifact.receipt.chainId ∈ w.verifiedChains
      · rw [if_pos hstale]
        constructor
        · exact nofun
        · rintro ⟨⟨hsequence, hid⟩, hchain, -⟩
          rcases hstale with hstale | hstale | hstale
          · exact absurd hsequence hstale
          · exact absurd hid hstale
          · exact absurd hstale hchain
      · rw [if_neg hstale]
        obtain ⟨hsequence, hrest⟩ := not_or.mp hstale
        obtain ⟨hid, hchain⟩ := not_or.mp hrest
        cases hwalk : verifyReceiptChain g.verified i.artifact.receipt w.reachable with
        | error message =>
          constructor
          · exact nofun
          · rintro ⟨-, -, reachable, hok, -⟩
            cases hok
        | ok reachable =>
          constructor
          · intro hok
            exact ⟨⟨not_not.mp hsequence, not_not.mp hid⟩, hchain, reachable, rfl,
              (Except.ok.inj hok).symm⟩
          · rintro ⟨-, -, reachable', hok, rfl⟩
            rw [Except.ok.inj hok]
            rfl

/-- Two walks, one after the other, that leave no predecessor over. -/
theorem verifyChains_iff_walks {inv : VerifiedInventory} {g : Gathered}
    (hfold : inv.artifacts.foldlM (gather inv) .empty = .ok g) (hg : Holds inv inv.artifacts g)
    {i j : Item} (hi : i ∈ inv.armItems) (hj : j ∈ inv.armItems) (trust : TrustStore) :
    verifyChains inv trust [i.reference, j.reference] = .ok () ↔
      Trusted trust i.artifact.receipt ∧ Trusted trust j.artifact.receipt ∧
        i.artifact.receipt.chainId ≠ j.artifact.receipt.chainId ∧ ∃ mid last,
          verifyReceiptChain g.verified i.artifact.receipt [] = .ok mid ∧
          verifyReceiptChain g.verified j.artifact.receipt mid = .ok last ∧
          ∀ id ∈ g.predecessorIds, id ∈ last := by
  have hsweep : ∀ w : Walked, (if g.predecessorIds.any fun receiptId => receiptId ∉ w.reachable
      then Except.error "receipt inventory contains an unreferenced predecessor"
      else Except.ok ()) = Except.ok () ↔ ∀ id ∈ g.predecessorIds, id ∈ w.reachable := by
    intro w
    split_ifs with h
    · simp only [false_iff]
      simpa using h
    · simpa using h
  constructor
  · intro h
    obtain ⟨g', hg', h⟩ := except_bind_eq_ok.mp h
    obtain rfl := Except.ok.inj (hfold.symm.trans hg')
    obtain ⟨w, hw, h⟩ := except_bind_eq_ok.mp h
    obtain ⟨w₁, hw₁, hw⟩ := except_bind_eq_ok.mp hw
    obtain ⟨w₂, hw₂, hw⟩ := except_bind_eq_ok.mp hw
    obtain rfl := Except.ok.inj hw
    obtain ⟨htrusted, -, mid, hmid, rfl⟩ := (walkArm_iff hg hi trust _ _).mp hw₁
    obtain ⟨htrusted', hchain, last, hlast, rfl⟩ := (walkArm_iff hg hj trust _ _).mp hw₂
    refine ⟨htrusted, htrusted', ?_, mid, last, hmid, hlast, (hsweep _).mp h⟩
    exact fun heq => hchain (heq ▸ List.mem_cons_self)
  · rintro ⟨htrusted, htrusted', hchain, mid, last, hmid, hlast, hall⟩
    refine except_bind_eq_ok.mpr ⟨g, hfold, except_bind_eq_ok.mpr
      ⟨⟨[j.artifact.receipt.chainId, i.artifact.receipt.chainId], last⟩, ?_, (hsweep _).mpr hall⟩⟩
    refine except_bind_eq_ok.mpr ⟨_, (walkArm_iff hg hi trust _ _).mpr
      ⟨htrusted, nofun, mid, hmid, rfl⟩, ?_⟩
    refine except_bind_eq_ok.mpr ⟨_, (walkArm_iff hg hj trust _ _).mpr
      ⟨htrusted', ?_, last, hlast, rfl⟩, rfl⟩
    exact fun hmem => hchain (List.mem_singleton.mp hmem).symm

theorem arm_mem_receipts {inv : VerifiedInventory} {i : Item} (hi : i ∈ inv.armItems) :
    i.artifact.receipt ∈ inv.receipts := by
  obtain ⟨hitem, hkind⟩ := List.mem_filter.mp hi
  refine List.mem_map.mpr ⟨i, List.mem_filter.mpr ⟨hitem, ?_⟩, rfl⟩
  rw [of_decide_eq_true hkind]
  rfl

section Walks

variable {inv : VerifiedInventory} {g : Gathered} (hg : Holds inv inv.artifacts g)
include hg

theorem Holds.ids : (inv.receipts.map VerifiedReceipt.receiptId).Nodup :=
  (inv.perm_receipts.map _).nodup_iff.mp hg.indexed.ids

theorem Holds.lookup_iff {id : String} {r : VerifiedReceipt} :
    g.verified.lookup id = some r ↔ r ∈ inv.receipts ∧ r.receiptId = id := by
  rw [hg.indexed.lookup, inv.perm_receipts.mem_iff]

theorem Holds.byId : ById g.verified := fun _ _ h => (hg.lookup_iff.mp h).2

/-- A receipt is the head of an arm or one of the predecessors. -/
theorem Holds.arm_or_predecessor {i j : Item} (harms : inv.armItems.Perm [i, j])
    {r : VerifiedReceipt} (hr : r ∈ inv.receipts) :
    r = i.artifact.receipt ∨ r = j.artifact.receipt ∨ r.receiptId ∈ g.predecessorIds := by
  obtain ⟨item, hitem, rfl⟩ := List.mem_map.mp hr
  obtain ⟨hmem, hkind⟩ := List.mem_filter.mp hitem
  cases h : item.artifact.kind with
  | other => rw [h] at hkind; exact absurd hkind (by decide)
  | armReceipt =>
    have harm : item ∈ inv.armItems := List.mem_filter.mpr ⟨hmem, decide_eq_true h⟩
    rcases List.mem_cons.mp (harms.mem_iff.mp harm) with rfl | hj
    · exact .inl rfl
    · rw [List.mem_singleton.mp hj]
      exact .inr (.inl rfl)
  | receiptPredecessor =>
    refine .inr (.inr ((hg.predecessors _).mpr ⟨(item.digest, item.artifact), ?_, h, rfl⟩))
    exact inv.mem_artifacts.mpr ⟨item, hmem, rfl⟩

theorem Holds.predecessor_mem {id : String} (h : id ∈ g.predecessorIds) :
    ∃ r ∈ inv.receipts, r.receiptId = id := by
  obtain ⟨e, he, hkind, hid⟩ := (hg.predecessors id).mp h
  obtain ⟨item, hitem, rfl⟩ := inv.mem_artifacts.mp he
  refine ⟨item.artifact.receipt, List.mem_map.mpr ⟨item, ?_, rfl⟩, hid⟩
  refine List.mem_filter.mpr ⟨hitem, ?_⟩
  rw [show item.artifact.kind = .receiptPredecessor from hkind]
  rfl

/-- The receipts of a walk are receipts of the bundle. -/
theorem Holds.mem_back {head : VerifiedReceipt} {back : List VerifiedReceipt}
    (hhead : head ∈ inv.receipts) (hback : Lineage head back)
    (htail : ∀ r ∈ back.tail, g.verified.lookup r.receiptId = some r) :
    ∀ r ∈ back, r ∈ inv.receipts := by
  obtain ⟨rest, rfl⟩ := hback.head
  exact List.forall_mem_cons.mpr ⟨hhead, fun r hr => (hg.lookup_iff.mp (htail r hr)).1⟩

theorem chains_of_walks {i j : Item} (harms : inv.armItems.Perm [i, j]) {mid last : List String}
    (hmid : verifyReceiptChain g.verified i.artifact.receipt [] = .ok mid)
    (hlast : verifyReceiptChain g.verified j.artifact.receipt mid = .ok last)
    (hall : ∀ id ∈ g.predecessorIds, id ∈ last) :
    ∃ c d, inv.receipts.Perm (c ++ d) ∧ CompleteChain c i.artifact.receipt ∧
      CompleteChain d j.artifact.receipt := by
  obtain ⟨b, hb, hbtail, rfl, hbnodup⟩ := verifyReceiptChain_ok hg.byId hmid
  obtain ⟨b', hb', hbtail', rfl, hbnodup'⟩ := verifyReceiptChain_ok hg.byId hlast
  refine ⟨b.reverse, b'.reverse, ?_, hb.complete, hb'.complete⟩
  have hi := arm_mem_receipts (harms.mem_iff.mpr (show i ∈ [i, j] by simp))
  have hj := arm_mem_receipts (harms.mem_iff.mpr (show j ∈ [i, j] by simp))
  have hnodup : ((b.reverse ++ b'.reverse).map VerifiedReceipt.receiptId).Nodup := by
    have hwalked := hbnodup' (hbnodup List.nodup_nil)
    rw [List.append_nil] at hwalked
    rw [List.map_append, List.map_reverse, List.map_reverse]
    exact List.nodup_append_comm.mp hwalked
  have hsub : ∀ r ∈ b.reverse ++ b'.reverse, r ∈ inv.receipts := by
    intro r hr
    rcases List.mem_append.mp hr with hr | hr
    · exact hg.mem_back hi hb hbtail r (List.mem_reverse.mp hr)
    · exact hg.mem_back hj hb' hbtail' r (List.mem_reverse.mp hr)
  refine (List.perm_ext_iff_of_nodup (List.Nodup.of_map _ hg.ids)
    (List.Nodup.of_map _ hnodup)).mpr fun r => ⟨fun hr => ?_, hsub r⟩
  rcases hg.arm_or_predecessor harms hr with rfl | rfl | hid
  · obtain ⟨rest, rfl⟩ := hb.head
    simp
  · obtain ⟨rest, rfl⟩ := hb'.head
    simp
  · obtain ⟨r', hr', heq⟩ : ∃ r' ∈ b.reverse ++ b'.reverse, r'.receiptId = r.receiptId := by
      have hmem := hall _ hid
      rw [List.append_nil, ← List.map_reverse, ← List.map_reverse] at hmem
      rcases List.mem_append.mp hmem with hmem | hmem
      · obtain ⟨r', hr', heq⟩ := List.mem_map.mp hmem
        exact ⟨r', List.mem_append_right _ hr', heq⟩
      · obtain ⟨r', hr', heq⟩ := List.mem_map.mp hmem
        exact ⟨r', List.mem_append_left _ hr', heq⟩
    exact List.inj_on_of_nodup_map hg.ids (hsub r' hr') hr heq ▸ hr'

theorem walks_of_chains {i j : Item} {c d : List VerifiedReceipt}
    (hperm : inv.receipts.Perm (c ++ d)) (hc : CompleteChain c i.artifact.receipt)
    (hd : CompleteChain d j.artifact.receipt) : ∃ mid last,
      verifyReceiptChain g.verified i.artifact.receipt [] = .ok mid ∧
      verifyReceiptChain g.verified j.artifact.receipt mid = .ok last ∧
      ∀ id ∈ g.predecessorIds, id ∈ last := by
  have hlookup : ∀ r ∈ c ++ d, g.verified.lookup r.receiptId = some r :=
    fun r hr => hg.lookup_iff.mpr ⟨hperm.mem_iff.mpr hr, rfl⟩
  have hnodup : ((c ++ d).map VerifiedReceipt.receiptId).Nodup :=
    (hperm.map _).nodup_iff.mp hg.ids
  have hids : ∀ l : List VerifiedReceipt, (l.reverse.map VerifiedReceipt.receiptId).reverse =
      l.map VerifiedReceipt.receiptId := by
    intro l
    rw [List.map_reverse, List.reverse_reverse]
  rw [List.map_append] at hnodup
  refine ⟨c.map VerifiedReceipt.receiptId,
    d.map VerifiedReceipt.receiptId ++ c.map VerifiedReceipt.receiptId, ?_, ?_, ?_⟩
  · have hwalk : verifyReceiptChain g.verified i.artifact.receipt [] =
        .ok ((c.reverse.map VerifiedReceipt.receiptId).reverse ++ []) := by
      apply hc.lineage.walk
      · intro r hr
        exact hlookup r (List.mem_append_left _ (List.mem_reverse.mp (List.mem_of_mem_tail hr)))
      · rw [hids, List.append_nil]
        exact (List.nodup_append.mp hnodup).1
    rwa [hids, List.append_nil] at hwalk
  · have hwalk : verifyReceiptChain g.verified j.artifact.receipt
        (c.map VerifiedReceipt.receiptId) =
        .ok ((d.reverse.map VerifiedReceipt.receiptId).reverse ++
          c.map VerifiedReceipt.receiptId) := by
      apply hd.lineage.walk
      · intro r hr
        exact hlookup r (List.mem_append_right _ (List.mem_reverse.mp (List.mem_of_mem_tail hr)))
      · rw [hids]
        exact List.nodup_append_comm.mp hnodup
    rwa [hids] at hwalk
  · intro id hid
    obtain ⟨r, hr, rfl⟩ := hg.predecessor_mem hid
    rcases List.mem_append.mp (hperm.mem_iff.mp hr) with hr | hr
    · exact List.mem_append_right _ (List.mem_map_of_mem hr)
    · exact List.mem_append_left _ (List.mem_map_of_mem hr)

end Walks

/-- The receipts are accepted exactly when they are two whole chains. -/
theorem verifyChains_iff {inv : VerifiedInventory} {control treatment joined : List String}
    (hjoined : joinArms inv control treatment = .ok joined) (trust : TrustStore) :
    verifyChains inv trust joined = .ok () ↔ TwoChains inv trust := by
  obtain ⟨i, j, rfl, harms⟩ := joinArms_ok hjoined
  have hi : i ∈ inv.armItems := harms.mem_iff.mpr (by simp)
  have hj : j ∈ inv.armItems := harms.mem_iff.mpr (by simp)
  have hreceipts := inv.perm_receipts
  rcases foldlM_gather (holds_empty inv) (List.nil_append _).symm with
    ⟨g, hfold, hg⟩ | ⟨⟨message, hfold⟩, hclash⟩
  · rw [verifyChains_iff_walks hfold hg hi hj]
    have harmReceipts := harms.map fun i : Item => i.artifact.receipt
    constructor
    · rintro ⟨htrusted, htrusted', hchain, mid, last, hmid, hlast, hall⟩
      obtain ⟨c, d, hperm, hc, hd⟩ := chains_of_walks hg harms hmid hlast hall
      exact ⟨hg.ids, (hreceipts.map _).nodup_iff.mp hg.indexed.spots, c, d, _, _, hperm,
        harmReceipts, hc, hd, hchain, htrusted, htrusted'⟩
    · rintro ⟨-, -, c, d, a, b, hperm, hab, hc, hd, hchain, htrusted, htrusted'⟩
      -- The chains are listed in the order of the arms, or the other way round.
      rcases List.perm_pair.mp (hab.symm.trans harmReceipts) with h | h
      · obtain ⟨rfl, hb⟩ := List.cons.inj h
        obtain rfl := (List.cons.inj hb).1
        exact ⟨htrusted, htrusted', hchain, walks_of_chains hg hperm hc hd⟩
      · obtain ⟨rfl, hb⟩ := List.cons.inj h
        obtain rfl := (List.cons.inj hb).1
        exact ⟨htrusted', htrusted, hchain.symm,
          walks_of_chains hg (hperm.trans List.perm_append_comm) hd hc⟩
  · constructor
    · intro h
      obtain ⟨g, hg, -⟩ := except_bind_eq_ok.mp h
      rw [hfold] at hg
      cases hg
    · intro h
      refine absurd ⟨?_, ?_⟩ hclash
      · exact (hreceipts.map _).nodup_iff.mpr h.ids
      · exact (hreceipts.map _).nodup_iff.mpr h.positions

/-! ## A bundle of three receipts -/

def genesis : VerifiedReceipt := ⟨"x", 1, "p", none, none, "sig-p"⟩

def control : VerifiedReceipt := ⟨"x", 2, "a", some "p", some "sig-p", "sig-a"⟩

def treatment : VerifiedReceipt := ⟨"y", 1, "b", none, none, "sig-b"⟩

def bundle : VerifiedInventory where
  items := [⟨"ref-b", "2", ⟨.armReceipt, treatment⟩⟩, ⟨"ref-a", "1", ⟨.armReceipt, control⟩⟩,
    ⟨"ref-p", "3", ⟨.receiptPredecessor, genesis⟩⟩]
  digests := by decide
  references := by decide

def bundleTrust : TrustStore := ⟨[⟨"x", 2, "a"⟩, ⟨"y", 1, "b"⟩, ⟨"z", 7, "q"⟩]⟩

/-- The predecessor belongs to the chain of the control arm. -/
theorem verifyChains_iff_bundle :
    verifyChains bundle bundleTrust ["ref-a", "ref-b"] = .ok () ↔ TwoChains bundle bundleTrust :=
  verifyChains_iff (show joinArms bundle ["other", "ref-a"] ["ref-b"] = .ok ["ref-a", "ref-b"] by
    decide +kernel) bundleTrust

end LeanCtx.ReceiptChain
