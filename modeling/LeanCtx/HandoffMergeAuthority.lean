import LeanCtx.HandoffMergeSet

/-!
# The authority of merged evidence

A merged excerpt is stored with a source that was read again under a digest some
input recorded. That input is looked up by the path of the excerpt alone.
Conflicts are found among all facts, of which the first ones are kept.
-/

namespace LeanCtx.Handoff

/-- A source as it is bound to a stored ledger. -/
structure SourceRef where
  path : String
  tool : String
  admittedDigest : String
deriving DecidableEq

section Authority

variable {Path : Type}

/-- A source is bound only under the digest that was asked for. -/
def ReadsAsAdmitted (read : String → String → String → String → ℕ → Option SourceRef × ℕ) : Prop :=
  ∀ path project tool digest remaining source rest,
    read path project tool digest remaining = (some source, rest) → source = ⟨path, tool, digest⟩

/-- The environment as the merge finds it: what the sources say now, whether their authority is
required, the budget for reading, and the store. -/
def Env.atMerge (env : Env Path SourceRef)
    (read : String → String → String → String → ℕ → Option SourceRef × ℕ) (required : Bool)
    (budget : ℕ)
    (persist : HandoffLedger → List SourceRef → (PartKind → ℕ → Bool) → Except String Path) :
    Env Path SourceRef :=
  { env with readAdmitted := read, sourceAuthorityRequired := required, maxReadBytes := budget,
             persistLedger := persist }

def anyBound (inputs : List Input) : Bool :=
  ((mergeFindings inputs).1.2 ++ (mergeFacts inputs).1.2.1).any id

/-- The excerpts of a merge with the sources they are stored with. -/
def reboundExcerpts (env : Env Path SourceRef) (inputs : List Input) :
    Except String (Rebound SourceRef) :=
  rebind env inputs (mergeCurated env inputs).1 (anyBound inputs)

def HoldsExcerpt (input : Input) (excerpt : CuratedRef) : Prop :=
  ∃ held ∈ input.ledger.curatedRefs, held.path = excerpt.path ∧ held.content = excerpt.content

/-- The input's binding records the digest for the path of an excerpt. -/
def Records (input : Input) (path digest : String) : Prop :=
  ∃ project files, input.files = some (project, files) ∧
    ∃ file ∈ files, file.path = path ∧ file.tool = curatedTool ∧ file.digest = digest

/-- Every kept excerpt is bound under a digest of an input that holds it. -/
def EvidenceOwn (env : Env Path SourceRef) (inputs : List Input) (out : MergeOutcome Path) : Prop :=
  ∃ r, reboundExcerpts env inputs = .ok r ∧ out.ledger.curatedRefs = r.kept ∧
    ∀ (k : ℕ) excerpt source, r.kept[k]? = some excerpt → r.sources[k]? = some source →
      ∃ input ∈ inputs, HoldsExcerpt input excerpt ∧
        Records input excerpt.path source.admittedDigest

/-- Every value of a reported conflict is among the kept facts. -/
def ConflictsWhole (inputs : List Input) (out : MergeOutcome Path) : Prop :=
  ∀ c ∈ out.conflicts, ∀ input ∈ inputs, ∀ fact ∈ input.ledger.knowledge.facts,
    fact.category = c.category → fact.key = c.key →
    ∃ kept ∈ out.ledger.knowledge.facts, kept.category = c.category ∧ kept.key = c.key ∧
      kept.value = fact.value

/-! ## The conditions -/

/-- For each excerpt the merge considers: the digest of the first input that names its path is
recorded by an input that holds it. -/
def OwnDigests (env : Env Path SourceRef) (inputs : List Input) : Prop :=
  ∀ excerpt ∈ (mergeCurated env inputs).1, ∀ project file,
    namedSource inputs excerpt = some (project, file) →
      ∃ input ∈ inputs, HoldsExcerpt input excerpt ∧ Records input excerpt.path file.digest

/-- What tells one fact from another. -/
def KnowledgeFact.identity (fact : KnowledgeFact) : String × String × String :=
  (fact.category, fact.key, fact.value)

/-- The facts of all inputs in order, each once. -/
def distinctFacts (inputs : List Input) : List (String × String × String) :=
  uniqueOn id ((inputs.flatMap fun input => input.ledger.knowledge.facts).map
    KnowledgeFact.identity)

/-- No fact beyond the bound belongs to a key with several values. -/
def ConflictsFit (inputs : List Input) : Prop :=
  ∀ a ∈ (distinctFacts inputs).drop maxKnowledgeFacts, ∀ b ∈ distinctFacts inputs,
    b.1 = a.1 → b.2.1 = a.2.1 → b = a

/-! ## Excerpts and their sources -/

/-- A source bound for an excerpt is the one that the first naming input has. -/
def BoundFor (inputs : List Input) (excerpt : CuratedRef) (source : SourceRef) : Prop :=
  ∃ project file, namedSource inputs excerpt = some (project, file) ∧
    source = ⟨file.path, file.tool, file.digest⟩

theorem rebind_aligned {env : Env Path SourceRef} (hread : ReadsAsAdmitted env.readAdmitted)
    {inputs : List Input} {curated : List CuratedRef} {bound : Bool} {r : Rebound SourceRef}
    (h : rebind env inputs curated bound = .ok r) :
    ∃ front rest, r.sources = front ++ rest ∧ List.Forall₂ (BoundFor inputs) r.kept front := by
  obtain ⟨acc, hacc, h⟩ := except_bind_eq_ok.mp h
  have hfirst : List.Forall₂ (BoundFor inputs) acc.kept acc.sources := by
    refine foldlM_keeps
      (P := fun acc : Rebound SourceRef => List.Forall₂ (BoundFor inputs) acc.kept acc.sources)
      ?_ List.Forall₂.nil hacc
    intro b excerpt _ b' hb hstep
    unfold rebindExcerpt at hstep
    split at hstep
    · cases hstep
      exact hb
    · rename_i project file hnamed
      split at hstep
      · rename_i source remaining hsource
        cases hstep
        refine List.rel_append hb (.cons ⟨project, file, hnamed, ?_⟩ .nil)
        exact hread _ _ _ _ _ _ _ hsource
      · split_ifs at hstep
        cases hstep
        exact hb
  have hparts : ∃ rest, r.sources = acc.sources ++ rest ∧ r.kept = acc.kept := by
    split_ifs at h
    · refine foldlM_keeps (P := fun b : Rebound SourceRef =>
        ∃ rest, b.sources = acc.sources ++ rest ∧ b.kept = acc.kept) ?_ ⟨[], by simp, rfl⟩ h
      intro b input _ b' hb hstep
      split at hstep
      · cases hstep
        exact hb
      · refine foldlM_keeps (P := fun b : Rebound SourceRef =>
          ∃ rest, b.sources = acc.sources ++ rest ∧ b.kept = acc.kept) ?_ hb hstep
        rintro b file _ b' ⟨rest, hsources, hkept⟩ hpart
        unfold rebindPart at hpart
        split at hpart
        · rename_i source remaining _
          cases hpart
          exact ⟨rest ++ [source], by rw [← List.append_assoc, ← hsources], hkept⟩
        · split_ifs at hpart
          cases hpart
          exact ⟨rest, hsources, hkept⟩
    · cases h
      exact ⟨[], by simp, rfl⟩
  obtain ⟨rest, hsources, hkept⟩ := hparts
  exact ⟨acc.sources, rest, hsources, hkept ▸ hfirst⟩

/-- Sources that all still read as they were admitted. -/
def readAlways (path _project tool digest : String) (remaining : ℕ) : Option SourceRef × ℕ :=
  (some ⟨path, tool, digest⟩, remaining)

theorem readsAsAdmitted_always : ReadsAsAdmitted readAlways := by
  rintro path project tool digest remaining source rest h
  cases h
  rfl

/-- The sources of the parts that one input recorded as bound. -/
def rebindParts (env : Env Path SourceRef) (acc : Rebound SourceRef) (input : Input) :
    Except String (Rebound SourceRef) :=
  match input.files with
  | none => .ok acc
  | some (project, files) =>
    (files.filter fun file => file.tool != curatedTool).foldlM (rebindPart env project) acc

/-- Then every excerpt that an input names is kept. -/
theorem rebind_always (env : Env Path SourceRef) (hread : env.readAdmitted = readAlways)
    (inputs : List Input) (curated : List CuratedRef) (bound : Bool) :
    ∃ r, rebind env inputs curated bound = .ok r ∧
      r.kept = curated.filter fun excerpt => (namedSource inputs excerpt).isSome := by
  have hfirst : ∀ (curated : List CuratedRef) (acc : Rebound SourceRef),
      ∃ r, curated.foldlM (rebindExcerpt env inputs) acc = .ok r ∧
        r.kept = acc.kept ++ curated.filter fun excerpt => (namedSource inputs excerpt).isSome := by
    intro curated
    induction curated with
    | nil => exact fun acc => ⟨acc, rfl, by simp⟩
    | cons excerpt curated ih =>
      intro acc
      cases hnamed : namedSource inputs excerpt with
      | none =>
        have hstep : rebindExcerpt env inputs acc excerpt =
            .ok { acc with unbound := acc.unbound + 1 } := by
          rw [rebindExcerpt, hnamed]
        obtain ⟨r, hr, hkept⟩ := ih { acc with unbound := acc.unbound + 1 }
        refine ⟨r, ?_, ?_⟩
        · rw [List.foldlM_cons, hstep]
          exact hr
        · rw [hkept, List.filter_cons_of_neg (by simp [hnamed])]
      | some named =>
        obtain ⟨project, file⟩ := named
        have hstep : rebindExcerpt env inputs acc excerpt = .ok ⟨acc.kept ++ [excerpt],
            acc.sources ++ [⟨file.path, file.tool, file.digest⟩], acc.unbound, acc.remaining⟩ := by
          rw [rebindExcerpt, hnamed, hread]
          rfl
        obtain ⟨r, hr, hkept⟩ := ih ⟨acc.kept ++ [excerpt],
          acc.sources ++ [⟨file.path, file.tool, file.digest⟩], acc.unbound, acc.remaining⟩
        refine ⟨r, ?_, ?_⟩
        · rw [List.foldlM_cons, hstep]
          exact hr
        · rw [hkept, List.filter_cons_of_pos (by simp [hnamed]), List.append_assoc]
          rfl
  have hfiles : ∀ (project : String) (files : List FileSource) (acc : Rebound SourceRef),
      ∃ r, files.foldlM (rebindPart env project) acc = .ok r ∧ r.kept = acc.kept := by
    intro project files
    induction files with
    | nil => exact fun acc => ⟨acc, rfl, rfl⟩
    | cons file files ih =>
      intro acc
      have hstep : rebindPart env project acc file = .ok
          { acc with sources := acc.sources ++ [⟨file.path, file.tool, file.digest⟩] } := by
        rw [rebindPart, hread]
        rfl
      obtain ⟨r, hr, hkept⟩ := ih
        { acc with sources := acc.sources ++ [⟨file.path, file.tool, file.digest⟩] }
      refine ⟨r, ?_, hkept⟩
      rw [List.foldlM_cons, hstep]
      exact hr
  have hparts : ∀ (bound : List Input) (acc : Rebound SourceRef),
      ∃ r, bound.foldlM (rebindParts env) acc = .ok r ∧ r.kept = acc.kept := by
    intro bound
    induction bound with
    | nil => exact fun acc => ⟨acc, rfl, rfl⟩
    | cons input bound ih =>
      intro acc
      rw [List.foldlM_cons]
      cases hfiles' : input.files with
      | none =>
        rw [rebindParts, hfiles']
        exact ih acc
      | some bound =>
        obtain ⟨project, files⟩ := bound
        obtain ⟨mid, hmid, hkept⟩ := hfiles project
          (files.filter fun file => file.tool != curatedTool) acc
        obtain ⟨r, hr, hkept'⟩ := ih mid
        refine ⟨r, ?_, hkept'.trans hkept⟩
        rw [rebindParts, hfiles']
        dsimp only
        rw [hmid]
        exact hr
  obtain ⟨acc, hacc, hkept⟩ := hfirst curated ⟨[], [], 0, env.maxReadBytes⟩
  rw [List.nil_append] at hkept
  cases bound with
  | false =>
    refine ⟨acc, ?_, hkept⟩
    rw [rebind, hacc]
    rfl
  | true =>
    obtain ⟨r, hr, hkept'⟩ := hparts (inputs.filter fun input => !input.bound.isEmpty) acc
    refine ⟨r, ?_, hkept'.trans hkept⟩
    rw [rebind, hacc]
    exact hr

/-! ## Facts and their conflicts -/

theorem map_identity_addFact (acc : List (KnowledgeFact × Bool)) (part : KnowledgeFact × Bool) :
    (addFact acc part).map (fun p => p.1.identity) =
      if (acc.map fun p => p.1.identity).any (fun t => t = part.1.identity) then
        acc.map fun p => p.1.identity
      else (acc.map fun p => p.1.identity) ++ [part.1.identity] := by
  have hsame : ∀ kept : KnowledgeFact × Bool,
      kept.1.same part.1 = decide (kept.1.identity = part.1.identity) := by
    intro kept
    rw [Bool.eq_iff_iff, KnowledgeFact.same_iff, decide_eq_true_iff, KnowledgeFact.identity,
      KnowledgeFact.identity, Prod.mk.injEq, Prod.mk.injEq]
  have hany : (acc.map fun p => p.1.identity).any (fun t => t = part.1.identity) =
      acc.any fun kept => kept.1.same part.1 := by
    rw [List.any_map]
    exact congrArg acc.any (funext fun kept => (hsame kept).symm)
  rw [hany]
  unfold addFact
  split
  · rename_i i hi
    have hfound : acc.any (fun kept => kept.1.same part.1) = true := by
      obtain ⟨hlt, hi, -⟩ := List.findIdx?_eq_some_iff_getElem.mp hi
      exact List.any_eq_true.mpr ⟨acc[i], List.getElem_mem hlt, hi⟩
    rw [if_pos hfound]
    apply List.ext_getElem?
    intro j
    rw [List.getElem?_map, List.getElem?_map, List.getElem?_modify]
    cases acc[j]? with
    | none => rfl
    | some kept =>
      rw [Option.map_eq_map, Option.map_some, Option.map_some]
      split_ifs <;> rfl
  · rename_i hnone
    have hfresh : acc.any (fun kept => kept.1.same part.1) = false := by
      rw [List.any_eq_false]
      intro kept hkept
      simpa using List.findIdx?_eq_none_iff.mp hnone kept hkept
    rw [if_neg (by rw [hfresh]; decide), List.map_append]
    rfl

/-- The loop over the facts leaves each fact once, in the order of the inputs. -/
theorem map_identity_collected (inputs : List Input) :
    ((factParts inputs).foldl addFact []).map (fun p => p.1.identity) = distinctFacts inputs := by
  have hparts : (factParts inputs).map (fun p => p.1.identity) =
      (inputs.flatMap fun input => input.ledger.knowledge.facts).map KnowledgeFact.identity := by
    unfold factParts
    rw [List.map_flatMap, List.map_flatMap]
    congr 1
    funext input
    rw [List.map_map]
    have hcomp : ((fun p : KnowledgeFact × Bool => p.1.identity) ∘ fun p : KnowledgeFact × ℕ =>
        (p.1, input.isBound .fact p.2)) = KnowledgeFact.identity ∘ Prod.fst := rfl
    rw [hcomp, ← List.map_map, List.zipIdx_map_fst]
  rw [distinctFacts, ← hparts]
  induction factParts inputs using List.reverseRecOn with
  | nil => rfl
  | append_singleton parts part ih =>
    rw [List.foldl_append, List.foldl_cons, List.foldl_nil, map_identity_addFact, ih,
      List.map_append, List.map_cons, List.map_nil, uniqueOn, uniqueOn, List.foldl_append, List.foldl_cons,
      List.foldl_nil]
    rfl

theorem distinctFacts_nodup (inputs : List Input) : (distinctFacts inputs).Nodup := by
  rw [← map_identity_collected, List.Nodup, List.pairwise_map]
  refine (collected_foldl (factParts inputs)).apart.imp ?_
  intro p q hpq heq
  rw [KnowledgeFact.identity, KnowledgeFact.identity, Prod.mk.injEq, Prod.mk.injEq] at heq
  rw [KnowledgeFact.same_iff.mpr heq] at hpq
  cases hpq

theorem mem_distinctFacts {inputs : List Input} {t : String × String × String} :
    t ∈ distinctFacts inputs ↔
      ∃ input ∈ inputs, ∃ fact ∈ input.ledger.knowledge.facts, fact.identity = t := by
  have hc := collected_foldl (factParts inputs)
  rw [← map_identity_collected, List.mem_map]
  constructor
  · rintro ⟨p, hp, rfl⟩
    obtain ⟨⟨k, b⟩, hq, hk⟩ := hc.occurs p hp
    obtain ⟨input, hinput, j, hj, -⟩ := mem_factParts.mp hq
    exact ⟨input, hinput, k, List.mem_of_getElem? hj, congrArg KnowledgeFact.identity hk⟩
  · rintro ⟨input, hinput, fact, hfact, rfl⟩
    obtain ⟨j, hj⟩ := List.mem_iff_getElem?.mp hfact
    obtain ⟨p, hp, hsame⟩ := hc.covers (fact, input.isBound .fact j)
      (mem_factParts.mpr ⟨input, hinput, j, hj, rfl⟩)
    refine ⟨p, hp, ?_⟩
    obtain ⟨hcat, hkey, hvalue⟩ := KnowledgeFact.same_iff.mp hsame
    rw [KnowledgeFact.identity, KnowledgeFact.identity, hcat, hkey, hvalue]

/-- The loop over the keys counts the facts of each. -/
theorem get_countValue (facts : List (KnowledgeFact × Bool)) (k : String × String) :
    (facts.foldl countValue ∅)[k]? =
      if facts.countP (fun p => (p.1.category, p.1.key) = k) = 0 then none
      else some (facts.countP fun p => (p.1.category, p.1.key) = k) := by
  induction facts using List.reverseRecOn with
  | nil => simp
  | append_singleton facts part ih =>
    rw [List.foldl_append, List.foldl_cons, List.foldl_nil, countValue, OrdMap.get_insert,
      List.countP_append, List.countP_singleton]
    by_cases hk : (part.1.category, part.1.key) = k
    · have hone : (if decide ((part.1.category, part.1.key) = k) = true then 1 else 0) = 1 :=
        if_pos (decide_eq_true hk)
      rw [hone, if_pos hk, hk, ih, if_neg (Nat.succ_ne_zero _)]
      split_ifs with hzero
      · rw [hzero]
        rfl
      · rfl
    · have hnone : (if decide ((part.1.category, part.1.key) = k) = true then 1 else 0) = 0 :=
        if_neg (by rw [decide_eq_false hk]; decide)
      rw [hnone, if_neg hk, ih, Nat.add_zero]

/-- A key is reported when two facts of it differ. -/
theorem mem_conflicts (inputs : List Input) (k : String × String) :
    (∃ conflict ∈ (mergeFacts inputs).1.2.2, (conflict.category, conflict.key) = k) ↔
      ∃ a ∈ distinctFacts inputs, ∃ b ∈ distinctFacts inputs, a ≠ b ∧
        (a.1, a.2.1) = k ∧ (b.1, b.2.1) = k := by
  have hcount : ((factParts inputs).foldl addFact []).countP
      (fun p => (p.1.category, p.1.key) = k) =
      ((distinctFacts inputs).filter fun t => (t.1, t.2.1) = k).toFinset.card := by
    rw [List.toFinset_card_of_nodup ((distinctFacts_nodup inputs).filter _),
      ← List.countP_eq_length_filter, ← map_identity_collected, List.countP_map]
    rfl
  have hreported : (∃ conflict ∈ (mergeFacts inputs).1.2.2,
      (conflict.category, conflict.key) = k) ↔
      1 < ((factParts inputs).foldl addFact []).countP fun p => (p.1.category, p.1.key) = k := by
    have hget := get_countValue ((factParts inputs).foldl addFact []) k
    have hconf : (mergeFacts inputs).1.2.2 =
        ((((factParts inputs).foldl addFact []).foldl countValue ∅).toList.filter
          fun p => p.2 > 1).map fun p => ⟨p.1.1, p.1.2, p.2⟩ := rfl
    rw [hconf]
    constructor
    · rintro ⟨conflict, hmem, rfl⟩
      obtain ⟨⟨key, n⟩, hp, rfl⟩ := List.mem_map.mp hmem
      obtain ⟨hp, hn⟩ := List.mem_filter.mp hp
      have hn' := Std.ExtTreeMap.mem_toList_iff_getElem?_eq_some.mp hp
      rw [hget] at hn'
      split_ifs at hn' with hzero
      have hn'' := Option.some.inj hn'
      rw [hn'']
      exact of_decide_eq_true hn
    · intro hlt
      rw [if_neg (by omega)] at hget
      refine ⟨_, List.mem_map.mpr ⟨(k, _), List.mem_filter.mpr
        ⟨Std.ExtTreeMap.mem_toList_iff_getElem?_eq_some.mpr hget, decide_eq_true hlt⟩, rfl⟩, rfl⟩
  rw [hreported, hcount, Finset.one_lt_card]
  simp only [List.mem_toFinset, List.mem_filter, decide_eq_true_eq]
  constructor
  · rintro ⟨a, ⟨ha, hak⟩, b, ⟨hb, hbk⟩, hab⟩
    exact ⟨a, ha, b, hb, hab, hak, hbk⟩
  · rintro ⟨a, ha, b, hb, hab, hak, hbk⟩
    exact ⟨a, ⟨ha, hak⟩, b, ⟨hb, hbk⟩, hab⟩

theorem conflictsWhole_iff {inputs : List Input} {out : MergeOutcome Path}
    (hfacts : out.ledger.knowledge.facts = (mergeFacts inputs).1.1)
    (hconflicts : out.conflicts = (mergeFacts inputs).1.2.2) :
    ConflictsWhole inputs out ↔ ConflictsFit inputs := by
  have hkept : out.ledger.knowledge.facts.map KnowledgeFact.identity =
      (distinctFacts inputs).take maxKnowledgeFacts := by
    rw [hfacts, ← map_identity_collected, ← List.map_take]
    exact List.map_map
  have hnodup := distinctFacts_nodup inputs
  rw [← List.take_append_drop maxKnowledgeFacts (distinctFacts inputs)] at hnodup
  have hdisjoint := (List.nodup_append.mp hnodup).2.2
  constructor
  · intro hwhole a ha b hb hcat hkey
    by_contra hne
    have ha' := List.mem_of_mem_drop ha
    obtain ⟨conflict, hconflict, hk⟩ := (mem_conflicts inputs (a.1, a.2.1)).mpr
      ⟨b, hb, a, ha', hne, by rw [hcat, hkey], rfl⟩
    rw [Prod.mk.injEq] at hk
    rw [← hconflicts] at hconflict
    obtain ⟨input, hinput, fact, hfact, rfl⟩ := mem_distinctFacts.mp ha'
    obtain ⟨kept, hmem, hkcat, hkkey, hkvalue⟩ :=
      hwhole conflict hconflict input hinput fact hfact hk.1.symm hk.2.symm
    have hin : fact.identity ∈ (distinctFacts inputs).take maxKnowledgeFacts := by
      rw [← hkept]
      refine List.mem_map.mpr ⟨kept, hmem, ?_⟩
      rw [KnowledgeFact.identity, hkcat, hkkey, hkvalue, hk.1, hk.2]
      rfl
    exact hdisjoint _ hin _ ha rfl
  · intro hfit conflict hconflict input hinput fact hfact hcat hkey
    rw [hconflicts] at hconflict
    have hmem : fact.identity ∈ distinctFacts inputs :=
      mem_distinctFacts.mpr ⟨input, hinput, fact, hfact, rfl⟩
    rw [← List.take_append_drop maxKnowledgeFacts (distinctFacts inputs), List.mem_append] at hmem
    rcases hmem with hin | hout
    · rw [← hkept] at hin
      obtain ⟨kept, hkept, heq⟩ := List.mem_map.mp hin
      rw [KnowledgeFact.identity, KnowledgeFact.identity, Prod.mk.injEq, Prod.mk.injEq] at heq
      exact ⟨kept, hkept, heq.1.trans hcat, heq.2.1.trans hkey, heq.2.2⟩
    · obtain ⟨a, ha, b, hb, hab, hak, hbk⟩ :=
        (mem_conflicts inputs (conflict.category, conflict.key)).mp ⟨conflict, hconflict, rfl⟩
      rw [Prod.mk.injEq] at hak hbk
      have haf := hfit fact.identity hout a ha (hak.1.trans hcat.symm) (hak.2.trans hkey.symm)
      have hbf := hfit fact.identity hout b hb (hbk.1.trans hcat.symm) (hbk.2.trans hkey.symm)
      exact absurd (haf.trans hbf.symm) hab

/-! ## The merge of what was served -/

/-- What the merge takes of its inputs. -/
theorem mergeInputs_eq (env : Env Path SourceRef) (inputs : List Input) (root : Option String)
    {out : MergeOutcome Path} (h : mergeInputs env inputs root = .ok out) :
    ∃ r, reboundExcerpts env inputs = .ok r ∧ out.ledger.curatedRefs = r.kept ∧
      out.ledger.knowledge.facts = (mergeFacts inputs).1.1 ∧
      out.conflicts = (mergeFacts inputs).1.2.2 := by
  unfold mergeInputs at h
  obtain ⟨r, hr, h⟩ := except_bind_eq_ok.mp h
  obtain ⟨path, -, h⟩ := except_bind_eq_ok.mp h
  cases h
  exact ⟨r, hr, rfl, rfl, rfl⟩

theorem mergeInputs_total {env : Env Path SourceRef} {inputs : List Input} (root : Option String)
    {r : Rebound SourceRef} (hr : reboundExcerpts env inputs = .ok r) (path : Path)
    (hpersist : ∀ ledger sources flags, env.persistLedger ledger sources flags = .ok path) :
    ∃ out, mergeInputs env inputs root = .ok out := by
  unfold mergeInputs
  have hr' : rebind env inputs (mergeCurated env inputs).1
      (((mergeFindings inputs).1.2 ++ (mergeFacts inputs).1.2.1).any id) = .ok r := hr
  simp only [hr', hpersist]
  exact ⟨_, rfl⟩

/-- Every excerpt the merge keeps has its own digest when the sources all read as admitted, only
if the first input that names its path is one with its content. -/
theorem ownDigests_of_evidenceOwn (env : Env Path SourceRef) (hread : env.readAdmitted = readAlways)
    {inputs : List Input} {out : MergeOutcome Path} (h : EvidenceOwn env inputs out) :
    OwnDigests env inputs := by
  obtain ⟨r, hr, -, hown⟩ := h
  intro excerpt hexcerpt project file hnamed
  obtain ⟨r', hr', hkept⟩ :=
    rebind_always env hread inputs (mergeCurated env inputs).1 (anyBound inputs)
  have hr'' : reboundExcerpts env inputs = .ok r' := hr'
  cases hr.symm.trans hr''
  have hmem : excerpt ∈ r.kept := by
    rw [hkept, List.mem_filter]
    exact ⟨hexcerpt, by rw [hnamed]; rfl⟩
  obtain ⟨k, hk⟩ := List.mem_iff_getElem?.mp hmem
  obtain ⟨front, rest, hsources, haligned⟩ :=
    rebind_aligned (hread ▸ readsAsAdmitted_always) hr
  obtain ⟨hklt, hkget⟩ := List.getElem?_eq_some_iff.mp hk
  have hkfront : k < front.length := haligned.length_eq ▸ hklt
  have hsource : r.sources[k]? = some front[k] := by
    rw [hsources, List.getElem?_append_left hkfront, List.getElem?_eq_getElem hkfront]
  obtain ⟨project', file', hnamed', heq⟩ := haligned.get hklt hkfront
  simp only [List.get_eq_getElem, hkget] at hnamed' heq
  cases hnamed.symm.trans hnamed'
  have := hown k excerpt front[k] hk hsource
  rw [heq] at this
  exact this

theorem evidenceOwn_of_ownDigests {env : Env Path SourceRef}
    (hread : ReadsAsAdmitted env.readAdmitted) {inputs : List Input} {out : MergeOutcome Path}
    {r : Rebound SourceRef} (hr : reboundExcerpts env inputs = .ok r)
    (hout : out.ledger.curatedRefs = r.kept) (h : OwnDigests env inputs) :
    EvidenceOwn env inputs out := by
  refine ⟨r, hr, hout, ?_⟩
  intro k excerpt source hk hsource
  obtain ⟨front, rest, hsources, haligned⟩ := rebind_aligned hread hr
  obtain ⟨hklt, hkget⟩ := List.getElem?_eq_some_iff.mp hk
  have hkfront : k < front.length := haligned.length_eq ▸ hklt
  rw [hsources, List.getElem?_append_left hkfront, List.getElem?_eq_getElem hkfront,
    Option.some.injEq] at hsource
  obtain ⟨project, file, hnamed, heq⟩ := haligned.get hklt hkfront
  simp only [List.get_eq_getElem, hkget, hsource] at hnamed heq
  rw [heq]
  exact h excerpt (rebind_kept hr excerpt (List.mem_of_getElem? hk)) project file hnamed

section Paths

variable [Ord Path] [Std.TransOrd Path] [Std.LawfulEqOrd Path]

/-- The inputs of a merge: the ledgers at the paths, in canonical order, of one project. -/
def servedInputs (env : Env Path SourceRef) (paths : List Path) : Except String (List Input) :=
  let unique : OrdSet Path := paths.foldl (fun set path => set.insert path) ∅
  if unique.size > maxMergeInputs then
    .error ("merge reads at most " ++ toString maxMergeInputs ++ " ledgers")
  else do
    let served ← unique.toList.mapM env.loadServed
    let inputs :=
      canonicalInputs (served.map fun s => { s with digest := env.contentDigest s.ledger })
    match inputs with
    | [] | [_] => .error "merge needs at least two different ledgers"
    | first :: _ =>
      if inputs.any fun input => input.ledger.projectRoot != first.ledger.projectRoot then
        .error "merge refused: the ledgers belong to different projects"
      else .ok inputs

omit [Std.LawfulEqOrd Path] in
theorem mergeLedgers_served (env : Env Path SourceRef) {paths : List Path} {inputs : List Input}
    (h : servedInputs env paths = .ok inputs) :
    ∃ root, mergeLedgers env paths = mergeInputs env inputs root := by
  unfold servedInputs at h
  unfold mergeLedgers
  dsimp only at h ⊢
  split_ifs at h ⊢
  obtain ⟨served, hserved, h⟩ := except_bind_eq_ok.mp h
  rw [hserved]
  split at h
  · cases h
  · cases h
  · rename_i first rest hmany heq
    split_ifs at h with hroots
    cases h
    refine ⟨first.ledger.projectRoot, ?_⟩
    simp only [bind, Except.bind]
    rw [heq] at hroots ⊢
    cases rest with
    | nil => exact (hmany rfl).elim
    | cons second rest => exact if_neg hroots

omit [Std.LawfulEqOrd Path] in
theorem ne_nil_of_servedInputs {env : Env Path SourceRef} {paths : List Path}
    {inputs : List Input} (h : servedInputs env paths = .ok inputs) : paths ≠ [] := by
  rintro rfl
  have hnil : (∅ : OrdSet Path).toList = [] := Std.ExtTreeSet.toList_eq_nil_iff.mpr rfl
  simp only [servedInputs, List.foldl_nil, hnil] at h
  split_ifs at h
  cases h

end Paths

end Authority

/-! ## Two contents of one path -/

/-- The ledger of an agent that hands over one excerpt of `/project/a.rs`. -/
def excerptLedger (createdAt content : String) : HandoffLedger :=
  { plainLedger createdAt [] with curatedRefs := [⟨"/project/a.rs", "full", "", content⟩] }

/-- Two stored ledgers that each bind the excerpt they hold under the digest `d1` or `d2`; the
source reads as the first one admitted it. -/
def twoContents (first second : String) : Env ℕ SourceRef where
  loadServed
    | 0 => .ok ⟨excerptLedger "2026-06-01" first, [],
        some ("/project", [⟨"/project/a.rs", curatedTool, "d1"⟩])⟩
    | 1 => .ok ⟨excerptLedger "2026-06-02" second, [],
        some ("/project", [⟨"/project/a.rs", curatedTool, "d2"⟩])⟩
    | _ => .error "not found"
  contentDigest ledger := ledger.createdAt
  hashHex text := text
  manifestMd5 := ""
  renderJson _ := ""
  sourceAuthorityRequired := true
  maxReadBytes := 100
  readAdmitted path _ tool digest remaining :=
    if digest = "d1" then (some ⟨path, tool, digest⟩, remaining) else (none, remaining)
  sourceChanged := "withheld"
  persistLedger _ _ _ := .ok 3

def twoInputs (first second : String) : List Input :=
  [⟨⟨excerptLedger "2026-06-01" first, [],
      some ("/project", [⟨"/project/a.rs", curatedTool, "d1"⟩])⟩, "2026-06-01"⟩,
    ⟨⟨excerptLedger "2026-06-02" second, [],
      some ("/project", [⟨"/project/a.rs", curatedTool, "d2"⟩])⟩, "2026-06-02"⟩]

theorem served_twoContents (first second : String) :
    servedInputs (twoContents first second) [0, 1] = .ok (twoInputs first second) := by
  have hunique : ([0, 1].foldl (fun (set : OrdSet ℕ) path => set.insert path) ∅).toList = [0, 1] :=
    by decide +kernel
  have hsize : ¬ ([0, 1].foldl (fun (set : OrdSet ℕ) path => set.insert path) ∅).size >
    maxMergeInputs := by decide +kernel
  have hserved : [0, 1].mapM (twoContents first second).loadServed =
      .ok ((twoInputs first second).map Input.toServed) := rfl
  have hinputs : ((twoInputs first second).map Input.toServed).map (fun s =>
      ({ s with digest := (twoContents first second).contentDigest s.ledger } : Input)) =
      twoInputs first second := rfl
  have hcanonical : canonicalInputs (twoInputs first second) = twoInputs first second := by
    have hle : (compare ("2026-06-01", "2026-06-01") ("2026-06-02", "2026-06-02")).isLE = true := by
      decide +kernel
    have hsorted : (twoInputs first second).insertionSort Input.notAfter =
        twoInputs first second := by
      refine List.Pairwise.insertionSort_eq (List.pairwise_pair.mpr ?_)
      exact hle
    rw [canonicalInputs, hsorted, twoInputs, List.destutter_pair]
    exact if_pos (show "2026-06-01" ≠ "2026-06-02" by decide)
  have hroots : (twoInputs first second).any (fun input =>
      input.ledger.projectRoot != some "/project") = false := by
    simp [twoInputs, excerptLedger, plainLedger]
  unfold servedInputs
  dsimp only
  rw [if_neg hsize, hunique, hserved]
  simp only [bind, Except.bind, hinputs, hcanonical]
  exact if_neg (ne_true_of_eq_false hroots)

end LeanCtx.Handoff
