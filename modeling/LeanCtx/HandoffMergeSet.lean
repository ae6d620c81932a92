import LeanCtx.HandoffMerge

/-!
# A merge depends on the set of its inputs

The two loops that merge findings and facts gather each part once and flag it
exactly when one of the inputs they read records it as bound. Over paths, the
merge is a function of their set. Inputs with equal content digests collapse
into one, so the flags speak of all inputs when such inputs record the same
parts as bound.
-/

namespace LeanCtx.Handoff

/-! ## Findings -/

/-- What the loop over the findings has gathered from the parts it has read. -/
structure Gathered (parts : List (String × Bool)) (acc : List String × OrdMap String Bool) :
    Prop where
  order : ∀ f, f ∈ acc.1 ↔ ∃ b, (f, b) ∈ parts
  flag : ∀ f, acc.2[f]? = if (∃ b, (f, b) ∈ parts) then
    some (parts.any fun p => p.1 == f && p.2) else none

theorem gathered_foldl (parts : List (String × Bool)) :
    Gathered parts (parts.foldl addFinding ([], ∅)) := by
  induction parts using List.reverseRecOn with
  | nil => constructor <;> simp
  | append_singleton parts part ih =>
    obtain ⟨text, b⟩ := part
    rw [List.foldl_append, List.foldl_cons, List.foldl_nil]
    have hmem : ∀ f, (∃ c, (f, c) ∈ parts ++ [(text, b)]) ↔ (∃ c, (f, c) ∈ parts) ∨ f = text := by
      intro f
      simp only [List.mem_append, List.mem_singleton, Prod.mk.injEq]
      grind
    have hany : ∀ f, (parts ++ [(text, b)]).any (fun p => p.1 == f && p.2) =
        (parts.any (fun p => p.1 == f && p.2) || (text == f && b)) := by
      intro f
      simp
    by_cases hseen : ∃ c, (text, c) ∈ parts
    · have hget : (parts.foldl addFinding ([], ∅)).2[text]? =
          some (parts.any fun p => p.1 == text && p.2) := by
        rw [ih.flag, if_pos hseen]
      simp only [addFinding, hget]
      constructor
      · intro f
        rw [hmem, ih.order]
        grind
      · intro f
        rw [OrdMap.get_insert, ih.flag, hany]
        simp only [hmem]
        by_cases hf : text = f
        · subst hf
          simp
        · have hne : (text == f) = false := beq_eq_false_iff_ne.mpr hf
          simp [hf, hne, Ne.symm hf]
    · have hget : (parts.foldl addFinding ([], ∅)).2[text]? = none := by
        rw [ih.flag, if_neg hseen]
      have hnone : parts.any (fun p => p.1 == text && p.2) = false := by
        rw [List.any_eq_false]
        rintro ⟨g, c⟩ hg hcond
        simp only [Bool.and_eq_true, beq_iff_eq] at hcond
        exact hseen ⟨c, hcond.1 ▸ hg⟩
      simp only [addFinding, hget]
      constructor
      · intro f
        rw [hmem, List.mem_append, ih.order, List.mem_singleton]
      · intro f
        rw [OrdMap.get_insert, ih.flag, hany]
        simp only [hmem]
        by_cases hf : text = f
        · subst hf
          simp [hnone]
        · have hne : (text == f) = false := beq_eq_false_iff_ne.mpr hf
          simp [hf, hne, Ne.symm hf]

/-- The served ledger carries the finding in a place it records as bound. -/
def BoundFinding (s : Served) (finding : String) : Prop :=
  ∃ j, s.ledger.session.findings[j]? = some finding ∧ s.isBound .finding j = true

theorem mem_findingParts {inputs : List Input} {f : String} {b : Bool} :
    (f, b) ∈ findingParts inputs ↔ ∃ input ∈ inputs, ∃ j,
      input.ledger.session.findings[j]? = some f ∧ input.isBound .finding j = b := by
  simp only [findingParts, List.mem_flatMap, List.mem_map, Prod.exists, Prod.mk.injEq,
    List.mem_zipIdx_iff_getElem?]
  grind

/-- Every merged finding is an input's, and it is flagged exactly when an input
records it as bound. -/
theorem mergeFindings_spec (inputs : List Input) :
    (∀ f ∈ (mergeFindings inputs).1.1, ∃ input ∈ inputs, f ∈ input.ledger.session.findings) ∧
    ∀ (i : ℕ) (f : String), (mergeFindings inputs).1.1[i]? = some f →
      ((mergeFindings inputs).1.2[i]? = some true ↔
        ∃ input ∈ inputs, BoundFinding input.toServed f) := by
  have hg := gathered_foldl (findingParts inputs)
  have hkept : ∀ f ∈ (mergeFindings inputs).1.1, ∃ b, (f, b) ∈ findingParts inputs := by
    intro f hf
    exact (hg.order f).mp (List.mem_of_mem_drop hf)
  constructor
  · intro f hf
    obtain ⟨b, hb⟩ := hkept f hf
    obtain ⟨input, hinput, j, hj, -⟩ := mem_findingParts.mp hb
    exact ⟨input, hinput, List.mem_of_getElem? hj⟩
  · intro i f hi
    have hflag : (mergeFindings inputs).1.2[i]? =
        some ((findingParts inputs).any fun p => p.1 == f && p.2) := by
      have hf := hkept f (List.mem_of_getElem? hi)
      have hmap : (mergeFindings inputs).1.2 = (mergeFindings inputs).1.1.map fun finding =>
        ((findingParts inputs).foldl addFinding ([], ∅)).2[finding]?.getD false := rfl
      rw [hmap, List.getElem?_map, hi, Option.map_some, hg.flag, if_pos hf, Option.getD_some]
    rw [hflag, Option.some.injEq, List.any_eq_true]
    constructor
    · rintro ⟨⟨g, b⟩, hmem, hcond⟩
      simp only [Bool.and_eq_true, beq_iff_eq] at hcond
      obtain ⟨rfl, rfl⟩ := hcond
      obtain ⟨input, hinput, j, hj, hbound⟩ := mem_findingParts.mp hmem
      exact ⟨input, hinput, j, hj, hbound⟩
    · rintro ⟨input, hinput, j, hj, hbound⟩
      exact ⟨(f, true), mem_findingParts.mpr ⟨input, hinput, j, hj, hbound⟩, by simp⟩

/-! ## Facts -/

theorem KnowledgeFact.same_iff {a b : KnowledgeFact} :
    a.same b = true ↔ a.category = b.category ∧ a.key = b.key ∧ a.value = b.value := by
  simp [KnowledgeFact.same, and_assoc]

/-- What the loop over the facts has gathered from the parts it has read. -/
structure Collected (parts acc : List (KnowledgeFact × Bool)) : Prop where
  occurs : ∀ p ∈ acc, ∃ q ∈ parts, q.1 = p.1
  flag : ∀ p ∈ acc, p.2 = parts.any fun q => q.1.same p.1 && q.2
  apart : acc.Pairwise fun p q => p.1.same q.1 = false
  covers : ∀ q ∈ parts, ∃ p ∈ acc, p.1.same q.1 = true

theorem same_trans {a b c : KnowledgeFact} (h : a.same b = true) : a.same c = b.same c := by
  rw [KnowledgeFact.same_iff] at h
  unfold KnowledgeFact.same
  rw [h.1, h.2.1, h.2.2]

theorem same_comm (a b : KnowledgeFact) : a.same b = b.same a := by
  rw [Bool.eq_iff_iff, KnowledgeFact.same_iff, KnowledgeFact.same_iff]
  grind

/-- The joined entry is one of the two facts it was made from. -/
theorem joined_eq {kept fact : KnowledgeFact} (h : kept.same fact = true) :
    { kept with confidence := max kept.confidence fact.confidence } = kept ∨
      { kept with confidence := max kept.confidence fact.confidence } = fact := by
  obtain ⟨hcat, hkey, hvalue⟩ := KnowledgeFact.same_iff.mp h
  obtain ⟨cat, key, value, conf⟩ := kept
  obtain ⟨cat', key', value', conf'⟩ := fact
  simp only at hcat hkey hvalue
  subst hcat hkey hvalue
  rcases max_choice conf conf' with hm | hm
  · exact .inl (by simp [hm])
  · exact .inr (by simp [hm])

theorem collected_add {parts acc : List (KnowledgeFact × Bool)} (h : Collected parts acc)
    (part : KnowledgeFact × Bool) : Collected (parts ++ [part]) (addFact acc part) := by
  have hany : ∀ k : KnowledgeFact, (parts ++ [part]).any (fun q => q.1.same k && q.2) =
      (parts.any (fun q => q.1.same k && q.2) || (part.1.same k && part.2)) := by
    intro k
    simp
  unfold addFact
  split
  · rename_i i hi
    obtain ⟨hlt, hsame, -⟩ := List.findIdx?_eq_some_iff_getElem.mp hi
    have hmodify : ∀ p ∈ acc.modify i fun kept =>
        ({ kept.1 with confidence := max kept.1.confidence part.1.confidence }, kept.2 || part.2),
        (p = ({ acc[i].1 with confidence := max acc[i].1.confidence part.1.confidence },
          acc[i].2 || part.2)) ∨ (p ∈ acc ∧ p.1.same part.1 = false) := by
      intro p hp
      obtain ⟨j, hj, rfl⟩ := List.mem_iff_getElem.mp hp
      rw [List.getElem_modify]
      split_ifs with hij
      · subst hij
        exact .inl rfl
      · right
        have hj' : j < acc.length := by simpa using hj
        refine ⟨List.getElem_mem _, ?_⟩
        have hapart : acc[i].1.same acc[j].1 = false := by
          rcases lt_or_gt_of_ne hij with hlt' | hlt'
          · exact List.pairwise_iff_getElem.mp h.apart i j hlt hj' hlt'
          · rw [same_comm]
            exact List.pairwise_iff_getElem.mp h.apart j i hj' hlt hlt'
        rw [same_comm, ← same_trans hsame]
        exact hapart
    have hsameJoined : ∀ c : KnowledgeFact,
        KnowledgeFact.same { acc[i].1 with confidence := max acc[i].1.confidence part.1.confidence }
          c = acc[i].1.same c := fun _ => rfl
    constructor
    · intro p hp
      rcases hmodify p hp with rfl | ⟨hp, -⟩
      · rcases joined_eq hsame with heq | heq
        · obtain ⟨q, hq, hq'⟩ := h.occurs acc[i] (List.getElem_mem _)
          exact ⟨q, by simp [hq], hq'.trans heq.symm⟩
        · exact ⟨part, by simp, heq.symm⟩
      · obtain ⟨q, hq, hq'⟩ := h.occurs p hp
        exact ⟨q, by simp [hq], hq'⟩
    · intro p hp
      rw [hany]
      rcases hmodify p hp with rfl | ⟨hp, hne⟩
      · have hold := h.flag acc[i] (List.getElem_mem _)
        have hpart : part.1.same acc[i].1 = true := by rw [same_comm]; exact hsame
        change (acc[i].2 || part.2) = _
        rw [hold]
        have hcongr : ∀ q : KnowledgeFact × Bool, KnowledgeFact.same q.1
            { acc[i].1 with confidence := max acc[i].1.confidence part.1.confidence } =
            q.1.same acc[i].1 := fun _ => rfl
        simp only [hcongr, hpart, Bool.true_and]
      · rw [h.flag p hp, same_comm part.1, hne, Bool.false_and, Bool.or_false]
    · rw [List.pairwise_iff_getElem]
      intro j k hj hk hjk
      have hj' : j < acc.length := by simpa using hj
      have hk' : k < acc.length := by simpa using hk
      have hold := List.pairwise_iff_getElem.mp h.apart j k hj' hk' hjk
      rw [List.getElem_modify, List.getElem_modify]
      split_ifs <;> exact hold
    · intro q hq
      have hcover : ∃ p ∈ acc, p.1.same q.1 = true := by
        rw [List.mem_append, List.mem_singleton] at hq
        rcases hq with hq | rfl
        · exact h.covers q hq
        · exact ⟨acc[i], List.getElem_mem _, hsame⟩
      obtain ⟨p, hp, hpq⟩ := hcover
      obtain ⟨j, hj, rfl⟩ := List.mem_iff_getElem.mp hp
      refine ⟨_, List.getElem_mem (by simpa using hj : j < (acc.modify i _).length), ?_⟩
      rw [List.getElem_modify]
      split_ifs <;> exact hpq
  · rename_i hnone
    have hfresh : ∀ p ∈ acc, p.1.same part.1 = false := by
      intro p hp
      simpa using List.findIdx?_eq_none_iff.mp hnone p hp
    constructor
    · intro p hp
      rw [List.mem_append, List.mem_singleton] at hp
      rcases hp with hp | rfl
      · obtain ⟨q, hq, hq'⟩ := h.occurs p hp
        exact ⟨q, by simp [hq], hq'⟩
      · exact ⟨p, by simp, rfl⟩
    · intro p hp
      rw [hany]
      rw [List.mem_append, List.mem_singleton] at hp
      rcases hp with hp | rfl
      · rw [h.flag p hp, same_comm part.1, hfresh p hp, Bool.false_and, Bool.or_false]
      · have hold : parts.any (fun q => q.1.same p.1 && q.2) = false := by
          rw [List.any_eq_false]
          intro q hq hcond
          rw [Bool.and_eq_true] at hcond
          obtain ⟨k, hk, hkq⟩ := h.covers q hq
          have := hfresh k hk
          rw [same_trans hkq, hcond.1] at this
          cases this
        have hself : p.1.same p.1 = true := KnowledgeFact.same_iff.mpr ⟨rfl, rfl, rfl⟩
        rw [hold, hself, Bool.false_or, Bool.true_and]
    · rw [List.pairwise_append]
      refine ⟨h.apart, by simp, ?_⟩
      intro p hp q hq
      rw [List.mem_singleton] at hq
      subst hq
      exact hfresh p hp
    · intro q hq
      rw [List.mem_append, List.mem_singleton] at hq
      rcases hq with hq | rfl
      · obtain ⟨p, hp, hpq⟩ := h.covers q hq
        exact ⟨p, by simp [hp], hpq⟩
      · exact ⟨q, by simp, KnowledgeFact.same_iff.mpr ⟨rfl, rfl, rfl⟩⟩

theorem collected_foldl (parts : List (KnowledgeFact × Bool)) :
    Collected parts (parts.foldl addFact []) := by
  induction parts using List.reverseRecOn with
  | nil => constructor <;> simp
  | append_singleton parts part ih =>
    rw [List.foldl_append, List.foldl_cons, List.foldl_nil]
    exact collected_add ih part

/-- The served ledger carries the fact in a place it records as bound. -/
def BoundFact (s : Served) (fact : KnowledgeFact) : Prop :=
  ∃ (j : ℕ) (k : KnowledgeFact), s.ledger.knowledge.facts[j]? = some k ∧ k.same fact = true ∧
    s.isBound .fact j = true

theorem mem_factParts {inputs : List Input} {k : KnowledgeFact} {b : Bool} :
    (k, b) ∈ factParts inputs ↔ ∃ input ∈ inputs, ∃ j,
      input.ledger.knowledge.facts[j]? = some k ∧ input.isBound .fact j = b := by
  simp only [factParts, List.mem_flatMap, List.mem_map, Prod.exists, Prod.mk.injEq,
    List.mem_zipIdx_iff_getElem?]
  grind

theorem mergeFacts_spec (inputs : List Input) :
    (∀ k ∈ (mergeFacts inputs).1.1, ∃ input ∈ inputs, k ∈ input.ledger.knowledge.facts) ∧
    ∀ (i : ℕ) (k : KnowledgeFact), (mergeFacts inputs).1.1[i]? = some k →
      ((mergeFacts inputs).1.2.1[i]? = some true ↔
        ∃ input ∈ inputs, BoundFact input.toServed k) := by
  have hc := collected_foldl (factParts inputs)
  have hfacts : (mergeFacts inputs).1.1 =
      (((factParts inputs).foldl addFact []).take maxKnowledgeFacts).map Prod.fst := rfl
  have hflags : (mergeFacts inputs).1.2.1 =
      (((factParts inputs).foldl addFact []).take maxKnowledgeFacts).map Prod.snd := rfl
  constructor
  · intro k hk
    rw [hfacts, List.mem_map] at hk
    obtain ⟨p, hp, rfl⟩ := hk
    obtain ⟨⟨k', b⟩, hq, rfl⟩ := hc.occurs p (List.mem_of_mem_take hp)
    obtain ⟨input, hinput, j, hj, -⟩ := mem_factParts.mp hq
    exact ⟨input, hinput, List.mem_of_getElem? hj⟩
  · intro i k hi
    rw [hfacts, List.getElem?_map, Option.map_eq_some_iff] at hi
    obtain ⟨p, hp, rfl⟩ := hi
    rw [hflags, List.getElem?_map, hp, Option.map_some, Option.some.injEq,
      hc.flag p (List.mem_of_mem_take (List.mem_of_getElem? hp)), List.any_eq_true]
    constructor
    · rintro ⟨⟨k', b⟩, hmem, hcond⟩
      rw [Bool.and_eq_true] at hcond
      obtain ⟨hsame, hb⟩ := hcond
      obtain ⟨input, hinput, j, hj, hbound⟩ := mem_factParts.mp hmem
      exact ⟨input, hinput, j, k', hj, hsame, hbound.trans hb⟩
    · rintro ⟨input, hinput, j, k', hj, hsame, hbound⟩
      exact ⟨(k', true), mem_factParts.mpr ⟨input, hinput, j, hj, hbound⟩, by simp [hsame]⟩

/-! ## Excerpts -/

theorem uniqueOn_subset {α κ : Type} [DecidableEq κ] (key : α → κ) (items : List α) :
    ∀ a ∈ uniqueOn key items, a ∈ items := by
  induction items using List.reverseRecOn with
  | nil => simp [uniqueOn]
  | append_singleton items b ih =>
    intro a ha
    rw [uniqueOn, List.foldl_append, List.foldl_cons, List.foldl_nil] at ha
    split_ifs at ha
    · exact List.mem_append_left _ (ih a ha)
    · rw [List.mem_append] at ha
      rcases ha with ha | ha
      · exact List.mem_append_left _ (ih a ha)
      · exact List.mem_append_right _ ha

theorem foldlM_keeps {ε α β : Type} {f : β → α → Except ε β} {P : β → Prop} {l : List α}
    (h : ∀ b, ∀ a ∈ l, ∀ b', P b → f b a = .ok b' → P b') {b b' : β} (hb : P b)
    (hl : l.foldlM f b = .ok b') : P b' := by
  induction l generalizing b with
  | nil =>
    cases hl
    exact hb
  | cons a l ih =>
    rw [List.foldlM_cons] at hl
    obtain ⟨c, hc, hl⟩ := except_bind_eq_ok.mp hl
    exact ih (fun b a ha b' => h b a (by simp [ha]) b') (h b a (by simp) c hb hc) hl

theorem rebind_kept {Path Source : Type} {env : Env Path Source} {inputs : List Input}
    {curated : List CuratedRef} {anyBound : Bool} {out : Rebound Source}
    (h : rebind env inputs curated anyBound = .ok out) : ∀ c ∈ out.kept, c ∈ curated := by
  obtain ⟨acc, hacc, h⟩ := except_bind_eq_ok.mp h
  have hfirst : ∀ c ∈ acc.kept, c ∈ curated := by
    refine foldlM_keeps (P := fun acc : Rebound Source => ∀ c ∈ acc.kept, c ∈ curated) ?_
      (by simp) hacc
    intro b excerpt hexcerpt b' hb hstep
    unfold rebindExcerpt at hstep
    split at hstep
    · cases hstep
      exact hb
    · split at hstep
      · cases hstep
        intro c hc
        rw [List.mem_append, List.mem_singleton] at hc
        rcases hc with hc | rfl
        · exact hb c hc
        · exact hexcerpt
      · split_ifs at hstep
        cases hstep
        exact hb
  split_ifs at h
  · refine foldlM_keeps (P := fun acc : Rebound Source => ∀ c ∈ acc.kept, c ∈ curated) ?_ hfirst h
    intro b input _ b' hb hstep
    split at hstep
    · cases hstep
      exact hb
    · refine foldlM_keeps (P := fun acc : Rebound Source => ∀ c ∈ acc.kept, c ∈ curated) ?_ hb hstep
      intro b file _ b' hb hpart
      unfold rebindPart at hpart
      split at hpart
      · cases hpart
        exact hb
      · split_ifs at hpart
        cases hpart
        exact hb
  · cases h
    exact hfirst

/-! ## The inputs -/

/-- One input of each content digest is left. -/
theorem canonicalInputs_spec (inputs : List Input) :
    (∀ a ∈ canonicalInputs inputs, a ∈ inputs) ∧
    ∀ a ∈ inputs, ∃ b ∈ canonicalInputs inputs, b.digest = a.digest := by
  have hsurvivor : ∀ (l : List Input) (c : Input), ∀ a ∈ c :: l,
      ∃ b ∈ l.destutter' (fun a b => a.digest ≠ b.digest) c, b.digest = a.digest := by
    intro l
    induction l with
    | nil =>
      intro c a ha
      rw [List.mem_singleton] at ha
      exact ⟨c, by simp, by rw [ha]⟩
    | cons d l ih =>
      intro c a ha
      by_cases hd : c.digest = d.digest
      · rw [List.destutter'_cons_neg _ (by simpa using hd)]
        rw [List.mem_cons, List.mem_cons] at ha
        rcases ha with rfl | rfl | ha
        · exact ih a a (by simp)
        · obtain ⟨b, hb, hbc⟩ := ih c c (by simp)
          exact ⟨b, hb, hbc.trans hd⟩
        · exact ih c a (by simp [ha])
      · rw [List.destutter'_cons_pos _ (by simpa using hd)]
        rw [List.mem_cons] at ha
        rcases ha with rfl | ha
        · exact ⟨a, by simp, rfl⟩
        · obtain ⟨b, hb, hba⟩ := ih d a ha
          exact ⟨b, by simp [hb], hba⟩
  constructor
  · intro a ha
    exact (List.mem_insertionSort _).mp ((List.destutter_sublist _ _).subset ha)
  · intro a ha
    unfold canonicalInputs
    have hsorted : a ∈ inputs.insertionSort Input.notAfter := (List.mem_insertionSort _).mpr ha
    cases hl : inputs.insertionSort Input.notAfter with
    | nil => rw [hl] at hsorted; cases hsorted
    | cons c l =>
      rw [hl] at hsorted
      exact hsurvivor l c a hsorted

theorem mapM_eq_ok {ε α β : Type} {f : α → Except ε β} {l : List α} {ys : List β}
    (h : l.mapM f = .ok ys) :
    (∀ y ∈ ys, ∃ x ∈ l, f x = .ok y) ∧ ∀ x ∈ l, ∃ y ∈ ys, f x = .ok y := by
  induction l generalizing ys with
  | nil =>
    cases h
    simp
  | cons a l ih =>
    rw [List.mapM_cons] at h
    obtain ⟨y, hy, h⟩ := except_bind_eq_ok.mp h
    obtain ⟨zs, hzs, h⟩ := except_bind_eq_ok.mp h
    cases h
    obtain ⟨hback, hforth⟩ := ih hzs
    constructor
    · intro z hz
      rw [List.mem_cons] at hz
      rcases hz with rfl | hz
      · exact ⟨a, by simp, hy⟩
      · obtain ⟨x, hx, hfx⟩ := hback z hz
        exact ⟨x, by simp [hx], hfx⟩
    · intro x hx
      rw [List.mem_cons] at hx
      rcases hx with rfl | hx
      · exact ⟨y, by simp, hy⟩
      · obtain ⟨z, hz, hfx⟩ := hforth x hx
        exact ⟨z, by simp [hz], hfx⟩

section Paths

variable {Path Source : Type} [Ord Path] [Std.TransOrd Path] [Std.LawfulEqOrd Path]

theorem mem_unique {paths : List Path} {p : Path} :
    p ∈ paths.foldl (fun (set : OrdSet Path) path => set.insert path) ∅ ↔ p ∈ paths := by
  have hfold : ∀ (l : List Path) (set : OrdSet Path),
      p ∈ l.foldl (fun (set : OrdSet Path) path => set.insert path) set ↔ p ∈ set ∨ p ∈ l := by
    intro l
    induction l with
    | nil => simp
    | cons a l ih =>
      intro set
      rw [List.foldl_cons, ih, Std.ExtTreeSet.mem_insert, Std.compare_eq_iff_eq, List.mem_cons]
      grind
  simp [hfold]

/-- Two lists with the same paths merge to the same outcome. -/
theorem mergeLedgers_congr (env : Env Path Source) {paths paths' : List Path}
    (h : ∀ p, p ∈ paths' ↔ p ∈ paths) : mergeLedgers env paths' = mergeLedgers env paths := by
  have hset : paths'.foldl (fun (set : OrdSet Path) path => set.insert path) ∅ =
      paths.foldl (fun (set : OrdSet Path) path => set.insert path) ∅ := by
    apply Std.ExtTreeSet.ext_mem
    intro p
    rw [mem_unique, mem_unique, h p]
  unfold mergeLedgers
  rw [hset]

/-- The served ledgers at the paths. -/
def ServedAt (env : Env Path Source) (paths : List Path) (s : Served) : Prop :=
  ∃ p ∈ paths, env.loadServed p = .ok s

/-- A successful merge is the merge of one served input per content digest. -/
theorem mergeLedgers_inputs {env : Env Path Source} {paths : List Path} {out : MergeOutcome Path}
    (h : mergeLedgers env paths = .ok out) :
    ∃ inputs root, mergeInputs env inputs root = .ok out ∧
      (∀ a ∈ inputs, ServedAt env paths a.toServed ∧ a.digest = env.contentDigest a.ledger) ∧
      ∀ s, ServedAt env paths s →
        ∃ b ∈ inputs, env.contentDigest b.ledger = env.contentDigest s.ledger := by
  unfold mergeLedgers at h
  dsimp only at h
  split_ifs at h
  obtain ⟨served, hserved, h⟩ := except_bind_eq_ok.mp h
  obtain ⟨hback, hforth⟩ := mapM_eq_ok hserved
  obtain ⟨hsub, hcover⟩ := canonicalInputs_spec
    (served.map fun s => ({ s with digest := env.contentDigest s.ledger } : Input))
  have hinput : ∀ a ∈ canonicalInputs
      (served.map fun s => ({ s with digest := env.contentDigest s.ledger } : Input)),
      ServedAt env paths a.toServed ∧ a.digest = env.contentDigest a.ledger := by
    intro a ha
    obtain ⟨s, hs, rfl⟩ := List.mem_map.mp (hsub a ha)
    obtain ⟨p, hp, hload⟩ := hback s hs
    exact ⟨⟨p, mem_unique.mp (Std.ExtTreeSet.mem_toList.mp hp), hload⟩, rfl⟩
  have hall : ∀ s, ServedAt env paths s → ∃ b ∈ canonicalInputs
      (served.map fun s => ({ s with digest := env.contentDigest s.ledger } : Input)),
      env.contentDigest b.ledger = env.contentDigest s.ledger := by
    rintro s ⟨p, hp, hload⟩
    obtain ⟨s', hs', hload'⟩ := hforth p (Std.ExtTreeSet.mem_toList.mpr (mem_unique.mpr hp))
    rw [hload] at hload'
    cases hload'
    obtain ⟨b, hb, hdigest⟩ := hcover _ (List.mem_map.mpr ⟨s, hs', rfl⟩)
    exact ⟨b, hb, (hinput b hb).2.symm.trans hdigest⟩
  split at h
  · cases h
  · cases h
  · split_ifs at h
    exact ⟨_, _, h, hinput, hall⟩

omit [Ord Path] [Std.TransOrd Path] [Std.LawfulEqOrd Path] in
/-- What a successful merge of inputs keeps of them. -/
theorem mergeInputs_parts {env : Env Path Source} {inputs : List Input} {root : Option String}
    {out : MergeOutcome Path} (h : mergeInputs env inputs root = .ok out) :
    out.ledger.session.findings = (mergeFindings inputs).1.1 ∧
    out.findingBound = (mergeFindings inputs).1.2 ∧
    out.ledger.knowledge.facts = (mergeFacts inputs).1.1 ∧
    out.factBound = (mergeFacts inputs).1.2.1 ∧
    ∀ c ∈ out.ledger.curatedRefs, ∃ input ∈ inputs, c ∈ input.ledger.curatedRefs := by
  unfold mergeInputs at h
  obtain ⟨rebound, hrebound, h⟩ := except_bind_eq_ok.mp h
  obtain ⟨path, -, h⟩ := except_bind_eq_ok.mp h
  cases h
  refine ⟨rfl, rfl, rfl, rfl, ?_⟩
  intro c hc
  have hcurated := rebind_kept hrebound c hc
  have hmem := uniqueOn_subset _ _ c (List.mem_of_mem_take hcurated)
  exact List.mem_flatMap.mp hmem

/-- Served inputs with one content digest record the same parts as bound. -/
def SameRecords (env : Env Path Source) (paths : List Path) : Prop :=
  ∀ s s', ServedAt env paths s → ServedAt env paths s' →
    env.contentDigest s.ledger = env.contentDigest s'.ledger →
    (∀ f, BoundFinding s f → BoundFinding s' f) ∧ ∀ k, BoundFact s k → BoundFact s' k

end Paths

/-! ## A record that is lost -/

def plainLedger (createdAt : String) (findings : List String) : HandoffLedger :=
  { schemaVersion := handoffSchemaVersion, createdAt := createdAt, contentMd5 := ""
    manifestMd5 := "", projectRoot := some "/project", agentId := none, clientName := none
    workflow := none, sessionSnapshot := "", session := ⟨"s", none, [], findings, []⟩
    toolCalls := ⟨0, ∅, ∅⟩, evidenceKeys := [], knowledge := ⟨none, []⟩, curatedRefs := []
    activeOverlays := [], mergedFrom := [], requestId := none, requestDigest := none }

/-- Three stored ledgers: the file `1` with the record that its finding is
bound, the file `0` with the same content and `copyBound` as its record, and
another ledger. Their contents differ in `created_at`, which stands for the
digest. -/
def storedLedgers (copyBound : List BoundEntry) : Env ℕ Unit where
  loadServed
    | 0 => .ok ⟨plainLedger "2026-06-01" ["the pool is bounded"], copyBound, none⟩
    | 1 => .ok ⟨plainLedger "2026-06-01" ["the pool is bounded"], [⟨.finding, 0, "d"⟩], none⟩
    | 2 => .ok ⟨plainLedger "2026-06-02" ["retries are capped"], [], none⟩
    | _ => .error "not found"
  contentDigest ledger := ledger.createdAt
  hashHex text := text
  manifestMd5 := ""
  renderJson _ := ""
  sourceAuthorityRequired := false
  maxReadBytes := 0
  readAdmitted _ _ _ _ remaining := (none, remaining)
  sourceChanged := "withheld"
  persistLedger _ _ _ := .ok 3

end LeanCtx.Handoff
