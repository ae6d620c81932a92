import LeanCtx.KnowledgeQuery

/-!
# What recall finds

The index is that of the facts after every operation. A word of a fact leads to
the fact when it has none of the separators at which stored texts are cut, since
a query is not cut there.
-/

namespace LeanCtx.Knowledge

variable {env : StoreEnv}

/-! ## Words and tokens -/

theorem splitOnP_or {α : Type} (p q : α → Bool) (l : List α) :
    l.splitOnP (fun c => p c || q c) = (l.splitOnP p).flatMap (List.splitOnP q) := by
  induction l with
  | nil => simp
  | cons c l ih =>
    rw [List.splitOnP_cons_eq_if_modifyHead, List.splitOnP_cons_eq_if_modifyHead, ih]
    cases hp : p c with
    | true => simp
    | false =>
      obtain ⟨first, rest, hsplit⟩ := List.exists_cons_of_ne_nil (List.splitOnP_ne_nil p l)
      rw [hsplit]
      simp only [Bool.false_or, Bool.false_eq_true, if_false, List.flatMap_cons,
        List.modifyHead_cons]
      rw [List.splitOnP_cons_eq_if_modifyHead]
      obtain ⟨first', rest', hsplit'⟩ := List.exists_cons_of_ne_nil (List.splitOnP_ne_nil q first)
      rw [hsplit']
      cases q c <;> simp

theorem not_of_mem_splitOnP {α : Type} {p : α → Bool} {l piece : List α}
    (h : piece ∈ l.splitOnP p) : ∀ c ∈ piece, p c = false := by
  induction l generalizing piece with
  | nil =>
    rw [List.splitOnP_nil, List.mem_singleton] at h
    subst h
    exact fun c hc => absurd hc List.not_mem_nil
  | cons x l ih =>
    rw [List.splitOnP_cons_eq_if_modifyHead] at h
    split_ifs at h with hx
    · rcases List.mem_cons.mp h with rfl | h
      · exact fun c hc => absurd hc List.not_mem_nil
      · exact ih h
    · obtain ⟨first, rest, hsplit⟩ := List.exists_cons_of_ne_nil (List.splitOnP_ne_nil p l)
      rw [hsplit, List.modifyHead_cons] at h
      rcases List.mem_cons.mp h with rfl | h
      · intro c hc
        rcases List.mem_cons.mp hc with rfl | hc
        · exact Bool.eq_false_iff.mpr hx
        · exact ih (hsplit ▸ List.mem_cons_self) c hc
      · exact ih (hsplit ▸ List.mem_cons_of_mem _ h)

/-- A word that no separator cuts. -/
def Whole (word : Text) : Prop := ∀ c ∈ separators, c ∉ word

instance (word : Text) : Decidable (Whole word) := List.decidableBAll _ separators

theorem whole_toLowercase (word : Text) : Whole (env.toLowercase word) ↔ Whole word :=
  forall₂_congr fun c hc => not_congr (env.mem_toLowercase word c hc)

theorem splitWhitespace_word {s word : Text} (h : word ∈ splitWhitespace s) :
    splitWhitespace word = [word] := by
  obtain ⟨hmem, hne⟩ := List.mem_filter.mp h
  rw [splitWhitespace, List.splitOnP_eq_singleton (not_of_mem_splitOnP hmem)]
  exact List.filter_cons_of_pos hne

theorem queryTerms_word {s word : Text} (h : word ∈ splitWhitespace s) :
    queryTerms env word = [env.toLowercase word] := by
  rw [queryTerms, env.splitWhitespace_toLowercase, splitWhitespace_word h, List.map_singleton]

theorem mem_tokenizeLower {s word : Text} (h : word ∈ splitWhitespace s) (hwhole : Whole word) :
    env.toLowercase word ∈ tokenizeLower env s := by
  have hlower : env.toLowercase word ∈ splitWhitespace (env.toLowercase s) := by
    rw [env.splitWhitespace_toLowercase]
    exact List.mem_map_of_mem h
  obtain ⟨hmem, hne⟩ := List.mem_filter.mp hlower
  refine List.mem_filter.mpr ⟨?_, hne⟩
  have hsplit : (env.toLowercase s).splitOnP splitsToken =
      ((env.toLowercase s).splitOnP ByteText.isWhitespace).flatMap
        (List.splitOnP (separators.contains ·)) := splitOnP_or _ _ _
  rw [hsplit]
  refine List.mem_flatMap.mpr ⟨_, hmem, ?_⟩
  have huncut : ∀ c ∈ env.toLowercase word, separators.contains c = false := by
    intro c hc
    rw [List.contains_eq_mem, decide_eq_false_iff_not]
    exact fun hsep => (whole_toLowercase word).mpr hwhole c hsep hc
  rw [List.splitOnP_eq_singleton huncut]
  exact List.mem_singleton_self _

theorem whole_of_mem_tokenizeLower {s token : Text} (h : token ∈ tokenizeLower env s) :
    Whole token := by
  intro c hsep hc
  have hcut := not_of_mem_splitOnP (List.mem_filter.mp h).1 c hc
  rw [splitsToken, Bool.or_eq_false_iff] at hcut
  exact absurd (List.contains_iff_mem.mpr hsep) (Bool.eq_false_iff.mp hcut.2)

/-- The words of a fact that a search may name. -/
def words (f : KnowledgeFact) : List Text :=
  splitWhitespace f.category ++ splitWhitespace f.key ++ splitWhitespace f.value

theorem mem_foundUnder_iff {f : KnowledgeFact} {word : Text} (h : word ∈ words f) :
    env.toLowercase word ∈ foundUnder env f ↔ Whole word := by
  constructor
  · intro hmem
    rw [← @whole_toLowercase env word]
    simp only [foundUnder, factTokens, List.mem_append] at hmem
    rcases hmem with ((hmem | hmem) | hmem) | hmem <;> exact whole_of_mem_tokenizeLower hmem
  · intro hwhole
    simp only [words, List.mem_append] at h
    simp only [foundUnder, factTokens, List.mem_append]
    rcases h with (h | h) | h
    · exact .inl (.inl (.inl (mem_tokenizeLower h hwhole)))
    · exact .inl (.inl (.inr (mem_tokenizeLower h hwhole)))
    · exact .inl (.inr (mem_tokenizeLower h hwhole))

theorem queryTerms_of_mem_words {f : KnowledgeFact} {word : Text} (h : word ∈ words f) :
    queryTerms env word = [env.toLowercase word] := by
  simp only [words, List.mem_append] at h
  rcases h with (h | h) | h <;> exact queryTerms_word h

/-! ## The index is that of the facts -/

variable (env) in
def Indexed (pk : ProjectKnowledge) : Prop := pk.index = buildKnowledgeIndex env pk.facts

/-- The texts that the index is made of. -/
structure SameText (f g : KnowledgeFact) : Prop where
  category : f.category = g.category
  key : f.key = g.key
  value : f.value = g.value
  sourceSession : f.sourceSession = g.sourceSession

theorem SameText.refl (f : KnowledgeFact) : SameText f f := ⟨rfl, rfl, rfl, rfl⟩

theorem indexBy_congr {tokens : KnowledgeFact → List Text} {facts facts' : List KnowledgeFact}
    (h : facts.map tokens = facts'.map tokens) : indexBy tokens facts = indexBy tokens facts' := by
  have hmap : ∀ facts : List KnowledgeFact, indexBy tokens facts =
      (facts.map tokens).zipIdx.foldl (fun positions (ts, i) => ts.foldl (push i) positions) [] := by
    intro facts
    rw [List.zipIdx_map, List.foldl_map]
    rfl
  rw [hmap, hmap, h]

theorem buildKnowledgeIndex_congr {facts facts' : List KnowledgeFact}
    (h : List.Forall₂ SameText facts facts') :
    buildKnowledgeIndex env facts = buildKnowledgeIndex env facts' := by
  have hmap : ∀ tokens : KnowledgeFact → List Text,
      (∀ f g, SameText f g → tokens f = tokens g) → facts.map tokens = facts'.map tokens := by
    intro tokens htokens
    induction h with
    | nil => rfl
    | cons hfg _ ih => rw [List.map_cons, List.map_cons, htokens _ _ hfg, ih]
  have hfact := indexBy_congr (hmap (factTokens env) fun f g h => by
    rw [factTokens, factTokens, h.category, h.key, h.value])
  have hsession := indexBy_congr (hmap (fun f => tokenizeLower env f.sourceSession) fun f g h => by
    rw [h.sourceSession])
  have hcategory := indexBy_congr (hmap (fun f => [f.category]) fun f g h => by rw [h.category])
  rw [buildKnowledgeIndex, buildKnowledgeIndex, hfact, hsession, hcategory]

theorem indexed_rememberWithOrigin {pk : ProjectKnowledge} (h : Indexed env pk) (call : Call)
    (policy : MemoryPolicy) (o : Observation) :
    Indexed env (pk.rememberWithOrigin env call policy o).2 := by
  rw [ProjectKnowledge.rememberWithOrigin]
  split_ifs
  · exact h
  · split
    · exact h
    · rfl

theorem indexed_rememberAdmitted {pk : ProjectKnowledge} (h : Indexed env pk) (call : Call)
    (policy : MemoryPolicy) (category key value sessionId : Text) (confidence : ℚ) :
    Indexed env (pk.rememberAdmitted env call policy category key value sessionId confidence).2 := by
  have hremember := indexed_rememberWithOrigin h call policy
    ⟨category, key, value, sessionId, confidence, .local⟩
  have hmerged : ∀ r ∈ pk.mergeNearDuplicate env call.now category value sessionId confidence
      policy.autoMergeSimilarity, Indexed env r.2 := by
    intro r hr
    simp only [ProjectKnowledge.mergeNearDuplicate, Option.mem_def, Option.bind_eq_bind,
      Option.bind_eq_some_iff] at hr
    obtain ⟨best, -, f, -, hr⟩ := hr
    cases hr
    rfl
  rw [ProjectKnowledge.rememberAdmitted]
  simp only
  split_ifs
  · exact hremember
  · exact h
  · cases hcase : pk.mergeNearDuplicate env call.now category value sessionId confidence
        policy.autoMergeSimilarity with
    | none => exact hremember
    | some r => exact hmerged r hcase
  · exact hremember

theorem indexed_addFact {pk : ProjectKnowledge} (h : Indexed env pk) (call : Call)
    (fact : KnowledgeFact) : Indexed env (pk.addFact env call fact).2 := by
  rw [ProjectKnowledge.addFact]
  simp only
  split_ifs
  · exact h
  · exact h
  · split
    · exact h
    · split
      · rename_i front existing back hmatch
        rw [Indexed]
        refine h.trans (buildKnowledgeIndex_congr ?_)
        simp only
        rw [(firstMatch_eq_some hmatch).1]
        refine List.rel_append (List.forall₂_same.mpr fun f _ => SameText.refl f) (.cons ?_ ?_)
        · exact ⟨rfl, rfl, rfl, rfl⟩
        · exact List.forall₂_same.mpr fun f _ => SameText.refl f
      · rfl

theorem indexed_removeFact {pk : ProjectKnowledge} (h : Indexed env pk) (call : Call)
    (category key : Text) : Indexed env (pk.removeFact env call category key).2 := by
  rw [ProjectKnowledge.removeFact]
  simp only
  split_ifs with hless
  · rfl
  · have hall : pk.facts.filter (fun f => !(f.category == category && f.key == key)) = pk.facts :=
      List.filter_sublist.eq_of_length_le (not_lt.mp hless)
    rw [Indexed]
    simp only [hall]
    exact h

/-- An import that adds and replaces nothing leaves the facts as they are. -/
theorem importOne_kept {facts : List KnowledgeFact} {state : List KnowledgeFact × ImportResult}
    (h : state.2.added = 0 → state.2.replaced = 0 → state.1 = facts) (now : Time)
    (merge : ImportMerge) (sessionId : Text) (fact : KnowledgeFact) :
    (importOne now merge sessionId state fact).2.added = 0 →
      (importOne now merge sessionId state fact).2.replaced = 0 →
      (importOne now merge sessionId state fact).1 = facts := by
  obtain ⟨current, r⟩ := state
  unfold importOne
  simp only
  split
  · exact h
  · intro _ hreplaced
    exact absurd hreplaced (Nat.succ_ne_zero _)
  · intro hadded
    exact absurd hadded (Nat.succ_ne_zero _)
  · intro hadded
    exact absurd hadded (Nat.succ_ne_zero _)

theorem indexed_importFacts {pk : ProjectKnowledge} (h : Indexed env pk) (call : Call)
    (incoming : List KnowledgeFact) (merge : ImportMerge) (sessionId : Text) :
    Indexed env (pk.importFacts env call incoming merge sessionId).2 := by
  have hkept : ∀ state : List KnowledgeFact × ImportResult,
      (state.2.added = 0 → state.2.replaced = 0 → state.1 = pk.facts) →
      (incoming.foldl (importOne call.now merge sessionId) state).2.added = 0 →
      (incoming.foldl (importOne call.now merge sessionId) state).2.replaced = 0 →
      (incoming.foldl (importOne call.now merge sessionId) state).1 = pk.facts := by
    induction incoming with
    | nil => exact fun _ hstate => hstate
    | cons fact rest ih => exact fun _ hstate => ih _ (importOne_kept hstate _ _ _ _)
  rw [ProjectKnowledge.importFacts]
  simp only
  split_ifs with hchanged
  · rfl
  · simp only [Bool.or_eq_true, decide_eq_true_eq, not_or, Nat.not_lt, Nat.le_zero] at hchanged
    rw [Indexed]
    simp only
    rw [hkept _ (fun _ _ => rfl) hchanged.1 hchanged.2]
    exact h

/-! ## Serving -/

/-- The same fact, served some more times. -/
def Served (f g : KnowledgeFact) : Prop :=
  g = { f with retrievalCount := g.retrievalCount, lastRetrieved := g.lastRetrieved }

theorem Served.refl (f : KnowledgeFact) : Served f f := rfl

theorem Served.again {f g : KnowledgeFact} (h : Served f g) (now : Time) :
    Served f (served now g) := by
  rw [Served] at h ⊢
  rw [h]
  rfl

theorem Served.sameText {f g : KnowledgeFact} (h : Served f g) : SameText f g := by
  rw [h]
  exact ⟨rfl, rfl, rfl, rfl⟩

theorem forall₂_set {α β : Type} {R : α → β → Prop} {l : List α} {l' : List β}
    (h : List.Forall₂ R l l') {idx : ℕ} {z : β}
    (hz : ∀ x y, l'[idx]? = some y → R x y → R x z) : List.Forall₂ R l (l'.set idx z) := by
  induction h generalizing idx with
  | nil => exact .nil
  | @cons a b l l' hab hrest ih =>
    cases idx with
    | zero => exact .cons (hz a b rfl hab) hrest
    | succ idx => exact .cons hab (ih hz)

theorem forall₂_serve {facts : List KnowledgeFact} {state : List KnowledgeFact × List KnowledgeFact}
    (h : List.Forall₂ Served facts state.1) (now : Time) (idx : ℕ) :
    List.Forall₂ Served facts (serve now state idx).1 := by
  rw [serve]
  split
  · rename_i g hg
    refine forall₂_set h fun f g' hg' hserved => ?_
    obtain rfl := Option.some.inj (hg.symm.trans hg')
    exact hserved.again now
  · exact h

/-- Serving positions changes no text, and hands out every fact that was asked for. -/
theorem foldl_serve {facts : List KnowledgeFact} (now : Time) (indices : List ℕ)
    {state : List KnowledgeFact × List KnowledgeFact} (h : List.Forall₂ Served facts state.1) :
    List.Forall₂ Served facts (indices.foldl (serve now) state).1 ∧
      (∀ g ∈ state.2, g ∈ (indices.foldl (serve now) state).2) ∧
      ∀ i ∈ indices, ∀ f, facts[i]? = some f →
        ∃ g ∈ (indices.foldl (serve now) state).2, Served f g := by
  induction indices generalizing state with
  | nil => exact ⟨h, fun _ hg => hg, fun i hi => absurd hi List.not_mem_nil⟩
  | cons idx indices ih =>
    obtain ⟨hfacts, hkept, hserved⟩ := ih (forall₂_serve h now idx)
    refine ⟨hfacts, fun g hg => hkept g ?_, fun i hi f hf => ?_⟩
    · rw [serve]
      split
      · exact List.mem_append_left _ hg
      · exact hg
    · rcases List.mem_cons.mp hi with rfl | hi
      · obtain ⟨hlt, rfl⟩ := List.getElem?_eq_some_iff.mp hf
        have hlt' : i < state.1.length := h.length_eq ▸ hlt
        have hrel : Served facts[i] state.1[i] := h.get hlt hlt'
        refine ⟨served now state.1[i], hkept _ ?_, hrel.again now⟩
        rw [serve, List.getElem?_eq_getElem hlt']
        exact List.mem_append_right _ (List.mem_singleton_self _)
      · exact hserved i hi f hf

theorem indexed_recallForOutput {pk : ProjectKnowledge} (h : Indexed env pk) (now : Time)
    (order : HashOrder) (query : Text) (limit : ℕ) :
    Indexed env (pk.recallForOutput env now order query limit).2 := by
  rw [ProjectKnowledge.recallForOutput]
  simp only
  split_ifs
  · exact h
  · rw [Indexed]
    refine h.trans (buildKnowledgeIndex_congr ?_)
    refine (foldl_serve now _ ?_).1.imp fun _ _ => Served.sameText
    exact List.forall₂_same.mpr fun f _ => Served.refl f

/-! ## Runs -/

inductive Op
  | remember (call : Call) (policy : MemoryPolicy) (o : Observation)
  | rememberAdmitted (call : Call) (policy : MemoryPolicy) (category key value sessionId : Text)
      (confidence : ℚ)
  | addFact (call : Call) (fact : KnowledgeFact)
  | removeFact (call : Call) (category key : Text)
  | importFacts (call : Call) (incoming : List KnowledgeFact) (merge : ImportMerge)
      (sessionId : Text)
  | recallForOutput (now : Time) (order : HashOrder) (query : Text) (limit : ℕ)

variable (env) in
def apply (pk : ProjectKnowledge) : Op → ProjectKnowledge
  | .remember call policy o => (pk.rememberWithOrigin env call policy o).2
  | .rememberAdmitted call policy category key value sessionId confidence =>
    (pk.rememberAdmitted env call policy category key value sessionId confidence).2
  | .addFact call fact => (pk.addFact env call fact).2
  | .removeFact call category key => (pk.removeFact env call category key).2
  | .importFacts call incoming merge sessionId =>
    (pk.importFacts env call incoming merge sessionId).2
  | .recallForOutput now order query limit => (pk.recallForOutput env now order query limit).2

variable (env) in
def run (pk : ProjectKnowledge) (ops : List Op) : ProjectKnowledge := ops.foldl (apply env) pk

theorem indexed_apply {pk : ProjectKnowledge} (h : Indexed env pk) (op : Op) :
    Indexed env (apply env pk op) := by
  cases op with
  | remember call policy o => exact indexed_rememberWithOrigin h call policy o
  | rememberAdmitted call policy category key value sessionId confidence =>
    exact indexed_rememberAdmitted h call policy category key value sessionId confidence
  | addFact call fact => exact indexed_addFact h call fact
  | removeFact call category key => exact indexed_removeFact h call category key
  | importFacts call incoming merge sessionId =>
    exact indexed_importFacts h call incoming merge sessionId
  | recallForOutput now order query limit => exact indexed_recallForOutput h now order query limit

theorem indexed_run {pk : ProjectKnowledge} (h : Indexed env pk) (ops : List Op) :
    Indexed env (run env pk ops) := by
  induction ops generalizing pk with
  | nil => exact h
  | cons op ops ih => exact ih (indexed_apply h op)

/-! ## What is found -/

theorem mem_matchCounts_iff {pk : ProjectKnowledge} (h : Indexed env pk) {terms : List Text}
    {i : ℕ} : (∃ count, (i, count) ∈ matchCounts pk terms) ↔
      ∃ f, pk.facts[i]? = some f ∧ f.isCurrent = true ∧ ∃ term ∈ terms, term ∈ foundUnder env f := by
  rw [exists_mem_matchCounts]
  refine exists_congr fun f => and_congr_right fun hf => and_congr_right fun _ => ?_
  refine exists_congr fun term => and_congr_right fun _ => ?_
  rw [h, mem_matchingIndices, hf]
  simp

/-- A fact is recalled exactly when it is current and a term of the query is one of its tokens. -/
theorem mem_recall_iff {pk : ProjectKnowledge} (h : Indexed env pk) (order : HashOrder)
    (query : Text) {f : KnowledgeFact} :
    f ∈ pk.recall env order query ↔ f ∈ pk.facts ∧ f.isCurrent = true ∧
      ∃ term ∈ queryTerms env query, term ∈ foundUnder env f := by
  rw [ProjectKnowledge.recall]
  simp only
  split_ifs with hterms
  · rw [List.isEmpty_iff.mp hterms]
    simp
  · simp only [List.mem_map, List.mem_mergeSort, List.mem_filterMap, Prod.exists,
      Option.map_eq_some_iff, (order.perm _).mem_iff]
    constructor
    · rintro ⟨f', relevance, ⟨i, count, hcount, f'', hf, heq⟩, rfl⟩
      obtain ⟨rfl, -⟩ := Prod.mk.inj heq
      obtain ⟨f', hf', hmatch⟩ := (mem_matchCounts_iff h).mp ⟨count, hcount⟩
      obtain rfl := Option.some.inj (hf.symm.trans hf')
      exact ⟨List.mem_of_getElem? hf, hmatch⟩
    · rintro ⟨hf, hmatch⟩
      obtain ⟨i, hi⟩ := List.mem_iff_getElem?.mp hf
      obtain ⟨count, hcount⟩ := (mem_matchCounts_iff h).mpr ⟨f, hi, hmatch⟩
      exact ⟨f, _, ⟨i, count, hcount, f, hi, rfl⟩, rfl⟩

theorem length_matchCounts_le {pk : ProjectKnowledge} (h : Indexed env pk) (terms : List Text) :
    (matchCounts pk terms).length ≤ pk.facts.length := by
  have hnodup : ((matchCounts pk terms).map Prod.fst).Nodup := by
    refine List.pairwise_map.mpr ((ascending_matchCounts pk terms).imp ?_)
    exact fun hlt => hlt.ne
  have hsubset : (matchCounts pk terms).map Prod.fst ⊆ List.range pk.facts.length := by
    intro i hi
    obtain ⟨⟨i, count⟩, hcount, rfl⟩ := List.mem_map.mp hi
    obtain ⟨f, hf, -⟩ := (mem_matchCounts_iff h).mp ⟨count, hcount⟩
    exact List.mem_range.mpr (List.getElem?_eq_some_iff.mp hf).1
  simpa using (List.subperm_of_subset hnodup hsubset).length_le

/-- With room for all facts, a matching fact is served. -/
theorem served_of_matching {pk : ProjectKnowledge} (h : Indexed env pk) (now : Time)
    (order : HashOrder) (query : Text) {limit : ℕ} (hlimit : pk.facts.length ≤ limit)
    {f : KnowledgeFact} (hf : f ∈ pk.facts) (hcurrent : f.isCurrent = true)
    (hmatch : ∃ term ∈ queryTerms env query, term ∈ foundUnder env f) :
    ∃ g ∈ (pk.recallForOutput env now order query limit).1.1, Served f g := by
  rw [ProjectKnowledge.recallForOutput]
  simp only
  split_ifs with hterms
  · obtain ⟨term, hterm, -⟩ := hmatch
    rw [List.isEmpty_iff.mp hterms] at hterm
    cases hterm
  · obtain ⟨i, hi⟩ := List.mem_iff_getElem?.mp hf
    obtain ⟨count, hcount⟩ := (mem_matchCounts_iff h).mpr ⟨f, hi, hcurrent, hmatch⟩
    refine (foldl_serve now _ ?_).2.2 i ?_ f hi
    · exact List.forall₂_same.mpr fun f _ => Served.refl f
    · rw [List.take_of_length_le]
      · simp only [List.mem_map, List.mem_mergeSort, List.mem_filterMap, Prod.exists,
          Option.map_eq_some_iff, (order.perm _).mem_iff]
        exact ⟨i, f, _, ⟨i, count, hcount, f, hi, rfl⟩, rfl⟩
      · rw [List.length_mergeSort]
        refine (List.length_filterMap_le _ _).trans ?_
        rw [(order.perm _).length_eq]
        exact (length_matchCounts_le h _).trans hlimit

/-- A query none of whose terms is a token of a fact serves nothing. -/
theorem served_eq_nil {pk : ProjectKnowledge} (h : Indexed env pk) (now : Time)
    (order : HashOrder) (query : Text) (limit : ℕ)
    (hnone : ∀ f ∈ pk.facts, ∀ term ∈ queryTerms env query, term ∉ foundUnder env f) :
    (pk.recallForOutput env now order query limit).1.1 = [] := by
  have hcounts : matchCounts pk (queryTerms env query) = [] := by
    refine List.eq_nil_iff_forall_not_mem.mpr ?_
    rintro ⟨i, count⟩ hcount
    obtain ⟨f, hf, -, term, hterm, hmem⟩ := (mem_matchCounts_iff h).mp ⟨count, hcount⟩
    exact hnone f (List.mem_of_getElem? hf) term hterm hmem
  have harranged : order.arrange (matchCounts pk (queryTerms env query)) = [] := by
    have hperm := order.perm (matchCounts pk (queryTerms env query))
    rw [hcounts] at hperm ⊢
    exact hperm.eq_nil
  rw [ProjectKnowledge.recallForOutput]
  simp only
  split_ifs
  · rfl
  · rw [harranged]
    simp

/-- After any operations the index is that of the facts, and a current fact is found by one of its
words exactly when no separator cuts the word; by its key, when one of the words is whole. -/
theorem recall_found_iff (root : Text) (loaded : List KnowledgeFact) (at₀ : Time) (ops : List Op) :
    Indexed env (run env (.load env root loaded at₀) ops) ∧
    ∀ f ∈ (run env (.load env root loaded at₀) ops).facts, f.isCurrent = true → ∀ order,
      (∀ word ∈ words f,
        (f ∈ (run env (.load env root loaded at₀) ops).«recall» env order word ↔ Whole word) ∧
        ∀ now limit, (run env (.load env root loaded at₀) ops).facts.length ≤ limit →
          ((∃ g ∈ ((run env (.load env root loaded at₀) ops).recallForOutput env now order word
            limit).1.1, Served f g) ↔ Whole word)) ∧
      (f ∈ (run env (.load env root loaded at₀) ops).«recall» env order f.key ↔
        ∃ word ∈ splitWhitespace f.key, Whole word) := by
  have hload : Indexed env (.load env root loaded at₀) := rfl
  have hindexed := indexed_run hload ops
  refine ⟨hindexed, ?_⟩
  generalize run env (.load env root loaded at₀) ops = pk at hindexed ⊢
  intro f hf hcurrent order
  refine ⟨fun word hword => ⟨?_, fun now limit hlimit => ?_⟩, ?_⟩
  · rw [mem_recall_iff hindexed, queryTerms_of_mem_words hword]
    simp [hf, hcurrent, mem_foundUnder_iff hword]
  · constructor
    · rintro ⟨g, hg, -⟩
      by_contra hcut
      rw [served_eq_nil hindexed] at hg
      · cases hg
      · intro f' _ term hterm hmem
        rw [queryTerms_of_mem_words hword, List.mem_singleton] at hterm
        subst hterm
        refine hcut ((@whole_toLowercase env word).mp ?_)
        simp only [foundUnder, factTokens, List.mem_append] at hmem
        rcases hmem with ((hmem | hmem) | hmem) | hmem <;> exact whole_of_mem_tokenizeLower hmem
    · intro hwhole
      refine served_of_matching hindexed now order word hlimit hf hcurrent ?_
      rw [queryTerms_of_mem_words hword]
      exact ⟨_, List.mem_singleton_self _, (mem_foundUnder_iff hword).mpr hwhole⟩
  · have hwords : ∀ word ∈ splitWhitespace f.key, word ∈ words f := by
      intro word hword
      simp [words, hword]
    rw [mem_recall_iff hindexed, queryTerms, env.splitWhitespace_toLowercase]
    simp only [hf, hcurrent, true_and, List.mem_map, exists_exists_and_eq_and]
    exact exists_congr fun word => and_congr_right fun hword => mem_foundUnder_iff (hwords word hword)

/-! ## A key that is not found -/

def asStored : HashOrder := ⟨id, fun counts => .refl counts⟩

/-- A store in which one value was remembered under a key. -/
def storeWith (key : String) : ProjectKnowledge :=
  run plainStore (.load plainStore "/p".toList [] 0)
    [.remember (openCall 5) defaultPolicy
      ⟨"arch".toList, key.toList, "jwt".toList, "s1".toList, 4 / 5, .local⟩]

theorem own_key_not_found :
    ((storeWith "auth-token").facts.any fun f => f.isCurrent && f.key == "auth-token".toList) =
      true ∧
    (storeWith "auth-token").«recall» plainStore asStored "auth-token".toList = [] ∧
    ((storeWith "auth-token").recallForOutput plainStore 9 asStored "auth-token".toList 1).1.1 =
      [] := by
  decide +kernel

theorem recall_found_iff_auth : ∀ f ∈ (storeWith "auth").facts,
    f ∈ (storeWith "auth").«recall» plainStore asStored "auth".toList ∧
    ∃ g ∈ ((storeWith "auth").recallForOutput plainStore 9 asStored "auth".toList 1).1.1,
      Served f g := by
  intro f hf
  have hwords : ∀ f ∈ (storeWith "auth").facts,
      f.isCurrent = true ∧ "auth".toList ∈ words f := by decide +kernel
  obtain ⟨hcurrent, hword⟩ := hwords f hf
  have hwhole : Whole "auth".toList := by decide
  have hfound := ((@recall_found_iff plainStore "/p".toList [] 0 _).2 f hf hcurrent asStored).1
    "auth".toList hword
  exact ⟨hfound.1.mpr hwhole, (hfound.2 9 1 (by decide +kernel)).mpr hwhole⟩

end LeanCtx.Knowledge
