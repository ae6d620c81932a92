import LeanCtx.KnowledgeStore

/-!
# Current facts and their versions

A remembered value supersedes the version of its key before it. A fact that is
added as such is matched by its value instead, and a superseded version of the
same value absorbs it.
-/

namespace LeanCtx.Knowledge

variable (env : StoreEnv)

/-! ## The versions of a key -/

def ofKey (category key : Text) (origin : FactOrigin) (f : KnowledgeFact) : Bool :=
  f.category == category && f.key == key && f.origin == origin

/-- The older versions of a fact, newest first: all retired, each named by the next. -/
def Preceded (f : KnowledgeFact) : List KnowledgeFact → Prop
  | [] => f.supersedes = none
  | g :: older => g.isCurrent = false ∧ f.supersedes = some (factVersionId env g) ∧
      Preceded g older

/-- The versions of a key, newest first. -/
def History : List KnowledgeFact → Prop
  | [] => True
  | f :: older => f.isCurrent = true ∧ Preceded env f older

def versions (facts : List KnowledgeFact) (category key : Text) (origin : FactOrigin) :
    List KnowledgeFact :=
  (facts.filter (ofKey category key origin)).reverse

def Versioned (facts : List KnowledgeFact) : Prop :=
  ∀ category key origin, History env (versions facts category key origin)

variable {env}

theorem Preceded.not_current {f : KnowledgeFact} {older : List KnowledgeFact}
    (h : Preceded env f older) : ∀ g ∈ older, g.isCurrent = false := by
  induction older generalizing f with
  | nil => exact fun g hg => absurd hg List.not_mem_nil
  | cons g older ih =>
    intro g' hg'
    rcases List.mem_cons.mp hg' with rfl | hg'
    · exact h.1
    · exact ih h.2.2 g' hg'

theorem Preceded.congr {f f' : KnowledgeFact} {older : List KnowledgeFact}
    (h : Preceded env f older) (hsupersedes : f'.supersedes = f.supersedes) :
    Preceded env f' older := by
  cases older with
  | nil => exact hsupersedes.trans h
  | cons g older => exact ⟨h.1, hsupersedes.trans h.2.1, h.2.2⟩

theorem Preceded.named {f : KnowledgeFact} {older : List KnowledgeFact}
    (h : Preceded env f older) :
    ∀ g ∈ older, ∃ f' ∈ f :: older, f'.supersedes = some (factVersionId env g) := by
  induction older generalizing f with
  | nil => exact fun g hg => absurd hg List.not_mem_nil
  | cons g older ih =>
    intro g' hg'
    rcases List.mem_cons.mp hg' with rfl | hg'
    · exact ⟨f, List.mem_cons_self, h.2.1⟩
    · obtain ⟨f', hf', hname⟩ := ih h.2.2 g' hg'
      exact ⟨f', List.mem_cons_of_mem f hf', hname⟩

theorem Preceded.kept {f : KnowledgeFact} {older : List KnowledgeFact} (h : Preceded env f older)
    {f' : KnowledgeFact} (hf' : f' ∈ f :: older) {id : Text} (hid : f'.supersedes = some id) :
    ∃ g ∈ older, g.isCurrent = false ∧ factVersionId env g = id := by
  induction older generalizing f with
  | nil =>
    obtain rfl := List.mem_singleton.mp hf'
    cases hid.symm.trans h
  | cons g older ih =>
    rcases List.mem_cons.mp hf' with rfl | hf'
    · exact ⟨g, List.mem_cons_self, h.1, Option.some.inj (h.2.1.symm.trans hid)⟩
    · obtain ⟨g', hg', hfacts⟩ := ih h.2.2 hf'
      exact ⟨g', List.mem_cons_of_mem g hg', hfacts⟩

theorem History.current_first {newer older : List KnowledgeFact} {f : KnowledgeFact}
    (h : History env (newer ++ f :: older)) (hcurrent : f.isCurrent = true) :
    newer = [] ∧ Preceded env f older := by
  cases newer with
  | nil => exact ⟨rfl, h.2⟩
  | cons g newer =>
    have hnot := h.2.not_current f (List.mem_append_right _ List.mem_cons_self)
    exact absurd (hnot.symm.trans hcurrent) Bool.false_ne_true

theorem History.length_current {l : List KnowledgeFact} (h : History env l) :
    (l.filter (·.isCurrent)).length ≤ 1 := by
  cases l with
  | nil => exact Nat.zero_le 1
  | cons f older =>
    have holder : older.filter (·.isCurrent) = [] := by
      refine List.filter_eq_nil_iff.mpr fun g hg => ?_
      exact Bool.eq_false_iff.mp (h.2.not_current g hg)
    rw [List.filter_cons_of_pos h.1, holder]
    exact le_rfl

/-! ## Remembering keeps the versions -/

theorem addressed_iff {o : Observation} {f : KnowledgeFact} :
    addressed o f = true ↔ ofKey o.category o.key o.origin f = true ∧ f.isCurrent = true := by
  simp only [addressed, ofKey, Bool.and_eq_true]
  tauto

theorem versions_append (l l' : List KnowledgeFact) (c k : Text) (o : FactOrigin) :
    versions (l ++ l') c k o = versions l' c k o ++ versions l c k o := by
  rw [versions, List.filter_append, List.reverse_append]
  rfl

theorem versions_cons_of_ofKey {f : KnowledgeFact} {c k : Text} {o : FactOrigin}
    (h : ofKey c k o f = true) (l : List KnowledgeFact) :
    versions (f :: l) c k o = versions l c k o ++ [f] := by
  rw [versions, List.filter_cons_of_pos h, List.reverse_cons]
  rfl

theorem versions_cons_of_not {f : KnowledgeFact} {c k : Text} {o : FactOrigin}
    (h : ofKey c k o f = false) (l : List KnowledgeFact) :
    versions (f :: l) c k o = versions l c k o := by
  rw [versions, List.filter_cons_of_neg (Bool.eq_false_iff.mp h)]
  rfl

theorem versioned_remembered {facts : List KnowledgeFact} (h : Versioned env facts) (now : Time)
    (o : Observation) : Versioned env (remembered env now o facts) := by
  intro c k origin
  have hfacts := h c k origin
  rw [remembered]
  cases hmatch : firstMatch (addressed o) facts with
  | none =>
    have hnone := firstMatch_eq_none hmatch
    simp only [versions_append]
    by_cases hkey : ofKey c k origin (newFact env now o none 1 none) = true
    · -- nothing of this key is current, so there is no version of it
      have hempty : versions facts c k origin = [] := by
        cases hversions : versions facts c k origin with
        | nil => rfl
        | cons f older =>
          rw [hversions] at hfacts
          have hmem : f ∈ versions facts c k origin := hversions ▸ List.mem_cons_self
          obtain ⟨hf, hfkey⟩ := List.mem_filter.mp (List.mem_reverse.mp hmem)
          have haddressed : addressed o f = true := by
            simp only [ofKey, newFact, Bool.and_eq_true, beq_iff_eq] at hkey hfkey
            obtain ⟨⟨rfl, rfl⟩, rfl⟩ := hkey
            refine addressed_iff.mpr ⟨?_, hfacts.1⟩
            simpa [ofKey, and_assoc] using hfkey
          exact absurd haddressed (Bool.eq_false_iff.mp (hnone f hf))
      rw [hempty, versions_cons_of_ofKey hkey]
      exact ⟨rfl, rfl⟩
    · rw [versions_cons_of_not (Bool.eq_false_iff.mpr hkey)]
      exact hfacts
  | some found =>
    obtain ⟨front, existing, back⟩ := found
    obtain ⟨rfl, hexisting⟩ := firstMatch_eq_some hmatch
    obtain ⟨hself, hcurrent⟩ := addressed_iff.mp hexisting
    simp only
    have hsame : ∀ f : KnowledgeFact, f.category = existing.category → f.key = existing.key →
        f.origin = existing.origin → ofKey c k origin f = ofKey c k origin existing := by
      intro f hc hk ho
      rw [ofKey, ofKey, hc, hk, ho]
    have hnew : ∀ s r v, ofKey c k origin (newFact env now o s r v) =
        ofKey c k origin existing := by
      intro s r v
      simp only [ofKey, Bool.and_eq_true, beq_iff_eq] at hself
      exact hsame _ hself.1.1.symm hself.1.2.symm hself.2.symm
    by_cases hkey : ofKey c k origin existing = true
    · rw [versions_append, versions_cons_of_ofKey hkey, List.append_assoc] at hfacts
      obtain ⟨hback, holder⟩ := hfacts.current_first hcurrent
      split_ifs with hconfirms
      · have hconfirm : ofKey c k origin (confirm env now o existing) = true :=
          (hsame _ rfl rfl rfl).trans hkey
        rw [versions_append, versions_cons_of_ofKey hconfirm, hback]
        exact ⟨hcurrent, holder.congr rfl⟩
      · have hretire : ofKey c k origin (retire now existing) = true :=
          (hsame _ rfl rfl rfl).trans hkey
        rw [versions_append, versions_append,
          versions_cons_of_ofKey ((hnew _ _ _).trans hkey), versions_cons_of_ofKey hretire, hback]
        exact ⟨rfl, rfl, rfl, holder.congr rfl⟩
    · have hkey := Bool.eq_false_iff.mpr hkey
      rw [versions_append, versions_cons_of_not hkey] at hfacts
      split_ifs with hconfirms
      · have hconfirm : ofKey c k origin (confirm env now o existing) = false :=
          (hsame _ rfl rfl rfl).trans hkey
        rw [versions_append, versions_cons_of_not hconfirm]
        exact hfacts
      · have hretire : ofKey c k origin (retire now existing) = false :=
          (hsame _ rfl rfl rfl).trans hkey
        rw [versions_append, versions_append, versions_cons_of_not ((hnew _ _ _).trans hkey),
          versions_cons_of_not hretire]
        exact hfacts

variable (env) in
/-- The store after a sequence of observations. -/
def rememberAll (calls : List (Call × MemoryPolicy × Observation)) (pk : ProjectKnowledge) :
    ProjectKnowledge :=
  calls.foldl (fun pk (call, policy, o) => (pk.rememberWithOrigin env call policy o).2) pk

theorem versioned_rememberWithOrigin {pk : ProjectKnowledge} (h : Versioned env pk.facts)
    (call : Call) (policy : MemoryPolicy) (o : Observation) :
    Versioned env (pk.rememberWithOrigin env call policy o).2.facts := by
  rw [ProjectKnowledge.rememberWithOrigin]
  split_ifs
  · exact h
  · split
    · exact h
    · exact versioned_remembered h _ _

theorem versioned_rememberAll {pk : ProjectKnowledge} (h : Versioned env pk.facts)
    (calls : List (Call × MemoryPolicy × Observation)) :
    Versioned env (rememberAll env calls pk).facts := by
  induction calls generalizing pk with
  | nil => exact h
  | cons call rest ih => exact ih (versioned_rememberWithOrigin h call.1 call.2.1 call.2.2)

variable (env)

/-- What the versions of the keys amount to. -/
structure KeepsVersions (facts : List KnowledgeFact) : Prop where
  oneCurrent : ∀ c k o, ((facts.filter (ofKey c k o)).filter (·.isCurrent)).length ≤ 1
  named : ∀ g ∈ facts, g.isCurrent = false →
    ∃ f ∈ facts, ofKey g.category g.key g.origin f = true ∧
      f.supersedes = some (factVersionId env g)
  kept : ∀ f ∈ facts, ∀ id, f.supersedes = some id →
    ∃ g ∈ facts, ofKey f.category f.key f.origin g = true ∧ g.isCurrent = false ∧
      factVersionId env g = id

theorem mem_versions_self {facts : List KnowledgeFact} {f : KnowledgeFact} (h : f ∈ facts) :
    f ∈ versions facts f.category f.key f.origin :=
  List.mem_reverse.mpr (List.mem_filter.mpr ⟨h, by simp [ofKey]⟩)

theorem mem_of_mem_versions {facts : List KnowledgeFact} {f : KnowledgeFact} {c k : Text}
    {o : FactOrigin} (h : f ∈ versions facts c k o) : f ∈ facts ∧ ofKey c k o f = true :=
  List.mem_filter.mp (List.mem_reverse.mp h)

theorem keepsVersions_of_versioned {facts : List KnowledgeFact} (h : Versioned env facts) :
    KeepsVersions env facts where
  oneCurrent c k o := by
    have hlength := (h c k o).length_current
    rwa [versions, List.filter_reverse, List.length_reverse] at hlength
  named g hg hretired := by
    have hmem := mem_versions_self hg
    have hhistory := h g.category g.key g.origin
    cases hversions : versions facts g.category g.key g.origin with
    | nil =>
      rw [hversions] at hmem
      cases hmem
    | cons f older =>
      rw [hversions] at hmem hhistory
      rcases List.mem_cons.mp hmem with rfl | hmem
      · exact absurd (hretired.symm.trans hhistory.1) Bool.false_ne_true
      · obtain ⟨f', hf', hname⟩ := hhistory.2.named g hmem
        obtain ⟨hf', hkey⟩ := mem_of_mem_versions (hversions ▸ hf')
        exact ⟨f', hf', hkey, hname⟩
  kept f hf id hid := by
    have hmem := mem_versions_self hf
    have hhistory := h f.category f.key f.origin
    cases hversions : versions facts f.category f.key f.origin with
    | nil =>
      rw [hversions] at hmem
      cases hmem
    | cons f' older =>
      rw [hversions] at hmem hhistory
      obtain ⟨g, hg, hretired, hname⟩ := hhistory.2.kept hmem hid
      obtain ⟨hg, hkey⟩ := mem_of_mem_versions (hversions ▸ List.mem_cons_of_mem f' hg)
      exact ⟨g, hg, hkey, hretired, hname⟩

/-! ## What is stored is current -/

/-- A current fact says this. -/
def HoldsCurrent (facts : List KnowledgeFact) (category value : Text) (origin : FactOrigin) :
    Prop :=
  ∃ f ∈ facts, f.isCurrent = true ∧ f.category = category ∧ f.value = value ∧ f.origin = origin

instance (facts : List KnowledgeFact) (category value : Text) (origin : FactOrigin) :
    Decidable (HoldsCurrent facts category value origin) :=
  inferInstanceAs (Decidable (∃ f ∈ facts, _))

/-- The fact as the store takes it in. -/
def trimmed (f : KnowledgeFact) : KnowledgeFact :=
  { f with category := trim f.category, value := trim f.value }

/-- A fact admitted as it is. -/
def AdmitsFact (g : Gateway) (f : KnowledgeFact) : Prop :=
  admitFactFields g f.category f.key f.value = some (f.category, f.key, f.value)

instance (g : Gateway) (f : KnowledgeFact) : Decidable (AdmitsFact g f) :=
  inferInstanceAs (Decidable (_ = _))

/-- Where a fact says the same, a current one does. -/
def SaidByCurrent (facts : List KnowledgeFact) (f : KnowledgeFact) : Prop :=
  (∃ g ∈ facts, sameClaim f g = true) → ∃ g ∈ facts, sameClaim f g = true ∧ g.isCurrent = true

theorem holdsCurrent_iff_sameClaim {facts : List KnowledgeFact} {f : KnowledgeFact} :
    HoldsCurrent facts f.category f.value f.origin ↔
      ∃ g ∈ facts, sameClaim f g = true ∧ g.isCurrent = true := by
  simp only [HoldsCurrent, sameClaim, Bool.and_eq_true, beq_iff_eq]
  exact exists_congr fun g => and_congr_right fun _ => by tauto

theorem facts_addFact {call : Call} {fact : KnowledgeFact} {pk : ProjectKnowledge}
    (hpass : AdmitsFact call.gateway (trimmed fact))
    (hadded : (pk.addFact env call fact).1 = true) :
    (pk.addFact env call fact).2.facts =
      match firstMatch (sameClaim (trimmed fact)) pk.facts with
      | some (front, existing, back) =>
        front ++ observeAgain env call.now (trimmed fact) existing :: back
      | none => pk.facts ++ [updateFidelity env call.now (trimmed fact)] := by
  rw [ProjectKnowledge.addFact] at hadded ⊢
  simp only at hadded ⊢
  split_ifs at hadded ⊢ with hempty hmachine
  rw [AdmitsFact] at hpass
  simp only [trimmed] at hpass
  rw [hpass]
  simp only [trimmed]
  cases firstMatch (sameClaim { fact with
      category := trim fact.category, value := trim fact.value }) pk.facts with
  | none => rfl
  | some found => rfl

theorem addFact_holdsCurrent_iff {call : Call} {fact : KnowledgeFact} {pk : ProjectKnowledge}
    (hvalid : fact.validUntil = none) (hpass : AdmitsFact call.gateway (trimmed fact))
    (hadded : (pk.addFact env call fact).1 = true) :
    HoldsCurrent (pk.addFact env call fact).2.facts (trim fact.category) (trim fact.value)
        fact.origin ↔ SaidByCurrent pk.facts (trimmed fact) := by
  have hclaim := @holdsCurrent_iff_sameClaim (pk.addFact env call fact).2.facts (trimmed fact)
  simp only [trimmed] at hclaim ⊢
  rw [hclaim, facts_addFact env hpass hadded]
  cases hmatch : firstMatch (sameClaim (trimmed fact)) pk.facts with
  | none =>
    have hnone := firstMatch_eq_none hmatch
    constructor
    · rintro - ⟨g, hg, hsame⟩
      exact absurd hsame (Bool.eq_false_iff.mp (hnone g hg))
    · intro _
      refine ⟨_, List.mem_append_right _ (List.mem_singleton_self _), ?_, ?_⟩
      · simp [sameClaim, updateFidelity, trimmed]
      · simp [KnowledgeFact.isCurrent, updateFidelity, trimmed, hvalid]
  | some found =>
    obtain ⟨front, existing, back⟩ := found
    obtain ⟨hfacts, hexisting⟩ := firstMatch_eq_some hmatch
    rw [SaidByCurrent, hfacts]
    have hpresent : ∃ g ∈ front ++ existing :: back, sameClaim (trimmed fact) g = true :=
      ⟨existing, List.mem_append_right _ List.mem_cons_self, hexisting⟩
    simp only [trimmed] at hpresent ⊢
    rw [forall_prop_of_true hpresent]
    simp only [List.mem_append, List.mem_cons, or_and_right, exists_or, exists_eq_left]
    rfl

/-- The values that the current fact of the key already says, or nearly says. -/
def isConfirmation (facts : List KnowledgeFact) (o : Observation) : Bool :=
  match firstMatch (addressed o) facts with
  | some (_, existing, _) => confirms env existing o.value
  | none => false

/-- An observation that the store takes in as it is. -/
def AdmitsObservation (call : Call) (o : Observation) : Prop :=
  (isMachineDerived o.category o.key = true → call.autoCapture = true) ∧
    admitFactFields call.gateway o.category o.key o.value = some (o.category, o.key, o.value)

theorem remember_holdsCurrent {call : Call} {o : Observation} {pk : ProjectKnowledge}
    (policy : MemoryPolicy) (hpass : AdmitsObservation call o)
    (hnew : isConfirmation env pk.facts o = false) :
    ∃ f ∈ (pk.rememberWithOrigin env call policy o).2.facts, f.isCurrent = true ∧
      ofKey o.category o.key o.origin f = true ∧ f.value = o.value := by
  have hresult : (pk.rememberWithOrigin env call policy o).2.facts =
      remembered env call.now o pk.facts := by
    rw [ProjectKnowledge.rememberWithOrigin, hpass.2, if_neg]
    · rfl
    · simp only [Bool.and_eq_true, Bool.not_eq_true', not_and, Bool.not_eq_false]
      exact hpass.1
  have hmem : ∃ s r v, newFact env call.now o s r v ∈ remembered env call.now o pk.facts := by
    rw [isConfirmation] at hnew
    rw [remembered]
    cases hmatch : firstMatch (addressed o) pk.facts with
    | none => exact ⟨_, _, _, List.mem_append_right _ (List.mem_singleton_self _)⟩
    | some found =>
      rw [hmatch] at hnew
      simp only at hnew
      simp only [hnew, Bool.false_eq_true, if_false]
      exact ⟨_, _, _, List.mem_append_right _ (List.mem_singleton_self _)⟩
  obtain ⟨s, r, v, hmem⟩ := hmem
  refine ⟨_, hresult ▸ hmem, rfl, ?_, rfl⟩
  simp [ofKey, newFact]

def database (value : String) : Observation :=
  ⟨"arch".toList, "db".toList, value.toList, "s1".toList, 4 / 5, .local⟩

def databaseFact (value : String) : KnowledgeFact :=
  newFact plainStore 9 (database value) none 1 none

/-- A store in which one value was remembered after another. -/
def databases (values : List String) : ProjectKnowledge :=
  rememberAll plainStore (values.map fun value => (openCall 5, defaultPolicy, database value))
    (ProjectKnowledge.new plainStore "/p".toList 0)

end LeanCtx.Knowledge
