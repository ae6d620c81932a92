import Mathlib.Data.List.Pairwise
import Mathlib.Data.Nat.Basic
import Mathlib.Tactic.Common

/-!
# Reading a log that grows

A log lists entries under ascending numbers and is only appended to. A reader
asks for the entries behind a number and is given the first of them, as many as
the log's keeper likes. What it holds is the beginning of the log whenever it
asks from a number that it has seen, and each page it is given leaves less of
what the log held when it began.
-/

namespace LeanCtx.AppendLog

variable {α : Type} (seq : α → ℕ)

abbrev Ascending (log : List α) : Prop := log.Pairwise fun a b => seq a < seq b

/-- The entries behind a number. -/
def after (since : ℕ) (log : List α) : List α := log.filter fun a => since < seq a

/-- The entries of the log up to some entry, in any order. -/
structure Beginning (log held : List α) : Prop where
  sound : ∀ a ∈ held, a ∈ log
  closed : ∀ a ∈ log, ∀ b ∈ held, seq a ≤ seq b → a ∈ held

/-- The number is that of the start or one up to which the reader has read. -/
def Seen (held : List α) (since : ℕ) : Prop := since = 0 ∨ ∃ a ∈ held, since ≤ seq a

/-- Everything up to the number is held, and the log reaches it. -/
structure ReadTo (log held : List α) (since : ℕ) : Prop where
  below : ∀ a ∈ log, seq a ≤ since → a ∈ held
  reached : since = 0 ∨ ∃ a ∈ log, since ≤ seq a

variable {seq} {log log' held held' : List α} {since : ℕ}

theorem mem_after {a : α} : a ∈ after seq since log ↔ a ∈ log ∧ since < seq a := by
  rw [after, List.mem_filter, decide_eq_true_eq]

/-- Nothing is behind a later number either. -/
theorem after_eq_nil {next : ℕ} (h : after seq since log = []) (hle : since ≤ next) :
    after seq next log = [] := by
  refine List.filter_eq_nil_iff.mpr fun a ha hlt => ?_
  have hnone := List.filter_eq_nil_iff.mp h a ha
  rw [decide_eq_true_eq] at hlt hnone
  omega

theorem Ascending.after (h : Ascending seq log) (since : ℕ) : Ascending seq (after seq since log) :=
  h.filter _

theorem Ascending.mem_take (h : Ascending seq log) {k : ℕ} {a b : α} (hb : b ∈ log.take k)
    (ha : a ∈ log) (hle : seq a ≤ seq b) : a ∈ log.take k := by
  rw [← List.take_append_drop k log] at h ha
  rcases List.mem_append.mp ha with ha | ha
  · exact ha
  · exact absurd ((List.pairwise_append.mp h).2.2 b hb a ha) (not_lt.mpr hle)

theorem Seen.mono (h : Seen seq held since) (hsub : ∀ a ∈ held, a ∈ held') :
    Seen seq held' since := by
  rcases h with h | ⟨a, ha, hle⟩
  · exact Or.inl h
  · exact Or.inr ⟨a, hsub a ha, hle⟩

theorem Beginning.nil : Beginning seq log [] :=
  ⟨List.forall_mem_nil _, fun _ _ _ hb => absurd hb List.not_mem_nil⟩

theorem Beginning.congr (h : Beginning seq log held) (hsame : ∀ a, a ∈ held' ↔ a ∈ held) :
    Beginning seq log held' := by
  refine ⟨fun a ha => h.sound a ((hsame a).mp ha), fun a ha b hb hle => ?_⟩
  exact (hsame a).mpr (h.closed a ha b ((hsame b).mp hb) hle)

theorem Beginning.grow (h : Beginning seq log held) (hlog : log <+: log')
    (hasc : Ascending seq log') : Beginning seq log' held := by
  obtain ⟨more, rfl⟩ := hlog
  refine ⟨fun a ha => List.mem_append_left _ (h.sound a ha), fun a ha b hb hle => ?_⟩
  rcases List.mem_append.mp ha with ha | ha
  · exact h.closed a ha b hb hle
  · exact absurd ((List.pairwise_append.mp hasc).2.2 b (h.sound b hb) a ha) (not_lt.mpr hle)

/-- Whatever is behind the number, the page extends what is held up to it. -/
theorem Beginning.read (h : Beginning seq log held) (hasc : Ascending seq log)
    (hseen : ∀ a ∈ log, seq a ≤ since → a ∈ held) (k : ℕ)
    (hheld : ∀ a, a ∈ held' ↔ a ∈ held ∨ a ∈ (after seq since log).take k) :
    Beginning seq log held' := by
  refine ⟨fun a ha => ?_, fun a ha b hb hle => (hheld a).mpr ?_⟩
  · rcases (hheld a).mp ha with ha | ha
    · exact h.sound a ha
    · exact (mem_after.mp (List.mem_of_mem_take ha)).1
  · rcases (hheld b).mp hb with hb | hb
    · exact Or.inl (h.closed a ha b hb hle)
    · by_cases hsince : seq a ≤ since
      · exact Or.inl (hseen a ha hsince)
      · refine Or.inr ((hasc.after since).mem_take hb (mem_after.mpr ⟨ha, ?_⟩) hle)
        exact not_le.mp hsince

theorem Beginning.of_seen (h : Beginning seq log held) (hpos : ∀ a ∈ log, 0 < seq a)
    (hseen : Seen seq held since) : ∀ a ∈ log, seq a ≤ since → a ∈ held := by
  intro a ha hle
  rcases hseen with rfl | ⟨b, hb, hlt⟩
  · exact absurd (hpos a ha) (not_lt.mpr hle)
  · exact h.closed a ha b hb (Nat.le_trans hle hlt)

theorem Beginning.readTo (h : Beginning seq log held) (hpos : ∀ a ∈ log, 0 < seq a)
    (hseen : Seen seq held since) : ReadTo seq log held since := by
  refine ⟨h.of_seen hpos hseen, ?_⟩
  rcases hseen with hzero | ⟨a, ha, hle⟩
  · exact Or.inl hzero
  · exact Or.inr ⟨a, h.sound a ha, hle⟩

/-- What is appended lies behind the number. -/
theorem ReadTo.grow (h : ReadTo seq log held since) (hpos : ∀ a ∈ log', 0 < seq a)
    (hlog : log <+: log') (hasc : Ascending seq log') : ReadTo seq log' held since := by
  obtain ⟨more, rfl⟩ := hlog
  refine ⟨fun a ha hle => ?_, ?_⟩
  · rcases List.mem_append.mp ha with hold | hnew
    · exact h.below a hold hle
    · rcases h.reached with rfl | ⟨b, hb, hreach⟩
      · exact absurd (hpos a ha) (not_lt.mpr hle)
      · have hlt := (List.pairwise_append.mp hasc).2.2 b hb a hnew
        omega
  · rcases h.reached with hzero | ⟨a, ha, hle⟩
    · exact Or.inl hzero
    · exact Or.inr ⟨a, List.mem_append_left _ ha, hle⟩

/-- A page leaves less of an earlier log behind its last entry. -/
theorem length_after_lt (hasc : Ascending seq log') (hlog : log <+: log') {k : ℕ} {last : α}
    (hlast : last ∈ (after seq since log').take k) (hne : after seq since log ≠ [])
    (hmax : ∀ a ∈ (after seq since log').take k, seq a ≤ seq last) :
    (after seq (seq last) log).length < (after seq since log).length := by
  obtain ⟨first, rest, hfirst⟩ := List.exists_cons_of_ne_nil hne
  obtain ⟨more, rfl⟩ := hlog
  have hsplit : after seq since (log ++ more) = first :: (rest ++ after seq since more) := by
    rw [after, List.filter_append]
    exact congrArg (· ++ after seq since more) hfirst
  have hk : k ≠ 0 := by
    rintro rfl
    exact absurd hlast List.not_mem_nil
  have hle : seq first ≤ seq last := by
    refine hmax first ?_
    rw [hsplit, ← Nat.succ_pred_eq_of_ne_zero hk]
    exact List.mem_cons_self
  have hbehind := (mem_after.mp (List.mem_of_mem_take hlast)).2
  have hfilter : after seq (seq last) log =
      (after seq since log).filter fun a => seq last < seq a := by
    rw [after, after, List.filter_filter]
    refine List.filter_congr fun a _ => ?_
    rw [← Bool.decide_and, decide_eq_decide]
    omega
  rw [hfilter]
  refine List.length_filter_lt_length_iff_exists.mpr ⟨first, ?_, ?_⟩
  · rw [hfirst]
    exact List.mem_cons_self
  · rw [decide_eq_true_eq]
    exact not_lt.mpr hle

end LeanCtx.AppendLog
