import LeanCtx.TextSearch
import Mathlib.Data.List.Infix

/-!
# Replacing parts by a mark

Every occurrence of a part is replaced by one element that the part does not
hold. What is free of the mark and occurs in the result occurred in the text,
the part occurs no more, and what begins with the mark was the part before.
Replacing two parts commutes in a text in which they do not overlap and neither
holds the other.
-/

namespace LeanCtx.TextSearch

variable {α : Type} [DecidableEq α] {x : List α}

theorem replaceFrom_skip (x new p rest : List α) :
    replaceFrom x new p.length (p ++ rest) = replaceFrom x new 0 rest := by
  induction p with
  | nil => rfl
  | cons c p ih => exact ih

theorem replaceAll_nil (hx : x ≠ []) (new : List α) : replaceAll x new [] = [] := by
  rw [replaceAll, if_neg hx, replaceFrom]

theorem replaceAll_append (hx : x ≠ []) (new rest : List α) :
    replaceAll x new (x ++ rest) = new ++ replaceAll x new rest := by
  rw [replaceAll, if_neg hx, replaceAll, if_neg hx]
  cases x with
  | nil => exact absurd rfl hx
  | cons c x =>
    have hprefix : (c :: x).isPrefixOf (c :: (x ++ rest)) = true :=
      List.isPrefixOf_iff_prefix.mpr (List.prefix_append (c :: x) rest)
    have hlen : (c :: x).length - 1 = x.length := rfl
    rw [List.cons_append, replaceFrom, if_pos hprefix, hlen, replaceFrom_skip]

theorem replaceAll_kept {c : α} {rest : List α} (h : ¬ x <+: c :: rest) (new : List α) :
    replaceAll x new (c :: rest) = c :: replaceAll x new rest := by
  have hx : x ≠ [] := by
    rintro rfl
    exact h List.nil_prefix
  rw [replaceAll, if_neg hx, replaceAll, if_neg hx, replaceFrom,
    if_neg (List.isPrefixOf_iff_prefix.not.mpr h)]

/-- A text ends, begins with the part, or begins with an element that is kept. -/
theorem replace_induction {P : List α → Prop} (hx : x ≠ []) (hnil : P [])
    (hpart : ∀ rest, P rest → P (x ++ rest))
    (hkept : ∀ c rest, ¬ x <+: c :: rest → P rest → P (c :: rest)) (text : List α) : P text := by
  induction hn : text.length using Nat.strongRecOn generalizing text with
  | _ n ih =>
    by_cases hprefix : x <+: text
    · obtain ⟨rest, rfl⟩ := hprefix
      have hpos := List.length_pos_iff.mpr hx
      rw [List.length_append] at hn
      exact hpart rest (ih rest.length (by omega) rest rfl)
    · cases text with
      | nil => exact hnil
      | cons c rest =>
        rw [List.length_cons] at hn
        exact hkept c rest hprefix (ih rest.length (by omega) rest rfl)

theorem replaceAll_of_not_infix {text : List α} (h : ¬ x <:+: text) (new : List α) :
    replaceAll x new text = text := by
  have hx : x ≠ [] := by
    rintro rfl
    exact h List.nil_infix
  induction text with
  | nil => exact replaceAll_nil hx new
  | cons c rest ih =>
    rw [List.infix_cons_iff, not_or] at h
    rw [replaceAll_kept h.1, ih h.2]

/-- Replacing passes over a part in which no occurrence begins. -/
theorem replaceAll_pass {p rest : List α} (h : ∀ v, v ≠ [] → v <:+ p → ¬ x <+: v ++ rest)
    (new : List α) : replaceAll x new (p ++ rest) = p ++ replaceAll x new rest := by
  induction p with
  | nil => rfl
  | cons c p ih =>
    have hhead : ¬ x <+: c :: (p ++ rest) := h (c :: p) (List.cons_ne_nil _ _) List.suffix_rfl
    rw [List.cons_append, replaceAll_kept hhead,
      ih fun v hv hsuffix => h v hv (hsuffix.trans (List.suffix_cons c p)), List.cons_append]

section Mark

variable {b : α} {text : List α}

theorem mem_of_mem_replaceAll (hx : x ≠ []) {y : α} (h : y ∈ replaceAll x [b] text) :
    y = b ∨ y ∈ text := by
  induction text using replace_induction hx with
  | hnil =>
    rw [replaceAll_nil hx] at h
    cases h
  | hpart rest ih =>
    rw [replaceAll_append hx, List.singleton_append, List.mem_cons] at h
    rcases h with h | h
    · exact .inl h
    · exact (ih h).imp_right (List.mem_append_right _)
  | hkept c rest hc ih =>
    rw [replaceAll_kept hc, List.mem_cons] at h
    rcases h with rfl | h
    · exact .inr List.mem_cons_self
    · exact (ih h).imp_right (List.mem_cons_of_mem _)

theorem prefix_of_replaceAll (hx : x ≠ []) {t : List α} (ht : b ∉ t)
    (h : t <+: replaceAll x [b] text) : t <+: text := by
  induction text using replace_induction hx generalizing t with
  | hnil => rwa [replaceAll_nil hx] at h
  | hpart rest ih =>
    rw [replaceAll_append hx] at h
    cases t with
    | nil => exact List.nil_prefix
    | cons d t =>
      obtain ⟨rfl, -⟩ := List.cons_prefix_cons.mp h
      exact absurd List.mem_cons_self ht
  | hkept c rest hc ih =>
    rw [replaceAll_kept hc] at h
    cases t with
    | nil => exact List.nil_prefix
    | cons d t =>
      obtain ⟨rfl, htail⟩ := List.cons_prefix_cons.mp h
      exact List.cons_prefix_cons.mpr ⟨rfl, ih (fun hmem => ht (List.mem_cons_of_mem _ hmem)) htail⟩

/-- What is free of the mark was there before. -/
theorem infix_of_replaceAll (hx : x ≠ []) {t : List α} (ht : b ∉ t)
    (h : t <:+: replaceAll x [b] text) : t <:+: text := by
  induction text using replace_induction hx with
  | hnil => rwa [replaceAll_nil hx] at h
  | hpart rest ih =>
    rw [replaceAll_append hx, List.singleton_append, List.infix_cons_iff] at h
    rcases h with h | h
    · cases t with
      | nil => exact List.nil_infix
      | cons d t =>
        obtain ⟨rfl, -⟩ := List.cons_prefix_cons.mp h
        exact absurd List.mem_cons_self ht
    · exact (ih h).trans (List.suffix_append x rest).isInfix
  | hkept c rest hc ih =>
    rw [replaceAll_kept hc, List.infix_cons_iff, ← replaceAll_kept hc] at h
    rcases h with h | h
    · exact (prefix_of_replaceAll hx ht h).isInfix
    · exact List.infix_cons_iff.mpr (.inr (ih h))

/-- The part itself is gone. -/
theorem not_infix_replaceAll (hx : x ≠ []) (hb : b ∉ x) : ¬ x <:+: replaceAll x [b] text := by
  induction text using replace_induction hx with
  | hnil =>
    rw [replaceAll_nil hx, List.infix_nil]
    exact hx
  | hpart rest ih =>
    rw [replaceAll_append hx, List.singleton_append, List.infix_cons_iff, not_or]
    refine ⟨?_, ih⟩
    cases x with
    | nil => exact absurd rfl hx
    | cons c x =>
      rw [List.cons_prefix_cons]
      rintro ⟨rfl, -⟩
      exact hb List.mem_cons_self
  | hkept c rest hc ih =>
    rw [replaceAll_kept hc, List.infix_cons_iff, not_or, ← replaceAll_kept hc]
    exact ⟨fun h => hc (prefix_of_replaceAll hx hb h), ih⟩

/-- What stands behind the mark stood behind the part. -/
theorem infix_of_mark_infix (hx : x ≠ []) (htext : b ∉ text) {t : List α} (ht : b ∉ t)
    (h : b :: t <:+: replaceAll x [b] text) : x ++ t <:+: text := by
  induction text using replace_induction hx with
  | hnil =>
    rw [replaceAll_nil hx] at h
    exact absurd (List.infix_nil.mp h) (List.cons_ne_nil _ _)
  | hpart rest ih =>
    rw [replaceAll_append hx, List.singleton_append, List.infix_cons_iff] at h
    rcases h with h | h
    · rw [List.cons_prefix_cons] at h
      exact (List.prefix_append_right_inj x |>.mpr (prefix_of_replaceAll hx ht h.2)).isInfix
    · have hrest : b ∉ rest := fun hmem => htext (List.mem_append_right _ hmem)
      exact (ih hrest h).trans (List.suffix_append x rest).isInfix
  | hkept c rest hc ih =>
    rw [replaceAll_kept hc, List.infix_cons_iff, List.cons_prefix_cons] at h
    rcases h with h | h
    · exact absurd (h.1 ▸ List.mem_cons_self) htext
    · have hrest : b ∉ rest := fun hmem => htext (List.mem_cons_of_mem _ hmem)
      exact List.infix_cons_iff.mpr (.inr (ih hrest h))

theorem mem_replaceAll_of_not_mem (hx : x ≠ []) {y : α} (hy : y ∉ x) (h : y ∈ text) :
    y ∈ replaceAll x [b] text := by
  induction text using replace_induction hx with
  | hnil => cases h
  | hpart rest ih =>
    rw [replaceAll_append hx]
    exact List.mem_append_right _ (ih ((List.mem_append.mp h).resolve_left hy))
  | hkept c rest hc ih =>
    rw [replaceAll_kept hc]
    rcases List.mem_cons.mp h with rfl | h
    · exact List.mem_cons_self
    · exact List.mem_cons_of_mem _ (ih h)

theorem mark_mem_replaceAll (hx : x ≠ []) (h : x <:+: text) : b ∈ replaceAll x [b] text := by
  induction text using replace_induction hx with
  | hnil => exact absurd (List.infix_nil.mp h) hx
  | hpart rest ih =>
    rw [replaceAll_append hx]
    exact List.mem_append_left _ List.mem_cons_self
  | hkept c rest hc ih =>
    rw [replaceAll_kept hc]
    exact List.mem_cons_of_mem _ (ih ((List.infix_cons_iff.mp h).resolve_left hc))

end Mark

/-! ### Two parts -/

/-- Neither part holds the other, and no end of one is a beginning of the other in the text. -/
structure Apart (x y text : List α) : Prop where
  left : ¬ x <:+: y
  right : ¬ y <:+: x
  overlap : ∀ u v w, v ≠ [] → x = u ++ v → y = v ++ w → ¬ u ++ v ++ w <:+: text
  overlap' : ∀ u v w, v ≠ [] → y = u ++ v → x = v ++ w → ¬ u ++ v ++ w <:+: text

omit [DecidableEq α] in
theorem Apart.symm {x y text : List α} (h : Apart x y text) : Apart y x text :=
  ⟨h.right, h.left, h.overlap', h.overlap⟩

omit [DecidableEq α] in
theorem Apart.part {x y text part : List α} (h : Apart x y text) (hpart : part <:+: text) :
    Apart x y part :=
  ⟨h.left, h.right, fun u v w hv hx hy hin => h.overlap u v w hv hx hy (hin.trans hpart),
    fun u v w hv hx hy hin => h.overlap' u v w hv hx hy (hin.trans hpart)⟩

/-- Both orders treat a text that begins with one of the parts alike. -/
theorem Apart.replaceAll_append {x y rest : List α} (h : Apart x y (x ++ rest)) {bx new : α}
    (hx : x ≠ []) (hbx : bx ∉ y) (hrest : replaceAll y [new] (replaceAll x [bx] rest) =
      replaceAll x [bx] (replaceAll y [new] rest)) :
    replaceAll y [new] (replaceAll x [bx] (x ++ rest)) =
      replaceAll x [bx] (replaceAll y [new] (x ++ rest)) := by
  have hy : y ≠ [] := by
    rintro rfl
    exact h.right List.nil_infix
  have hmark : ¬ y <+: bx :: replaceAll x [bx] rest := by
    cases y with
    | nil => exact absurd rfl hy
    | cons c y =>
      rw [List.cons_prefix_cons]
      rintro ⟨rfl, -⟩
      exact hbx List.mem_cons_self
  have hpass : ∀ v, v ≠ [] → v <:+ x → ¬ y <+: v ++ rest := by
    rintro v hv ⟨u, hu⟩ hprefix
    rcases List.prefix_or_prefix_of_prefix hprefix (List.prefix_append v rest) with hyv | ⟨w, hw⟩
    · exact h.right (hyv.isInfix.trans (hu ▸ (List.suffix_append u v).isInfix))
    · rw [← hw, List.prefix_append_right_inj] at hprefix
      refine h.overlap u v w hv hu.symm hw.symm ?_
      rw [hu]
      exact (List.prefix_append_right_inj x |>.mpr hprefix).isInfix
  rw [TextSearch.replaceAll_append hx, List.singleton_append, replaceAll_kept hmark, hrest,
    replaceAll_pass hpass, TextSearch.replaceAll_append hx, List.singleton_append]

/-- Replacing two parts in a text in which they do not overlap. -/
theorem Apart.replaceAll_comm {x y text : List α} (h : Apart x y text) {bx new : α}
    (hx : x ≠ []) (hy : y ≠ []) (hbx : bx ∉ y) (hnew : new ∉ x) :
    replaceAll y [new] (replaceAll x [bx] text) = replaceAll x [bx] (replaceAll y [new] text) := by
  induction hn : text.length using Nat.strongRecOn generalizing text with
  | _ n ih =>
    have hrec : ∀ part : List α, part.length < text.length → part <:+: text →
        replaceAll y [new] (replaceAll x [bx] part) =
          replaceAll x [bx] (replaceAll y [new] part) := by
      intro part hlen hpart
      exact ih part.length (hn ▸ hlen) (h.part hpart) rfl
    by_cases hxt : x <+: text
    · obtain ⟨rest, rfl⟩ := hxt
      have hpos := List.length_pos_iff.mpr hx
      refine h.replaceAll_append hx hbx (hrec rest ?_ (List.suffix_append x rest).isInfix)
      rw [List.length_append]
      omega
    · by_cases hyt : y <+: text
      · obtain ⟨rest, rfl⟩ := hyt
        have hpos := List.length_pos_iff.mpr hy
        refine (h.symm.replaceAll_append hy hnew
          (hrec rest ?_ (List.suffix_append y rest).isInfix).symm).symm
        rw [List.length_append]
        omega
      · cases text with
        | nil =>
          rw [replaceAll_nil hx, replaceAll_nil hy, replaceAll_nil hx]
        | cons c rest =>
          have hyr : ¬ y <+: c :: replaceAll x [bx] rest := by
            rw [← replaceAll_kept hxt]
            exact fun hprefix => hyt (prefix_of_replaceAll hx hbx hprefix)
          have hxr : ¬ x <+: c :: replaceAll y [new] rest := by
            rw [← replaceAll_kept hyt]
            exact fun hprefix => hxt (prefix_of_replaceAll hy hnew hprefix)
          rw [replaceAll_kept hxt, replaceAll_kept hyt, replaceAll_kept hyr, replaceAll_kept hxr,
            hrec rest (by rw [List.length_cons]; omega) (List.suffix_cons c rest).isInfix]

end LeanCtx.TextSearch
