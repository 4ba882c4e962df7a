import Mathlib.Data.List.DropRight

/-!
Maximal runs without a separator.

A run of a list is a non-empty stretch without separators that nothing can be added to
on either side. Cutting a list at a separator cuts no run (`isRun_cut`), so a program
that works through a list piece by piece, in whatever way, finds the runs of the list
when it finds those of the pieces; separators at the ends may be dropped.
-/

namespace Kit.Runs

universe u

variable {α : Type u}

/-- `t` is a maximal non-empty run of `s` without separators. -/
structure IsRun (sep : α → Prop) (s t : List α) : Prop where
  nonempty : t ≠ []
  clean : ∀ c ∈ t, ¬ sep c
  maximal : ∃ before after, s = before ++ (t ++ after) ∧
    (∀ c ∈ before.getLast?, sep c) ∧ ∀ c ∈ after.head?, sep c

variable {sep : α → Prop} {s t rest : List α} {c : α}

theorem not_isRun_nil : ¬ IsRun sep [] t := by
  rintro ⟨nonempty, -, before, after, same, -, -⟩
  exact nonempty (List.append_eq_nil_iff.mp (List.append_eq_nil_iff.mp same.symm).2).1

/-- Without separators there is one run, the whole list. -/
theorem isRun_of_clean (clean : ∀ c ∈ s, ¬ sep c) : IsRun sep s t ↔ t = s ∧ s ≠ [] := by
  constructor
  · rintro ⟨nonempty, -, before, after, same, left, right⟩
    have before_nil : before = [] := by
      by_contra some
      exact clean _ (same ▸ List.mem_append_left _ (List.getLast_mem some))
        (left _ (List.getLast?_eq_some_getLast some))
    have after_nil : after = [] := by
      cases after with
      | nil => rfl
      | cons d after => exact absurd (right d rfl) (clean d (by simp [same]))
    subst before_nil after_nil
    rw [List.nil_append, List.append_nil] at same
    exact ⟨same.symm, same ▸ nonempty⟩
  · rintro ⟨rfl, some⟩
    exact ⟨some, clean, [], [], by simp, by simp, by simp⟩

/-- A separator cuts no run. -/
theorem isRun_cut (cut : sep c) : IsRun sep (s ++ c :: rest) t ↔ IsRun sep s t ∨ IsRun sep rest t := by
  constructor
  · rintro ⟨nonempty, clean, before, after, same, left, right⟩
    rcases List.append_eq_append_iff.mp same with ⟨more, rfl, tail⟩ | ⟨more, rfl, tail⟩
    · -- the run begins behind the cut
      cases more with
      | nil =>
        cases t with
        | nil => exact absurd rfl nonempty
        | cons d t =>
          cases tail
          exact absurd cut (clean c List.mem_cons_self)
      | cons d more =>
        cases tail
        refine Or.inr ⟨nonempty, clean, more, after, rfl, fun d last => left d ?_, right⟩
        rw [List.getLast?_append, List.getLast?_cons, Option.mem_def.mp last]
        rfl
    · rcases List.append_eq_append_iff.mp tail with ⟨extra, rfl, rfl⟩ | ⟨extra, rfl, begins⟩
      · -- it ends before the cut
        refine Or.inl ⟨nonempty, clean, before, extra, rfl, left, fun d first => right d ?_⟩
        rw [List.head?_append, Option.mem_def.mp first]
        rfl
      · cases extra with
        | nil =>
          refine Or.inl ⟨nonempty, clean, before, [], by simp, left, fun d first => ?_⟩
          cases first
        | cons d extra =>
          cases begins
          exact absurd cut (clean c (by simp))
  · rintro (⟨nonempty, clean, before, after, rfl, left, right⟩ |
      ⟨nonempty, clean, before, after, rfl, left, right⟩)
    · refine ⟨nonempty, clean, before, after ++ c :: rest, by simp, left, fun d first => ?_⟩
      cases after with
      | nil =>
        cases first
        exact cut
      | cons e after => exact right d first
    · refine ⟨nonempty, clean, s ++ c :: before, after, by simp, fun d last => ?_, right⟩
      rcases List.eq_nil_or_concat before with rfl | ⟨before, e, rfl⟩
      · rw [List.getLast?_append] at last
        cases last
        exact cut
      · refine left d ?_
        rw [List.concat_eq_append, ← List.cons_append, ← List.append_assoc,
          List.getLast?_concat] at last
        rw [List.concat_eq_append, List.getLast?_concat]
        exact last

/-- A separator in front belongs to no run. -/
theorem isRun_cons (cut : sep c) : IsRun sep (c :: rest) t ↔ IsRun sep rest t := by
  rw [← List.nil_append (c :: rest), isRun_cut cut]
  exact or_iff_right not_isRun_nil

/-- A separator at the end belongs to no run. -/
theorem isRun_concat (cut : sep c) : IsRun sep (s ++ [c]) t ↔ IsRun sep s t := by
  rw [isRun_cut cut]
  exact or_iff_left not_isRun_nil

variable {p : α → Bool} (drops : ∀ c, p c = true → sep c)
include drops

/-- Separators may be dropped at the front. -/
theorem isRun_dropWhile : IsRun sep (s.dropWhile p) t ↔ IsRun sep s t := by
  induction s with
  | nil => rfl
  | cons c s ih =>
    rw [List.dropWhile_cons]
    split
    · next space => rw [ih, isRun_cons (drops c space)]
    · rfl

/-- Separators may be dropped at the end. -/
theorem isRun_rdropWhile : IsRun sep (s.rdropWhile p) t ↔ IsRun sep s t := by
  induction s using List.reverseRecOn with
  | nil => rfl
  | append_singleton s c ih =>
    rw [List.rdropWhile_concat]
    split
    · next space => rw [ih, isRun_concat (drops c space)]
    · rfl

end Kit.Runs
