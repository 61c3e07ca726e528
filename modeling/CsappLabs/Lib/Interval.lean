import Mathlib.Algebra.BigOperators.Group.List.Basic
import Mathlib.Algebra.GroupWithZero.Nat
import Mathlib.Order.CompletePartialOrder
import Mathlib.Order.Interval.Finset.Nat
import Mathlib.Order.Interval.Set.Disjoint

/-
  Closed intervals of a linear order, and tests of their ends
  that tell whether two of them have a point in common.

  Key definitions include:
    * `Interval.EndIn`, `Interval.Inside`
    * `Interval.cover`

  Key theorems include:
    * `Interval.disjoint_iff_ends`
    * `Interval.disjoint_iff_apart`
    * `Interval.sum_lengths_le`
-/

------------------------------------------------------------
-- Closed Intervals
------------------------------------------------------------

namespace Interval

variable {α : Type}
variable [LinearOrder α]
variable {a b c d : α}

/- An end of [a, b] is a point of [c, d]. -/
def EndIn (a b c d : α) : Prop :=
  (c ≤ a ∧ a ≤ d) ∨ (c ≤ b ∧ b ≤ d)

/- [c, d] has points, all of them strictly between a and b. -/
def Inside (a b c d : α) : Prop :=
  a < c ∧ c ≤ d ∧ d < b

instance : Decidable (EndIn a b c d) :=
  inferInstanceAs (Decidable (_ ∨ _))

instance : Decidable (Inside a b c d) :=
  inferInstanceAs (Decidable (_ ∧ _ ∧ _))

theorem EndIn.not_disjoint
    (hNonempty : a ≤ b)
    (hEnd : EndIn a b c d) :
    ¬ Disjoint (Set.Icc a b) (Set.Icc c d) := by
  intro hDisjoint
  rw [Set.disjoint_left] at hDisjoint
  rcases hEnd with hLow | hHigh
  · exact hDisjoint ⟨le_refl a, hNonempty⟩ hLow
  · exact hDisjoint ⟨hNonempty, le_refl b⟩ hHigh

theorem Inside.not_disjoint
    (hInside : Inside a b c d) :
    ¬ Disjoint (Set.Icc a b) (Set.Icc c d) := by
  rcases hInside with ⟨hLow, hNonempty, hHigh⟩
  intro hDisjoint
  rw [Set.disjoint_left] at hDisjoint
  exact
    hDisjoint
      ⟨hLow.le, (lt_of_le_of_lt hNonempty hHigh).le⟩
      ⟨le_refl c, hNonempty⟩

/-
  Two intervals meet at an end of the first, or the second
  lies inside the first.
-/
theorem disjoint_iff_ends
    (hNonempty : a ≤ b) :
    Disjoint (Set.Icc a b) (Set.Icc c d) ↔
      ¬ EndIn a b c d ∧ ¬ Inside a b c d := by
  constructor
  · intro hDisjoint
    exact
      ⟨fun hEnd => hEnd.not_disjoint hNonempty hDisjoint,
        fun hInside => hInside.not_disjoint hDisjoint⟩
  · rintro ⟨hEnd, hInside⟩
    rw [Set.disjoint_left]
    rintro x ⟨hLow, hHigh⟩ ⟨hLow', hHigh'⟩
    have hBelow : a < c := by
      by_contra hLe
      exact hEnd (.inl ⟨not_lt.mp hLe, hLow.trans hHigh'⟩)
    have hAbove : d < b := by
      by_contra hLe
      exact hEnd (.inr ⟨hLow'.trans hHigh, not_lt.mp hLe⟩)
    exact hInside ⟨hBelow, hLow'.trans hHigh', hAbove⟩

/- Nonempty intervals are disjoint when one ends first. -/
theorem disjoint_iff_apart
    (hLeft : a ≤ b)
    (hRight : c ≤ d) :
    Disjoint (Set.Icc a b) (Set.Icc c d) ↔
      b < c ∨ d < a := by
  rw [Set.disjoint_left]
  constructor
  · intro hDisjoint
    by_contra hOverlap
    rw [not_or, not_lt, not_lt] at hOverlap
    exact
      @hDisjoint (max a c)
        ⟨le_max_left a c, max_le hLeft hOverlap.1⟩
        ⟨le_max_right a c, max_le hOverlap.2 hRight⟩
  · rintro hApart x ⟨hLow, hHigh⟩ ⟨hLow', hHigh'⟩
    rcases hApart with hBefore | hAfter
    · exact absurd (hLow'.trans hHigh) hBefore.not_ge
    · exact absurd (hLow.trans hHigh') hAfter.not_ge

------------------------------------------------------------
-- Lengths
------------------------------------------------------------

section Lengths

variable {low high : Nat}
variable {parts : List (Nat × Nat)}

/- The points of parts given by their starts and lengths. -/
def cover (parts : List (Nat × Nat)) : Finset Nat :=
  parts.foldr
    (fun part points =>
      Finset.Ico part.1 (part.1 + part.2) ∪ points)
    ∅

theorem mem_cover
    {point : Nat} :
    point ∈ cover parts ↔
      ∃ part ∈ parts,
        part.1 ≤ point ∧ point < part.1 + part.2 := by
  induction parts with
  | nil => simp [cover]
  | cons part parts ih =>
      change point ∈ Finset.Ico _ _ ∪ cover parts ↔ _
      rw [Finset.mem_union, Finset.mem_Ico, ih,
        List.exists_mem_cons_iff]

/- Parts without common points have as many as their sum. -/
theorem card_cover
    (hApart :
      parts.Pairwise fun left right =>
        left.1 + left.2 ≤ right.1 ∨
          right.1 + right.2 ≤ left.1) :
    (cover parts).card = (parts.map Prod.snd).sum := by
  induction parts with
  | nil => rfl
  | cons part parts ih =>
      rcases List.pairwise_cons.mp hApart with ⟨hPart, hRest⟩
      have hDisjoint :
          Disjoint (Finset.Ico part.1 (part.1 + part.2))
            (cover parts) := by
        rw [Finset.disjoint_left]
        intro point hPoint hCovered
        rw [Finset.mem_Ico] at hPoint
        rcases mem_cover.mp hCovered with
          ⟨other, hOther, hLow, hHigh⟩
        have hBetween := hPart other hOther
        omega
      change (Finset.Ico _ _ ∪ cover parts).card = _
      rw [Finset.card_union_of_disjoint hDisjoint, ih hRest,
        Nat.card_Ico, List.map_cons, List.sum_cons]
      omega

/- Such parts of an interval sum up to its length at most. -/
theorem sum_lengths_le
    (hApart :
      parts.Pairwise fun left right =>
        left.1 + left.2 ≤ right.1 ∨
          right.1 + right.2 ≤ left.1)
    (hInside :
      ∀ part ∈ parts,
        low ≤ part.1 ∧ part.1 + part.2 ≤ high) :
    (parts.map Prod.snd).sum ≤ high - low := by
  have hSubset : cover parts ⊆ Finset.Ico low high := by
    intro point hPoint
    rcases mem_cover.mp hPoint with
      ⟨part, hPart, hLow, hHigh⟩
    have hBounds := hInside part hPart
    rw [Finset.mem_Ico]
    omega
  have hCard := Finset.card_le_card hSubset
  rwa [card_cover hApart, Nat.card_Ico] at hCard

end Lengths

end Interval
