import CsappLabs.Lib.Recency
import Mathlib.Data.Finset.Card
import Mathlib.Data.List.Dedup
import Mathlib.Data.List.Induction

/-
  Reuse distances.

  The items of a history, the last used in front, make up one
  list for all capacities.  A store of some capacity holds the
  front of it, so an item is in the store where fewer other
  items than that were used since its last use.

  Key definitions include:
    * `Recency.stored`
    * `Recency.lastUsed`
    * `Recency.distance`

  Key theorems include:
    * `Recency.stored_eq_take`
    * `Recency.mem_stored_iff`
-/

------------------------------------------------------------
-- Histories
------------------------------------------------------------

namespace Recency

variable {α : Type} [DecidableEq α]
variable {capacity : Nat}
variable {item : α}
variable {uses : List α}

/- The store after a history of uses. -/
def stored (capacity : Nat) (uses : List α) : List α :=
  uses.foldl (fun recent item => touch capacity item recent) []

/- All items of a history, the last used in front. -/
def lastUsed (uses : List α) : List α :=
  uses.foldl (fun recent item => item :: recent.erase item) []

/- How many other items were used since the last use. -/
def distance (uses : List α) (item : α) : Option Nat :=
  if item ∈ uses then
    some (uses.reverse.takeWhile (· ≠ item)).dedup.length
  else
    none

theorem stored_concat :
    stored capacity (uses ++ [item]) =
      touch capacity item (stored capacity uses) := by
  simp [stored]

theorem lastUsed_concat :
    lastUsed (uses ++ [item]) =
      item :: (lastUsed uses).erase item := by
  simp [lastUsed]

theorem mem_lastUsed :
    item ∈ lastUsed uses ↔ item ∈ uses := by
  induction uses using List.reverseRecOn with
  | nil => simp [lastUsed]
  | append_singleton uses last ih =>
      rw [lastUsed_concat, List.mem_cons, List.mem_append,
        List.mem_singleton, or_comm]
      by_cases hEq : item = last
      · simp [hEq]
      · rw [List.mem_erase_of_ne hEq, ih]

theorem nodup_lastUsed : (lastUsed uses).Nodup := by
  induction uses using List.reverseRecOn with
  | nil => exact List.nodup_nil
  | append_singleton uses last ih =>
      rw [lastUsed_concat, List.nodup_cons]
      exact ⟨ih.not_mem_erase, ih.erase last⟩

/- A store without bound keeps the whole list. -/
theorem touch_unbounded
    {recent : List α}
    (hRoom : recent.length < capacity) :
    touch capacity item recent =
      item :: recent.erase item := by
  by_cases hOld : item ∈ recent
  · rw [touch, if_pos hOld]
  · rw [touch_of_room hOld hRoom, List.erase_of_not_mem hOld]

/- Every store holds the front of the one list. -/
theorem stored_eq_take
    (hPositive : 0 < capacity) :
    stored capacity uses = (lastUsed uses).take capacity := by
  induction uses using List.reverseRecOn with
  | nil => simp [stored, lastUsed]
  | append_singleton uses last ih =>
      have hMore :
          capacity ≤
            max capacity ((lastUsed uses).length + 1) :=
        Nat.le_max_left _ _
      rw [stored_concat, ih, touch_take hPositive hMore,
        touch_unbounded (by omega), lastUsed_concat]

------------------------------------------------------------
-- Distances
------------------------------------------------------------

/-
  What was used since the last use of an item lies in front
  of it, once each.
-/
theorem lastUsed_split
    {front back : List α}
    (hSince : item ∉ back) :
    ∃ hot cold,
      lastUsed (front ++ item :: back) =
          hot ++ item :: cold ∧
        ∀ other, other ∈ hot ↔ other ∈ back := by
  induction back using List.reverseRecOn with
  | nil =>
      refine ⟨[], (lastUsed front).erase item, ?_, by simp⟩
      rw [lastUsed_concat]
      rfl
  | append_singleton back last ih =>
      rw [List.mem_append, List.mem_singleton, not_or]
        at hSince
      rcases hSince with ⟨hBack, hNe⟩
      rcases ih hBack with ⟨hot, cold, hList, hHot⟩
      rw [← List.cons_append, ← List.append_assoc,
        lastUsed_concat, hList]
      by_cases hOld : last ∈ hot
      · refine ⟨last :: hot.erase last, cold, ?_, ?_⟩
        · rw [List.erase_append_left _ hOld, List.cons_append]
        · intro other
          by_cases hEq : other = last
          · simp [hEq]
          · rw [List.mem_cons, List.mem_erase_of_ne hEq, hHot,
              List.mem_append, List.mem_singleton, or_comm]
      · refine ⟨last :: hot, cold.erase last, ?_, ?_⟩
        · rw [List.erase_append_right _ hOld,
            List.erase_cons_tail (by simpa using hNe),
            List.cons_append]
        · intro other
          rw [List.mem_cons, hHot, List.mem_append,
            List.mem_singleton, or_comm]

omit [DecidableEq α] in
/- An item used has a last use. -/
theorem exists_last_use
    (hUsed : item ∈ uses) :
    ∃ front back,
      uses = front ++ item :: back ∧ item ∉ back := by
  rcases
      List.eq_append_cons_of_mem (List.mem_reverse.mpr hUsed) with
    ⟨back, front, hSplit, hBack⟩
  refine ⟨front.reverse, back.reverse, ?_, ?_⟩
  · rw [← List.reverse_reverse uses, hSplit]
    simp
  · rwa [List.mem_reverse]

theorem distance_split
    {front back : List α}
    (hSince : item ∉ back) :
    distance (front ++ item :: back) item =
      some back.toFinset.card := by
  have hAll :
      ∀ other ∈ back.reverse, decide (other ≠ item) = true := by
    intro other hOther
    rw [List.mem_reverse] at hOther
    exact decide_eq_true fun hEq => hSince (hEq ▸ hOther)
  have hStop :
      List.takeWhile (· ≠ item) (item :: front.reverse) = [] :=
    List.takeWhile_cons_of_neg (by simp)
  rw [distance, if_pos (by simp)]
  congr 1
  rw [List.reverse_append, List.reverse_cons,
    List.append_assoc, List.singleton_append,
    List.takeWhile_append_of_pos hAll, hStop,
    List.append_nil, ← List.card_toFinset,
    List.toFinset_reverse]

/-
  A store holds the items whose distance is below its
  capacity.
-/
theorem mem_stored_iff
    (hPositive : 0 < capacity) :
    item ∈ stored capacity uses ↔
      ∃ d, distance uses item = some d ∧ d < capacity := by
  rw [stored_eq_take hPositive]
  by_cases hUsed : item ∈ uses
  · rcases exists_last_use hUsed with
      ⟨front, back, rfl, hSince⟩
    rcases @lastUsed_split _ _ _ front back hSince with
      ⟨hot, cold, hList, hHot⟩
    have hNodup := @nodup_lastUsed _ _ (front ++ item :: back)
    rw [hList] at hNodup ⊢
    have hApart := List.nodup_middle.mp hNodup
    rw [List.nodup_cons, List.mem_append, not_or] at hApart
    rcases hApart with ⟨⟨hNotHot, hNotCold⟩, _⟩
    have hLength : hot.length = back.toFinset.card := by
      rw [← List.toFinset_card_of_nodup
        (List.nodup_append.mp hNodup).1]
      congr 1
      ext other
      rw [List.mem_toFinset, List.mem_toFinset, hHot]
    rw [distance_split hSince]
    constructor
    · intro hMember
      refine ⟨_, rfl, ?_⟩
      by_contra hFar
      rw [List.take_append_of_le_length (by omega)] at hMember
      exact hNotHot (List.mem_of_mem_take hMember)
    · rintro ⟨d, hDistance, hNear⟩
      cases hDistance
      rw [List.take_append, List.mem_append]
      right
      rcases
          Nat.exists_eq_add_of_lt (hLength ▸ hNear) with
        ⟨room, hRoom⟩
      rw [show capacity - hot.length = room + 1 by omega,
        List.take_succ_cons]
      exact List.mem_cons_self
  · constructor
    · intro hMember
      exact absurd
        (mem_lastUsed.mp (List.mem_of_mem_take hMember)) hUsed
    · rintro ⟨d, hDistance, _⟩
      rw [distance, if_neg hUsed] at hDistance
      cases hDistance

end Recency
