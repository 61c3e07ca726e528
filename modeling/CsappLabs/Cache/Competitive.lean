import CsappLabs.Lib.Paging
import CsappLabs.Cache.ReuseDistance
import Mathlib.Algebra.BigOperators.Ring.Finset
import Mathlib.Algebra.Group.Action.Defs
import Mathlib.Algebra.Order.BigOperators.Group.Finset

/-
  The simulator against caches that evict in another way.

  Whatever a cache of the same sets evicts, even one that
  knows the trace beforehand, the simulator misses at most so
  much more often.

  Key theorems include:
    * `run_misses_sum`
    * `simulate_competitive`
-/

------------------------------------------------------------
-- Misses by Set
------------------------------------------------------------

namespace CsappLabs

namespace Cache

open Recency

variable {line line' sets : Nat}
variable {trace : List Access}

/- Every miss is a miss of one set. -/
theorem run_misses_sum
    (hSets : ∀ entry ∈ trace, entry.set < sets) :
    (Reference.run line trace).misses =
      ∑ set ∈ Finset.range sets,
        missed line (tagsOf set trace) := by
  induction trace using List.reverseRecOn with
  | nil => simp [Reference.run, Reference.start, tagsOf, missed]
  | append_singleton before entry ih =>
      have hBefore :
          ∀ earlier ∈ before, earlier.set < sets :=
        fun earlier hEarlier =>
          hSets earlier (List.mem_append_left _ hEarlier)
      have hMember : entry.set ∈ Finset.range sets :=
        Finset.mem_range.mpr (hSets entry (by simp))
      have hOthers :
          ∑ set ∈ (Finset.range sets).erase entry.set,
              missed line (tagsOf set (before ++ [entry])) =
            ∑ set ∈ (Finset.range sets).erase entry.set,
              missed line (tagsOf set before) := by
        apply Finset.sum_congr rfl
        intro set hSet
        rw [tagsOf_concat_other (Finset.ne_of_mem_erase hSet)]
      have hSum := ih hBefore
      rw [← Finset.add_sum_erase _ _ hMember] at hSum ⊢
      rw [run_concat, access_misses, run_sets, hOthers,
        tagsOf_concat_same, missed_concat]
      split
      · exact hSum
      · omega

------------------------------------------------------------
-- Other Caches
------------------------------------------------------------

/-
  Against any cache of as many sets with at most as many lines
  each, where `held` and `misses` are what its sets hold and
  how often they missed.
-/
theorem simulate_competitive
    {held : Nat → Finset Int}
    {misses : Nat → Nat}
    (hLine : 0 < line)
    (hLess : line' ≤ line)
    (hClock : ClockBelow line trace)
    (hSets : ∀ entry ∈ trace, entry.set < sets)
    (hOther :
      ∀ set, set < sets →
        Serves line' (tagsOf set trace) (held set)
          (misses set)) :
    (line - line' + 1) * (simulate line trace).misses ≤
      line * ∑ set ∈ Finset.range sets, misses set +
        sets * triangle (line - line') := by
  have hAgrees := simulate_agrees hLine hClock
  rw [hAgrees.misses, run_misses_sum hSets, Finset.mul_sum,
    Finset.mul_sum]
  calc
    ∑ set ∈ Finset.range sets,
          (line - line' + 1) *
            missed line (tagsOf set trace) ≤
        ∑ set ∈ Finset.range sets,
          (line * misses set + triangle (line - line')) := by
      apply Finset.sum_le_sum
      intro set hSet
      have hBound :=
        (hOther set (Finset.mem_range.mp hSet)).missed_le
          hLine hLess
      omega
    _ = _ := by
      rw [Finset.sum_add_distrib, Finset.sum_const,
        Finset.card_range, smul_eq_mul]

/- A set of two lines that keeps the first of three tags. -/
theorem serves_keeping_first :
    Serves 2 [7, 8, 9, 7] ({9, 7} : Finset Int) 3 := by
  have hFirst :=
    @Serves.miss Int _ 2 [] ∅ 0 7 7 .start (by decide)
      (by decide)
  have hSecond :=
    @Serves.miss Int _ 2 _ _ _ 8 8 hFirst (by decide)
      (by decide)
  have hThird :=
    @Serves.miss Int _ 2 _ _ _ 9 8 hSecond (by decide)
      (by decide)
  have hHeld :
      insert (9 : Int)
          ((insert 8
              ((insert 7
                  ((∅ : Finset Int).erase 7)).erase 8)).erase
            8) =
        {9, 7} := by decide
  rw [hHeld] at hThird
  exact hThird.hit (by decide)

/- Another tag is used before the first one comes back. -/
theorem simulate_competitive_three_tags :
    (2 - 2 + 1) *
        (simulate 2
          [⟨.load, 7, 0⟩, ⟨.load, 8, 0⟩, ⟨.load, 9, 0⟩,
            ⟨.load, 7, 0⟩]).misses ≤
      2 * ∑ _set ∈ Finset.range 1, 3 +
        1 * triangle (2 - 2) :=
  @simulate_competitive 2 2 1 _ (fun _ => {9, 7})
    (fun _ => 3) (by decide) (by decide)
    (clockBelow_of_length (by decide)) (by simp)
    (fun set hSet => by
      obtain rfl : set = 0 := by omega
      exact serves_keeping_first)

end Cache

end CsappLabs
