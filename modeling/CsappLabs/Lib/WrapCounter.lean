import Mathlib.Data.Int.ModEq
import Mathlib.Algebra.Order.Group.Nat
import Mathlib.Tactic.NormNum

/-
  Counters that wrap around in two's complement, and slots
  chosen by the truncating remainder of a counter.

  `half` is the number of non-negative values, so a counter
  runs from `-half` to `half - 1`. The remainder of a
  negative counter is negative or zero.

  Key definitions include:
    * `WrapCounter.value`
    * `WrapCounter.slot`
    * `WrapCounter.limit`

  Key theorems include:
    * `WrapCounter.slot_of_le_limit`
    * `WrapCounter.slots_nonneg_iff`
    * `WrapCounter.slot_succ`
-/

------------------------------------------------------------
-- Counters
------------------------------------------------------------

namespace WrapCounter

/- The counter after `k` increments from zero. -/
def value (half k : Nat) : Int :=
  Int.bmod k (2 * half)

/- The slot that the counter chooses among `n`. -/
def slot (half n k : Nat) : Int :=
  (value half k).tmod n

/- How far the slots go round without a negative one. -/
def limit (half n : Nat) : Nat :=
  if n ∣ half then half else half - 1

variable {half n k : Nat}

theorem value_zero : value half 0 = 0 := by
  simp [value]

theorem value_succ :
    Int.bmod (value half k + 1) (2 * half) =
      value half (k + 1) := by
  rw [value, Int.bmod_add_bmod, value, Nat.cast_succ]

theorem value_of_lt (hLt : k < half) :
    value half k = k := by
  unfold value
  apply Int.bmod_eq_of_le
  · omega
  · omega

theorem value_half : value half half = -half :=
  Int.bmod_eq_neg (Int.natCast_nonneg half) (by simp)

theorem value_half_succ (hHalf : 1 < half) :
    value half (half + 1) = -(half - 1 : Nat) := by
  rw [← value_succ, value_half]
  rw [Int.bmod_eq_of_le]
  · omega
  · omega
  · omega

------------------------------------------------------------
-- Slots
------------------------------------------------------------

theorem slot_lt (hPos : 0 < n) : slot half n k < n :=
  Int.tmod_lt_of_pos _ (by omega)

theorem slot_one : slot half 1 k = 0 := by
  simp [slot]

theorem slot_of_lt (hLt : k < half) :
    slot half n k = (k % n : Nat) := by
  rw [slot, value_of_lt hLt, Int.ofNat_tmod]

/- At the smallest value the remainder is not positive. -/
theorem slot_half :
    slot half n half = -(half % n : Nat) := by
  rw [slot, value_half, Int.neg_tmod, Int.ofNat_tmod]

theorem slot_half_succ (hHalf : 1 < half) :
    slot half n (half + 1) = -((half - 1) % n : Nat) := by
  rw [slot, value_half_succ hHalf, Int.neg_tmod,
    Int.ofNat_tmod]

/- Up to the limit the slot is that of an unbounded counter. -/
theorem slot_of_le_limit (hLe : k ≤ limit half n) :
    slot half n k = (k % n : Nat) := by
  unfold limit at hLe
  by_cases hDvd : n ∣ half
  · rw [if_pos hDvd] at hLe
    rcases Nat.lt_or_eq_of_le hLe with hLt | hEq
    · exact slot_of_lt hLt
    · rw [hEq, slot_half, Nat.mod_eq_zero_of_dvd hDvd]
      rfl
  · rw [if_neg hDvd] at hLe
    by_cases hZero : half = 0
    · have hK : k = 0 := by omega
      rw [hK, slot, value_zero, Int.zero_tmod, Nat.zero_mod]
      rfl
    · exact slot_of_lt (by omega)

/-
  All slots are in range exactly while the count is within
  the limit, or when there is only one slot.
-/
theorem slots_nonneg_iff
    (hHalf : 1 < half)
    (count : Nat) :
    (∀ k, 1 ≤ k → k ≤ count → 0 ≤ slot half n k) ↔
      n = 1 ∨ count ≤ limit half n := by
  constructor
  · intro hAll
    by_contra hNot
    rw [not_or, not_le] at hNot
    rcases hNot with ⟨hMany, hPast⟩
    unfold limit at hPast
    by_cases hDvd : n ∣ half
    · -- One past the smallest value.
      rw [if_pos hDvd] at hPast
      have hSlot := hAll (half + 1) (by omega) (by omega)
      rw [slot_half_succ hHalf] at hSlot
      have hZero : (half - 1) % n = 0 := by omega
      have hOne : n ∣ half - (half - 1) :=
        Nat.dvd_sub hDvd (Nat.dvd_of_mod_eq_zero hZero)
      rw [Nat.sub_sub_self (by omega)] at hOne
      exact hMany (Nat.dvd_one.mp hOne)
    · rw [if_neg hDvd] at hPast
      have hSlot := hAll half (by omega) (by omega)
      rw [slot_half] at hSlot
      exact hDvd (Nat.dvd_of_mod_eq_zero (by omega))
  · rintro (hOne | hLe) k _ hK
    · rw [hOne, slot_one]
    · rw [slot_of_le_limit (by omega)]
      exact Int.natCast_nonneg _

/- Successive counts choose successive slots, round and round. -/
theorem slot_succ
    (hLimit : n = 1 ∨ k + 1 ≤ limit half n) :
    slot half n (k + 1) = (slot half n k + 1) % n := by
  rcases hLimit with hOne | hLe
  · rw [hOne, slot_one, slot_one]
    rfl
  · rw [slot_of_le_limit hLe, slot_of_le_limit (by omega),
      Int.natCast_mod, Int.natCast_mod, Int.emod_add_emod,
      Nat.cast_succ]

end WrapCounter
