import Mathlib.Data.Nat.Size
import Mathlib.Data.BitVec
import Mathlib.Order.Bounds.Basic

/-
  The number of bits of a natural number, and the width of an
  integer in two's complement.

  An integer fits a width when it, or its complement if it is
  negative, has less bits than the width. The bits of a
  number are counted off from below, some at a time.

  Key definitions include:
    * `BitWidth.complemented`
    * `BitWidth.widths`

  Key theorems include:
    * `BitWidth.size_div`
    * `BitWidth.size_halve`
    * `BitWidth.isLeast_widths`
-/

------------------------------------------------------------
-- Bits of a natural number
------------------------------------------------------------

namespace BitWidth

/- Shifting drops bits. -/
theorem size_div (m places : Nat) :
    (m / 2 ^ places).size = m.size - places := by
  apply eq_of_forall_ge_iff
  intro width
  rw [Nat.size_le, Nat.div_lt_iff_lt_mul (Nat.two_pow_pos _),
    ← Nat.pow_add, ← Nat.size_le]
  omega

/- A number that is not shifted away has lost these bits. -/
theorem size_div_add
    {m places : Nat}
    (hLarge : m / 2 ^ places ≠ 0) :
    (m / 2 ^ places).size + places = m.size := by
  have hPos : 0 < (m / 2 ^ places).size :=
    Nat.size_pos.mpr (Nat.pos_of_ne_zero hLarge)
  rw [size_div] at hPos ⊢
  omega

theorem size_halve
    {m : Nat}
    (hPos : m ≠ 0) :
    (m / 2).size + 1 = m.size := by
  have hSize : 0 < m.size :=
    Nat.size_pos.mpr (Nat.pos_of_ne_zero hPos)
  have hDiv := size_div m 1
  rw [Nat.pow_one] at hDiv
  omega

theorem size_of_lt_two
    {m : Nat}
    (hBit : m < 2) :
    m.size = m := by
  have hCases : m = 0 ∨ m = 1 := by omega
  rcases hCases with rfl | rfl
  · exact Nat.size_zero
  · exact Nat.size_one

------------------------------------------------------------
-- Widths of an integer
------------------------------------------------------------

/- The number, or its complement if it is negative. -/
def complemented (v : Int) : Nat :=
  if v < 0 then (-v - 1).toNat else v.toNat

/- The widths whose range in two's complement has `v`. -/
def widths (v : Int) : Set Nat :=
  {n | 1 ≤ n ∧ -2 ^ (n - 1) ≤ v ∧ v < 2 ^ (n - 1)}

theorem mem_widths
    {v : Int}
    {n : Nat} :
    n ∈ widths v ↔ (complemented v).size + 1 ≤ n := by
  have hPower :
      ((2 ^ (n - 1) : Nat) : Int) = 2 ^ (n - 1) := by
    push_cast
    rfl
  have hFits :
      (complemented v).size ≤ n - 1 ↔
        -2 ^ (n - 1) ≤ v ∧ v < 2 ^ (n - 1) := by
    rw [Nat.size_le]
    unfold complemented
    split
    · omega
    · omega
  unfold widths
  rw [Set.mem_ofPred_eq, ← hFits]
  omega

/- The least width is one more than the number of bits. -/
theorem isLeast_widths (v : Int) :
    IsLeast (widths v) ((complemented v).size + 1) :=
  ⟨mem_widths.mpr (Nat.le_refl _), fun _ => mem_widths.mp⟩

end BitWidth
