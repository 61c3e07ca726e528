import Mathlib.Data.Nat.Bitwise

/-
  Fields of consecutive bits.

  A field of a number is named by the position of its lowest
  bit and its width. Two fields side by side determine, and
  are determined by, the field they make up; and a masked
  word shifted down to its lowest bit is a field.

  Key definitions include:
    * `BitField.field`

  Key theorems include:
    * `BitField.field_add`
    * `BitField.field_eq_iff`
    * `BitField.toNat_masked`
    * `BitField.or_shiftLeft_mod`
-/

------------------------------------------------------------
-- Fields
------------------------------------------------------------

namespace BitField

/- The `width` bits of `value` from bit `low` on. -/
def field (value low width : Nat) : Nat :=
  value / 2 ^ low % 2 ^ width

variable {value other low width upper : Nat}

theorem field_lt : field value low width < 2 ^ width :=
  Nat.mod_lt _ (Nat.two_pow_pos width)

@[simp] theorem field_zero : field value low 0 = 0 := by
  simp [field, Nat.mod_one]

/- A field is its low part and, above it, its high part. -/
theorem field_add :
    field value low (width + upper) =
      field value low width +
        2 ^ width * field value (low + width) upper := by
  unfold field
  rw [Nat.pow_add, Nat.mod_mul, Nat.div_div_eq_div_mul,
    ← Nat.pow_add]

/- Two numbers agree on a field when they do on its parts. -/
theorem field_eq_iff :
    field value low (width + upper) =
        field other low (width + upper) ↔
      field value low width = field other low width ∧
        field value (low + width) upper =
          field other (low + width) upper := by
  constructor
  · intro hEq
    have hLow :
        field value low width = field other low width := by
      have hMod := congrArg (· % 2 ^ width) hEq
      simp only [field_add, Nat.add_mul_mod_self_left] at hMod
      rwa [Nat.mod_eq_of_lt field_lt,
        Nat.mod_eq_of_lt field_lt] at hMod
    rw [field_add, field_add, hLow] at hEq
    have hHigh := Nat.add_left_cancel hEq
    exact
      ⟨hLow, Nat.mul_left_cancel (Nat.two_pow_pos _) hHigh⟩
  · rintro ⟨hLow, hHigh⟩
    rw [field_add, field_add, hLow, hHigh]

/- Below a number added from a bit on, the fields are kept. -/
theorem field_zero_add_mul
    (hValue : value < 2 ^ width) :
    field (value + 2 ^ width * other) 0 width = value := by
  unfold field
  rw [Nat.pow_zero, Nat.div_one, Nat.add_mul_mod_self_left,
    Nat.mod_eq_of_lt hValue]

/- From that bit on, they are the fields of that number. -/
theorem field_add_mul_of_lt
    (hValue : value < 2 ^ low) :
    field (value + 2 ^ low * other) (low + upper) width =
      field other upper width := by
  unfold field
  rw [Nat.pow_add, ← Nat.div_div_eq_div_mul,
    Nat.add_mul_div_left _ _ (Nat.two_pow_pos low),
    Nat.div_eq_of_lt hValue, Nat.zero_add]

theorem field_add_mul
    (hValue : value < 2 ^ low) :
    field (value + 2 ^ low * other) low width =
      field other 0 width :=
  @field_add_mul_of_lt value other low width 0 hValue

/- A field that reaches beyond the number is a quotient. -/
theorem field_of_lt
    (hValue : value < 2 ^ (low + width)) :
    field value low width = value / 2 ^ low := by
  unfold field
  apply Nat.mod_eq_of_lt
  rw [Nat.div_lt_iff_lt_mul (Nat.two_pow_pos low),
    ← Nat.pow_add, Nat.add_comm]
  exact hValue

------------------------------------------------------------
-- Masks
------------------------------------------------------------

/- The mask of `width` low bits, moved up to bit `low`. -/
theorem toNat_masked
    {size : Nat} {word mask : BitVec size}
    (hFits : low + width ≤ size)
    (hMask : mask.toNat = 2 ^ width - 1) :
    ((word &&& (mask <<< low)) >>> low).toNat =
      field word.toNat low width := by
  have hMoved :
      (mask <<< low).toNat = (2 ^ width - 1) <<< low := by
    rw [BitVec.toNat_shiftLeft, hMask]
    apply Nat.mod_eq_of_lt
    have hPositive := Nat.two_pow_pos width
    calc (2 ^ width - 1) <<< low
        = (2 ^ width - 1) * 2 ^ low := Nat.shiftLeft_eq _ _
      _ < 2 ^ width * 2 ^ low :=
          Nat.mul_lt_mul_of_pos_right (by omega)
            (Nat.two_pow_pos low)
      _ = 2 ^ (low + width) := by
          rw [Nat.add_comm low width, Nat.pow_add]
      _ ≤ 2 ^ size := Nat.pow_le_pow_right (by decide) hFits
  rw [BitVec.toNat_ushiftRight, BitVec.toNat_and, hMoved,
    Nat.shiftRight_and_distrib, Nat.shiftLeft_shiftRight,
    Nat.and_two_pow_sub_one_eq_mod,
    Nat.shiftRight_eq_div_pow]
  rfl

/- The mask of `width` low bits is a remainder. -/
theorem and_low_mask :
    value &&& (1 <<< width - 1) = value % 2 ^ width := by
  rw [Nat.shiftLeft_eq, Nat.one_mul]
  exact Nat.and_two_pow_sub_one_eq_mod value width

/- The mask of the bits above `low` clears those below. -/
theorem and_high_mask
    (hValue : value < 2 ^ (low + width)) :
    value &&& ((2 ^ width - 1) <<< low) =
      value / 2 ^ low * 2 ^ low := by
  rw [← Nat.shiftRight_eq_div_pow, ← Nat.shiftLeft_eq]
  apply Nat.eq_of_testBit_eq
  intro i
  simp only [Nat.testBit_and, Nat.testBit_shiftLeft,
    Nat.testBit_two_pow_sub_one, Nat.testBit_shiftRight]
  by_cases hLow : low ≤ i
  · by_cases hHigh : i - low < width
    · simp [hLow, hHigh]
    · have hBit : value.testBit i = false := by
        apply Nat.testBit_lt_two_pow
        exact Nat.lt_of_lt_of_le hValue
          (Nat.pow_le_pow_right (by decide) (by omega))
      simp [hLow, hBit]
  · simp [hLow]

/-
  A field put above a low part: what is shifted out of a word
  of `low + width` bits is lost, the rest is added.
-/
theorem or_shiftLeft_mod
    (hLow : value < 2 ^ low) :
    value ||| (other <<< low) % 2 ^ (low + width) =
      value + 2 ^ low * (other % 2 ^ width) := by
  rw [Nat.shiftLeft_eq, Nat.mul_comm other, Nat.pow_add,
    Nat.mul_mod_mul_left, Nat.lor_comm,
    ← Nat.two_pow_add_eq_or_of_lt hLow, Nat.add_comm]

/- A low part and a number above it have no bit in common. -/
theorem xor_two_pow_mul
    (hLow : value < 2 ^ low) :
    value ^^^ (2 ^ low * other) = value + 2 ^ low * other := by
  apply Nat.eq_of_testBit_eq
  intro bit
  rw [Nat.testBit_xor, Nat.add_comm,
    Nat.testBit_two_pow_mul_add other hLow,
    Nat.testBit_two_pow_mul]
  by_cases hBit : bit < low
  · rw [if_pos hBit, decide_eq_false (by omega)]
    simp
  · have hZero : value.testBit bit = false :=
      Nat.testBit_lt_two_pow
        (lt_of_lt_of_le hLow
          (Nat.pow_le_pow_right (by decide) (by omega)))
    rw [if_neg hBit, decide_eq_true (by omega), hZero]
    simp

end BitField
