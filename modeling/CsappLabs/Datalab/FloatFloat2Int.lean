import CsappLabs.Datalab.Single

/-
  `floatFloat2Int` of `bits.c`, against truncation over exact
  rationals.

  The function moves the significand by `23-e` places to the
  right, also where `e` is above 23 and the places are to be
  moved to the left. C leaves a shift by a negative count
  undefined, and the machine that the Makefile compiles for
  takes the count modulo 32. Neither gives the truncation.

  Key definitions include:
    * `OutsideCount`
    * `shiftRight`
    * `floatFloat2Int`
    * `Truncates`

  Key theorems include:
    * `floatFloat2Int_small`
    * `floatFloat2Int_large`
    * `floatFloat2Int_right`
    * `floatFloat2Int_truncates_iff`
-/

------------------------------------------------------------
-- The function
------------------------------------------------------------

namespace CsappLabs.Datalab

open BinaryFloat

/-
  What a shift by a count outside of 0 to 31 does: it is
  undefined in C, and x86 drops all but five bits of the
  count.
-/
inductive OutsideCount where
  | undefined
  | masked

/- `word >> count`, with no result where it is undefined. -/
def shiftRight
    (outside : OutsideCount)
    (word count : BitVec 32) : Option (BitVec 32) :=
  if count.toNat < 32 then some (word >>> count.toNat)
  else
    match outside with
    | .undefined => none
    | .masked => some (word >>> (count.toNat % 32))

/- `int floatFloat2Int(unsigned uf)` -/
def floatFloat2Int
    (outside : OutsideCount)
    (uf : BitVec 32) : Option (BitVec 32) :=
  let exp := expOf uf
  let sign := signOf uf
  let frac := fracOf uf
  if exp ^^^ 0xff = 0 then some (1#32 <<< 31)
  else if exp = 0 then some 0
  else
    let e := exp - 127
    if e.toInt < 0 then some 0
    else if e.toInt > 30 then some (1#32 <<< 31)
    else
      (shiftRight outside ((1#32 <<< 23) ||| frac) (23 - e)).map
        fun frac => if sign ≠ 0 then -frac else frac

------------------------------------------------------------
-- What truncation is
------------------------------------------------------------

/- The integers that an `int` holds. -/
def InInt (n : Int) : Prop :=
  -2 ^ 31 ≤ n ∧ n < 2 ^ 31

/-
  The result of truncating a number: its value rounded toward
  zero where that is an `int`, and otherwise, as for NaNs and
  infinities, `0x80000000`.
-/
structure Truncates (uf result : BitVec 32) : Prop where
  exact :
    (number uf).IsFinite →
    InInt (truncate (number uf).value) →
      result.toInt = truncate (number uf).value
  outside :
    (number uf).IsFinite →
    ¬ InInt (truncate (number uf).value) →
      result = 0x80000000
  special :
    (number uf).IsNaN ∨ (number uf).IsInfinite →
      result = 0x80000000

------------------------------------------------------------
-- Exponents
------------------------------------------------------------

variable {outside : OutsideCount}
variable {uf : BitVec 32}

/- `e = exp - 127` as an `int`. -/
theorem toInt_exponent (uf : BitVec 32) :
    (expOf uf - 127).toInt = (number uf).exp - 127 := by
  have hExp := exp_lt uf
  rw [BitVec.toInt_sub, BitVec.toInt_eq_toNat_of_lt
    (by rw [toNat_expOf]; omega), toNat_expOf]
  apply Int.bmod_eq_of_le
  · show _ ≤ _ - (127 : Int)
    omega
  · show _ - (127 : Int) < _
    omega

/- `23-e`, which wraps around where it is negative. -/
theorem toNat_count (uf : BitVec 32) :
    (23 - (expOf uf - 127)).toNat =
      (2 ^ 32 + 150 - (number uf).exp) % 2 ^ 32 := by
  have hExp := exp_lt uf
  rw [BitVec.toNat_sub, BitVec.toNat_sub, toNat_expOf]
  show (2 ^ 32 - (2 ^ 32 - 127 + (number uf).exp) % 2 ^ 32 + 23) %
    2 ^ 32 = _
  omega

/- `(1<<23)|frac` -/
theorem toNat_significand (uf : BitVec 32) :
    ((1#32 <<< 23) ||| fracOf uf).toNat =
      2 ^ 23 + (number uf).frac := by
  have hOr :=
    Nat.two_pow_add_eq_or_of_lt (frac_lt uf) 1
  rw [BitVec.toNat_or, toNat_fracOf]
  rw [Nat.mul_one] at hOr
  exact hOr.symm

------------------------------------------------------------
-- The returns
------------------------------------------------------------

/- Numbers below one, zeros and subnormal numbers too. -/
theorem floatFloat2Int_small
    (hSmall : (number uf).exp < 127) :
    floatFloat2Int outside uf = some 0 := by
  have hFinite : (number uf).IsFinite :=
    isFinite_of_lt (by omega)
  unfold floatFloat2Int
  simp only
  rw [if_neg (expOf_not_special hFinite)]
  split
  · rfl
  · rw [if_pos (by rw [toInt_exponent]; omega)]

/- Numbers from `2 ^ 31` on, infinities and NaNs too. -/
theorem floatFloat2Int_large
    (hLarge : 158 ≤ (number uf).exp) :
    floatFloat2Int outside uf = some 0x80000000 := by
  unfold floatFloat2Int
  simp only
  split
  · rfl
  · rw [if_neg (by rw [expOf_eq_zero_iff]; omega),
      if_neg (by rw [toInt_exponent]; omega),
      if_pos (by rw [toInt_exponent]; omega)]
    rfl

/- In between the significand is shifted. -/
theorem floatFloat2Int_shifted
    (hOne : 127 ≤ (number uf).exp)
    (hLess : (number uf).exp < 158) :
    floatFloat2Int outside uf =
      (shiftRight outside ((1#32 <<< 23) ||| fracOf uf)
        (23 - (expOf uf - 127))).map
          fun frac => if signOf uf ≠ 0 then -frac else frac := by
  have hFinite : (number uf).IsFinite :=
    isFinite_of_lt (by omega)
  unfold floatFloat2Int
  simp only
  rw [if_neg (expOf_not_special hFinite),
    if_neg (by rw [expOf_eq_zero_iff]; omega),
    if_neg (by rw [toInt_exponent]; omega),
    if_neg (by rw [toInt_exponent]; omega)]

/- `if (sign) return -frac; return frac;` -/
theorem toInt_signed
    {word : BitVec 32}
    (hWord : word.toNat < 2 ^ 31) :
    (if signOf uf ≠ 0 then -word else word).toInt =
      if (number uf).negative then -(word.toNat : Int)
      else word.toNat := by
  have hSign := toNat_signOf uf
  have hInt := BitVec.toInt_eq_toNat_of_lt (x := word) (by omega)
  cases hNegative : (number uf).negative with
  | false =>
      rw [hNegative] at hSign
      have hZero : signOf uf = 0 := BitVec.eq_of_toNat_eq hSign
      rw [if_neg (not_not.mpr hZero), hInt]
      rfl
  | true =>
      rw [hNegative] at hSign
      have hNonzero : signOf uf ≠ 0 := by
        intro hZero
        rw [hZero] at hSign
        exact absurd hSign (by decide)
      rw [if_pos hNonzero, BitVec.toInt_neg, hInt]
      apply Int.bmod_eq_of_le
      · omega
      · omega

------------------------------------------------------------
-- Truncation
------------------------------------------------------------

/- Up to the exponent 150 the shift gives the integer part. -/
theorem floatFloat2Int_right
    (hOne : 127 ≤ (number uf).exp)
    (hRight : (number uf).exp ≤ 150) :
    ∃ result,
      floatFloat2Int outside uf = some result ∧
        result.toInt = truncate (number uf).value := by
  have hCount :
      (23 - (expOf uf - 127)).toNat =
        150 - (number uf).exp := by
    rw [toNat_count]
    omega
  have hPart :
      (number uf).integerPart =
        (2 ^ 23 + (number uf).frac) /
          2 ^ (150 - (number uf).exp) :=
    @Datum.integerPart_right single (number uf)
      (150 - (number uf).exp) (by omega)
      (Nat.add_sub_of_le hRight)
  have hWord :
      (((1#32 <<< 23) ||| fracOf uf) >>>
        (150 - (number uf).exp)).toNat =
          (number uf).integerPart := by
    rw [BitVec.toNat_ushiftRight, toNat_significand,
      Nat.shiftRight_eq_div_pow, hPart]
  have hLess : (number uf).integerPart < 2 ^ 31 := by
    have hFrac := frac_lt uf
    rw [hPart]
    exact lt_of_le_of_lt (Nat.div_le_self _ _) (by omega)
  have hShift :
      shiftRight outside ((1#32 <<< 23) ||| fracOf uf)
          (23 - (expOf uf - 127)) =
        some (((1#32 <<< 23) ||| fracOf uf) >>>
          (150 - (number uf).exp)) := by
    unfold shiftRight
    rw [if_pos (by omega), hCount]
  have hResult :=
    @floatFloat2Int_shifted outside uf hOne (by omega)
  rw [hShift, Option.map_some] at hResult
  refine ⟨_, hResult, ?_⟩
  rw [toInt_signed (by rw [hWord]; exact hLess), hWord,
    Datum.truncate_value]

/- From 151 to 157 the integer is large but still an `int`. -/
theorem integerPart_left_bounds
    (hLeft : 151 ≤ (number uf).exp)
    (hLess : (number uf).exp ≤ 157) :
    0 < (number uf).integerPart ∧
      (number uf).integerPart < 2 ^ 31 := by
  have hFrac := frac_lt uf
  have hPart :
      (number uf).integerPart =
        (2 ^ 23 + (number uf).frac) *
          2 ^ ((number uf).exp - 150) :=
    @Datum.integerPart_left single (number uf)
      ((number uf).exp - 150) (by omega)
      (by
        show (number uf).exp = 150 + ((number uf).exp - 150)
        omega)
  have hPower : 2 ^ ((number uf).exp - 150) ≤ 2 ^ 7 :=
    Nat.pow_le_pow_right (by decide) (by omega)
  rw [hPart]
  constructor
  · exact Nat.mul_pos (by omega) (Nat.two_pow_pos _)
  · calc (2 ^ 23 + (number uf).frac) *
          2 ^ ((number uf).exp - 150)
        ≤ (2 ^ 23 + (number uf).frac) * 2 ^ 7 :=
          Nat.mul_le_mul_left _ hPower
      _ < 2 ^ 31 := by omega

/- There the function returns nothing or zero. -/
theorem floatFloat2Int_left
    {result : BitVec 32}
    (hLeft : 151 ≤ (number uf).exp)
    (hLess : (number uf).exp ≤ 157)
    (hResult : floatFloat2Int outside uf = some result) :
    result.toInt = 0 := by
  have hCount :
      (23 - (expOf uf - 127)).toNat =
        2 ^ 32 + 150 - (number uf).exp := by
    rw [toNat_count]
    omega
  rw [floatFloat2Int_shifted (by omega) (by omega)]
    at hResult
  unfold shiftRight at hResult
  rw [if_neg (by omega), hCount] at hResult
  cases outside with
  | undefined => cases hResult
  | masked =>
      have hWord :
          (((1#32 <<< 23) ||| fracOf uf) >>>
            ((2 ^ 32 + 150 - (number uf).exp) % 32)).toNat =
              0 := by
        have hFrac := frac_lt uf
        have hPower :
            2 ^ 25 ≤
              2 ^ ((2 ^ 32 + 150 - (number uf).exp) % 32) :=
          Nat.pow_le_pow_right (by decide) (by omega)
        rw [BitVec.toNat_ushiftRight, toNat_significand,
          Nat.shiftRight_eq_div_pow]
        exact Nat.div_eq_of_lt (by omega)
      rw [← Option.some.inj hResult,
        toInt_signed (by rw [hWord]; decide), hWord]
      split
      · rfl
      · rfl

/- Neither is the truncation of the number. -/
theorem floatFloat2Int_left_not_truncates
    (hLeft : 151 ≤ (number uf).exp)
    (hLess : (number uf).exp ≤ 157) :
    ¬ ∃ result,
      floatFloat2Int outside uf = some result ∧
        Truncates uf result := by
  rintro ⟨result, hResult, hTruncates⟩
  have hBounds := integerPart_left_bounds hLeft hLess
  have hFinite : (number uf).IsFinite :=
    isFinite_of_lt (by omega)
  have hExact := hTruncates.exact hFinite
  rw [floatFloat2Int_left hLeft hLess hResult,
    Datum.truncate_value] at hExact
  unfold InInt at hExact
  split at hExact
  · omega
  · omega

/- `0x80000000` is right for numbers from `2 ^ 31` on. -/
theorem truncates_large
    (hLarge : 158 ≤ (number uf).exp) :
    Truncates uf 0x80000000 where
  exact := by
    intro _ hInt
    have hPart : 2 ^ 31 ≤ (number uf).integerPart :=
      Datum.le_integerPart (by omega) hLarge
    have hLower := hInt.1
    have hUpper := hInt.2
    rw [Datum.truncate_value] at hLower hUpper ⊢
    cases hNegative : (number uf).negative with
    | false =>
        rw [hNegative] at hUpper
        simp only [Bool.false_eq_true, if_false] at hUpper
        omega
    | true =>
        rw [hNegative] at hLower
        simp only [if_true] at hLower ⊢
        have hEqual : (number uf).integerPart = 2 ^ 31 := by
          omega
        rw [hEqual]
        rfl
  outside := fun _ _ => rfl
  special := fun _ => rfl

/- An integer that is right when the truncation is an `int`. -/
theorem truncates_of_toInt
    {result : BitVec 32}
    (hFinite : (number uf).IsFinite)
    (hResult : result.toInt = truncate (number uf).value) :
    Truncates uf result where
  exact := fun _ _ => hResult
  outside := by
    intro _ hOutside
    rw [← hResult] at hOutside
    exact absurd
      ⟨BitVec.le_toInt result, BitVec.toInt_lt⟩ hOutside
  special := by
    intro hSpecial
    exact absurd hFinite (Datum.not_isFinite_iff.mpr hSpecial)

/-
  The function truncates exactly the patterns whose exponent
  field is not from 151 to 157, whatever a shift by a count
  outside of 0 to 31 does.
-/
theorem floatFloat2Int_truncates_iff
    (outside : OutsideCount)
    (uf : BitVec 32) :
    (∃ result,
      floatFloat2Int outside uf = some result ∧
        Truncates uf result) ↔
      ¬ (151 ≤ (number uf).exp ∧ (number uf).exp ≤ 157) := by
  constructor
  · rintro hTruncates ⟨hLeft, hLess⟩
    exact
      floatFloat2Int_left_not_truncates hLeft hLess hTruncates
  · intro hShift
    by_cases hSmall : (number uf).exp < 127
    · have hPart : (number uf).integerPart = 0 :=
        Datum.integerPart_of_lt_bias
          (max_lt hSmall (by decide))
      have hFinite : (number uf).IsFinite :=
        isFinite_of_lt (by omega)
      refine ⟨0, floatFloat2Int_small hSmall, ?_⟩
      apply truncates_of_toInt hFinite
      rw [Datum.truncate_value, hPart]
      split
      · rfl
      · rfl
    · by_cases hLarge : 158 ≤ (number uf).exp
      · exact
          ⟨_, floatFloat2Int_large hLarge,
            truncates_large hLarge⟩
      · have hFinite : (number uf).IsFinite :=
          isFinite_of_lt (by omega)
        rcases
          @floatFloat2Int_right outside uf
            (by omega) (by omega)
          with ⟨result, hResult, hInt⟩
        exact
          ⟨result, hResult, truncates_of_toInt hFinite hInt⟩

/- The pattern of `2 ^ 24` is not truncated to `2 ^ 24`. -/
theorem floatFloat2Int_two_pow_24_fails :
    (¬ ∃ result,
      floatFloat2Int .undefined 0x4B800000 = some result ∧
        Truncates 0x4B800000 result) ∧
    (¬ ∃ result,
      floatFloat2Int .masked 0x4B800000 = some result ∧
        Truncates 0x4B800000 result) :=
  ⟨floatFloat2Int_left_not_truncates (by decide) (by decide),
    floatFloat2Int_left_not_truncates (by decide) (by decide)⟩

end CsappLabs.Datalab
