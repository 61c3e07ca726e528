import CsappLabs.Datalab.Single

/-
  `floatPower2` of `bits.c`, against powers of two over exact
  rationals.

  From -149 to -127 the power is a subnormal number, and its
  one bit belongs at place `x+149` of the fraction. The
  function puts it one place higher, so it returns the next
  power, and the pattern of -127 is that of -126.

  Key definitions include:
    * `floatPower2`
    * `IsPower2`

  Key theorems include:
    * `toNat_floatPower2_subnormal`
    * `toNat_floatPower2_normal`
    * `floatPower2_iff`
-/

------------------------------------------------------------
-- The function
------------------------------------------------------------

namespace CsappLabs.Datalab

open BinaryFloat

/- `unsigned floatPower2(int x)` -/
def floatPower2 (x : BitVec 32) : BitVec 32 :=
  if x.toInt < -149 then 0
  else if x.toInt > 128 then 0xff#32 <<< 23
  else if x.toInt ≥ -149 ∧ x.toInt ≤ -127 then
    let movq := -x - 126 - 1
    1#32 <<< (23 - movq)
  else (x + 127) <<< 23

------------------------------------------------------------
-- What the power is
------------------------------------------------------------

/-
  The pattern of a power of two: that of a finite number with
  this value if there is one, zero for a power too small, and
  positive infinity for a power too large.
-/
structure IsPower2
    (exponent : Int)
    (result : BitVec 32) : Prop where
  exact :
    Representable single (power exponent) →
      (number result).IsFinite ∧
        (number result).value = power exponent
  small :
    TooSmall single (power exponent) → result = 0
  large :
    TooLarge single (power exponent) →
      number result = Datum.infinity false

------------------------------------------------------------
-- The returns
------------------------------------------------------------

variable {x y : BitVec 32}

theorem toInt_cases (x : BitVec 32) :
    (0 ≤ x.toInt ∧ x.toInt = x.toNat) ∨
      (x.toInt < 0 ∧ x.toInt = x.toNat - 2 ^ 32) := by
  rw [BitVec.toInt_eq_toNat_cond]
  have hLt := x.isLt
  split
  · omega
  · omega

theorem floatPower2_small (hSmall : x.toInt < -149) :
    floatPower2 x = 0 :=
  if_pos hSmall

/- A bit of the fraction, or above it the smallest exponent. -/
theorem toNat_floatPower2_subnormal
    (hLow : -149 ≤ x.toInt)
    (hHigh : x.toInt ≤ -127) :
    (floatPower2 x).toNat = 2 ^ (x.toInt + 150).toNat := by
  have hCases := toInt_cases x
  have hCount :
      (23 - (-x - 126 - 1)).toNat = (x.toInt + 150).toNat := by
    simp only [BitVec.toNat_sub, BitVec.toNat_neg]
    show (2 ^ 32 - (2 ^ 32 - 1 +
      (2 ^ 32 - 126 + (2 ^ 32 - x.toNat) % 2 ^ 32) % 2 ^ 32) %
        2 ^ 32 + 23) % 2 ^ 32 = _
    omega
  have hBound :
      2 ^ (x.toInt + 150).toNat < 2 ^ 32 :=
    Nat.pow_lt_pow_right (by decide) (by omega)
  unfold floatPower2
  rw [if_neg (by omega), if_neg (by omega),
    if_pos ⟨hLow, hHigh⟩]
  simp only
  rw [BitVec.shiftLeft_eq', BitVec.toNat_shiftLeft, hCount,
    Nat.shiftLeft_eq]
  show 1 * _ % _ = _
  rw [Nat.one_mul, Nat.mod_eq_of_lt hBound]

/- The exponent field without a fraction. -/
theorem toNat_floatPower2_normal
    (hLow : -126 ≤ x.toInt)
    (hHigh : x.toInt ≤ 128) :
    (floatPower2 x).toNat =
      (x.toInt + 127).toNat * 2 ^ 23 := by
  have hCases := toInt_cases x
  unfold floatPower2
  rw [if_neg (by omega), if_neg (by omega),
    if_neg (by omega), BitVec.toNat_shiftLeft,
    BitVec.toNat_add, Nat.shiftLeft_eq]
  show (x.toNat + 127) % 2 ^ 32 * 2 ^ 23 % 2 ^ 32 = _
  omega

/- The number without fraction that a power of two is. -/
def powerDatum
    (exp : Nat)
    (hExp : exp < 2 ^ single.expBits) : Datum single where
  negative := false
  exp := exp
  frac := 0
  hExp := hExp
  hFrac := Nat.two_pow_pos _

theorem number_floatPower2_normal
    (hLow : -126 ≤ x.toInt)
    (hHigh : x.toInt ≤ 128) :
    number (floatPower2 x) =
      powerDatum (x.toInt + 127).toNat (by
        show _ < 256
        omega) := by
  apply number_eq
  rw [toNat_floatPower2_normal hLow hHigh]
  show _ = 0 + 2 ^ 23 * ((x.toInt + 127).toNat + 2 ^ 8 * 0)
  omega

theorem number_floatPower2_large (hLarge : 128 ≤ x.toInt) :
    number (floatPower2 x) = Datum.infinity false := by
  by_cases hLast : x.toInt = 128
  · rw [number_floatPower2_normal (by omega) (by omega)]
    unfold powerDatum
    apply Datum.ext
    · rfl
    · show (x.toInt + 127).toNat = 255
      omega
    · rfl
  · have hResult : floatPower2 x = 0xff#32 <<< 23 := by
      unfold floatPower2
      rw [if_neg (by omega), if_pos (by omega)]
    rw [hResult]
    decide

/- The subnormal or smallest normal number with one bit. -/
def bitDatum
    (bit : Nat)
    (hBit : bit ≤ 23) : Datum single :=
  Datum.ofUnits false (2 ^ bit) (by
    have hPower : 2 ^ bit ≤ 2 ^ 23 :=
      Nat.pow_le_pow_right (by decide) hBit
    show _ < 2 ^ 23 * 2
    omega)

theorem bitDatum_isFinite
    {bit : Nat}
    {hBit : bit ≤ 23} :
    (bitDatum bit hBit).IsFinite :=
  Datum.ofUnits_isFinite _

theorem value_bitDatum
    {bit : Nat}
    {hBit : bit ≤ 23} :
    (bitDatum bit hBit).value = power (bit - 149) := by
  show (bitDatum bit hBit).magnitude = _
  unfold bitDatum
  rw [Datum.magnitude_ofUnits, ← power_natCast, ← power_add]
  rfl

/- The bit at place `x+150` instead of `x+149`. -/
theorem number_floatPower2_subnormal
    (hLow : -149 ≤ x.toInt)
    (hHigh : x.toInt ≤ -127) :
    number (floatPower2 x) =
      bitDatum (x.toInt + 150).toNat (by omega) := by
  apply number_eq
  rw [toNat_floatPower2_subnormal hLow hHigh]
  show _ =
    2 ^ (x.toInt + 150).toNat % 2 ^ 23 +
      2 ^ 23 * (2 ^ (x.toInt + 150).toNat / 2 ^ 23 + 2 ^ 8 * 0)
  omega

------------------------------------------------------------
-- Which powers are numbers
------------------------------------------------------------

theorem powerDatum_isFinite
    {exp : Nat}
    {hExp : exp < 2 ^ single.expBits}
    (hFinite : exp ≠ 255) :
    (powerDatum exp hExp).IsFinite :=
  hFinite

theorem value_powerDatum
    {exp : Nat}
    {hExp : exp < 2 ^ single.expBits}
    (hNormal : exp ≠ 0) :
    (powerDatum exp hExp).value = power (exp - 127) :=
  Datum.magnitude_power hNormal rfl

theorem representable_power
    {exponent : Int}
    (hLow : -149 ≤ exponent)
    (hHigh : exponent ≤ 127) :
    Representable single (power exponent) := by
  by_cases hNormal : -126 ≤ exponent
  · refine
      ⟨powerDatum (exponent + 127).toNat (by
          show _ < 256
          omega),
        powerDatum_isFinite (by omega), ?_⟩
    rw [value_powerDatum (by omega)]
    congr 1
    omega
  · refine
      ⟨bitDatum (exponent + 149).toNat (by omega),
        bitDatum_isFinite, ?_⟩
    rw [value_bitDatum]
    congr 1
    omega

theorem not_tooSmall_power
    {exponent : Int}
    (hLow : -149 ≤ exponent) :
    ¬ TooSmall single (power exponent) := by
  intro hSmall
  rcases @representable_power (-149) (by decide) (by decide)
    with ⟨x, hFinite, hValue⟩
  have hLess := hSmall x hFinite (by rw [hValue]; exact power_pos)
  rw [hValue] at hLess
  exact absurd (power_le_power hLow) (not_le.mpr hLess)

theorem not_tooLarge_power
    {exponent : Int}
    (hHigh : exponent ≤ 127) :
    ¬ TooLarge single (power exponent) := by
  intro hLarge
  rcases @representable_power 127 (by decide) (by decide)
    with ⟨x, hFinite, hValue⟩
  have hLess := hLarge x hFinite
  rw [hValue] at hLess
  exact absurd (power_le_power hHigh) (not_le.mpr hLess)

------------------------------------------------------------
-- The power of two
------------------------------------------------------------

/- Below -149 the power is too small, and zero is returned. -/
theorem isPower2_small (hSmall : x.toInt < -149) :
    IsPower2 x.toInt (floatPower2 x) where
  exact := fun hValue =>
    absurd (tooSmall_power hSmall)
      (hValue.not_tooSmall power_pos)
  small := fun _ => floatPower2_small hSmall
  large := fun hLarge =>
    absurd hLarge (not_tooLarge_power (by omega))

/- From -126 to 127 the power is a normal number. -/
theorem isPower2_normal
    (hLow : -126 ≤ x.toInt)
    (hHigh : x.toInt ≤ 127) :
    IsPower2 x.toInt (floatPower2 x) where
  exact := by
    intro _
    rw [number_floatPower2_normal hLow (by omega)]
    refine ⟨powerDatum_isFinite (by omega), ?_⟩
    rw [value_powerDatum (by omega)]
    congr 1
    omega
  small := fun hSmall =>
    absurd hSmall (not_tooSmall_power (by omega))
  large := fun hLarge =>
    absurd hLarge (not_tooLarge_power hHigh)

/- From 128 on the power is too large. -/
theorem isPower2_large (hLarge : 128 ≤ x.toInt) :
    IsPower2 x.toInt (floatPower2 x) where
  exact := fun hValue =>
    absurd (tooLarge_power hLarge) hValue.not_tooLarge
  small := fun hSmall =>
    absurd hSmall (not_tooSmall_power (by omega))
  large := fun _ => number_floatPower2_large hLarge

/- From -149 to -127 the next power is returned. -/
theorem not_isPower2_subnormal
    (hLow : -149 ≤ x.toInt)
    (hHigh : x.toInt ≤ -127) :
    ¬ IsPower2 x.toInt (floatPower2 x) := by
  intro hPower
  have hValue :=
    (hPower.exact (representable_power hLow (by omega))).2
  rw [number_floatPower2_subnormal hLow hHigh,
    value_bitDatum] at hValue
  have hNext :
      ((x.toInt + 150).toNat : Int) - 149 = x.toInt + 1 := by
    omega
  rw [hNext] at hValue
  exact absurd hValue (ne_of_gt (power_lt_power (by omega)))

/- The patterns increase but for the step from -127 to -126. -/
theorem floatPower2_lt_iff
    (hLow : -149 ≤ x.toInt)
    (hLess : x.toInt < y.toInt)
    (hHigh : y.toInt ≤ 128) :
    floatPower2 x < floatPower2 y ↔
      ¬ (x.toInt = -127 ∧ y.toInt = -126) := by
  rw [BitVec.lt_def]
  by_cases hX : x.toInt ≤ -127
  · rw [toNat_floatPower2_subnormal hLow hX]
    by_cases hY : y.toInt ≤ -127
    · rw [toNat_floatPower2_subnormal (by omega) hY]
      have hPower :
          2 ^ (x.toInt + 150).toNat <
            2 ^ (y.toInt + 150).toNat :=
        Nat.pow_lt_pow_right (by decide) (by omega)
      omega
    · rw [toNat_floatPower2_normal (by omega) hHigh]
      by_cases hSeam : x.toInt = -127
      · rw [hSeam]
        show 2 ^ 23 < _ ↔ _
        omega
      · have hPower :
            2 ^ (x.toInt + 150).toNat < 2 ^ 23 :=
          Nat.pow_lt_pow_right (by decide) (by omega)
        omega
  · rw [toNat_floatPower2_normal (by omega) (by omega),
      toNat_floatPower2_normal (by omega) hHigh]
    omega

/-
  The function gives the power of two exactly outside of -149
  to -127, and the patterns from -149 to 128 increase but for
  one step.
-/
theorem floatPower2_iff
    (x y : BitVec 32) :
    (IsPower2 x.toInt (floatPower2 x) ↔
      ¬ (-149 ≤ x.toInt ∧ x.toInt ≤ -127)) ∧
    (-149 ≤ x.toInt → x.toInt < y.toInt → y.toInt ≤ 128 →
      (floatPower2 x < floatPower2 y ↔
        ¬ (x.toInt = -127 ∧ y.toInt = -126))) := by
  refine ⟨?_, floatPower2_lt_iff⟩
  constructor
  · rintro hPower ⟨hLow, hHigh⟩
    exact not_isPower2_subnormal hLow hHigh hPower
  · intro hOutside
    by_cases hSmall : x.toInt < -149
    · exact isPower2_small hSmall
    · by_cases hLarge : 128 ≤ x.toInt
      · exact isPower2_large hLarge
      · exact isPower2_normal (by omega) (by omega)

theorem floatPower2_iff_one_two :
    IsPower2 1 (floatPower2 1) ∧
      floatPower2 1 < floatPower2 2 :=
  ⟨(floatPower2_iff 1 2).1.mpr (by decide),
    ((floatPower2_iff 1 2).2 (by decide) (by decide)
      (by decide)).mpr (by decide)⟩

/- The pattern of -127 is that of -126. -/
theorem floatPower2_repeats :
    ¬ IsPower2 (-127) (floatPower2 (-127)) ∧
      floatPower2 (-127) = floatPower2 (-126) :=
  ⟨@not_isPower2_subnormal (-127) (by decide) (by decide),
    by decide⟩

end CsappLabs.Datalab
