import CsappLabs.Lib.BitField
import Mathlib.Data.Rat.Floor
import Mathlib.Tactic.Linarith
import Mathlib.Tactic.NormNum

/-
  Binary floating-point formats, read over exact rationals.

  A datum of a format is a sign, an exponent field and a
  fraction field, each within its width. Its bit pattern has
  the fraction lowest and the sign highest. The largest
  exponent is kept for infinities and NaNs, and the smallest
  one for the subnormal numbers, which have no hidden bit.

  Key definitions include:
    * `BinaryFloat.Format`
    * `BinaryFloat.Datum`
    * `BinaryFloat.Datum.pack`
    * `BinaryFloat.unpack`
    * `BinaryFloat.Datum.value`
    * `BinaryFloat.Representable`
    * `BinaryFloat.truncate`

  Key theorems include:
    * `BinaryFloat.unpack_pack`
    * `BinaryFloat.Datum.magnitude_lt`
    * `BinaryFloat.Datum.le_magnitude`
    * `BinaryFloat.Datum.not_representable_double`
    * `BinaryFloat.Datum.truncate_value`
-/

------------------------------------------------------------
-- Formats and data
------------------------------------------------------------

namespace BinaryFloat

/- The widths of the fraction and of the exponent. -/
structure Format where
  fracBits : Nat
  expBits : Nat
  hExpBits : 2 ≤ expBits

namespace Format

/- The exponent field of infinities and NaNs. -/
def top (format : Format) : Nat :=
  2 ^ format.expBits - 1

/- The exponent field of the numbers from one to two. -/
def bias (format : Format) : Nat :=
  2 ^ (format.expBits - 1) - 1

theorem two_lt_top (format : Format) : 2 < format.top := by
  have hPow : 2 ^ 2 ≤ 2 ^ format.expBits :=
    Nat.pow_le_pow_right (by decide) format.hExpBits
  unfold top
  omega

theorem le_top_iff
    {format : Format}
    {exp : Nat} :
    exp ≤ format.top ↔ exp < 2 ^ format.expBits := by
  have hPos := Nat.two_pow_pos format.expBits
  unfold top
  omega

end Format

/- A sign, an exponent field and a fraction field. -/
@[ext]
structure Datum (format : Format) where
  negative : Bool
  exp : Nat
  frac : Nat
  hExp : exp < 2 ^ format.expBits
  hFrac : frac < 2 ^ format.fracBits
  deriving DecidableEq

variable {format : Format}

------------------------------------------------------------
-- Bit patterns
------------------------------------------------------------

/- The datum that a bit pattern stands for. -/
def unpack
    (format : Format)
    (pattern : Nat) : Datum format where
  negative :=
    decide (BitField.field pattern
      (format.fracBits + format.expBits) 1 = 1)
  exp :=
    BitField.field pattern format.fracBits format.expBits
  frac := BitField.field pattern 0 format.fracBits
  hExp := BitField.field_lt
  hFrac := BitField.field_lt

namespace Datum

/- The bit pattern of a datum. -/
def pack (x : Datum format) : Nat :=
  x.frac + 2 ^ format.fracBits *
    (x.exp + 2 ^ format.expBits * x.negative.toNat)

end Datum

/- The sign bit is the highest one of the pattern. -/
theorem Datum.field_sign (x : Datum format) :
    BitField.field x.pack
        (format.fracBits + format.expBits) 1 =
      x.negative.toNat := by
  unfold Datum.pack
  rw [BitField.field_add_mul_of_lt x.hFrac,
    BitField.field_add_mul x.hExp]
  cases x.negative with
  | false => rfl
  | true => rfl

/- Reading the pattern of a datum gives the datum back. -/
theorem unpack_pack (x : Datum format) :
    unpack format x.pack = x := by
  apply Datum.ext
  · show decide (BitField.field x.pack _ 1 = 1) = x.negative
    rw [x.field_sign]
    cases x.negative with
    | false => rfl
    | true => rfl
  · show BitField.field x.pack _ _ = x.exp
    unfold Datum.pack
    rw [BitField.field_add_mul x.hFrac,
      BitField.field_zero_add_mul x.hExp]
  · exact BitField.field_zero_add_mul x.hFrac

/- A pattern of the format is the pattern of its datum. -/
theorem pack_unpack
    {pattern : Nat}
    (hPattern :
      pattern < 2 ^ (format.fracBits + format.expBits + 1)) :
    (unpack format pattern).pack = pattern := by
  have hSign :
      (unpack format pattern).negative.toNat =
        BitField.field pattern
          (format.fracBits + format.expBits) 1 := by
    have hLt :=
      @BitField.field_lt pattern
        (format.fracBits + format.expBits) 1
    show (decide (BitField.field pattern _ 1 = 1)).toNat = _
    by_cases hOne :
        BitField.field pattern
          (format.fracBits + format.expBits) 1 = 1
    · rw [hOne]
      rfl
    · rw [decide_eq_false hOne]
      show 0 = _
      omega
  have hWhole :
      BitField.field pattern 0
        (format.fracBits + (format.expBits + 1)) = pattern := by
    unfold BitField.field
    rw [Nat.pow_zero, Nat.div_one]
    exact Nat.mod_eq_of_lt (by rwa [← Nat.add_assoc])
  unfold Datum.pack
  rw [hSign]
  conv_rhs => rw [← hWhole]
  rw [BitField.field_add, BitField.field_add,
    Nat.zero_add]
  rfl

------------------------------------------------------------
-- Values
------------------------------------------------------------

/- Two to the power `exponent`. -/
def power (exponent : Int) : Rat :=
  2 ^ exponent

theorem power_pos {exponent : Int} : 0 < power exponent :=
  zpow_pos (by norm_num) exponent

theorem power_add {m n : Int} :
    power (m + n) = power m * power n :=
  zpow_add₀ (by norm_num) m n

theorem power_succ {m : Int} :
    power (m + 1) = 2 * power m := by
  rw [power_add, mul_comm]
  rfl

theorem power_natCast {n : Nat} :
    power n = (2 ^ n : Nat) := by
  unfold power
  rw [zpow_natCast, Nat.cast_pow, Nat.cast_ofNat]

theorem power_lt_power
    {m n : Int}
    (hLt : m < n) :
    power m < power n :=
  zpow_lt_zpow_right₀ (by norm_num) hLt

theorem power_le_power
    {m n : Int}
    (hLe : m ≤ n) :
    power m ≤ power n :=
  zpow_le_zpow_right₀ (by norm_num) hLe

namespace Datum

/- The number is neither an infinity nor a NaN. -/
def IsFinite (x : Datum format) : Prop :=
  x.exp ≠ format.top

def IsInfinite (x : Datum format) : Prop :=
  x.exp = format.top ∧ x.frac = 0

def IsNaN (x : Datum format) : Prop :=
  x.exp = format.top ∧ x.frac ≠ 0

instance (x : Datum format) : Decidable x.IsFinite :=
  inferInstanceAs (Decidable (_ ≠ _))

instance (x : Datum format) : Decidable x.IsInfinite :=
  inferInstanceAs (Decidable (_ ∧ _))

instance (x : Datum format) : Decidable x.IsNaN :=
  inferInstanceAs (Decidable (_ ∧ _))

/- The fraction, with the hidden bit of a normal number. -/
def significand (x : Datum format) : Nat :=
  if x.exp = 0 then x.frac
  else 2 ^ format.fracBits + x.frac

/- The exponent of the last place of the significand. -/
def scale (x : Datum format) : Int :=
  max x.exp 1 - format.bias - format.fracBits

/- The value without its sign. -/
def magnitude (x : Datum format) : Rat :=
  x.significand * power x.scale

/- The value of a finite number. -/
def value (x : Datum format) : Rat :=
  if x.negative then -x.magnitude else x.magnitude

end Datum

/- The rational is the value of a finite number. -/
def Representable (format : Format) (v : Rat) : Prop :=
  ∃ x : Datum format, x.IsFinite ∧ x.value = v

namespace Datum

variable {x : Datum format}

/- What is not finite is a NaN or an infinity. -/
theorem not_isFinite_iff :
    ¬ x.IsFinite ↔ x.IsNaN ∨ x.IsInfinite := by
  constructor
  · intro hSpecial
    have hTop := not_not.mp hSpecial
    by_cases hZero : x.frac = 0
    · exact Or.inr ⟨hTop, hZero⟩
    · exact Or.inl ⟨hTop, hZero⟩
  · rintro (hNaN | hInfinite)
    · exact not_not.mpr hNaN.1
    · exact not_not.mpr hInfinite.1

theorem magnitude_nonneg : 0 ≤ x.magnitude :=
  mul_nonneg (Nat.cast_nonneg _) (le_of_lt power_pos)

theorem abs_value : |x.value| = x.magnitude := by
  unfold value
  split
  · rw [abs_neg, abs_of_nonneg magnitude_nonneg]
  · rw [abs_of_nonneg magnitude_nonneg]

theorem significand_lt :
    x.significand < 2 ^ (format.fracBits + 1) := by
  have hFrac := x.hFrac
  unfold significand
  rw [Nat.pow_succ]
  split
  · omega
  · omega

/- A number is below the next power after its exponent. -/
theorem magnitude_lt :
    x.magnitude < power (max x.exp 1 - format.bias + 1) := by
  have hSignificand :
      (x.significand : Rat) <
        power (format.fracBits + 1 : Nat) := by
    rw [power_natCast]
    exact_mod_cast significand_lt
  calc x.magnitude
      < power (format.fracBits + 1 : Nat) * power x.scale :=
        mul_lt_mul_of_pos_right hSignificand power_pos
    _ = power (max x.exp 1 - format.bias + 1) := by
        rw [← power_add]
        unfold scale
        congr 1
        omega

/- A normal number is at least the power of its exponent. -/
theorem le_magnitude (hNormal : x.exp ≠ 0) :
    power (x.exp - format.bias) ≤ x.magnitude := by
  have hSignificand :
      power format.fracBits ≤ (x.significand : Rat) := by
    rw [power_natCast]
    unfold significand
    rw [if_neg hNormal]
    exact_mod_cast Nat.le_add_right _ _
  calc power (x.exp - format.bias)
      = power format.fracBits * power x.scale := by
        rw [← power_add]
        unfold scale
        congr 1
        omega
    _ ≤ x.magnitude :=
        mul_le_mul_of_nonneg_right hSignificand
          (le_of_lt power_pos)

end Datum

/- Below every positive value of a finite number. -/
def TooSmall (format : Format) (v : Rat) : Prop :=
  ∀ x : Datum format, x.IsFinite → 0 < x.value → v < x.value

/- Above every value of a finite number. -/
def TooLarge (format : Format) (v : Rat) : Prop :=
  ∀ x : Datum format, x.IsFinite → x.value < v

theorem Representable.not_tooSmall
    {v : Rat}
    (hValue : Representable format v)
    (hPos : 0 < v) :
    ¬ TooSmall format v := by
  rintro hSmall
  rcases hValue with ⟨x, hFinite, rfl⟩
  exact lt_irrefl _ (hSmall x hFinite hPos)

theorem Representable.not_tooLarge
    {v : Rat}
    (hValue : Representable format v) :
    ¬ TooLarge format v := by
  rintro hLarge
  rcases hValue with ⟨x, hFinite, rfl⟩
  exact lt_irrefl _ (hLarge x hFinite)

------------------------------------------------------------
-- Powers of Two
------------------------------------------------------------

namespace Datum

variable {x : Datum format}

theorem value_le_magnitude : x.value ≤ x.magnitude := by
  rw [← abs_value]
  exact le_abs_self _

theorem magnitude_eq_of_pos (hPos : 0 < x.value) :
    x.magnitude = x.value := by
  rw [← abs_value, abs_of_pos hPos]

/- Every positive value is at least one unit. -/
theorem unit_le_value (hPos : 0 < x.value) :
    power (1 - format.bias - format.fracBits) ≤ x.value := by
  have hEqual := magnitude_eq_of_pos hPos
  rw [← hEqual] at hPos ⊢
  have hSignificand : 1 ≤ x.significand := by
    by_contra hZero
    have hNone : x.significand = 0 := by omega
    unfold magnitude at hPos
    rw [hNone, Nat.cast_zero, zero_mul] at hPos
    exact lt_irrefl _ hPos
  calc power (1 - format.bias - format.fracBits)
      ≤ power x.scale := by
        apply power_le_power
        unfold scale
        omega
    _ = 1 * power x.scale := (one_mul _).symm
    _ ≤ x.magnitude :=
        mul_le_mul_of_nonneg_right
          (by exact_mod_cast hSignificand)
          (le_of_lt power_pos)

/- Every finite value is below the power of the infinities. -/
theorem value_lt (hFinite : x.IsFinite) :
    x.value < power (format.top - format.bias) := by
  have hTop := format.two_lt_top
  have hExp := Format.le_top_iff.mpr x.hExp
  have hLess : x.exp + 1 ≤ format.top := by
    unfold IsFinite at hFinite
    omega
  calc x.value
      ≤ x.magnitude := value_le_magnitude
    _ < power (max x.exp 1 - format.bias + 1) := magnitude_lt
    _ ≤ power (format.top - format.bias) :=
        power_le_power (by omega)

/- A normal number without fraction is a power of two. -/
theorem magnitude_power
    (hNormal : x.exp ≠ 0)
    (hFrac : x.frac = 0) :
    x.magnitude = power (x.exp - format.bias) := by
  unfold magnitude significand
  rw [if_neg hNormal, hFrac, Nat.add_zero, ← power_natCast,
    ← power_add]
  unfold scale
  congr 1
  omega

end Datum

theorem tooSmall_power
    {exponent : Int}
    (hSmall : exponent < 1 - format.bias - format.fracBits) :
    TooSmall format (power exponent) := by
  intro x _ hPos
  calc power exponent
      < power (1 - format.bias - format.fracBits) :=
        power_lt_power hSmall
    _ ≤ x.value := Datum.unit_le_value hPos

theorem tooLarge_power
    {exponent : Int}
    (hLarge : format.top - format.bias ≤ exponent) :
    TooLarge format (power exponent) := by
  intro x hFinite
  calc x.value
      < power (format.top - format.bias) :=
        Datum.value_lt hFinite
    _ ≤ power exponent := power_le_power hLarge

------------------------------------------------------------
-- Doubling
------------------------------------------------------------

namespace Datum

variable {x : Datum format}

/- The infinity of a sign. -/
def infinity (negative : Bool) : Datum format where
  negative := negative
  exp := format.top
  frac := 0
  hExp := Format.le_top_iff.mp (Nat.le_refl _)
  hFrac := Nat.two_pow_pos _

/- The subnormal or smallest normal number of some units. -/
def ofUnits
    (negative : Bool)
    (units : Nat)
    (hUnits : units < 2 ^ format.fracBits * 2) :
    Datum format where
  negative := negative
  exp := units / 2 ^ format.fracBits
  frac := units % 2 ^ format.fracBits
  hExp := by
    have hTop := format.two_lt_top
    have hQuotient := Nat.div_lt_of_lt_mul hUnits
    exact Format.le_top_iff.mp (by omega)
  hFrac := Nat.mod_lt _ (Nat.two_pow_pos _)

/- The doubled number: what does not fit is an infinity. -/
def double (x : Datum format) : Datum format :=
  if hSpecial : x.exp = format.top then x
  else if x.exp = 0 then
    ofUnits x.negative (2 * x.frac) (by
      have hFrac := x.hFrac
      omega)
  else if hLast : x.exp + 1 = format.top then
    infinity x.negative
  else
    { x with
      exp := x.exp + 1
      hExp := by
        have hExp := Format.le_top_iff.mpr x.hExp
        exact Format.le_top_iff.mp (by omega) }

theorem magnitude_ofUnits
    {negative : Bool}
    {units : Nat}
    (hUnits : units < 2 ^ format.fracBits * 2) :
    (@ofUnits format negative units hUnits).magnitude =
      units * power (1 - format.bias - format.fracBits) := by
  have hQuotient := Nat.div_lt_of_lt_mul hUnits
  have hDivMod := Nat.div_add_mod units (2 ^ format.fracBits)
  unfold magnitude significand scale ofUnits
  simp only
  by_cases hZero : units / 2 ^ format.fracBits = 0
  · rw [if_pos hZero, hZero]
    rw [hZero, Nat.mul_zero, Nat.zero_add] at hDivMod
    rw [hDivMod]
    rfl
  · have hOne : units / 2 ^ format.fracBits = 1 :=
      Nat.le_antisymm (Nat.lt_succ_iff.mp hQuotient)
        (Nat.pos_of_ne_zero hZero)
    rw [if_neg hZero, hOne]
    rw [hOne, Nat.mul_one] at hDivMod
    rw [hDivMod]
    rfl

theorem ofUnits_isFinite
    {negative : Bool}
    {units : Nat}
    (hUnits : units < 2 ^ format.fracBits * 2) :
    (@ofUnits format negative units hUnits).IsFinite := by
  have hTop := format.two_lt_top
  have hQuotient := Nat.div_lt_of_lt_mul hUnits
  show units / 2 ^ format.fracBits ≠ format.top
  omega

/- Below the last exponent the magnitude is doubled. -/
theorem magnitude_double
    (hFinite : x.IsFinite)
    (hNext : x.exp + 1 ≠ format.top) :
    x.double.magnitude = 2 * x.magnitude := by
  unfold double
  rw [dif_neg hFinite]
  by_cases hZero : x.exp = 0
  · rw [if_pos hZero, magnitude_ofUnits]
    unfold magnitude significand scale
    rw [if_pos hZero, hZero, Nat.cast_mul, mul_assoc]
    rfl
  · rw [if_neg hZero, dif_neg hNext]
    unfold magnitude significand scale
    simp only
    rw [if_neg hZero, if_neg (Nat.succ_ne_zero _)]
    have hScale :
        (max (x.exp + 1) 1 : Nat) - (format.bias : Int) -
            format.fracBits =
          (max x.exp 1 : Nat) - (format.bias : Int) -
            format.fracBits + 1 := by
      omega
    rw [hScale, power_succ]
    ring

theorem double_isFinite
    (hFinite : x.IsFinite)
    (hNext : x.exp + 1 ≠ format.top) :
    x.double.IsFinite := by
  unfold double
  rw [dif_neg hFinite]
  by_cases hZero : x.exp = 0
  · rw [if_pos hZero]
    exact ofUnits_isFinite _
  · rw [if_neg hZero, dif_neg hNext]
    exact hNext

/- A number with the last exponent becomes an infinity. -/
theorem isInfinite_double
    (hLast : x.exp + 1 = format.top) :
    x.double.IsInfinite := by
  have hTop := format.two_lt_top
  unfold double
  rw [dif_neg (by omega), if_neg (by omega), dif_pos hLast]
  exact ⟨rfl, rfl⟩

@[simp] theorem negative_double :
    x.double.negative = x.negative := by
  unfold double
  split
  · rfl
  · split
    · rfl
    · split
      · rfl
      · rfl

/- Below the last exponent doubling is exact. -/
theorem value_double
    (hFinite : x.IsFinite)
    (hNext : x.exp + 1 ≠ format.top) :
    x.double.value = 2 * x.value := by
  unfold value
  rw [negative_double, magnitude_double hFinite hNext]
  split
  · rw [mul_neg]
  · rfl

/- Twice a number with the last exponent is out of range. -/
theorem not_representable_double
    (hLast : x.exp + 1 = format.top) :
    ¬ Representable format (2 * x.value) := by
  rintro ⟨y, hFinite, hValue⟩
  have hTop := format.two_lt_top
  have hExp := Format.le_top_iff.mpr y.hExp
  have hY : y.exp + 1 ≤ format.top := by
    unfold IsFinite at hFinite
    omega
  have hMagnitude : y.magnitude = 2 * x.magnitude := by
    rw [← abs_value, ← abs_value, hValue, abs_mul]
    norm_num
  have hLower : power (x.exp - format.bias) ≤ x.magnitude :=
    le_magnitude (by omega)
  have hUpper :
      y.magnitude < power (x.exp - format.bias + 1) :=
    calc y.magnitude
        < power (max y.exp 1 - format.bias + 1) :=
          magnitude_lt
      _ ≤ power (x.exp - format.bias + 1) :=
          power_le_power (by omega)
  rw [power_succ] at hUpper
  linarith

end Datum

------------------------------------------------------------
-- Truncation
------------------------------------------------------------

/- A rational rounded toward zero. -/
def truncate (v : Rat) : Int :=
  if v < 0 then ⌈v⌉ else ⌊v⌋

theorem truncate_of_nonneg
    {v : Rat}
    (hNonneg : 0 ≤ v) :
    truncate v = ⌊v⌋ :=
  if_neg (not_lt.mpr hNonneg)

theorem truncate_neg
    {v : Rat}
    (hNonneg : 0 ≤ v) :
    truncate (-v) = -⌊v⌋ := by
  unfold truncate
  by_cases hZero : v = 0
  · rw [hZero]
    simp
  · have hPos := lt_of_le_of_ne hNonneg (Ne.symm hZero)
    rw [if_pos (neg_lt_zero.mpr hPos), Int.ceil_neg]

namespace Datum

variable {x : Datum format}

/- The magnitude without what is behind the binary point. -/
def integerPart (x : Datum format) : Nat :=
  if 0 ≤ x.scale then x.significand * 2 ^ x.scale.toNat
  else x.significand / 2 ^ (-x.scale).toNat

theorem floor_magnitude :
    ⌊x.magnitude⌋ = x.integerPart := by
  unfold integerPart magnitude
  split
  case isTrue hLeft =>
    have hScale : x.scale = (x.scale.toNat : Int) :=
      (Int.toNat_of_nonneg hLeft).symm
    conv_lhs => rw [hScale, power_natCast, ← Nat.cast_mul]
    exact Int.floor_natCast _
  case isFalse hRight =>
    have hScale : x.scale = -((-x.scale).toNat : Int) := by
      omega
    have hPower :
        power x.scale =
          ((2 ^ (-x.scale).toNat : Nat) : Rat)⁻¹ := by
      conv_lhs => rw [hScale]
      rw [← power_natCast]
      exact zpow_neg _ _
    rw [hPower, ← div_eq_mul_inv,
      Rat.floor_natCast_div_natCast, Int.natCast_div]

/- A number with an exponent below the bias is below one. -/
theorem integerPart_of_lt_bias
    (hSmall : max x.exp 1 < format.bias) :
    x.integerPart = 0 := by
  have hOne : x.magnitude < 1 :=
    calc x.magnitude
        < power (max x.exp 1 - format.bias + 1) :=
          magnitude_lt
      _ ≤ power 0 := power_le_power (by omega)
      _ = 1 := zpow_zero 2
  have hFloor := @floor_magnitude format x
  rw [Int.floor_eq_zero_iff.mpr ⟨magnitude_nonneg, hOne⟩]
    at hFloor
  exact_mod_cast hFloor.symm

/- The exponent above the bias bounds the integer from below. -/
theorem le_integerPart
    {above : Nat}
    (hNormal : x.exp ≠ 0)
    (hExp : format.bias + above ≤ x.exp) :
    2 ^ above ≤ x.integerPart := by
  have hMagnitude : ((2 ^ above : Nat) : Rat) ≤ x.magnitude :=
    calc ((2 ^ above : Nat) : Rat)
        = power above := power_natCast.symm
      _ ≤ power (x.exp - format.bias) :=
          power_le_power (by omega)
      _ ≤ x.magnitude := le_magnitude hNormal
  have hFloor :
      ((2 ^ above : Nat) : Int) ≤ ⌊x.magnitude⌋ :=
    Int.le_floor.mpr (by exact_mod_cast hMagnitude)
  rw [floor_magnitude] at hFloor
  exact_mod_cast hFloor

/- The last places are behind the binary point. -/
theorem integerPart_right
    {places : Nat}
    (hNormal : x.exp ≠ 0)
    (hPlaces :
      x.exp + places = format.bias + format.fracBits) :
    x.integerPart =
      (2 ^ format.fracBits + x.frac) / 2 ^ places := by
  have hScale : x.scale = -(places : Int) := by
    unfold scale
    omega
  unfold integerPart significand
  rw [hScale, if_neg hNormal]
  by_cases hZero : places = 0
  · rw [hZero, Nat.pow_zero, Nat.div_one]
    exact Nat.mul_one _
  · rw [if_neg (by omega), neg_neg, Int.toNat_natCast]

/- The last place is before the binary point. -/
theorem integerPart_left
    {places : Nat}
    (hNormal : x.exp ≠ 0)
    (hPlaces :
      x.exp = format.bias + format.fracBits + places) :
    x.integerPart =
      (2 ^ format.fracBits + x.frac) * 2 ^ places := by
  have hScale : x.scale = (places : Int) := by
    unfold scale
    omega
  unfold integerPart significand
  rw [hScale, if_neg hNormal, if_pos (by omega),
    Int.toNat_natCast]

theorem truncate_value :
    truncate x.value =
      if x.negative then -(x.integerPart : Int)
      else x.integerPart := by
  unfold value
  split
  · rw [truncate_neg magnitude_nonneg, floor_magnitude]
  · rw [truncate_of_nonneg magnitude_nonneg, floor_magnitude]

end Datum

end BinaryFloat
