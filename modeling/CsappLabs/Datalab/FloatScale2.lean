import CsappLabs.Datalab.Single

/-
  `floatScale2` of `bits.c`, against doubling over exact
  rationals.

  The function adds one to the exponent field of a normal
  number. A number with the largest finite exponent should
  become an infinity, but keeps its fraction and becomes a
  NaN unless the fraction is zero.

  Key definitions include:
    * `floatScale2`
    * `Doubles`

  Key theorems include:
    * `number_floatScale2`
    * `floatScale2_doubles_iff`
-/

------------------------------------------------------------
-- The function
------------------------------------------------------------

namespace CsappLabs.Datalab

open BinaryFloat

/- `unsigned floatScale2(unsigned uf)` -/
def floatScale2 (uf : BitVec 32) : BitVec 32 :=
  let sign := signOf uf
  let exp := expOf uf
  let frac := fracOf uf
  if exp ^^^ 0xff = 0 then uf
  else if exp = 0 then (sign <<< 31) ||| (frac <<< 1)
  else (sign <<< 31) ||| ((exp + 1) <<< 23) ||| frac

------------------------------------------------------------
-- What doubling is
------------------------------------------------------------

/-
  The result of doubling a number: itself for a NaN or an
  infinity; otherwise, with the sign of the number, twice its
  value where that is the value of a finite number, and an
  infinity where it is not.
-/
structure Doubles (uf result : BitVec 32) : Prop where
  special :
    (number uf).IsNaN ∨ (number uf).IsInfinite →
      result = uf
  sign :
    (number uf).IsFinite →
      (number result).negative = (number uf).negative
  exact :
    (number uf).IsFinite →
    Representable single (2 * (number uf).value) →
      (number result).IsFinite ∧
        (number result).value = 2 * (number uf).value
  overflow :
    (number uf).IsFinite →
    ¬ Representable single (2 * (number uf).value) →
      (number result).IsInfinite

------------------------------------------------------------
-- The three returns
------------------------------------------------------------

variable {uf : BitVec 32}

theorem floatScale2_special
    (hSpecial : ¬ (number uf).IsFinite) :
    floatScale2 uf = uf :=
  if_pos ((expOf_special_iff uf).mpr hSpecial)

/- A fraction without hidden bit is shifted by one place. -/
theorem number_floatScale2_subnormal
    (hZero : (number uf).exp = 0) :
    number (floatScale2 uf) = (number uf).double := by
  have hFinite : (number uf).IsFinite :=
    isFinite_of_lt (by omega)
  have hFrac := frac_lt uf
  have hShift :
      (fracOf uf <<< 1).toNat = 2 * (number uf).frac := by
    rw [BitVec.toNat_shiftLeft, toNat_fracOf,
      Nat.shiftLeft_eq]
    omega
  have hResult :
      floatScale2 uf = (signOf uf <<< 31) ||| (fracOf uf <<< 1) := by
    unfold floatScale2
    simp only
    rw [if_neg (expOf_not_special hFinite),
      if_pos ((expOf_eq_zero_iff uf).mpr hZero)]
  apply number_eq
  unfold Datum.double
  rw [dif_neg hFinite, if_pos hZero, hResult,
    BitVec.toNat_or, toNat_signOf_shiftLeft, hShift,
    ← Nat.two_pow_add_eq_or_of_lt (by omega)]
  show _ =
    2 * (number uf).frac % 2 ^ 23 +
      2 ^ 23 * (2 * (number uf).frac / 2 ^ 23 +
        2 ^ 8 * (number uf).negative.toNat)
  omega

/- Otherwise one is added to the exponent field. -/
theorem toNat_floatScale2_normal
    (hFinite : (number uf).IsFinite)
    (hNormal : (number uf).exp ≠ 0) :
    (floatScale2 uf).toNat =
      (number uf).frac + 2 ^ 23 *
        ((number uf).exp + 1 +
          2 ^ 8 * (number uf).negative.toNat) := by
  have hExp := exp_lt uf
  have hNotTop : (number uf).exp ≠ 255 := hFinite
  have hFrac := frac_lt uf
  have hShift :
      ((expOf uf + 1) <<< 23).toNat =
        2 ^ 23 * ((number uf).exp + 1) := by
    rw [BitVec.toNat_shiftLeft, BitVec.toNat_add,
      toNat_expOf, Nat.shiftLeft_eq]
    show ((number uf).exp + 1) % 2 ^ 32 * 2 ^ 23 % 2 ^ 32 = _
    omega
  have hResult :
      floatScale2 uf =
        (signOf uf <<< 31) ||| ((expOf uf + 1) <<< 23) |||
          fracOf uf := by
    unfold floatScale2
    simp only
    rw [if_neg (expOf_not_special hFinite),
      if_neg (mt (expOf_eq_zero_iff uf).mp hNormal)]
  have hSplit :
      2 ^ 31 * (number uf).negative.toNat +
          2 ^ 23 * ((number uf).exp + 1) =
        2 ^ 23 * ((number uf).exp + 1 +
          2 ^ 8 * (number uf).negative.toNat) := by
    omega
  rw [hResult, BitVec.toNat_or, BitVec.toNat_or,
    toNat_signOf_shiftLeft, hShift, toNat_fracOf,
    ← Nat.two_pow_add_eq_or_of_lt (by omega), hSplit,
    ← Nat.two_pow_add_eq_or_of_lt hFrac, Nat.add_comm]

------------------------------------------------------------
-- Doubling
------------------------------------------------------------

/- The number should become an infinity but keeps its fraction. -/
def LosesInfinity (x : Datum single) : Prop :=
  x.exp = 254 ∧ x.frac ≠ 0

/- Everywhere else the function computes the doubled number. -/
theorem number_floatScale2
    (hKept : ¬ LosesInfinity (number uf)) :
    number (floatScale2 uf) = (number uf).double := by
  by_cases hSpecial : (number uf).exp = single.top
  · rw [floatScale2_special (not_not.mpr hSpecial)]
    unfold Datum.double
    rw [dif_pos hSpecial]
  · by_cases hZero : (number uf).exp = 0
    · exact number_floatScale2_subnormal hZero
    · apply number_eq
      rw [toNat_floatScale2_normal hSpecial hZero]
      unfold Datum.double
      rw [dif_neg hSpecial, if_neg hZero]
      by_cases hLast : (number uf).exp + 1 = single.top
      · rw [dif_pos hLast]
        have hFrac : (number uf).frac = 0 := by
          by_contra hFrac
          exact hKept ⟨Nat.succ.inj hLast, hFrac⟩
        rw [hFrac, hLast]
        rfl
      · rw [dif_neg hLast]
        rfl

/- There the result is a NaN. -/
theorem isNaN_floatScale2
    (hLoses : LosesInfinity (number uf)) :
    (number (floatScale2 uf)).IsNaN := by
  rcases hLoses with ⟨hLast, hFrac⟩
  have hFinite : (number uf).IsFinite :=
    isFinite_of_lt (by omega)
  have hNumber :
      number (floatScale2 uf) =
        ⟨(number uf).negative, 255, (number uf).frac,
          by decide, (number uf).hFrac⟩ := by
    apply number_eq
    rw [toNat_floatScale2_normal hFinite (by omega), hLast]
    rfl
  rw [hNumber]
  exact ⟨rfl, hFrac⟩

/- The doubled number is what doubling asks for. -/
theorem doubles_of_double
    {result : BitVec 32}
    (hSpecial : ¬ (number uf).IsFinite → result = uf)
    (hDouble : number result = (number uf).double) :
    Doubles uf result where
  special := fun hEither =>
    hSpecial (Datum.not_isFinite_iff.mpr hEither)
  sign := by
    intro _
    rw [hDouble, Datum.negative_double]
  exact := by
    intro hFinite hRepresentable
    have hNext : (number uf).exp + 1 ≠ single.top := by
      intro hLast
      exact Datum.not_representable_double hLast hRepresentable
    rw [hDouble]
    exact
      ⟨Datum.double_isFinite hFinite hNext,
        Datum.value_double hFinite hNext⟩
  overflow := by
    intro hFinite hLarge
    have hLast : (number uf).exp + 1 = single.top := by
      by_contra hNext
      exact hLarge
        ⟨_, Datum.double_isFinite hFinite hNext,
          Datum.value_double hFinite hNext⟩
    rw [hDouble]
    exact Datum.isInfinite_double hLast

/-
  The function doubles exactly the patterns that do not have
  the exponent field 254 with a fraction.
-/
theorem floatScale2_doubles_iff (uf : BitVec 32) :
    Doubles uf (floatScale2 uf) ↔
      ¬ ((number uf).exp = 254 ∧ (number uf).frac ≠ 0) := by
  constructor
  · intro hDoubles hLoses
    have hLast : (number uf).exp + 1 = single.top := by
      rw [hLoses.1]
      rfl
    have hFinite : (number uf).IsFinite :=
      isFinite_of_lt (by omega)
    have hInfinite :=
      hDoubles.overflow hFinite
        (Datum.not_representable_double hLast)
    exact (isNaN_floatScale2 hLoses).2 hInfinite.2
  · intro hKept
    exact
      doubles_of_double floatScale2_special
        (number_floatScale2 hKept)

/- The largest finite number doubles to a NaN. -/
theorem floatScale2_largest_is_nan :
    ¬ Doubles 0x7F7FFFFF (floatScale2 0x7F7FFFFF) := by
  intro hDoubles
  have hInfinite :=
    hDoubles.overflow (by decide)
      (Datum.not_representable_double (by decide))
  exact absurd hInfinite.2 (by decide)

end CsappLabs.Datalab
