import CsappLabs.Lib.BinaryFloat

/-
  The bit patterns of single-precision numbers that the
  floating-point puzzles of `bits.c` take and return as
  `unsigned`.

  Key definitions include:
    * `single`
    * `number`
    * `signOf`
    * `expOf`
    * `fracOf`

  Key theorems include:
    * `toNat_signOf`
    * `toNat_expOf`
    * `toNat_fracOf`
    * `number_eq`
-/

------------------------------------------------------------
-- Single precision
------------------------------------------------------------

namespace CsappLabs.Datalab

open BinaryFloat

/- One sign bit, 8 exponent bits, 23 fraction bits. -/
def single : Format where
  fracBits := 23
  expBits := 8
  hExpBits := by decide

/- The number whose bit pattern is `uf`. -/
def number (uf : BitVec 32) : Datum single :=
  unpack single uf.toNat

theorem toNat_eq_pack (uf : BitVec 32) :
    uf.toNat = (number uf).pack :=
  (pack_unpack uf.isLt).symm

/- A word with the bit pattern of a datum is that datum. -/
theorem number_eq
    {uf : BitVec 32}
    {x : Datum single}
    (hPattern : uf.toNat = x.pack) :
    number uf = x := by
  unfold number
  rw [hPattern, unpack_pack]

theorem exp_lt (uf : BitVec 32) : (number uf).exp < 256 :=
  (number uf).hExp

theorem frac_lt (uf : BitVec 32) :
    (number uf).frac < 2 ^ 23 :=
  (number uf).hFrac

theorem isFinite_of_lt
    {uf : BitVec 32}
    (hExp : (number uf).exp < 255) :
    (number uf).IsFinite :=
  Nat.ne_of_lt hExp

------------------------------------------------------------
-- Taking a pattern apart
------------------------------------------------------------

/- `sign = uf>>31&0x01` -/
def signOf (uf : BitVec 32) : BitVec 32 :=
  (uf >>> 31) &&& 0x01

/- `exp = uf>>23&0xff` -/
def expOf (uf : BitVec 32) : BitVec 32 :=
  (uf >>> 23) &&& 0xff

/- `frac = uf ^ (sign<<31) ^ (exp<<23)` -/
def fracOf (uf : BitVec 32) : BitVec 32 :=
  uf ^^^ (signOf uf <<< 31) ^^^ (expOf uf <<< 23)

theorem toNat_signOf (uf : BitVec 32) :
    (signOf uf).toNat = (number uf).negative.toNat := by
  rw [← (number uf).field_sign, ← toNat_eq_pack]
  unfold signOf
  rw [BitVec.toNat_and, BitVec.toNat_ushiftRight,
    Nat.shiftRight_eq_div_pow]
  exact Nat.and_two_pow_sub_one_eq_mod _ 1

theorem toNat_expOf (uf : BitVec 32) :
    (expOf uf).toNat = (number uf).exp := by
  unfold expOf
  rw [BitVec.toNat_and, BitVec.toNat_ushiftRight,
    Nat.shiftRight_eq_div_pow]
  exact Nat.and_two_pow_sub_one_eq_mod _ 8

theorem toNat_signOf_shiftLeft (uf : BitVec 32) :
    (signOf uf <<< 31).toNat =
      2 ^ 31 * (number uf).negative.toNat := by
  have hSign := Bool.toNat_lt (number uf).negative
  rw [BitVec.toNat_shiftLeft, toNat_signOf,
    Nat.shiftLeft_eq, Nat.mul_comm]
  exact Nat.mod_eq_of_lt (by omega)

theorem toNat_expOf_shiftLeft (uf : BitVec 32) :
    (expOf uf <<< 23).toNat = 2 ^ 23 * (number uf).exp := by
  have hExp := exp_lt uf
  rw [BitVec.toNat_shiftLeft, toNat_expOf,
    Nat.shiftLeft_eq, Nat.mul_comm]
  exact Nat.mod_eq_of_lt (by omega)

/- Taking the sign and the exponent out leaves the fraction. -/
theorem toNat_fracOf (uf : BitVec 32) :
    (fracOf uf).toNat = (number uf).frac := by
  have hExp : 2 ^ 23 * (number uf).exp < 2 ^ 31 := by
    have hLt := exp_lt uf
    omega
  have hPack :
      uf.toNat =
        (number uf).frac ^^^
          (2 ^ 23 * (number uf).exp ^^^
            2 ^ 31 * (number uf).negative.toNat) := by
    rw [BitField.xor_two_pow_mul hExp]
    have hSplit :
        2 ^ 23 * (number uf).exp +
            2 ^ 31 * (number uf).negative.toNat =
          2 ^ 23 * ((number uf).exp +
            2 ^ 8 * (number uf).negative.toNat) := by
      omega
    rw [hSplit, BitField.xor_two_pow_mul (frac_lt uf)]
    exact toNat_eq_pack uf
  unfold fracOf
  rw [BitVec.toNat_xor, BitVec.toNat_xor,
    toNat_signOf_shiftLeft, toNat_expOf_shiftLeft]
  conv_lhs => rw [hPack]
  rw [Nat.xor_assoc, Nat.xor_assoc,
    Nat.xor_comm (2 ^ 31 * _) (2 ^ 23 * _), Nat.xor_self,
    Nat.xor_zero]

/- `!(exp^0xff)`: the pattern of an infinity or a NaN. -/
theorem expOf_special_iff (uf : BitVec 32) :
    expOf uf ^^^ 0xff = 0 ↔ ¬ (number uf).IsFinite := by
  have hEqual :
      expOf uf ^^^ 0xff = 0 ↔ (expOf uf).toNat = 255 :=
    BitVec.xor_eq_zero_iff.trans BitVec.toNat_inj.symm
  rw [hEqual, toNat_expOf]
  exact not_not.symm

theorem expOf_not_special
    {uf : BitVec 32}
    (hFinite : (number uf).IsFinite) :
    ¬ expOf uf ^^^ 0xff = 0 :=
  mt (expOf_special_iff uf).mp (not_not.mpr hFinite)

/- `!exp`: the pattern of a subnormal number or a zero. -/
theorem expOf_eq_zero_iff (uf : BitVec 32) :
    expOf uf = 0 ↔ (number uf).exp = 0 := by
  rw [← BitVec.toNat_inj, toNat_expOf]
  rfl

end CsappLabs.Datalab
