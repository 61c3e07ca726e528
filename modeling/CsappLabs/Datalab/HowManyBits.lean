import CsappLabs.Lib.BitWidth

/-
  `howManyBits` of `bits.c` and the function of `tests.c`
  that it is tested against.

  The function searches for the highest bit in five steps.
  What a step adds to the result is what it shifts off the
  number, so the result and the bits of the number together
  stay the same.

  Key definitions include:
    * `howManyBits`
    * `testHowManyBits`

  Key theorems include:
    * `searchStep_spec`
    * `countBits_spec`
    * `howManyBits_isLeast`
-/

------------------------------------------------------------
-- The functions
------------------------------------------------------------

namespace CsappLabs.Datalab

open BitWidth

/- `!!x` -/
def isNonzero (x : BitVec 32) : BitVec 32 :=
  if x = 0 then 0 else 1

/- The result so far and what is left of the number. -/
structure Search where
  res : BitVec 32
  x : BitVec 32

/-
  `bit = !!(x >> places) << log; res = res + bit; x = x >> bit`
-/
def searchStep
    (places log : Nat)
    (s : Search) : Search :=
  let bit := isNonzero (s.x.sshiftRight places) <<< log
  { res := s.res + bit
    x := s.x.sshiftRight bit.toNat }

/- `int howManyBits(int x)` -/
def howManyBits (x : BitVec 32) : BitVec 32 :=
  let s : Search :=
    { res := 1
      x := x ^^^ x.sshiftRight 31 }
  let s := searchStep 16 4 s
  let s := searchStep 8 3 s
  let s := searchStep 4 2 s
  let s := searchStep 2 1 s
  let s := searchStep 1 0 s
  s.x + s.res

/- `for (cnt=0; a; a>>=1, cnt++)` -/
def countBits (a cnt : BitVec 32) : BitVec 32 :=
  if a = 0 then cnt
  else countBits (a >>> 1) (cnt + 1)
termination_by a.toNat
decreasing_by
  rename_i hNonzero
  have hPos : a.toNat ≠ 0 :=
    fun hZero => hNonzero (BitVec.eq_of_toNat_eq hZero)
  rw [BitVec.toNat_ushiftRight, Nat.shiftRight_eq_div_pow]
  omega

/- `int test_howManyBits(int x)` -/
def testHowManyBits (x : BitVec 32) : BitVec 32 :=
  let x := if x.toInt < 0 then -x - 1 else x
  countBits x 0 + 1

------------------------------------------------------------
-- The number without its sign
------------------------------------------------------------

variable {x : BitVec 32}

theorem toNat_complement :
    (if x.toInt < 0 then -x - 1 else x).toNat =
      complemented x.toInt := by
  have hLt := x.isLt
  have hInt := BitVec.toInt_eq_toNat_cond x
  unfold complemented
  by_cases hNegative : x.toInt < 0
  · rw [if_pos hNegative, if_pos hNegative, BitVec.toNat_sub,
      BitVec.toNat_neg]
    show (2 ^ 32 - 1 + (2 ^ 32 - x.toNat) % 2 ^ 32) % 2 ^ 32 = _
    split at hInt
    · omega
    · omega
  · rw [if_neg hNegative, if_neg hNegative]
    split at hInt
    · omega
    · omega

/- `x ^ (x >> 31)` is the complement of a negative number. -/
theorem xor_sign (x : BitVec 32) :
    x ^^^ x.sshiftRight 31 =
      if x.toInt < 0 then -x - 1 else x := by
  have hLt := x.isLt
  have hSign := @BitVec.toInt_neg_iff 32 x
  by_cases hNegative : x.toInt < 0
  · have hMsb : x.msb = true :=
      BitVec.msb_eq_true_iff_two_mul_ge.mpr
        (hSign.mp hNegative)
    have hShifted : (~~~x) >>> 31 = 0#32 := by
      apply BitVec.eq_of_toNat_eq
      rw [BitVec.toNat_ushiftRight, BitVec.toNat_not,
        Nat.shiftRight_eq_div_pow]
      show _ = 0
      omega
    have hComplement : -x - 1 = ~~~x := by
      apply BitVec.eq_of_toNat_eq
      rw [BitVec.toNat_sub, BitVec.toNat_neg,
        BitVec.toNat_not]
      show (2 ^ 32 - 1 + (2 ^ 32 - x.toNat) % 2 ^ 32) %
        2 ^ 32 = _
      omega
    rw [if_pos hNegative, hComplement,
      BitVec.sshiftRight_eq_of_msb_true hMsb, hShifted,
      BitVec.not_zero, BitVec.xor_allOnes]
  · have hMsb : x.msb = false := by
      rw [BitVec.msb_eq_false_iff_two_mul_lt]
      omega
    have hShifted : x >>> 31 = 0#32 := by
      apply BitVec.eq_of_toNat_eq
      rw [BitVec.toNat_ushiftRight, Nat.shiftRight_eq_div_pow]
      show _ = 0
      omega
    rw [if_neg hNegative,
      BitVec.sshiftRight_eq_of_msb_false hMsb, hShifted,
      BitVec.xor_zero]

theorem complemented_lt (x : BitVec 32) :
    complemented x.toInt < 2 ^ 31 := by
  have hLower := BitVec.le_toInt x
  have hUpper := @BitVec.toInt_lt 32 x
  unfold complemented
  split
  · omega
  · omega

------------------------------------------------------------
-- The binary search
------------------------------------------------------------

/- What has been counted and what is still to be counted. -/
def Search.bits (s : Search) : Nat :=
  s.res.toNat + s.x.toNat.size

/- A step halves the bits that may be left, and loses none. -/
theorem searchStep_spec
    {s : Search}
    {places log : Nat}
    (hPlaces : places = 2 ^ log)
    (hLog : log ≤ 4)
    (hSign : s.x.toNat < 2 ^ 31)
    (hLeft : s.x.toNat < 2 ^ (2 * places))
    (hBits : s.bits < 2 ^ 32) :
    (searchStep places log s).x.toNat < 2 ^ 31 ∧
      (searchStep places log s).x.toNat < 2 ^ places ∧
        (searchStep places log s).bits = s.bits := by
  have hMsb : s.x.msb = false := by
    rw [BitVec.msb_eq_false_iff_two_mul_lt]
    omega
  have hFew : 2 ^ log < 2 ^ 32 :=
    Nat.pow_lt_pow_right (by decide) (by omega)
  have hShift :
      ∀ count, (s.x.sshiftRight count).toNat =
        s.x.toNat / 2 ^ count := by
    intro count
    rw [BitVec.sshiftRight_eq_of_msb_false hMsb,
      BitVec.toNat_ushiftRight, Nat.shiftRight_eq_div_pow]
  unfold searchStep
  simp only
  by_cases hZero : s.x.sshiftRight places = 0
  · -- nothing is that high: no bit is counted or shifted off
    have hBit :
        isNonzero (s.x.sshiftRight places) <<< log = 0#32 := by
      unfold isNonzero
      rw [if_pos hZero]
      exact BitVec.zero_shiftLeft log
    have hNone : s.x.toNat / 2 ^ places = 0 := by
      rw [← hShift, hZero]
      rfl
    have hSmall : s.x.toNat < 2 ^ places :=
      Nat.lt_of_div_eq_zero (Nat.two_pow_pos _) hNone
    rw [hBit]
    have hSame :
        (s.x.sshiftRight (0#32).toNat).toNat =
          s.x.toNat := by
      rw [hShift]
      exact Nat.div_one _
    refine ⟨hSame ▸ hSign, hSame ▸ hSmall, ?_⟩
    unfold Search.bits
    simp only
    rw [hSame, BitVec.add_zero]
  · -- something is: `places` bits are counted and shifted off
    have hBit :
        (isNonzero (s.x.sshiftRight places) <<< log).toNat =
          places := by
      unfold isNonzero
      rw [if_neg hZero, BitVec.toNat_shiftLeft,
        Nat.shiftLeft_eq, hPlaces]
      show 1 * _ % _ = _
      rw [Nat.one_mul, Nat.mod_eq_of_lt hFew]
    have hSome : s.x.toNat / 2 ^ places ≠ 0 := by
      rw [← hShift]
      exact fun hNone =>
        hZero (BitVec.eq_of_toNat_eq hNone)
    have hSize := size_div_add hSome
    refine ⟨?_, ?_, ?_⟩
    · rw [hBit, hShift]
      exact lt_of_le_of_lt (Nat.div_le_self _ _) hSign
    · rw [hBit, hShift,
        Nat.div_lt_iff_lt_mul (Nat.two_pow_pos _),
        ← Nat.pow_add, ← Nat.two_mul]
      exact hLeft
    · unfold Search.bits at hBits ⊢
      simp only
      rw [hBit, hShift, BitVec.toNat_add, hBit,
        Nat.mod_eq_of_lt (by omega)]
      omega

/- Five steps leave one bit. -/
theorem toNat_howManyBits (x : BitVec 32) :
    (howManyBits x).toNat =
      (complemented x.toInt).size + 1 := by
  have hComplemented := complemented_lt x
  have hSize : (complemented x.toInt).size ≤ 31 :=
    Nat.size_le.mpr hComplemented
  have hStart :
      (x ^^^ x.sshiftRight 31).toNat =
        complemented x.toInt := by
    rw [xor_sign, toNat_complement]
  generalize hInit :
    (⟨1, x ^^^ x.sshiftRight 31⟩ : Search) = s
  have hX : s.x.toNat = complemented x.toInt := by
    rw [← hInit]
    exact hStart
  have hBits :
      s.bits = (complemented x.toInt).size + 1 := by
    unfold Search.bits
    rw [hX, ← hInit]
    exact Nat.add_comm _ _
  have h16 :=
    @searchStep_spec s 16 4 rfl (by decide) (by omega)
      (by omega) (by omega)
  have h8 :=
    @searchStep_spec (searchStep 16 4 s) 8 3 rfl (by decide)
      h16.1 h16.2.1 (by omega)
  have h4 :=
    @searchStep_spec _ 4 2 rfl (by decide)
      h8.1 h8.2.1 (by omega)
  have h2 :=
    @searchStep_spec _ 2 1 rfl (by decide)
      h4.1 h4.2.1 (by omega)
  have h1 :=
    @searchStep_spec _ 1 0 rfl (by decide)
      h2.1 h2.2.1 (by omega)
  unfold howManyBits
  simp only
  rw [hInit]
  generalize searchStep 1 0 (searchStep 2 1 (searchStep 4 2
    (searchStep 8 3 (searchStep 16 4 s)))) = last at h1 ⊢
  have hLast := size_of_lt_two h1.2.1
  have hTotal : last.bits =
      (complemented x.toInt).size + 1 := by
    omega
  unfold Search.bits at hTotal
  rw [BitVec.toNat_add, Nat.mod_eq_of_lt (by omega)]
  omega

------------------------------------------------------------
-- The counting loop
------------------------------------------------------------

theorem countBits_spec
    (a cnt : BitVec 32)
    (hRoom : cnt.toNat + a.toNat.size < 2 ^ 32) :
    (countBits a cnt).toNat = cnt.toNat + a.toNat.size := by
  induction a, cnt using countBits.induct with
  | case1 cnt =>
      rw [countBits, if_pos rfl]
      show _ = _ + Nat.size 0
      rw [Nat.size_zero, Nat.add_zero]
  | case2 a cnt hNonzero ih =>
      have hPos : a.toNat ≠ 0 :=
        fun hZero => hNonzero (BitVec.eq_of_toNat_eq hZero)
      have hHalf : (a >>> 1).toNat = a.toNat / 2 := by
        rw [BitVec.toNat_ushiftRight,
          Nat.shiftRight_eq_div_pow]
      have hSize := size_halve hPos
      have hNext : (cnt + 1).toNat = cnt.toNat + 1 := by
        rw [BitVec.toNat_add]
        show (cnt.toNat + 1) % 2 ^ 32 = _
        omega
      rw [countBits, if_neg hNonzero,
        ih (by rw [hNext, hHalf]; omega), hNext, hHalf]
      omega

theorem toNat_testHowManyBits (x : BitVec 32) :
    (testHowManyBits x).toNat =
      (complemented x.toInt).size + 1 := by
  have hSize : (complemented x.toInt).size ≤ 31 :=
    Nat.size_le.mpr (complemented_lt x)
  have hCount :
      (countBits (if x.toInt < 0 then -x - 1 else x) 0).toNat =
        (complemented x.toInt).size := by
    have hZero : (0 : BitVec 32).toNat = 0 := rfl
    rw [countBits_spec, toNat_complement, hZero, Nat.zero_add]
    rw [toNat_complement, hZero]
    omega
  unfold testHowManyBits
  simp only
  rw [BitVec.toNat_add, hCount]
  show (_ + 1) % 2 ^ 32 = _
  omega

------------------------------------------------------------
-- The least width
------------------------------------------------------------

/-
  The result is the least width of the number in two's
  complement, and what the loop of the test counts.
-/
theorem howManyBits_isLeast (x : BitVec 32) :
    (∃ n : Nat,
      (howManyBits x).toInt = n ∧
        IsLeast (widths x.toInt) n) ∧
      howManyBits x = testHowManyBits x := by
  have hSize : (complemented x.toInt).size ≤ 31 :=
    Nat.size_le.mpr (complemented_lt x)
  have hResult := toNat_howManyBits x
  constructor
  · refine ⟨_, ?_, isLeast_widths x.toInt⟩
    rw [BitVec.toInt_eq_toNat_of_lt (by omega), hResult]
  · apply BitVec.eq_of_toNat_eq
    rw [hResult, toNat_testHowManyBits]

end CsappLabs.Datalab
