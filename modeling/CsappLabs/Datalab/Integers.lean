import CsappLabs.Datalab.HowManyBits

/-
  The integer puzzles of `bits.c` and the functions of
  `tests.c` that they are tested against.

  `howManyBits` has a module of its own.  As `bits.c` asks, an
  int has 32 bits in two's complement and shifts to the right
  arithmetically.

  Key definitions include:
    * `isLessOrEqual`, `allOddBits`, `isAsciiDigit`

  Key theorems include:
    * `and_one_sshiftRight`
    * `isLessOrEqual_spec`
    * `integerPuzzles_meet_tests`
-/

------------------------------------------------------------
-- The functions
------------------------------------------------------------

namespace CsappLabs.Datalab

/- `!x` -/
def isZero (x : BitVec 32) : BitVec 32 :=
  if x = 0 then 1 else 0

/- What a comparison of C yields. -/
def truth (p : Prop) [Decidable p] : BitVec 32 :=
  if p then 1 else 0

/- `int bitXor(int x, int y)` -/
def bitXor (x y : BitVec 32) : BitVec 32 :=
  ~~~(x &&& y) &&& ~~~(~~~x &&& ~~~y)

/- `int tmin(void)` -/
def tmin : BitVec 32 :=
  (1 : BitVec 32) <<< 31

/- `int isTmax(int x)` -/
def isTmax (x : BitVec 32) : BitVec 32 :=
  isNonzero (x + 1) &&& isZero (~~~x ^^^ (x + 1))

/- `int allOddBits(int x)` -/
def allOddBits (x : BitVec 32) : BitVec 32 :=
  let comb :=
    x.sshiftRight 24 &&& x.sshiftRight 16 &&&
      x.sshiftRight 8 &&& x &&& 0xAA
  isZero (comb ^^^ 0xAA)

/- `int negate(int x)` -/
def negate (x : BitVec 32) : BitVec 32 :=
  1 + ~~~x

/- `int isAsciiDigit(int x)` -/
def isAsciiDigit (x : BitVec 32) : BitVec 32 :=
  isZero (x.sshiftRight 4 ^^^ 3) &&&
    (isZero (x ^^^ (x &&& 0x37)) |||
      isZero (x ^^^ (x &&& 0x39)))

/- `int conditional(int x, int y, int z)` -/
def conditional (x y z : BitVec 32) : BitVec 32 :=
  let x := isZero x + ~~~0
  (y &&& x) ||| (~~~x &&& z)

/- `int isLessOrEqual(int x, int y)` -/
def isLessOrEqual (x y : BitVec 32) : BitVec 32 :=
  let xminusy := x + ~~~y + 1
  isZero (x ^^^ y) |||
      ((x &&& ~~~y).sshiftRight 31 &&& 1) |||
    (isZero ((x ^^^ y).sshiftRight 31 &&& 1) &&&
      (xminusy.sshiftRight 31 &&& 1))

/- `int logicalNeg(int x)` -/
def logicalNeg (x : BitVec 32) : BitVec 32 :=
  (~~~(x ||| (~~~x + 1))).sshiftRight 31 &&& 1

------------------------------------------------------------
-- The functions they are tested against
------------------------------------------------------------

/- `int test_bitXor(int x, int y)` -/
def testBitXor (x y : BitVec 32) : BitVec 32 :=
  x ^^^ y

/- `int test_tmin(void)` -/
def testTmin : BitVec 32 :=
  0x80000000

/- `int test_isTmax(int x)` -/
def testIsTmax (x : BitVec 32) : BitVec 32 :=
  truth (x = 0x7FFFFFFF)

/- `for (i = 1; i < 32; i+=2)`, with `rounds` to go. -/
def oddBitsLoop
    (x : BitVec 32)
    (i : Nat) :
    Nat → BitVec 32
| 0 => 1
| rounds + 1 =>
    if x &&& ((1 : BitVec 32) <<< i) = 0 then
      0
    else
      oddBitsLoop x (i + 2) rounds

/- `int test_allOddBits(int x)` -/
def testAllOddBits (x : BitVec 32) : BitVec 32 :=
  oddBitsLoop x 1 16

/- `int test_negate(int x)` -/
def testNegate (x : BitVec 32) : BitVec 32 :=
  -x

/- `int test_isAsciiDigit(int x)` -/
def testIsAsciiDigit (x : BitVec 32) : BitVec 32 :=
  truth (0x30 ≤ x.toInt ∧ x.toInt ≤ 0x39)

/- `int test_conditional(int x, int y, int z)` -/
def testConditional (x y z : BitVec 32) : BitVec 32 :=
  if x ≠ 0 then y else z

/- `int test_isLessOrEqual(int x, int y)` -/
def testIsLessOrEqual (x y : BitVec 32) : BitVec 32 :=
  truth (x.toInt ≤ y.toInt)

/- `int test_logicalNeg(int x)` -/
def testLogicalNeg (x : BitVec 32) : BitVec 32 :=
  isZero x

------------------------------------------------------------
-- Truth values as words
------------------------------------------------------------

variable {x y : BitVec 32}

section Truth

variable {p q : Prop} [Decidable p] [Decidable q]

theorem truth_and :
    truth p &&& truth q = truth (p ∧ q) := by
  unfold truth
  by_cases hP : p
  · by_cases hQ : q
    · simp [hP, hQ]
    · simp [hP, hQ]
  · simp [hP]

theorem truth_or :
    truth p ||| truth q = truth (p ∨ q) := by
  unfold truth
  by_cases hP : p
  · by_cases hQ : q
    · simp [hP, hQ]
    · simp [hP, hQ]
  · by_cases hQ : q
    · simp [hP, hQ]
    · simp [hP, hQ]

theorem truth_congr (hSame : p ↔ q) :
    truth p = truth q := by
  unfold truth
  simp only [hSame]

theorem isZero_truth :
    isZero (truth p) = truth (¬p) := by
  unfold isZero truth
  by_cases hP : p
  · simp [hP]
  · simp [hP]

end Truth

theorem isZero_eq (x : BitVec 32) :
    isZero x = truth (x = 0) :=
  rfl

theorem isNonzero_eq (x : BitVec 32) :
    isNonzero x = truth (x ≠ 0) := by
  unfold isNonzero truth
  by_cases hZero : x = 0
  · rw [if_pos hZero, if_neg (not_not_intro hZero)]
  · rw [if_neg hZero, if_pos hZero]

theorem isZero_xor :
    isZero (x ^^^ y) = truth (x = y) := by
  rw [isZero_eq]
  apply truth_congr
  exact BitVec.xor_eq_zero_iff

/- `x >> 31 & 1` is the sign. -/
theorem and_one_sshiftRight (x : BitVec 32) :
    x.sshiftRight 31 &&& 1 = truth (x.msb = true) := by
  apply BitVec.eq_of_getLsbD_eq
  intro i hI
  rw [BitVec.getLsbD_and, BitVec.getLsbD_sshiftRight]
  cases i with
  | zero =>
      have hBit : x.getLsbD 31 = x.msb :=
        (BitVec.msb_eq_getLsbD_last x).symm
      rw [truth, Nat.add_zero, if_pos (by decide), hBit]
      cases x.msb with
      | true => rfl
      | false => rfl
  | succ i =>
      have hOne : (1 : BitVec 32).getLsbD (i + 1) = false := by
        rw [show (1 : BitVec 32) = 1#32 from rfl,
          BitVec.getLsbD_one]
        simp
      rw [hOne, Bool.and_false, truth]
      by_cases hMsb : x.msb = true
      · rw [if_pos hMsb, hOne]
      · rw [if_neg hMsb]
        exact BitVec.getLsbD_zero.symm

------------------------------------------------------------
-- One puzzle at a time
------------------------------------------------------------

theorem bitXor_spec (x y : BitVec 32) :
    bitXor x y = testBitXor x y := by
  apply BitVec.eq_of_getLsbD_eq
  intro i hI
  simp only [bitXor, testBitXor, BitVec.getLsbD_and,
    BitVec.getLsbD_not, BitVec.getLsbD_xor, hI, decide_true,
    Bool.true_and]
  cases x.getLsbD i with
  | true => cases y.getLsbD i <;> rfl
  | false => cases y.getLsbD i <;> rfl

theorem isTmax_spec (x : BitVec 32) :
    isTmax x = testIsTmax x := by
  rw [isTmax, isNonzero_eq, isZero_xor, truth_and, testIsTmax]
  apply truth_congr
  rw [ne_eq, ← BitVec.toNat_inj, ← BitVec.toNat_inj,
    ← BitVec.toNat_inj, BitVec.toNat_add, BitVec.toNat_not]
  have hLt := x.isLt
  show ¬(x.toNat + 1) % 2 ^ 32 = 0 ∧
      2 ^ 32 - 1 - x.toNat = (x.toNat + 1) % 2 ^ 32 ↔
    x.toNat = 0x7FFFFFFF
  omega

theorem complement_add_one (x : BitVec 32) :
    ~~~x + 1 = -x :=
  (BitVec.neg_eq_not_add x).symm

theorem negate_spec (x : BitVec 32) :
    negate x = testNegate x := by
  rw [negate, testNegate, BitVec.add_comm, complement_add_one]

theorem conditional_spec (x y z : BitVec 32) :
    conditional x y z = testConditional x y z := by
  by_cases hZero : x = 0
  · have hMask : isZero x + ~~~0 = 0 := by
      rw [hZero]
      decide
    rw [conditional, testConditional, hMask,
      if_neg (not_not_intro hZero)]
    show (y &&& 0#32) ||| (~~~0#32 &&& z) = z
    rw [BitVec.and_zero, BitVec.not_zero, BitVec.allOnes_and,
      BitVec.zero_or]
  · have hMask : isZero x + ~~~0 = BitVec.allOnes 32 := by
      rw [isZero, if_neg hZero]
      decide
    rw [conditional, testConditional, hMask, if_pos hZero]
    rw [BitVec.and_allOnes, BitVec.not_allOnes,
      BitVec.zero_and, BitVec.or_zero]

theorem msb_iff (x : BitVec 32) :
    x.msb = true ↔ 2 ^ 31 ≤ x.toNat := by
  rw [BitVec.msb_eq_decide]
  exact decide_eq_true_iff

/- `x+~y+1` -/
theorem toNat_difference (x y : BitVec 32) :
    (x + ~~~y + 1).toNat =
      (x.toNat + (2 ^ 32 - y.toNat)) % 2 ^ 32 := by
  have hLt := y.isLt
  rw [BitVec.toNat_add, BitVec.toNat_add, BitVec.toNat_not]
  show ((x.toNat + (2 ^ 32 - 1 - y.toNat)) % 2 ^ 32 + 1) %
    2 ^ 32 = _
  omega

theorem msb_and_not_iff (x y : BitVec 32) :
    (x &&& ~~~y).msb = true ↔
      2 ^ 31 ≤ x.toNat ∧ y.toNat < 2 ^ 31 := by
  rw [BitVec.msb_and, BitVec.msb_not, Bool.and_eq_true,
    Bool.and_eq_true, Bool.not_eq_true', ← Bool.not_eq_true,
    msb_iff, msb_iff, Nat.not_le]
  simp

theorem msb_xor_iff (x y : BitVec 32) :
    (x ^^^ y).msb = true ↔
      ¬(2 ^ 31 ≤ x.toNat ↔ 2 ^ 31 ≤ y.toNat) := by
  rw [BitVec.msb_xor, ← msb_iff, ← msb_iff]
  cases x.msb with
  | true => cases y.msb <;> simp
  | false => cases y.msb <;> simp

/-
  Words of different signs are compared by the sign alone;
  between words of one sign the difference does not wrap.
-/
theorem isLessOrEqual_spec (x y : BitVec 32) :
    isLessOrEqual x y = testIsLessOrEqual x y := by
  rw [isLessOrEqual, and_one_sshiftRight, and_one_sshiftRight,
    and_one_sshiftRight, isZero_xor, isZero_truth, truth_and,
    truth_or, truth_or, testIsLessOrEqual]
  apply truth_congr
  have hLtX := x.isLt
  have hLtY := y.isLt
  rw [msb_and_not_iff, msb_xor_iff, msb_iff, toNat_difference,
    ← BitVec.toNat_inj, BitVec.toInt_eq_toNat_cond,
    BitVec.toInt_eq_toNat_cond]
  by_cases hX : 2 ^ 31 ≤ x.toNat
  · rw [if_neg (by omega)]
    by_cases hY : 2 ^ 31 ≤ y.toNat
    · rw [if_neg (by omega)]
      omega
    · rw [if_pos (by omega)]
      omega
  · rw [if_pos (by omega)]
    by_cases hY : 2 ^ 31 ≤ y.toNat
    · rw [if_neg (by omega)]
      omega
    · rw [if_pos (by omega)]
      omega

/- Of a word and its negation one has the sign, unless 0. -/
theorem logicalNeg_spec (x : BitVec 32) :
    logicalNeg x = testLogicalNeg x := by
  rw [logicalNeg, and_one_sshiftRight, testLogicalNeg,
    isZero_eq, complement_add_one]
  apply truth_congr
  have hLt := x.isLt
  have hSigns :
      (x.msb || (-x).msb) = true ↔ x.toNat ≠ 0 := by
    rw [Bool.or_eq_true, msb_iff, msb_iff, BitVec.toNat_neg]
    omega
  rw [BitVec.msb_not, BitVec.msb_or, ← BitVec.toNat_inj]
  cases hOr : x.msb || (-x).msb with
  | true =>
      rw [hOr] at hSigns
      simpa using hSigns
  | false =>
      rw [hOr] at hSigns
      simpa using hSigns

/- `x>>4` -/
theorem sshiftRight_four_eq_iff (x : BitVec 32) :
    x.sshiftRight 4 = 3 ↔ 48 ≤ x.toNat ∧ x.toNat < 64 := by
  have hLt := x.isLt
  rw [← BitVec.toInt_inj, BitVec.toInt_sshiftRight,
    Int.shiftRight_eq_div_pow, BitVec.toInt_eq_toNat_cond]
  show _ / 16 = 3 ↔ _
  split
  · omega
  · omega

/- The digits are the first ten words of that row. -/
theorem isAsciiDigit_spec (x : BitVec 32) :
    isAsciiDigit x = testIsAsciiDigit x := by
  have hRow : ∀ low : Fin 16,
      (BitVec.ofNat 32 (48 + low) =
            BitVec.ofNat 32 (48 + low) &&& 0x37 ∨
          BitVec.ofNat 32 (48 + low) =
            BitVec.ofNat 32 (48 + low) &&& 0x39) ↔
        (low : Nat) ≤ 9 := by
    decide
  rw [isAsciiDigit, isZero_xor, isZero_xor, isZero_xor,
    truth_or, truth_and, testIsAsciiDigit]
  apply truth_congr
  have hLt := x.isLt
  rw [sshiftRight_four_eq_iff]
  by_cases hIn : 48 ≤ x.toNat ∧ x.toNat < 64
  · have hWord :
        x = BitVec.ofNat 32 (48 + (x.toNat - 48)) := by
      apply BitVec.eq_of_toNat_eq
      rw [BitVec.toNat_ofNat]
      omega
    have hDigit := hRow ⟨x.toNat - 48, by omega⟩
    rw [← hWord] at hDigit
    rw [hDigit, BitVec.toInt_eq_toNat_cond, if_pos (by omega)]
    simp only
    omega
  · rw [BitVec.toInt_eq_toNat_cond]
    split
    · omega
    · omega

/- A round of the loop looks at one bit. -/
theorem and_shiftLeft_eq_zero_iff
    {i : Nat}
    (hI : i < 32) :
    x &&& ((1 : BitVec 32) <<< i) = 0 ↔
      x.getLsbD i = false := by
  have hPower : (1 : BitVec 32) <<< i = BitVec.twoPow 32 i :=
    rfl
  have hNonzero : BitVec.twoPow 32 i ≠ 0#32 := by
    intro hZero
    have hBit := congrArg (fun w => w.getLsbD i) hZero
    simp [hI] at hBit
  rw [hPower, BitVec.and_twoPow]
  cases x.getLsbD i with
  | true => simpa using hNonzero
  | false => simp

theorem oddBitsLoop_spec
    (x : BitVec 32)
    (i rounds : Nat)
    (hBound : i + 2 * rounds ≤ 33) :
    oddBitsLoop x i rounds =
      truth (∀ k < rounds, x.getLsbD (i + 2 * k) = true) := by
  induction rounds generalizing i with
  | zero => simp [oddBitsLoop, truth]
  | succ rounds ih =>
      have hI : i < 32 := by
        omega
      rw [oddBitsLoop, ih (i + 2) (by omega)]
      by_cases hBit : x.getLsbD i = true
      · have hSome : ¬x &&& ((1 : BitVec 32) <<< i) = 0 := by
          rw [and_shiftLeft_eq_zero_iff hI, hBit]
          exact Bool.noConfusion
        rw [if_neg hSome]
        apply truth_congr
        constructor
        · intro hRest k hK
          cases k with
          | zero => exact hBit
          | succ k =>
              have hK' := hRest k (by omega)
              rwa [show i + 2 * (k + 1) = i + 2 + 2 * k by
                omega]
        · intro hAll k hK
          have hK' := hAll (k + 1) (by omega)
          rwa [show i + 2 * (k + 1) = i + 2 + 2 * k by
            omega] at hK'
      · have hNone : x &&& ((1 : BitVec 32) <<< i) = 0 := by
          rw [and_shiftLeft_eq_zero_iff hI]
          exact Bool.eq_false_of_not_eq_true hBit
        rw [if_pos hNone, truth, if_neg]
        intro hAll
        exact hBit (hAll 0 (Nat.succ_pos _))

/- The mask has the odd bits of a byte. -/
theorem getLsbD_mask
    {i : Nat}
    (hI : i < 32) :
    (0xAA : BitVec 32).getLsbD i =
      decide (i < 8 ∧ i % 2 = 1) := by
  have hAll : ∀ j : Fin 32,
      (0xAA : BitVec 32).getLsbD j =
        decide ((j : Nat) < 8 ∧ (j : Nat) % 2 = 1) := by
    decide
  exact hAll ⟨i, hI⟩

/- `(x>>24) & (x>>16) & (x>>8) & x & 0xAA` -/
theorem getLsbD_comb
    (x : BitVec 32)
    {i : Nat}
    (hI : i < 8) :
    (x.sshiftRight 24 &&& x.sshiftRight 16 &&&
        x.sshiftRight 8 &&& x &&& 0xAA).getLsbD i =
      (x.getLsbD (24 + i) && x.getLsbD (16 + i) &&
        x.getLsbD (8 + i) && x.getLsbD i &&
          (0xAA : BitVec 32).getLsbD i) := by
  simp only [BitVec.getLsbD_and, BitVec.getLsbD_sshiftRight]
  rw [if_pos (by omega), if_pos (by omega), if_pos (by omega)]
  simp [show ¬32 ≤ i by omega]

/- The four bytes of the word are masked as one. -/
theorem allOddBits_spec (x : BitVec 32) :
    allOddBits x = testAllOddBits x := by
  rw [allOddBits, isZero_xor, testAllOddBits,
    oddBitsLoop_spec x 1 16 (by decide)]
  apply truth_congr
  constructor
  · intro hComb k hK
    have hI : (1 + 2 * k) % 8 < 8 := Nat.mod_lt _ (by decide)
    have hBit :=
      congrArg (fun w => w.getLsbD ((1 + 2 * k) % 8)) hComb
    simp only [getLsbD_comb x hI] at hBit
    have hMask :
        (0xAA : BitVec 32).getLsbD ((1 + 2 * k) % 8) =
          true := by
      rw [getLsbD_mask (by omega), decide_eq_true_iff]
      omega
    simp only [hMask, Bool.and_true, Bool.and_eq_true] at hBit
    rcases hBit with ⟨⟨⟨hThird, hSecond⟩, hFirst⟩, hLow⟩
    have hByte : (1 + 2 * k) / 8 < 4 := by
      omega
    have hSplit := Nat.mod_add_div (1 + 2 * k) 8
    rw [← hSplit]
    rcases show (1 + 2 * k) / 8 = 0 ∨ (1 + 2 * k) / 8 = 1 ∨
        (1 + 2 * k) / 8 = 2 ∨ (1 + 2 * k) / 8 = 3 by omega with
      hEq | hEq | hEq | hEq
    · rw [hEq]
      exact hLow
    · rw [hEq, Nat.add_comm]
      exact hFirst
    · rw [hEq, Nat.add_comm]
      exact hSecond
    · rw [hEq, Nat.add_comm]
      exact hThird
  · intro hBits
    apply BitVec.eq_of_getLsbD_eq
    intro i hI
    by_cases hMask : i < 8 ∧ i % 2 = 1
    · have hOdd : ∀ byte < 4,
          x.getLsbD (8 * byte + i) = true := by
        intro byte hByte
        have hBit := hBits ((8 * byte + i) / 2) (by omega)
        rwa [show 1 + 2 * ((8 * byte + i) / 2) =
          8 * byte + i by omega] at hBit
      rw [getLsbD_comb x hMask.1, hOdd 3 (by decide),
        hOdd 2 (by decide), hOdd 1 (by decide)]
      have hLow := hOdd 0 (by decide)
      rw [Nat.mul_zero, Nat.zero_add] at hLow
      rw [hLow]
      rfl
    · have hNone : (0xAA : BitVec 32).getLsbD i = false := by
        rw [getLsbD_mask hI]
        exact decide_eq_false hMask
      rw [BitVec.getLsbD_and, hNone, Bool.and_false]

------------------------------------------------------------
-- All of them
------------------------------------------------------------

/-
  Every integer puzzle computes what it is tested against, on
  all words and not on the samples of btest only.
-/
theorem integerPuzzles_meet_tests (x y z : BitVec 32) :
    bitXor x y = testBitXor x y ∧
      tmin = testTmin ∧
      isTmax x = testIsTmax x ∧
      allOddBits x = testAllOddBits x ∧
      negate x = testNegate x ∧
      isAsciiDigit x = testIsAsciiDigit x ∧
      conditional x y z = testConditional x y z ∧
      isLessOrEqual x y = testIsLessOrEqual x y ∧
      logicalNeg x = testLogicalNeg x :=
  ⟨bitXor_spec x y, by decide, isTmax_spec x,
    allOddBits_spec x, negate_spec x, isAsciiDigit_spec x,
    conditional_spec x y z, isLessOrEqual_spec x y,
    logicalNeg_spec x⟩

end CsappLabs.Datalab
