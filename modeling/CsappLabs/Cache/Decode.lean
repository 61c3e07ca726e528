import CsappLabs.Lib.BitField

/-
  Address decoding in the cache simulator.

  `getDecimalBit` builds its mask with a 32-bit shift, so the
  count is taken modulo 32 and the tag keeps only that many
  bits. Decoding separates all blocks exactly when the tag
  has fewer than 32 bits.

  Key definitions include:
    * `getDecimalBit`
    * `decode`

  Key theorems include:
    * `getDecimalBit_toNat`
    * `decode_eq_iff`
    * `decode_faithful_iff`
    * `decode_separates_iff`
-/

------------------------------------------------------------
-- Decoding
------------------------------------------------------------

namespace CsappLabs

namespace Cache

open BitField

/- `maskOption`: a number of bits, and how far to move it. -/
structure MaskOption where
  bit : Nat
  movbit : Nat

/- `ADDRLEN`. -/
def addrLen : Nat := 64

/-
  `GetDecimalBit`. The mask is an `int` until it is widened;
  shift counts are taken modulo the width of the operand.
-/
def getDecimalBit
    (addr : BitVec 64) (opt : MaskOption) : BitVec 64 :=
  let mask : BitVec 32 := (1 <<< (opt.bit % 32)) - 1
  let mask : BitVec 64 := mask.signExtend 64
  let mask := mask <<< (opt.movbit % 64)
  let addr := addr &&& mask
  addr >>> (opt.movbit % 64)

/- The option for the set index. -/
def optionCI (set block : Nat) : MaskOption where
  bit := set
  movbit := block

/- The option for the tag. -/
def optionCT (set block : Nat) : MaskOption where
  bit := addrLen - block - set
  movbit := block + set

/-
  The `int` variables `tag` and `set` of `cacheSimulator`,
  for `set` set bits and `block` block bits.
-/
def decode (set block : Nat) (addr : BitVec 64) :
    BitVec 32 × BitVec 32 :=
  ((getDecimalBit addr (optionCT set block)).setWidth 32,
    (getDecimalBit addr (optionCI set block)).setWidth 32)

------------------------------------------------------------
-- What A Mask Keeps
------------------------------------------------------------

variable {set block : Nat} {addr left right : BitVec 64}
variable {opt : MaskOption}

/- The 32-bit mask, for any count below 32. -/
theorem mask_toNat
    {width : Nat}
    (hWidth : width < 32) :
    (((1#32 <<< width) - 1#32).signExtend 64).toNat =
      2 ^ width - 1 := by
  have hPositive := Nat.two_pow_pos width
  have hLt : 2 ^ width < 2 ^ 32 :=
    Nat.pow_lt_pow_right (by decide) hWidth
  have hHalf : 2 ^ width ≤ 2 ^ 31 :=
    Nat.pow_le_pow_right (by decide) (by omega)
  have hShift : (1#32 <<< width).toNat = 2 ^ width := by
    rw [BitVec.toNat_shiftLeft, Nat.shiftLeft_eq]
    simp only [BitVec.toNat_ofNat]
    omega
  have hMask :
      ((1#32 <<< width) - 1#32).toNat = 2 ^ width - 1 := by
    rw [BitVec.toNat_sub, hShift]
    simp only [BitVec.toNat_ofNat]
    omega
  have hSign : ((1#32 <<< width) - 1#32).msb = false := by
    rw [BitVec.msb_eq_false_iff_two_mul_lt, hMask]
    omega
  rw [BitVec.signExtend_eq_setWidth_of_msb_false hSign,
    BitVec.toNat_setWidth, hMask]
  omega

/- The value is a field of the address. -/
theorem getDecimalBit_toNat
    (hMov : opt.movbit < 64)
    (hFits : opt.movbit + opt.bit % 32 ≤ 64) :
    (getDecimalBit addr opt).toNat =
      field addr.toNat opt.movbit (opt.bit % 32) := by
  unfold getDecimalBit
  simp only
  rw [Nat.mod_eq_of_lt hMov]
  exact toNat_masked hFits
    (mask_toNat (Nat.mod_lt _ (by decide)))

/- A field of fewer than 32 bits fits an `int`. -/
theorem setWidth_eq_iff
    {width low : Nat}
    {x y : BitVec 64}
    (hWidth : width < 32)
    (hLeft : x.toNat = field left.toNat low width)
    (hRight : y.toNat = field right.toNat low width) :
    x.setWidth 32 = y.setWidth 32 ↔
      field left.toNat low width =
        field right.toNat low width := by
  have hPow : 2 ^ width ≤ 2 ^ 32 :=
    Nat.pow_le_pow_right (by decide) (by omega)
  have hLeftLt := @field_lt left.toNat low width
  have hRightLt := @field_lt right.toNat low width
  rw [← BitVec.toNat_inj, BitVec.toNat_setWidth,
    BitVec.toNat_setWidth, hLeft, hRight,
    Nat.mod_eq_of_lt (by omega), Nat.mod_eq_of_lt (by omega)]

/-
  Tag and set together are the field of the address from the
  block offset on that is as wide as both of them.
-/
theorem decode_eq_iff
    (hSet : set ≤ 30)
    (hBlock : block ≤ 30) :
    decode set block left = decode set block right ↔
      field left.toNat block
          (set + (64 - block - set) % 32) =
        field right.toNat block
          (set + (64 - block - set) % 32) := by
  have hTag : (64 - block - set) % 32 < 32 :=
    Nat.mod_lt _ (by decide)
  have hTagLe := Nat.mod_le (64 - block - set) 32
  have hSetMod : set % 32 = set := by omega
  have hTags : ∀ addr : BitVec 64,
      (getDecimalBit addr (optionCT set block)).toNat =
        field addr.toNat (block + set)
          ((64 - block - set) % 32) := by
    intro addr
    exact getDecimalBit_toNat
      (show block + set < 64 by omega)
      (show block + set + (64 - block - set) % 32 ≤ 64 by
        omega)
  have hSets : ∀ addr : BitVec 64,
      (getDecimalBit addr (optionCI set block)).toNat =
        field addr.toNat block set := by
    intro addr
    have hValue :=
      @getDecimalBit_toNat addr (optionCI set block)
        (show block < 64 by omega)
        (show block + set % 32 ≤ 64 by omega)
    rw [hValue]
    change field _ _ (set % 32) = _
    rw [hSetMod]
    rfl
  unfold decode
  rw [Prod.mk.injEq,
    setWidth_eq_iff hTag (hTags left) (hTags right),
    setWidth_eq_iff (by omega) (hSets left) (hSets right),
    field_eq_iff, and_comm]

------------------------------------------------------------
-- The Exact Condition
------------------------------------------------------------

theorem shiftRight_eq_iff :
    left >>> block = right >>> block ↔
      left.toNat / 2 ^ block = right.toNat / 2 ^ block := by
  rw [← BitVec.toNat_inj, BitVec.toNat_ushiftRight,
    BitVec.toNat_ushiftRight, Nat.shiftRight_eq_div_pow,
    Nat.shiftRight_eq_div_pow]

/- With more than 32 bits below the tag, nothing is lost. -/
theorem decode_eq_iff_of_wide
    (hSet : set ≤ 30)
    (hBlock : block ≤ 30)
    (hWide : 32 < set + block) :
    decode set block left = decode set block right ↔
      left >>> block = right >>> block := by
  have hWidth :
      set + (64 - block - set) % 32 = 64 - block := by
    omega
  have hFits : ∀ addr : BitVec 64,
      addr.toNat < 2 ^ (block + (64 - block)) := by
    intro addr
    rw [show block + (64 - block) = 64 by omega]
    exact addr.isLt
  rw [decode_eq_iff hSet hBlock, shiftRight_eq_iff, hWidth,
    field_of_lt (hFits left), field_of_lt (hFits right)]

/- With at most 32, the upper half of the address is. -/
theorem decode_eq_iff_of_narrow
    (hSet : set ≤ 30)
    (hBlock : block ≤ 30)
    (hPositive : 0 < set + block)
    (hNarrow : set + block ≤ 32) :
    decode set block left = decode set block right ↔
      left.setWidth 32 >>> block =
        right.setWidth 32 >>> block := by
  have hWidth :
      set + (64 - block - set) % 32 = 32 - block := by
    omega
  have hLow : ∀ addr : BitVec 64,
      field addr.toNat block (32 - block) =
        (addr.setWidth 32 >>> block).toNat := by
    intro addr
    rw [BitVec.toNat_ushiftRight, BitVec.toNat_setWidth,
      Nat.shiftRight_eq_div_pow]
    unfold field
    have hSplit : 2 ^ 32 = 2 ^ block * 2 ^ (32 - block) := by
      rw [← Nat.pow_add]
      congr 1
      omega
    rw [hSplit, Nat.mod_mul_right_div_self]
  rw [decode_eq_iff hSet hBlock, hWidth, hLow, hLow,
    BitVec.toNat_inj]

/- Two addresses of one block decode alike. -/
theorem decode_of_same
    (hSet : set ≤ 30)
    (hBlock : block ≤ 30)
    (hSame : left >>> block = right >>> block) :
    decode set block left = decode set block right := by
  rw [decode_eq_iff hSet hBlock]
  unfold field
  rw [shiftRight_eq_iff.mp hSame]

/- Without set and block bits every address decodes alike. -/
theorem decode_zero : decode 0 0 left = decode 0 0 right := by
  rw [decode_eq_iff (by decide) (by decide)]
  rw [field_zero, field_zero]

/-
  For any two addresses, decoding tells blocks apart exactly
  when the tag has fewer than 32 bits, or they share a block,
  or their low halves already differ above the offset.
-/
theorem decode_faithful_iff
    (hSet : set ≤ 30)
    (hBlock : block ≤ 30) :
    (decode set block left = decode set block right ↔
        left >>> block = right >>> block) ↔
      32 < set + block ∨
        left >>> block = right >>> block ∨
        (0 < set + block ∧
          left.setWidth 32 >>> block ≠
            right.setWidth 32 >>> block) := by
  rcases Nat.eq_zero_or_pos (set + block) with
    hZero | hPositive
  · have hSet' : set = 0 := by omega
    have hBlock' : block = 0 := by omega
    subst hSet' hBlock'
    have hAlike := @decode_zero left right
    simp [hAlike]
  · rcases Nat.lt_or_ge 32 (set + block) with
      hWide | hNarrow
    · exact iff_of_true
        (decode_eq_iff_of_wide hSet hBlock hWide)
        (Or.inl hWide)
    · rw [decode_eq_iff_of_narrow hSet hBlock hPositive
        hNarrow]
      constructor
      · intro hIff
        by_cases hSame : left >>> block = right >>> block
        · exact Or.inr (Or.inl hSame)
        · exact Or.inr
            (Or.inr ⟨hPositive, mt hIff.mp hSame⟩)
      · rintro (hWide | hSame | ⟨-, hDiffer⟩)
        · exact absurd hWide (by omega)
        · refine iff_of_true ?_ hSame
          exact (decode_eq_iff_of_narrow hSet hBlock
            hPositive hNarrow).mp
            (decode_of_same hSet hBlock hSame)
        · refine iff_of_false hDiffer fun hSame => ?_
          exact hDiffer
            ((decode_eq_iff_of_narrow hSet hBlock
              hPositive hNarrow).mp
              (decode_of_same hSet hBlock hSame))

/- With 32 set and block bits the addresses do differ. -/
theorem decode_faithful_iff_wide :
    (decode 20 13 0x1 = decode 20 13 0x100002000 ↔
        (0x1#64) >>> 13 = (0x100002000#64) >>> 13) ↔
      32 < 20 + 13 ∨
        (0x1#64) >>> 13 = (0x100002000#64) >>> 13 ∨
        (0 < 20 + 13 ∧
          (0x1#64).setWidth 32 >>> 13 ≠
            (0x100002000#64).setWidth 32 >>> 13) :=
  decode_faithful_iff (by decide) (by decide)

/-
  With 16 sets of 32-byte blocks the addresses 0 and 2^32
  decode alike, though they lie in different blocks.
-/
theorem decode_loses_high_bits :
    decode 4 5 0 = decode 4 5 0x100000000 ∧
      (0#64) >>> 5 ≠ (0x100000000#64) >>> 5 := by
  decide

/- A geometry separates all blocks with a short tag only. -/
theorem decode_separates_iff
    (hSet : set ≤ 30)
    (hBlock : block ≤ 30) :
    (∀ left right : BitVec 64,
      decode set block left = decode set block right ↔
        left >>> block = right >>> block) ↔
      32 < set + block := by
  constructor
  · intro hAll
    by_contra hNarrow
    have hLow :
        (0#64).setWidth 32 = (0x100000000#64).setWidth 32 := by
      decide
    have hAlike :
        decode set block 0 =
          decode set block 0x100000000 := by
      rcases Nat.eq_zero_or_pos (set + block) with
        hZero | hPositive
      · have hSet' : set = 0 := by omega
        have hBlock' : block = 0 := by omega
        subst hSet' hBlock'
        exact decode_zero
      · rw [decode_eq_iff_of_narrow hSet hBlock hPositive
          (by omega)]
        exact congrArg
          (fun word : BitVec 32 => word >>> block) hLow
    have hSame :=
      shiftRight_eq_iff.mp ((hAll _ _).mp hAlike)
    have hQuotient : 0 < 2 ^ 32 / 2 ^ block :=
      Nat.div_pos
        (Nat.pow_le_pow_right (by decide) (by omega))
        (Nat.two_pow_pos block)
    have hZero : (0#64).toNat / 2 ^ block = 0 :=
      Nat.zero_div _
    exact absurd (hZero.symm.trans hSame)
      (Nat.ne_of_lt hQuotient)
  · intro hWide left right
    exact decode_eq_iff_of_wide hSet hBlock hWide

end Cache

end CsappLabs
