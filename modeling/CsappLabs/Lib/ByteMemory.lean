import Mathlib.Tactic.Ring

/-
  Flat byte memories with little-endian words.

  A memory maps every address to a byte. Words of any width
  are read and written little-endian, and a block copy reads
  its whole source before it writes.

  Key definitions include:
    * `ByteMemory.readWord`
    * `ByteMemory.writeWord`
    * `ByteMemory.copy`
    * `ByteMemory.SameOn`
    * `ByteMemory.SameOutside`

  Key theorems include:
    * `ByteMemory.readWord_writeWord`
    * `ByteMemory.readWord_writeWord_disjoint`
    * `ByteMemory.readWord_of_sameOn`
    * `ByteMemory.readWord_add`
-/

------------------------------------------------------------
-- Words
------------------------------------------------------------

/- A memory gives the byte at every address. -/
abbrev ByteMemory := Nat → UInt8

namespace ByteMemory

/- The little-endian value of `width` bytes from `address`. -/
def readWord
    (memory : ByteMemory)
    (address : Nat) :
    Nat → Nat
| 0 => 0
| width + 1 =>
    (memory address).toNat +
      256 * readWord memory (address + 1) width

/- Store the low `width` bytes of `value`, low byte first. -/
def writeWord
    (memory : ByteMemory)
    (address width value : Nat) :
    ByteMemory :=
  fun a =>
    if address ≤ a ∧ a < address + width then
      UInt8.ofNat (value / 256 ^ (a - address))
    else
      memory a

/- Copy `count` bytes as if through a temporary buffer. -/
def copy
    (memory : ByteMemory)
    (target source count : Nat) :
    ByteMemory :=
  fun a =>
    if target ≤ a ∧ a < target + count then
      memory (source + (a - target))
    else
      memory a

/- Two memories hold the same bytes in `[low, high)`. -/
def SameOn
    (left right : ByteMemory)
    (low high : Nat) : Prop :=
  ∀ a, low ≤ a → a < high → left a = right a

/- Two memories hold the same bytes outside `[low, high)`. -/
def SameOutside
    (left right : ByteMemory)
    (low high : Nat) : Prop :=
  ∀ a, a < low ∨ high ≤ a → left a = right a

------------------------------------------------------------
-- Agreement
------------------------------------------------------------

variable {memory left middle right : ByteMemory}
variable {address target source width count : Nat}
variable {value low high : Nat}

theorem SameOn.refl : SameOn memory memory low high :=
  fun _ _ _ => rfl

theorem SameOn.symm
    (hSame : SameOn left right low high) :
    SameOn right left low high :=
  fun a hLow hHigh => (hSame a hLow hHigh).symm

theorem SameOn.trans
    (hLeft : SameOn left middle low high)
    (hRight : SameOn middle right low high) :
    SameOn left right low high :=
  fun a hLow hHigh =>
    (hLeft a hLow hHigh).trans (hRight a hLow hHigh)

/- Agreement on a range gives agreement on a part of it. -/
theorem SameOn.mono
    {innerLow innerHigh : Nat}
    (hSame : SameOn left right low high)
    (hLow : low ≤ innerLow)
    (hHigh : innerHigh ≤ high) :
    SameOn left right innerLow innerHigh :=
  fun a hL hH => hSame a (by omega) (by omega)

theorem SameOutside.refl :
    SameOutside memory memory low high :=
  fun _ _ => rfl

theorem SameOutside.trans
    (hLeft : SameOutside left middle low high)
    (hRight : SameOutside middle right low high) :
    SameOutside left right low high :=
  fun a hOutside =>
    (hLeft a hOutside).trans (hRight a hOutside)

/- A change inside a range is a change inside a larger one. -/
theorem SameOutside.mono
    {outerLow outerHigh : Nat}
    (hSame : SameOutside left right low high)
    (hLow : outerLow ≤ low)
    (hHigh : high ≤ outerHigh) :
    SameOutside left right outerLow outerHigh :=
  fun a hOutside => hSame a (by omega)

/- A range apart from the changed one is unchanged. -/
theorem SameOutside.sameOn
    {otherLow otherHigh : Nat}
    (hSame : SameOutside left right low high)
    (hApart : otherHigh ≤ low ∨ high ≤ otherLow) :
    SameOn left right otherLow otherHigh :=
  fun a hLow hHigh => hSame a (by omega)

/- A word depends only on the bytes it is read from. -/
theorem readWord_of_sameOn
    (hSame :
      SameOn left right address (address + width)) :
    readWord left address width =
      readWord right address width := by
  induction width generalizing address with
  | zero => rfl
  | succ width ih =>
      have hHead := hSame address (by omega) (by omega)
      have hRest :
          SameOn left right (address + 1)
            (address + 1 + width) :=
        hSame.mono (by omega) (by omega)
      have hTail := ih hRest
      simp only [readWord, hHead, hTail]

/- Words at two places are equal when their bytes are. -/
theorem readWord_congr
    {other : Nat}
    (hBytes :
      ∀ i, i < width →
        left (address + i) = right (other + i)) :
    readWord left address width =
      readWord right other width := by
  induction width generalizing address other with
  | zero => rfl
  | succ width ih =>
      have hHead : left address = right other :=
        hBytes 0 (by omega)
      have hTail :
          readWord left (address + 1) width =
            readWord right (other + 1) width := by
        apply ih
        intro i hi
        have hByte := hBytes (i + 1) (by omega)
        rw [show address + 1 + i = address + (i + 1) by
            omega,
          show other + 1 + i = other + (i + 1) by omega]
        exact hByte
      rw [readWord, readWord, hHead, hTail]

/- A word is its low bytes and, above them, its high bytes. -/
theorem readWord_add :
    readWord memory address (width + count) =
      readWord memory address width +
        256 ^ width *
          readWord memory (address + width) count := by
  induction width generalizing address with
  | zero => simp [readWord]
  | succ width ih =>
      rw [Nat.succ_add, readWord, readWord, ih,
        show address + 1 + width = address + (width + 1) by
          omega, Nat.pow_succ]
      ring

/- A word of `width` bytes is below `256 ^ width`. -/
theorem readWord_lt :
    readWord memory address width < 256 ^ width := by
  induction width generalizing address with
  | zero => simp [readWord]
  | succ width ih =>
      have hByte := (memory address).toNat_lt
      have hTail := @ih (address + 1)
      rw [readWord, Nat.pow_succ]
      omega

/- The low bytes of a longer word. -/
theorem readWord_mod
    (hWidth : width ≤ count) :
    readWord memory address count % 256 ^ width =
      readWord memory address width := by
  rcases Nat.exists_eq_add_of_le hWidth with ⟨rest, rfl⟩
  rw [readWord_add, Nat.add_mul_mod_self_left]
  exact Nat.mod_eq_of_lt readWord_lt

/- Equal words are spelled by the same bytes. -/
theorem sameOn_of_readWord
    (hWord :
      readWord left address width =
        readWord right address width) :
    SameOn left right address (address + width) := by
  induction width generalizing address with
  | zero =>
      intro a hLow hHigh
      omega
  | succ width ih =>
      have hLeft := (left address).toNat_lt
      have hRight := (right address).toNat_lt
      rw [readWord, readWord] at hWord
      have hHead :
          (left address).toNat = (right address).toNat := by
        omega
      have hRest :
          SameOn left right (address + 1)
            (address + 1 + width) :=
        ih (by omega)
      intro a hLow hHigh
      by_cases hFirst : a = address
      · rw [hFirst]
        exact UInt8.toNat_inj.mp hHead
      · exact hRest a (by omega) (by omega)

------------------------------------------------------------
-- Writes
------------------------------------------------------------

/- A write changes no byte outside its own range. -/
theorem writeWord_outside
    {a : Nat}
    (hOutside : a < address ∨ address + width ≤ a) :
    writeWord memory address width value a = memory a := by
  unfold writeWord
  rw [if_neg (by omega)]

theorem writeWord_sameOutside :
    SameOutside (writeWord memory address width value)
      memory address (address + width) :=
  fun _ hOutside => writeWord_outside hOutside

/- A word of one byte is the byte itself. -/
theorem writeWord_one {byte : UInt8} :
    writeWord memory address 1 byte.toNat address =
      byte := by
  unfold writeWord
  rw [if_pos (by omega), Nat.sub_self, Nat.pow_zero,
    Nat.div_one]
  exact UInt8.ofNat_toNat

/- The bytes of a written word spell its value. -/
theorem readWord_of_bytes
    (hBytes :
      ∀ i, i < width →
        memory (address + i) =
          UInt8.ofNat (value / 256 ^ i)) :
    readWord memory address width =
      value % 256 ^ width := by
  induction width generalizing address value with
  | zero => simp [readWord, Nat.mod_one]
  | succ width ih =>
      have hHead : memory address = UInt8.ofNat value := by
        simpa using hBytes 0 (by omega)
      have hTail :
          readWord memory (address + 1) width =
            (value / 256) % 256 ^ width := by
        apply ih
        intro i hi
        have hByte := hBytes (i + 1) (by omega)
        rw [Nat.pow_succ', ← Nat.div_div_eq_div_mul]
          at hByte
        rw [show address + 1 + i = address + (i + 1) by
          omega]
        exact hByte
      have hSplit :
          value % 256 ^ (width + 1) =
            value % 256 +
              256 * (value / 256 % 256 ^ width) := by
        rw [Nat.pow_succ', Nat.mod_mul]
      rw [readWord, hHead, hTail, hSplit]
      simp [UInt8.toNat_ofNat']

/- Reading a word back gives what was stored. -/
theorem readWord_writeWord :
    readWord (writeWord memory address width value)
        address width =
      value % 256 ^ width := by
  apply readWord_of_bytes
  intro i hi
  unfold writeWord
  rw [if_pos (by omega), Nat.add_sub_cancel_left]

/- A word has the bytes that it was read from. -/
theorem ofNat_readWord_div
    {i : Nat}
    (hIndex : i < width) :
    UInt8.ofNat (readWord memory address width / 256 ^ i) =
      memory (address + i) := by
  have hSame :
      SameOn
        (writeWord memory address width
          (readWord memory address width))
        memory address (address + width) := by
    apply sameOn_of_readWord
    rw [readWord_writeWord, Nat.mod_eq_of_lt readWord_lt]
  have hByte := hSame (address + i) (by omega) (by omega)
  unfold writeWord at hByte
  rwa [if_pos (by omega), Nat.add_sub_cancel_left] at hByte

/- A write leaves every word apart from it unchanged. -/
theorem readWord_writeWord_disjoint
    {other otherWidth : Nat}
    (hApart :
      other + otherWidth ≤ address ∨
        address + width ≤ other) :
    readWord (writeWord memory address width value)
        other otherWidth =
      readWord memory other otherWidth :=
  readWord_of_sameOn
    (writeWord_sameOutside.sameOn hApart)

------------------------------------------------------------
-- Copies
------------------------------------------------------------

/- A copied byte is the source byte at the same offset. -/
theorem copy_inside
    {i : Nat}
    (hIndex : i < count) :
    copy memory target source count (target + i) =
      memory (source + i) := by
  unfold copy
  rw [if_pos (by omega), Nat.add_sub_cancel_left]

/- A copy changes no byte outside its target. -/
theorem copy_outside
    {a : Nat}
    (hOutside : a < target ∨ target + count ≤ a) :
    copy memory target source count a = memory a := by
  unfold copy
  rw [if_neg (by omega)]

theorem copy_sameOutside :
    SameOutside (copy memory target source count) memory
      target (target + count) :=
  fun _ hOutside => copy_outside hOutside

end ByteMemory
