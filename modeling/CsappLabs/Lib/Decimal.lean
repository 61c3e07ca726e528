import CsappLabs.Lib.CString
import Mathlib.Tactic.IntervalCases

/-
  Decimal numbers in C strings: what sprintf writes for %d
  and that sscanf reads it back.

  Key definitions:
    * `CString.formatNat`
    * `CString.formatInt`

  Key theorems:
    * `CString.digitsValue_formatNat`
    * `CString.scanInt_formatNat`
    * `CString.length_formatInt_lt_ten_iff`
-/

------------------------------------------------------------
-- Digits
------------------------------------------------------------

namespace CsappLabs

namespace CString

/- The digits of a number, the highest first. -/
def formatNat
    (n : Nat) :
    Text :=
  (Nat.toDigits 10 n).map (fun c => UInt8.ofNat c.toNat)

/- sprintf(s, "%d", z) -/
def formatInt
    (z : Int) :
    Text :=
  if z < 0 then
    45 :: formatNat z.natAbs
  else
    formatNat z.natAbs

def digitByte
    (d : Nat) :
    UInt8 :=
  UInt8.ofNat (48 + d)

theorem digitChar_byte
    {d : Nat}
    (hDigit : d < 10) :
    UInt8.ofNat (Nat.digitChar d).toNat = digitByte d := by
  interval_cases d <;> rfl

theorem formatNat_eq_if
    (n : Nat) :
    formatNat n =
      if n < 10 then
        [digitByte n]
      else
        formatNat (n / 10) ++ [digitByte (n % 10)] := by
  unfold formatNat
  rw [Nat.toDigits_eq_if (by decide)]
  split
  · rename_i hLt
    rw [List.map_singleton, digitChar_byte hLt]
  · rw [List.map_append, List.map_singleton,
      digitChar_byte (Nat.mod_lt n (by decide))]

theorem formatNat_ne_nil
    (n : Nat) :
    formatNat n ≠ [] := by
  simp [formatNat]

theorem length_formatNat_le_iff
    {n k : Nat}
    (hPos : 0 < k) :
    (formatNat n).length ≤ k ↔ n < 10 ^ k := by
  rw [formatNat, List.length_map]
  exact Nat.length_toDigits_le_iff (by decide) hPos

theorem digitByte_facts
    {d : Nat}
    (hDigit : d < 10) :
    isdigit (digitByte d) = true ∧
      (digitByte d).toNat = 48 + d := by
  interval_cases d <;> decide

theorem isdigit_formatNat
    (n : Nat) :
    ∀ c ∈ formatNat n, isdigit c = true := by
  induction n using Nat.strong_induction_on with
  | _ n ih =>
      intro c hc
      rw [formatNat_eq_if] at hc
      split at hc
      · rename_i hLt
        rw [List.mem_singleton.mp hc]
        exact (digitByte_facts hLt).1
      · rename_i hGe
        rcases List.mem_append.mp hc with hFront | hLast
        · exact ih (n / 10) (by omega) c hFront
        · rw [List.mem_singleton.mp hLast]
          exact (digitByte_facts (Nat.mod_lt n (by decide))).1

/- The digits of a number have its value. -/
theorem digitsValue_formatNat
    (n : Nat) :
    digitsValue (formatNat n) = n := by
  induction n using Nat.strong_induction_on with
  | _ n ih =>
      rw [formatNat_eq_if]
      split
      · rename_i hLt
        have hByte := (digitByte_facts hLt).2
        simp only [digitsValue, List.foldl_cons,
          List.foldl_nil, hByte]
        omega
      · rename_i hGe
        have hByte :=
          (digitByte_facts (Nat.mod_lt n (by decide : 0 < 10))).2
        have hFront := ih (n / 10) (by omega)
        unfold digitsValue at hFront ⊢
        rw [List.foldl_append, hFront, List.foldl_cons,
          List.foldl_nil, hByte]
        omega

------------------------------------------------------------
-- Reading Back
------------------------------------------------------------

theorem isdigit_iff
    {c : UInt8} :
    isdigit c = true ↔ 48 ≤ c.toNat ∧ c.toNat ≤ 57 := by
  simp [isdigit, UInt8.le_iff_toNat_le]

/- A digit is neither a space nor a sign. -/
theorem isspace_of_isdigit
    {c : UInt8}
    (hDigit : isdigit c = true) :
    isspace c = false ∧ c ≠ 45 ∧ c ≠ 43 := by
  rw [isdigit_iff] at hDigit
  refine ⟨?_, ?_, ?_⟩
  · have hNe : c ≠ 32 := by
      rintro rfl
      exact absurd hDigit.1 (by decide)
    simp [isspace, hNe, UInt8.le_iff_toNat_le]
    omega
  · rintro rfl
    exact absurd hDigit.1 (by decide)
  · rintro rfl
    exact absurd hDigit.1 (by decide)

theorem toInt_of_lt
    {n : Nat}
    (hLt : n < 2 ^ 31) :
    toInt n = n := by
  unfold toInt
  simp only
  omega

/- A number in front of anything but a digit is read back. -/
theorem scanInt_formatNat
    {n : Nat}
    {rest : Text}
    (hLt : n < 2 ^ 31)
    (hRest : ∀ c ∈ rest.head?, isdigit c = false) :
    scanInt (formatNat n ++ rest) = some ((n : Int), rest) := by
  rcases List.exists_cons_of_ne_nil (formatNat_ne_nil n) with
    ⟨c, cs, hCons⟩
  have hAll := isdigit_formatNat n
  have hFirst :=
    isspace_of_isdigit (hAll c (hCons ▸ List.mem_cons_self))
  have hStop :
      rest.takeWhile isdigit = [] ∧
        rest.dropWhile isdigit = rest := by
    cases rest with
    | nil => exact ⟨rfl, rfl⟩
    | cons d ds =>
        have hd : isdigit d = false := hRest d rfl
        simp [hd]
  have hStart :
      (formatNat n ++ rest).dropWhile isspace =
        formatNat n ++ rest := by
    rw [hCons, List.cons_append, List.dropWhile_cons, hFirst.1]
    rfl
  have hSign :
      scanSign (formatNat n ++ rest) =
        (1, formatNat n ++ rest) := by
    rw [hCons, List.cons_append, scanSign,
      if_neg hFirst.2.1, if_neg hFirst.2.2]
  have hTake :
      (formatNat n ++ rest).takeWhile isdigit =
        c :: cs := by
    rw [List.takeWhile_append_of_pos hAll, hStop.1,
      List.append_nil, hCons]
  have hDrop :
      (formatNat n ++ rest).dropWhile isdigit = rest := by
    rw [List.dropWhile_append_of_pos hAll, hStop.2]
  unfold scanInt
  rw [hStart, hSign]
  simp only [hTake, hDrop]
  rw [← hCons, digitsValue_formatNat, Int.one_mul,
    toInt_of_lt hLt]

------------------------------------------------------------
-- Lengths
------------------------------------------------------------

/- The ints whose text and its NUL fit into ten bytes. -/
theorem length_formatInt_lt_ten_iff
    (z : Int) :
    (formatInt z).length < 10 ↔
      -99999999 ≤ z ∧ z ≤ 999999999 := by
  unfold formatInt
  split
  · rename_i hNeg
    have hLen :=
      @length_formatNat_le_iff z.natAbs 8 (by decide)
    rw [List.length_cons]
    constructor
    · intro hLt
      have hBound := hLen.mp (by omega)
      omega
    · intro hRange
      have hBound := hLen.mpr (by omega)
      omega
  · rename_i hPos
    have hLen :=
      @length_formatNat_le_iff z.natAbs 9 (by decide)
    constructor
    · intro hLt
      have hBound := hLen.mp (by omega)
      omega
    · intro hRange
      have hBound := hLen.mpr (by omega)
      omega

end CString

end CsappLabs
