import Mathlib.Algebra.Group.Int.Defs
import Mathlib.Data.List.TakeWhile
import Mathlib.Data.List.Infix

/-
  C strings and the library calls on them.

  A string is the list of its bytes in front of the NUL,
  read in the "C" locale.

  Key definitions:
    * `CString.ofBytes`
    * `CString.strncasecmpEq`
    * `CString.strstr`
    * `CString.scanWord`
    * `CString.scanInt`

  Key theorems:
    * `CString.ofBytes_of_not_mem`
    * `CString.strstr_append_of_not_mem`
    * `CString.strstr_singleton`
    * `CString.scanWord_of_word`
-/

------------------------------------------------------------
-- Strings
------------------------------------------------------------

namespace CsappLabs

namespace CString

abbrev Text := List UInt8

/- The bytes of a string literal. -/
def text
    (s : String) :
    Text :=
  s.toList.map (fun c => UInt8.ofNat c.toNat)

/- A property of all bytes of a text, by computation. -/
theorem forall_mem_text
    {p : UInt8 → Prop}
    [DecidablePred p]
    {s : Text}
    (hAll : s.all (fun c => decide (p c)) = true) :
    ∀ c ∈ s, p c := by
  intro c hc
  exact of_decide_eq_true (List.all_eq_true.mp hAll c hc)

/- The string held by an array: what precedes its NUL. -/
def ofBytes
    (raw : List UInt8) :
    Text :=
  raw.takeWhile (fun c => c ≠ 0)

theorem ofBytes_of_not_mem
    {raw : List UInt8}
    (hNul : 0 ∉ raw) :
    ofBytes raw = raw := by
  rw [ofBytes, List.takeWhile_eq_self_iff]
  intro c hc
  have hNe : c ≠ 0 := by
    intro hZero
    exact hNul (hZero ▸ hc)
  simpa using hNe

theorem ofBytes_isPrefix
    (raw : List UInt8) :
    ofBytes raw <+: raw :=
  List.takeWhile_prefix _

theorem ofBytes_append_of_not_mem
    {raw : List UInt8}
    (hNul : 0 ∉ raw)
    (rest : List UInt8) :
    ofBytes (raw ++ rest) = raw ++ ofBytes rest := by
  rw [ofBytes, List.takeWhile_append_of_pos]
  · rfl
  · intro c hc
    have hNe : c ≠ 0 := by
      intro hZero
      exact hNul (hZero ▸ hc)
    simpa using hNe

/- An array shows nothing of what follows its NUL. -/
theorem ofBytes_append_of_mem
    {raw : List UInt8}
    (hNul : 0 ∈ raw)
    (rest : List UInt8) :
    ofBytes (raw ++ rest) = ofBytes raw := by
  induction raw with
  | nil => simp at hNul
  | cons c raw ih =>
      by_cases hc : c = 0
      · simp [ofBytes, hc]
      · have hMem : 0 ∈ raw := by
          simpa [Ne.symm hc] using hNul
        have hRest := ih hMem
        rw [ofBytes, ofBytes] at hRest
        rw [ofBytes, ofBytes, List.cons_append,
          List.takeWhile_cons, List.takeWhile_cons, hRest]

------------------------------------------------------------
-- Comparison
------------------------------------------------------------

def tolower
    (c : UInt8) :
    UInt8 :=
  if 65 ≤ c ∧ c ≤ 90 then
    c + 32
  else
    c

/- strcasecmp(a, b) == 0 -/
def strcasecmpEq
    (a b : Text) :
    Bool :=
  a.map tolower = b.map tolower

/- strncasecmp(a, b, n) == 0 -/
def strncasecmpEq
    (a b : Text)
    (n : Nat) :
    Bool :=
  strcasecmpEq (a.take n) (b.take n)

------------------------------------------------------------
-- strstr
------------------------------------------------------------

/-
  The first place of a non-empty needle, as what precedes
  it and what the returned pointer shows.
-/
def strstr
    (needle : Text) :
    Text → Option (Text × Text)
  | [] => none
  | c :: s =>
      if needle.isPrefixOf (c :: s) then
        some ([], c :: s)
      else
        (strstr needle s).map
          (fun found => (c :: found.1, found.2))

/- A text without the needle's first byte is passed over. -/
theorem strstr_append_of_not_mem
    {n : UInt8}
    (ns : Text)
    {before : Text}
    (hBefore : n ∉ before)
    (s : Text) :
    strstr (n :: ns) (before ++ s) =
      (strstr (n :: ns) s).map
        (fun found => (before ++ found.1, found.2)) := by
  induction before with
  | nil => simp
  | cons c before ih =>
      have hc : n ≠ c := by
        intro hEq
        exact hBefore (by simp [hEq])
      have hRest : n ∉ before := by
        intro hMem
        exact hBefore (List.mem_cons_of_mem c hMem)
      rw [List.cons_append, strstr, if_neg (by simp [hc]),
        ih hRest, Option.map_map]
      rfl

/- A needle of one byte splits the text in front of it. -/
theorem strstr_singleton
    (c : UInt8)
    (s : Text) :
    strstr [c] s =
      if c ∈ s then
        some (s.takeWhile (fun d => d ≠ c),
          s.dropWhile (fun d => d ≠ c))
      else
        none := by
  induction s with
  | nil => rfl
  | cons d s ih =>
      by_cases hEq : d = c
      · rw [hEq, strstr, if_pos (by simp),
          if_pos List.mem_cons_self]
        simp
      · have hNe : c ≠ d := Ne.symm hEq
        rw [strstr, if_neg (by simp [hNe]), ih]
        by_cases hMem : c ∈ s
        · rw [if_pos hMem, if_pos (List.mem_cons_of_mem d hMem),
            Option.map_some,
            List.takeWhile_cons_of_pos (by simpa using hEq),
            List.dropWhile_cons_of_pos (by simpa using hEq)]
        · rw [if_neg hMem,
            if_neg (by simp [hNe, hMem]), Option.map_none]

/- What is found is a place in the text. -/
theorem strstr_append
    {needle s before found : Text}
    (hFound : strstr needle s = some (before, found)) :
    before ++ found = s := by
  induction s generalizing before with
  | nil => cases hFound
  | cons c s ih =>
      rw [strstr] at hFound
      split at hFound
      · cases hFound
        rfl
      · rcases Option.map_eq_some_iff.mp hFound with
          ⟨pair, hPair, hEq⟩
        cases hEq
        rw [List.cons_append, ih hPair]

------------------------------------------------------------
-- sscanf
------------------------------------------------------------

/- isspace in the "C" locale. -/
def isspace
    (c : UInt8) :
    Bool :=
  c = 32 ∨ (9 ≤ c ∧ c ≤ 13)

/- A %s directive: the word it stores, and what follows. -/
def scanWord
    (s : Text) :
    Option (Text × Text) :=
  let start := s.dropWhile isspace
  match start.takeWhile (fun c => !isspace c) with
  | [] => none
  | c :: word =>
      some (c :: word,
        start.dropWhile (fun c => !isspace c))

/- sscanf(s, "%s", old): a failed match stores nothing. -/
def sscanfWord
    (s old : Text) :
    Text :=
  match scanWord s with
  | some (word, _) => word
  | none => old

/- A text without spaces is scanned whole. -/
theorem scanWord_of_word
    {word : Text}
    (hSome : word ≠ [])
    (hWord : ∀ c ∈ word, isspace c = false)
    {rest : Text}
    (hRest : ∀ c ∈ rest.head?, isspace c = true) :
    scanWord (word ++ rest) = some (word, rest) := by
  rcases List.exists_cons_of_ne_nil hSome with ⟨c, cs, hCons⟩
  have hFirst : isspace c = false :=
    hWord c (by rw [hCons]; exact List.mem_cons_self)
  have hStart :
      (word ++ rest).dropWhile isspace = word ++ rest := by
    rw [hCons, List.cons_append, List.dropWhile_cons,
      hFirst]
    rfl
  have hAll : ∀ d ∈ word, (!isspace d) = true := by
    intro d hd
    simp [hWord d hd]
  have hStop :
      rest.takeWhile (fun c => !isspace c) = [] ∧
        rest.dropWhile (fun c => !isspace c) = rest := by
    cases rest with
    | nil => exact ⟨rfl, rfl⟩
    | cons d ds =>
        have hd : isspace d = true := hRest d rfl
        simp [hd]
  have hTake :
      (word ++ rest).takeWhile (fun c => !isspace c) =
        word := by
    rw [List.takeWhile_append_of_pos hAll, hStop.1,
      List.append_nil]
  have hDrop :
      (word ++ rest).dropWhile (fun c => !isspace c) =
        rest := by
    rw [List.dropWhile_append_of_pos hAll, hStop.2]
  rw [scanWord]
  simp only [hStart, hTake, hDrop]
  rw [hCons]

/- Spaces in front of a word are skipped. -/
theorem scanWord_cons_space
    {c : UInt8}
    (hc : isspace c = true)
    (s : Text) :
    scanWord (c :: s) = scanWord s := by
  rw [scanWord, scanWord, List.dropWhile_cons, if_pos hc]

theorem sscanfWord_of_word
    {word : Text}
    (hSome : word ≠ [])
    (hWord : ∀ c ∈ word, isspace c = false)
    (old : Text) :
    sscanfWord word old = word := by
  have hScan : scanWord (word ++ []) = some (word, []) :=
    scanWord_of_word hSome hWord (by simp)
  rw [List.append_nil] at hScan
  rw [sscanfWord, hScan]

/- A word is not longer than the text it was scanned from. -/
theorem scanWord_length
    {s word rest : Text}
    (hScan : scanWord s = some (word, rest)) :
    word.length + rest.length ≤ s.length := by
  have hSplit :
      word ++ rest = s.dropWhile isspace := by
    rw [scanWord] at hScan
    split at hScan
    · cases hScan
    · rename_i hTake
      cases hScan
      rw [← hTake]
      exact List.takeWhile_append_dropWhile
  rw [← List.length_append, hSplit]
  exact (List.dropWhile_suffix _).length_le

def isdigit
    (c : UInt8) :
    Bool :=
  48 ≤ c ∧ c ≤ 57

/- The value of a run of decimal digits. -/
def digitsValue
    (ds : Text) :
    Nat :=
  ds.foldl (fun acc d => 10 * acc + (d.toNat - 48)) 0

/-
  What a long can hold, cut down to an int: how a %d stores
  a number out of the range of int.
-/
def toInt
    (n : Int) :
    Int :=
  let long := max (-2 ^ 63) (min (2 ^ 63 - 1) n)
  (long + 2 ^ 31) % 2 ^ 32 - 2 ^ 31

/- The optional sign of a %d directive. -/
def scanSign :
    Text → Int × Text
  | [] => (1, [])
  | c :: s =>
      if c = 45 then
        (-1, s)
      else if c = 43 then
        (1, s)
      else
        (1, c :: s)

/- A %d directive: the int it stores, and what follows. -/
def scanInt
    (s : Text) :
    Option (Int × Text) :=
  let signed := scanSign (s.dropWhile isspace)
  match signed.2.takeWhile isdigit with
  | [] => none
  | d :: ds =>
      some (toInt (signed.1 * digitsValue (d :: ds)),
        signed.2.dropWhile isdigit)

theorem scanInt_length
    {s rest : Text}
    {n : Int}
    (hScan : scanInt s = some (n, rest)) :
    rest.length ≤ s.length := by
  have hSign :
      (scanSign (s.dropWhile isspace)).2.length ≤
        (s.dropWhile isspace).length := by
    cases s.dropWhile isspace with
    | nil => exact Nat.le_refl _
    | cons c t =>
        rw [scanSign]
        split
        · exact Nat.le_succ _
        · split
          · exact Nat.le_succ _
          · exact Nat.le_refl _
  have hDrop := (List.dropWhile_suffix (l := s) isspace).length_le
  unfold scanInt at hScan
  simp only at hScan
  split at hScan
  · cases hScan
  · cases hScan
    have hDigits :=
      (List.dropWhile_suffix
        (l := (scanSign (s.dropWhile isspace)).2)
        isdigit).length_le
    omega

end CString

end CsappLabs
