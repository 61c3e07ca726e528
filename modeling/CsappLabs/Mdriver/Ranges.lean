import CsappLabs.Lib.Interval
import CsappLabs.Malloc.Macros

/-
  The range list of the malloc driver
  (malloc/malloclab/mdriver.c).

  add_range tests whether an end of a new payload lies in a
  recorded one.  A new payload that holds a whole recorded one
  between its ends passes the test.

  Key definitions include:
    * `Memlib`, `Range`, `Alarm`
    * `addRange`, `removeRange`
    * `Recordable`, `Guarded`

  Key theorems include:
    * `addRange_ok_iff`
    * `addRange_sound`
-/

------------------------------------------------------------
-- memlib
------------------------------------------------------------

namespace CsappLabs

namespace Mdriver

open Malloc (null u32 asInt maxHeap)
open Interval (EndIn Inside)

/-
  The simulated memory.  mem_init got MAX_HEAP bytes from
  malloc, and mem_sbrk keeps the break among them.
-/
structure Memlib where
  mem : ByteMemory
  memStartBrk : Nat
  memBrk : Nat
  nonnull : 0 < memStartBrk
  grown : memStartBrk ≤ memBrk
  bounded : memBrk ≤ memStartBrk + maxHeap
  addressable : memStartBrk + maxHeap < 2 ^ 32

/- mem_heap_lo -/
def memHeapLo (memlib : Memlib) : Nat :=
  memlib.memStartBrk

/- mem_heap_hi -/
def memHeapHi (memlib : Memlib) : Nat :=
  memlib.memBrk - 1

/- mem_reset_brk -/
def memResetBrk (memlib : Memlib) : Memlib :=
  { memlib with
    memBrk := memlib.memStartBrk
    grown := Nat.le_refl _
    bounded := Nat.le_add_right _ _ }

------------------------------------------------------------
-- The Range List
------------------------------------------------------------

/- range_t; the list is a Lean list. -/
structure Range where
  lo : Nat
  hi : Nat
  deriving DecidableEq, Repr

/- ALIGNMENT -/
def alignment : Nat := 8

/- IS_ALIGNED -/
def isAligned (p : Nat) : Bool :=
  p % alignment == 0

/- What malloc_error reports, and the assertion. -/
inductive Alarm where
  | assertion
  | notAligned (lo : Nat)
  | outsideHeap (lo hi heapLo heapHi : Nat)
  | overlaps (lo hi : Nat) (other : Range)
  | initFailed
  | mallocFailed
  | reallocFailed
  | notPreserved
  deriving DecidableEq, Repr

/- lo + size - 1, as a pointer of 32 bits. -/
def highAddress (lo size : Nat) : Nat :=
  u32 (lo + size + (2 ^ 32 - 1))

/- The first recorded range that the loop complains about. -/
def findOverlap
    (lo hi : Nat) :
    List Range → Option Range
  | [] => none
  | p :: next =>
      if (lo ≥ p.lo ∧ lo ≤ p.hi) ∨
          (hi ≥ p.lo ∧ hi ≤ p.hi) then
        some p
      else
        findOverlap lo hi next

/- add_range; malloc gives a record for the new range. -/
def addRange
    (memlib : Memlib)
    (ranges : List Range)
    (lo size : Nat) :
    Except Alarm (List Range) :=
  let hi := highAddress lo size
  if ¬ 0 < asInt size then
    .error .assertion
  else if ¬ isAligned lo then
    .error (.notAligned lo)
  else if
      lo < memHeapLo memlib ∨ lo > memHeapHi memlib ∨
        hi < memHeapLo memlib ∨ hi > memHeapHi memlib then
    .error
      (.outsideHeap lo hi (memHeapLo memlib)
        (memHeapHi memlib))
  else
    match findOverlap lo hi ranges with
    | some p => .error (.overlaps lo hi p)
    | none => .ok (⟨lo, hi⟩ :: ranges)

/- remove_range -/
def removeRange :
    List Range → Nat → List Range
  | [], _ => []
  | p :: next, lo =>
      if p.lo = lo then
        next
      else
        p :: removeRange next lo

/- clear_ranges -/
def clearRanges (_ : List Range) : List Range := []

------------------------------------------------------------
-- What a Record Promises
------------------------------------------------------------

/- The addresses of a range. -/
def Range.addresses (range : Range) : Set Nat :=
  Set.Icc range.lo range.hi

/-
  The payload is aligned, in the heap, and disjoint from every
  recorded range.
-/
structure Recordable
    (memlib : Memlib)
    (ranges : List Range)
    (lo size : Nat) :
    Prop where
  aligned : lo % 8 = 0
  above : memHeapLo memlib ≤ lo
  below : lo + size - 1 ≤ memHeapHi memlib
  apart :
    ∀ range ∈ ranges,
      Disjoint (Set.Icc lo (lo + size - 1))
        range.addresses

/- The tests of add_range, one by one. -/
structure Passes
    (memlib : Memlib)
    (ranges : List Range)
    (lo size : Nat) :
    Prop where
  aligned : lo % 8 = 0
  above : memHeapLo memlib ≤ lo
  below : lo + size - 1 ≤ memHeapHi memlib
  ends :
    ∀ range ∈ ranges,
      ¬ EndIn lo (lo + size - 1) range.lo range.hi

/-
  No recorded range lies inside the payload, or another test
  turns the payload down.
-/
def Guarded
    (memlib : Memlib)
    (ranges : List Range)
    (lo size : Nat) :
    Prop :=
  (∃ range ∈ ranges,
      Inside lo (lo + size - 1) range.lo range.hi) →
    lo % 8 ≠ 0 ∨ lo < memHeapLo memlib ∨
      memHeapHi memlib < lo + size - 1 ∨
        ∃ range ∈ ranges,
          EndIn lo (lo + size - 1) range.lo range.hi

------------------------------------------------------------
-- add_range
------------------------------------------------------------

variable {memlib : Memlib}
variable {ranges ranges' : List Range}
variable {lo hi size : Nat}

theorem findOverlap_eq_none_iff :
    findOverlap lo hi ranges = none ↔
      ∀ range ∈ ranges,
        ¬ EndIn lo hi range.lo range.hi := by
  induction ranges with
  | nil => simp [findOverlap]
  | cons range ranges ih =>
      rw [findOverlap, List.forall_mem_cons, ← ih]
      unfold EndIn
      by_cases hEnd :
          (lo ≥ range.lo ∧ lo ≤ range.hi) ∨
            (hi ≥ range.lo ∧ hi ≤ range.hi)
      · rw [if_pos hEnd]
        simp [hEnd]
      · rw [if_neg hEnd]
        simp [hEnd]

/- A payload whose ends are both in the heap does not wrap. -/
theorem inHeap_iff
    (hPositive : 0 < size)
    (hInt : size < 2 ^ 31) :
    ¬ (lo < memHeapLo memlib ∨ lo > memHeapHi memlib ∨
        highAddress lo size < memHeapLo memlib ∨
          highAddress lo size > memHeapHi memlib) ↔
      memHeapLo memlib ≤ lo ∧
        lo + size - 1 ≤ memHeapHi memlib := by
  have hNonnull := memlib.nonnull
  have hGrown := memlib.grown
  have hBounded := memlib.bounded
  have hAddressable := memlib.addressable
  have hMax : maxHeap = 20971520 := by
    decide
  unfold highAddress u32 memHeapLo memHeapHi
  omega

theorem highAddress_eq
    (hPositive : 0 < size)
    (hBelow : lo + size - 1 ≤ memHeapHi memlib) :
    highAddress lo size = lo + size - 1 := by
  have hBounded := memlib.bounded
  have hAddressable := memlib.addressable
  unfold memHeapHi at hBelow
  unfold highAddress u32
  omega

/- The words of 32 bits that are positive ints. -/
theorem asInt_pos_iff
    (hWord : size < 2 ^ 32) :
    0 < asInt size ↔ 0 < size ∧ size < 2 ^ 31 := by
  unfold asInt
  split
  · omega
  · omega

theorem asInt_of_lt
    (hInt : size < 2 ^ 31) :
    asInt size = size := by
  unfold asInt
  rw [if_pos (by omega)]
  omega

/- What add_range records, and when. -/
theorem addRange_ok_iff
    (hPositive : 0 < size)
    (hInt : size < 2 ^ 31) :
    addRange memlib ranges lo size = .ok ranges' ↔
      Passes memlib ranges lo size ∧
        ranges' = ⟨lo, lo + size - 1⟩ :: ranges := by
  have hAsInt : 0 < asInt size :=
    (asInt_pos_iff (by omega)).mpr ⟨hPositive, hInt⟩
  have hHeap := @inHeap_iff memlib lo size hPositive hInt
  unfold addRange
  rw [if_neg (not_not_intro hAsInt)]
  constructor
  · intro hOk
    by_cases hAligned : isAligned lo = true
    · rw [if_neg (not_not_intro hAligned)] at hOk
      by_cases hOutside :
          lo < memHeapLo memlib ∨ lo > memHeapHi memlib ∨
            highAddress lo size < memHeapLo memlib ∨
              highAddress lo size > memHeapHi memlib
      · rw [if_pos hOutside] at hOk
        cases hOk
      · rw [if_neg hOutside] at hOk
        rcases hHeap.mp hOutside with ⟨hAbove, hBelow⟩
        rw [highAddress_eq hPositive hBelow] at hOk
        cases hFind :
            findOverlap lo (lo + size - 1) ranges with
        | some range =>
            rw [hFind] at hOk
            cases hOk
        | none =>
            rw [hFind] at hOk
            cases hOk
            exact
              ⟨⟨eq_of_beq hAligned, hAbove, hBelow,
                findOverlap_eq_none_iff.mp hFind⟩, rfl⟩
    · rw [if_pos hAligned] at hOk
      cases hOk
  · rintro ⟨hPasses, rfl⟩
    have hAligned : isAligned lo = true :=
      beq_iff_eq.mpr hPasses.aligned
    have hInside :=
      hHeap.mpr ⟨hPasses.above, hPasses.below⟩
    have hFind :=
      findOverlap_eq_none_iff.mpr hPasses.ends
    rw [if_neg (not_not_intro hAligned), if_neg hInside,
      highAddress_eq hPositive hPasses.below, hFind]

/- A range of no or of negative size is never recorded. -/
theorem addRange_ok_positive
    (hOk : addRange memlib ranges lo size = .ok ranges') :
    0 < asInt size := by
  by_contra hAsInt
  unfold addRange at hOk
  rw [if_pos hAsInt] at hOk
  cases hOk

/-
  A payload that passes may be recorded, unless a recorded
  range lies inside it.
-/
theorem Passes.recordable_iff
    (hPositive : 0 < size)
    (hPasses : Passes memlib ranges lo size) :
    Recordable memlib ranges lo size ↔
      ∀ range ∈ ranges,
        ¬ Inside lo (lo + size - 1) range.lo range.hi := by
  have hNonempty : lo ≤ lo + size - 1 := by
    omega
  constructor
  · intro hRecordable range hMem
    exact
      ((Interval.disjoint_iff_ends hNonempty).mp
        (hRecordable.apart range hMem)).2
  · intro hNone
    refine
      ⟨hPasses.aligned, hPasses.above, hPasses.below, ?_⟩
    intro range hMem
    exact
      (Interval.disjoint_iff_ends hNonempty).mpr
        ⟨hPasses.ends range hMem, hNone range hMem⟩

/- A guarded payload that passes may be recorded. -/
theorem Guarded.recordable
    (hPositive : 0 < size)
    (hGuarded : Guarded memlib ranges lo size)
    (hPasses : Passes memlib ranges lo size) :
    Recordable memlib ranges lo size := by
  rw [hPasses.recordable_iff hPositive]
  intro range hMem hInside
  rcases hGuarded ⟨range, hMem, hInside⟩ with
    hAligned | hBelow | hAbove | ⟨other, hOther, hEnd⟩
  · exact hAligned hPasses.aligned
  · exact absurd hPasses.above (not_le.mpr hBelow)
  · exact absurd hPasses.below (not_le.mpr hAbove)
  · exact hPasses.ends other hOther hEnd

/- One call of add_range is sound if and only if guarded. -/
theorem addRange_sound
    (hPositive : 0 < size)
    (hInt : size < 2 ^ 31) :
    (∀ ranges',
      addRange memlib ranges lo size = .ok ranges' →
        Recordable memlib ranges lo size) ↔
      Guarded memlib ranges lo size := by
  constructor
  · rintro hSound ⟨range, hMem, hInside⟩
    by_contra hNone
    rw [not_or, not_or, not_or, not_not, not_lt, not_lt]
      at hNone
    rcases hNone with ⟨hAligned, hAbove, hBelow, hEnds⟩
    have hPasses : Passes memlib ranges lo size :=
      ⟨hAligned, hAbove, hBelow,
        fun other hOther hEnd =>
          hEnds ⟨other, hOther, hEnd⟩⟩
    have hRecordable :=
      hSound _
        ((addRange_ok_iff hPositive hInt).mpr ⟨hPasses, rfl⟩)
    exact
      (hPasses.recordable_iff hPositive).mp hRecordable
        range hMem hInside
  · intro hGuarded ranges' hOk
    exact
      hGuarded.recordable hPositive
        ((addRange_ok_iff hPositive hInt).mp hOk).1

------------------------------------------------------------
-- Disjoint Records
------------------------------------------------------------

/- The recorded ranges have no address in common. -/
def Separate (ranges : List Range) : Prop :=
  ranges.Pairwise fun left right =>
    Disjoint left.addresses right.addresses

/- remove_range takes out at most one record. -/
theorem removeRange_sublist
    (ranges : List Range)
    (lo : Nat) :
    List.Sublist (removeRange ranges lo) ranges := by
  induction ranges with
  | nil => exact .slnil
  | cons range ranges ih =>
      rw [removeRange]
      split
      · exact List.sublist_cons_self range ranges
      · exact ih.cons_cons range

theorem Separate.removeRange
    (hSeparate : Separate ranges)
    (lo : Nat) :
    Separate (removeRange ranges lo) :=
  List.Pairwise.sublist (removeRange_sublist ranges lo)
    hSeparate

/- A guarded call of add_range keeps the records disjoint. -/
theorem Separate.addRange
    (hSeparate : Separate ranges)
    (hGuarded : Guarded memlib ranges lo size)
    (hOk : addRange memlib ranges lo size = .ok ranges')
    (hSize : size < 2 ^ 32) :
    Separate ranges' := by
  rcases
      (asInt_pos_iff hSize).mp (addRange_ok_positive hOk)
    with ⟨hPositive, hInt⟩
  rcases (addRange_ok_iff hPositive hInt).mp hOk with
    ⟨hPasses, rfl⟩
  exact
    List.pairwise_cons.mpr
      ⟨(hGuarded.recordable hPositive hPasses).apart,
        hSeparate⟩

end Mdriver

end CsappLabs
