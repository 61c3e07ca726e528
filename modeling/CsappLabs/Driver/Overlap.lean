import CsappLabs.Driver.RangeSet

/-
  Does the range set detect every overlap?

  `add_range` takes the successor of a new range from its
  predecessor.  A range below all the recorded ones has no
  predecessor, so it is compared with none of them, and the
  list is cut off where it is linked in.  A range whose last
  address wraps around passes the test of the heap.  In every
  run without these two kinds of call, the list and the tree
  agree and each call tells the ranges that may be recorded
  from those that may not.

  Key definitions:
    * `Recorded`, `Admissible`
    * `AddHandled`, `RemoveHandled`
    * `Guarded`

  Key theorems:
    * `InStep.addHandled_iff`
    * `InStep.removeHandled`
    * `range_set_detects_overlaps`
-/

------------------------------------------------------------
-- What The Range Set Is For
------------------------------------------------------------

namespace CsappLabs

namespace Driver

open Splay (Ptr Stop treeFind mapOf ok_bind)
open LinkedList (first last)
open SortedMap Transition

/- The range is stored in the tree. -/
def Recorded
    (ranges : RangeSet)
    (lo hi : Nat) :
    Prop :=
  ∃ tree p range,
    treeFind ranges.loTree (asLong lo) =
        .ok (tree, some p) ∧
      ranges.records p = some range ∧
        range.lo = lo ∧ range.hi = hi

/-
  The range is aligned, in the heap, and disjoint from every
  range currently recorded.
-/
structure Admissible
    (heap : HeapExtent)
    (ranges : RangeSet)
    (lo size : Nat) :
    Prop where
  aligned : lo % alignment = 0
  above : heap.lo ≤ lo
  below : lo + size - 1 ≤ heap.hi
  disjoint :
    ∀ lo' hi', Recorded ranges lo' hi' →
      lo + size - 1 < lo' ∨ hi' < lo

/-
  add_range returns, with true exactly for an admissible
  range, which it records; the list and the tree agree.
-/
def AddHandled
    (debugMode : DebugMode)
    (heap : HeapExtent)
    (ranges : RangeSet)
    (lo size : Nat)
    (index : Int)
    (malloced node : Ptr) :
    Prop :=
  ∃ ranges' isNew,
    addRange debugMode heap ranges lo size index malloced
        node =
      .ok (ranges', isNew) ∧
      (isNew = true ↔ Admissible heap ranges lo size) ∧
      (∃ items, InStep ranges' items) ∧
      ∀ lo' hi',
        Recorded ranges' lo' hi' ↔
          Recorded ranges lo' hi' ∨
            (isNew = true ∧ lo' = lo ∧
              hi' = lo + size - 1)

/-
  remove_range returns, and takes out the range that starts
  at its address; the list and the tree agree.
-/
def RemoveHandled
    (ranges : RangeSet)
    (lo : Nat) :
    Prop :=
  ∃ ranges',
    removeRange ranges lo = .ok ranges' ∧
      (∃ items, InStep ranges' items) ∧
      ∀ lo' hi',
        Recorded ranges' lo' hi' ↔
          Recorded ranges lo' hi' ∧ lo' ≠ lo

/-
  The tests of the address alone: its alignment, and both
  ends in the heap.
-/
structure Examined
    (heap : HeapExtent)
    (lo hi : Nat) :
    Prop where
  aligned : lo % alignment = 0
  lowAbove : heap.lo ≤ lo
  lowBelow : lo ≤ heap.hi
  highAbove : heap.lo ≤ hi
  highBelow : hi ≤ heap.hi

/-
  A range that passes these tests has a predecessor, unless
  none is recorded; and its last address does not wrap
  around, unless the predecessor reaches its first.
-/
def Guarded
    (heap : HeapExtent)
    (ranges : RangeSet)
    (lo size : Nat) :
    Prop :=
  Examined heap lo (highAddress lo size) →
    ((∀ lo' hi', ¬Recorded ranges lo' hi') ∨
        ∃ lo' hi', Recorded ranges lo' hi' ∧ lo' ≤ lo) ∧
      (lo + size ≤ 2 ^ 64 ∨
        ∃ lo' hi', Recorded ranges lo' hi' ∧
          lo' ≤ lo ∧ lo ≤ hi')

------------------------------------------------------------
-- Addresses
------------------------------------------------------------

variable {debugMode : DebugMode} {heap : HeapExtent}
variable {ranges ranges' : RangeSet}
variable {items front back : List Item} {a item : Item}
variable {lo hi size : Nat} {index : Int}
variable {p z : Nat} {node : Ptr}

theorem highAddress_of_room
    (hPositive : 0 < size)
    (hRoom : lo + size ≤ 2 ^ 64) :
    highAddress lo size = lo + size - 1 := by
  unfold highAddress
  omega

theorem highAddress_wrapped
    (hWraps : 2 ^ 64 < lo + size)
    (hSize : size < 2 ^ 64) :
    highAddress lo size < lo := by
  unfold highAddress
  omega

/- The heap ends too low for a range that wraps around. -/
theorem not_admissible_of_wraps
    (hWraps : 2 ^ 64 < lo + size) :
    ¬Admissible heap ranges lo size := by
  intro hAdmissible
  have hBelow := hAdmissible.below
  have hHeap := heap.below
  omega

theorem Admissible.examined
    (hAdmissible : Admissible heap ranges lo size)
    (hPositive : 0 < size) :
    Examined heap lo (highAddress lo size) := by
  have hBelow := hAdmissible.below
  have hAbove := hAdmissible.above
  have hHeap := heap.below
  rw [highAddress_of_room hPositive (by omega)]
  exact ⟨hAdmissible.aligned, hAbove, by omega, by omega,
    hBelow⟩

theorem addRange_rejects
    (hPositive : 0 < size)
    (hNot : ¬Examined heap lo (highAddress lo size)) :
    addRange debugMode heap ranges lo size index (some p)
        node =
      .ok (ranges, false) := by
  rw [addRange, if_neg (by omega)]
  split_ifs with hAligned hOutside
  · rfl
  · rfl
  all_goals
    push Not at hAligned hOutside
    exact absurd
      ⟨hAligned, hOutside.1, hOutside.2.1, hOutside.2.2.1,
        hOutside.2.2.2⟩ hNot

theorem addRange_examined
    (hMode : debugMode ≠ .none)
    (hPositive : 0 < size)
    (hExamined : Examined heap lo (highAddress lo size)) :
    addRange debugMode heap ranges lo size index (some p)
        node =
      recordRange ranges lo (highAddress lo size) index
        (some p) node := by
  have hOutside :
      ¬(lo < heap.lo ∨ heap.hi < lo ∨
        highAddress lo size < heap.lo ∨
          heap.hi < highAddress lo size) := by
    have hLowAbove := hExamined.lowAbove
    have hLowBelow := hExamined.lowBelow
    have hHighAbove := hExamined.highAbove
    have hHighBelow := hExamined.highBelow
    omega
  rw [addRange, if_neg (by omega),
    if_neg (not_not.mpr hExamined.aligned),
    if_neg hOutside, if_neg hMode]

------------------------------------------------------------
-- What Is Recorded
------------------------------------------------------------

/- The recorded ranges are the items. -/
theorem InStep.recorded_iff
    (hStep : InStep ranges items) :
    Recorded ranges lo hi ↔
      ∃ item ∈ items, item.lo = lo ∧ item.hi = hi := by
  rcases hStep.tree with ⟨t, hTree, hMap⟩
  rcases Splay.treeFind_spec hTree (asLong lo) with
    ⟨count, hFind⟩
  constructor
  · rintro ⟨tree, p, range, hRun, hRange, hLo, hHi⟩
    rw [hFind] at hRun
    have hLookup :
        ((mapOf t).lookup (asLong lo)).join = some p :=
      congrArg Prod.snd (Except.ok.inj hRun)
    rw [Option.join_eq_some_iff, hMap,
      lookup_toMap_iff hStep.apart.sorted_keyed] at hLookup
    rcases List.mem_map.mp hLookup with ⟨item, hItem, hEntry⟩
    have hLoc : item.loc = p :=
      Option.some.inj (congrArg Prod.snd hEntry)
    rcases hStep.held.mem hItem with ⟨next, prev, hNode⟩
    rw [← hLoc] at hRange
    have hCell := Option.some.inj (hRange.symm.trans hNode)
    rw [hCell] at hLo hHi
    exact ⟨item, hItem, hLo, hHi⟩
  · rintro ⟨item, hItem, rfl, rfl⟩
    have hProper := hStep.apart.proper item hItem
    rcases hStep.held.mem hItem with ⟨next, prev, hNode⟩
    rw [asLong_of_lt (by omega), hMap,
      lookup_keyed hStep.apart hItem] at hFind
    refine ⟨ranges.loTree.counted count, item.loc, _, ?_,
      hNode, rfl, rfl⟩
    rw [asLong_of_lt (by omega)]
    exact hFind

/- Disjointness from the recorded ranges, over the items. -/
theorem InStep.admissible
    (hStep : InStep ranges items)
    (hPositive : 0 < size)
    (hRoom : lo + size ≤ 2 ^ 64)
    (hExamined : Examined heap lo (highAddress lo size))
    (hDisjoint :
      ∀ item ∈ items,
        lo + size - 1 < item.lo ∨ item.hi < lo) :
    Admissible heap ranges lo size := by
  have hBelow := hExamined.highBelow
  rw [highAddress_of_room hPositive hRoom] at hBelow
  refine ⟨hExamined.aligned, hExamined.lowAbove, hBelow, ?_⟩
  intro lo' hi' hRecorded
  rcases hStep.recorded_iff.mp hRecorded with
    ⟨item, hItem, rfl, rfl⟩
  exact hDisjoint item hItem

theorem InStep.not_admissible
    (hStep : InStep ranges items)
    (hItem : item ∈ items)
    (hLow : item.lo ≤ lo + size - 1)
    (hHigh : lo ≤ item.hi) :
    ¬Admissible heap ranges lo size := by
  intro hAdmissible
  have hRecorded : Recorded ranges item.lo item.hi :=
    hStep.recorded_iff.mpr ⟨item, hItem, rfl, rfl⟩
  rcases hAdmissible.disjoint _ _ hRecorded with
    hBefore | hAfter
  · omega
  · omega

------------------------------------------------------------
-- One Call Of add_range
------------------------------------------------------------

/- A call that refuses and only counts comparisons. -/
theorem addHandled_refused
    (hStep : InStep ranges' items)
    (hSame :
      ∀ lo' hi',
        Recorded ranges' lo' hi' ↔ Recorded ranges lo' hi')
    (hRun :
      addRange debugMode heap ranges lo size index (some p)
          node =
        .ok (ranges', false))
    (hNot : ¬Admissible heap ranges lo size) :
    AddHandled debugMode heap ranges lo size index (some p)
      node := by
  refine ⟨ranges', false, hRun, ?_, ⟨items, hStep⟩, ?_⟩
  · simp [hNot]
  · intro lo' hi'
    simp [hSame]

/- A call that records an admissible range. -/
theorem addHandled_recorded
    (hBefore : InStep ranges (front ++ back))
    (hAfter : InStep ranges' (front ++ item :: back))
    (hLow : item.lo = lo)
    (hHigh : item.hi = lo + size - 1)
    (hRun :
      addRange debugMode heap ranges lo size index (some p)
          node =
        .ok (ranges', true))
    (hAdmissible : Admissible heap ranges lo size) :
    AddHandled debugMode heap ranges lo size index (some p)
      node := by
  refine ⟨ranges', true, hRun, ?_, ⟨_, hAfter⟩, ?_⟩
  · simp [hAdmissible]
  · intro lo' hi'
    rw [hAfter.recorded_iff, hBefore.recorded_iff]
    simp only [List.mem_append, List.mem_cons, true_and]
    constructor
    · rintro ⟨other, hOther, rfl, rfl⟩
      rcases hOther with hFront | rfl | hBack
      · exact .inl ⟨other, .inl hFront, rfl, rfl⟩
      · exact .inr ⟨hLow, hHigh⟩
      · exact .inl ⟨other, .inr hBack, rfl, rfl⟩
    · rintro (⟨other, hOther, rfl, rfl⟩ | ⟨rfl, rfl⟩)
      · refine ⟨other, ?_, rfl, rfl⟩
        rcases hOther with hFront | hBack
        · exact .inl hFront
        · exact .inr (.inr hBack)
      · exact ⟨item, .inr (.inl rfl), hLow, hHigh⟩

/- A call that can only return true. -/
theorem not_addHandled
    {inserted : Except Stop RangeSet}
    (hRun :
      addRange debugMode heap ranges lo size index (some p)
          node =
        inserted >>= fun ranges => .ok (ranges, true))
    (hNot : ¬Admissible heap ranges lo size) :
    ¬AddHandled debugMode heap ranges lo size index (some p)
      node := by
  rintro ⟨ranges', isNew, hOk, hIff, -⟩
  rw [hRun] at hOk
  cases inserted with
  | error stop => cases hOk
  | ok inserted =>
      have hNew : true = isNew :=
        congrArg Prod.snd (Except.ok.inj hOk)
      exact hNot (hIff.mp hNew.symm)

/- A search leaves what is recorded. -/
theorem InStep.recorded_counted
    (hStep : InStep ranges items)
    (count : Nat) :
    Recorded (ranges.counted count) lo hi ↔
      Recorded ranges lo hi := by
  rw [hStep.recorded_iff, (hStep.counted count).recorded_iff]

/- The record that add_range makes of a range. -/
def newItem (p lo size : Nat) (index : Int) : Item where
  loc := p
  lo := lo
  hi := lo + size - 1
  index := index

/- A range that keeps apart from its neighbours is recorded. -/
theorem InStep.addHandled_between
    {count : Nat}
    (hStep : InStep ranges (front ++ back))
    (hPositive : 0 < size)
    (hRoom : lo + size ≤ 2 ^ 64)
    (hExamined : Examined heap lo (highAddress lo size))
    (hFront : ∀ other ∈ front, other.hi < lo)
    (hBack : ∀ other ∈ back, lo + size - 1 < other.lo)
    (hFresh : ranges.records p = none)
    (hNode : ranges.loTree.nodes z = none)
    (hRun :
      addRange debugMode heap ranges lo size index (some p)
          (some z) =
        insertRange (ranges.counted count) p
            { lo := lo
              hi := highAddress lo size
              index := index
              next := first rangeLinks back none
              prev := last rangeLinks none front }
            (some z) >>= fun ranges => .ok (ranges, true)) :
    AddHandled debugMode heap ranges lo size index (some p)
      (some z) := by
  have hDisjoint :
      ∀ other ∈ front ++ back,
        lo + size - 1 < other.lo ∨ other.hi < lo := by
    intro other hOther
    rcases List.mem_append.mp hOther with hLow | hHigh
    · exact .inr (hFront other hLow)
    · exact .inl (hBack other hHigh)
  have hAdmissible : Admissible heap ranges lo size :=
    hStep.admissible hPositive hRoom hExamined hDisjoint
  have hProper :
      lo ≤ lo + size - 1 ∧ lo + size - 1 < 2 ^ 63 := by
    have hBelow := hAdmissible.below
    have hHeap := heap.below
    omega
  have hApart :
      Apart (front ++ newItem p lo size index :: back) :=
    hStep.apart.insert hProper hFront hBack
  rcases
      @insertRange_spec (ranges.counted count) _ _ _ z
        (hStep.counted count) hApart hFresh hNode with
    ⟨ranges', hInsert, hAfter⟩
  refine addHandled_recorded hStep hAfter rfl rfl ?_
    hAdmissible
  rw [hRun, highAddress_of_room hPositive hRoom]
  exact congrArg (fun inserted => inserted >>= _) hInsert

/- A call with no range recorded. -/
theorem InStep.addHandled_empty
    (hStep : InStep ranges [])
    (hMode : debugMode ≠ .none)
    (hPositive : 0 < size)
    (hExamined : Examined heap lo (highAddress lo size))
    (hFresh : ranges.records p = none)
    (hNode : ranges.loTree.nodes z = none) :
    AddHandled debugMode heap ranges lo size index (some p)
        (some z) ↔
      Guarded heap ranges lo size := by
  have hNone : ∀ lo' hi', ¬Recorded ranges lo' hi' := by
    intro lo' hi'
    simp [hStep.recorded_iff]
  have hLow : lo < 2 ^ 63 :=
    Nat.lt_of_le_of_lt hExamined.lowBelow heap.below
  rcases
      @recordRange_below ranges [] lo (highAddress lo size)
        index p (some z) hStep (by simp) hLow with
    ⟨count, hRun⟩
  rw [← addRange_examined hMode hPositive hExamined] at hRun
  rcases Nat.lt_or_ge (2 ^ 64) (lo + size) with
    hWraps | hRoom
  · refine iff_of_false
      (not_addHandled hRun (not_admissible_of_wraps hWraps))
      ?_
    intro hGuarded
    rcases (hGuarded hExamined).2 with
      hRoom | ⟨lo', hi', hRecorded, -⟩
    · omega
    · exact hNone lo' hi' hRecorded
  · refine iff_of_true ?_
      fun _ => ⟨.inl hNone, .inl hRoom⟩
    exact @InStep.addHandled_between debugMode heap ranges []
      [] lo size index p z count hStep hPositive hRoom
      hExamined (by simp) (by simp) hFresh hNode hRun

/- A new list of one record, and what it says of the state. -/
theorem insertRange_alone
    {range : Range}
    (hNext : range.next = none)
    (hPrev : range.prev = none)
    (hRun : insertRange ranges p range node = .ok ranges') :
    ranges'.list = some p ∧
      ranges'.records p = some range := by
  unfold insertRange at hRun
  rw [hNext, hPrev] at hRun
  change (Splay.treeInsert ranges.loTree (asLong range.lo)
    (some p) node >>= _) = _ at hRun
  cases hInsert :
      Splay.treeInsert ranges.loTree (asLong range.lo)
        (some p) node with
  | error stop =>
      rw [hInsert] at hRun
      cases hRun
  | ok inserted =>
      rw [hInsert] at hRun
      cases hRun
      exact ⟨rfl, by simp⟩

/- A list whose first record has no successor. -/
theorem InStep.alone
    {range : Range}
    (hStep : InStep ranges items)
    (hList : ranges.list = some p)
    (hRange : ranges.records p = some range)
    (hNext : range.next = none) :
    ∃ item, items = [item] := by
  have hFirst := hStep.list.symm.trans hList
  cases items with
  | nil => cases hFirst
  | cons item rest =>
      have hLoc : rangeLinks.loc item = p :=
        Option.some.inj hFirst
      have hNode := hStep.held.1
      rw [hLoc, hRange] at hNode
      have hRest : first rangeLinks rest none = none := by
        have hSame :=
          congrArg Range.next (Option.some.inj hNode)
        exact hSame.symm.trans hNext
      cases rest with
      | nil => exact ⟨item, rfl⟩
      | cons other rest => cases hRest

/- A call below every recorded range goes wrong. -/
theorem InStep.addHandled_below
    (hStep : InStep ranges (a :: back))
    (hMode : debugMode ≠ .none)
    (hPositive : 0 < size)
    (hExamined : Examined heap lo (highAddress lo size))
    (hBelow : ∀ other ∈ a :: back, lo < other.lo) :
    ¬AddHandled debugMode heap ranges lo size index (some p)
        node ∧
      ¬Guarded heap ranges lo size := by
  have hLow : lo < 2 ^ 63 :=
    Nat.lt_of_le_of_lt hExamined.lowBelow heap.below
  rcases
      @recordRange_below ranges _ lo (highAddress lo size)
        index p node hStep hBelow hLow with
    ⟨count, hRun⟩
  rw [← addRange_examined hMode hPositive hExamined] at hRun
  have hFirst : Recorded ranges a.lo a.hi :=
    hStep.recorded_iff.mpr ⟨a, by simp, rfl, rfl⟩
  constructor
  · rintro ⟨ranges', isNew, hOk, -, ⟨items, hAfter⟩, hKept⟩
    rw [hRun] at hOk
    cases hInsert :
        insertRange (ranges.counted count) p
          { lo := lo
            hi := highAddress lo size
            index := index
            next := none
            prev := none }
          node with
    | error stop =>
        rw [hInsert] at hOk
        cases hOk
    | ok inserted =>
        rw [hInsert] at hOk
        cases hOk
        rcases insertRange_alone rfl rfl hInsert with
          ⟨hList, hNode⟩
        rcases hAfter.alone hList hNode rfl with ⟨item, rfl⟩
        have hOld := (hKept a.lo a.hi).mpr (.inl hFirst)
        have hNew :=
          (hKept lo _).mpr (.inr ⟨rfl, rfl, rfl⟩)
        rw [hAfter.recorded_iff] at hOld hNew
        rcases hOld with ⟨other, hOther, hSame, -⟩
        rcases hNew with ⟨other', hOther', hSame', -⟩
        rw [List.mem_singleton] at hOther hOther'
        have hAbove := hBelow a (by simp)
        rw [← hSame, ← hSame', hOther, hOther'] at hAbove
        exact absurd hAbove (lt_irrefl _)
  · intro hGuarded
    rcases (hGuarded hExamined).1 with
      hNone | ⟨lo', hi', hRecorded, hLe⟩
    · exact hNone _ _ hFirst
    · rcases hStep.recorded_iff.mp hRecorded with
        ⟨item, hItem, rfl, -⟩
      exact absurd hLe (Nat.not_le.mpr (hBelow item hItem))

/- What lies before a range ends before it does. -/
theorem Apart.ends_below
    (hApart : Apart (front ++ a :: back))
    (hEnd : a.hi < lo) :
    ∀ other ∈ front ++ [a], other.hi < lo := by
  intro other hOther
  rcases List.mem_append.mp hOther with hFront | hSelf
  · have hBefore :=
      (List.pairwise_append.mp hApart.sorted).2.2 other hFront
        a (by simp)
    have hProper := hApart.proper a (by simp)
    omega
  · rw [List.mem_singleton.mp hSelf]
    exact hEnd

/- What follows the first of some ranges starts above it. -/
theorem Apart.starts_above
    (hApart : Apart back)
    (hFirst : ¬∃ other ∈ back.head?, other.lo ≤ hi) :
    ∀ other ∈ back, hi < other.lo := by
  cases back with
  | nil => simp
  | cons b back =>
      have hAbove : hi < b.lo := by
        by_contra hNot
        exact hFirst ⟨b, by simp, by omega⟩
      intro other hOther
      rcases List.mem_cons.mp hOther with rfl | hBack
      · exact hAbove
      · have hLess :=
          (List.pairwise_cons.mp hApart.lows).1 other hBack
        omega

/- The ranges behind one of some ranges. -/
theorem Apart.behind
    (hApart : Apart (front ++ a :: back)) :
    Apart back := by
  have hSub : back.Sublist (front ++ a :: back) :=
    (List.sublist_cons_self a back).trans
      (List.sublist_append_right _ _)
  exact ⟨fun other hOther =>
      hApart.proper other (hSub.subset hOther),
    hApart.sorted.sublist hSub⟩

/- A range that wraps around and reaches no other. -/
theorem InStep.not_guarded_of_wraps
    (hStep : InStep ranges (front ++ back))
    (hExamined : Examined heap lo (highAddress lo size))
    (hWraps : 2 ^ 64 < lo + size)
    (hFront : ∀ other ∈ front, other.hi < lo)
    (hBack : ∀ other ∈ back, lo < other.lo) :
    ¬Guarded heap ranges lo size := by
  intro hGuarded
  rcases (hGuarded hExamined).2 with
    hRoom | ⟨lo', hi', hOther, hBelow, hContains⟩
  · omega
  · rcases hStep.recorded_iff.mp hOther with
      ⟨other, hItem, rfl, rfl⟩
    rcases List.mem_append.mp hItem with hLeft | hRight
    · have hEnd := hFront other hLeft
      omega
    · have hAbove := hBack other hRight
      omega

/- A call that finds a recorded range in its way. -/
theorem InStep.addHandled_overlapping
    {count : Nat}
    (hStep : InStep ranges items)
    (hItem : item ∈ items)
    (hBelow : item.lo ≤ lo + size - 1)
    (hReaches : lo ≤ item.hi)
    (hRun :
      addRange debugMode heap ranges lo size index (some p)
          node =
        .ok (ranges.counted count, false)) :
    AddHandled debugMode heap ranges lo size index (some p)
      node :=
  addHandled_refused (hStep.counted count)
    (fun _ _ => hStep.recorded_counted count) hRun
    (hStep.not_admissible hItem hBelow hReaches)

/- A call at or above some recorded range. -/
theorem InStep.addHandled_above
    (hStep : InStep ranges (front ++ a :: back))
    (hMode : debugMode ≠ .none)
    (hPositive : 0 < size)
    (hSize : size < 2 ^ 64)
    (hExamined : Examined heap lo (highAddress lo size))
    (hFront : ∀ other ∈ front ++ [a], other.lo ≤ lo)
    (hBack : ∀ other ∈ back, lo < other.lo)
    (hFresh : ranges.records p = none)
    (hNode : ranges.loTree.nodes z = none) :
    AddHandled debugMode heap ranges lo size index (some p)
        (some z) ↔
      Guarded heap ranges lo size := by
  have hLow : lo < 2 ^ 63 :=
    Nat.lt_of_le_of_lt hExamined.lowBelow heap.below
  have hLe : a.lo ≤ lo := hFront a (by simp)
  have hRecorded : Recorded ranges a.lo a.hi :=
    hStep.recorded_iff.mpr ⟨a, by simp, rfl, rfl⟩
  have hPred :
      ∃ lo' hi', Recorded ranges lo' hi' ∧ lo' ≤ lo :=
    ⟨_, _, hRecorded, hLe⟩
  rcases
      @recordRange_above ranges front back lo
        (highAddress lo size) index a p (some z) hStep hFront
        hBack hLow with
    ⟨count, hRun⟩
  rw [← addRange_examined hMode hPositive hExamined] at hRun
  by_cases hReaches : lo ≤ a.hi
  · rw [if_pos hReaches] at hRun
    exact iff_of_true
      (hStep.addHandled_overlapping (by simp) (by omega)
        hReaches hRun)
      fun _ =>
        ⟨.inr hPred, .inr ⟨_, _, hRecorded, hLe, hReaches⟩⟩
  · rw [if_neg hReaches] at hRun
    have hSplit : InStep ranges (front ++ [a] ++ back) := by
      simpa using hStep
    rcases
        @overlapsNext_eq _ _ _ (highAddress lo size)
          (hSplit.counted count) with
      ⟨after, hAfter, hOverlaps⟩
    rw [hAfter, ok_bind] at hRun
    have hEnds :=
      hStep.apart.ends_below (Nat.not_le.mp hReaches)
    cases after with
    | true =>
        rcases hOverlaps.mp rfl with ⟨b, hHead, hOverlap⟩
        have hMember : b ∈ back := List.mem_of_mem_head? hHead
        have hAbove := hBack b hMember
        have hRoom : lo + size ≤ 2 ^ 64 := by
          by_contra hNot
          have hWrapped :=
            highAddress_wrapped (Nat.not_le.mp hNot) hSize
          omega
        rw [highAddress_of_room hPositive hRoom] at hOverlap
        have hProper :=
          hStep.apart.proper b (by simp [hMember])
        exact iff_of_true
          (hStep.addHandled_overlapping
            (by simp [hMember]) hOverlap (by omega) hRun)
          fun _ => ⟨.inr hPred, .inl hRoom⟩
    | false =>
        have hClear :
            ¬∃ other ∈ back.head?,
              other.lo ≤ highAddress lo size := by
          simpa using hOverlaps
        rcases Nat.lt_or_ge (2 ^ 64) (lo + size) with
          hWraps | hRoom
        · exact iff_of_false
            (not_addHandled hRun
              (not_admissible_of_wraps hWraps))
            (hSplit.not_guarded_of_wraps hExamined hWraps
              hEnds hBack)
        · have hStarts :=
            hStep.apart.behind.starts_above hClear
          rw [highAddress_of_room hPositive hRoom] at hStarts
          refine iff_of_true ?_
            fun _ => ⟨.inr hPred, .inl hRoom⟩
          refine @InStep.addHandled_between debugMode heap
            ranges _ back lo size index p z count hSplit
            hPositive hRoom hExamined hEnds hStarts hFresh
            hNode ?_
          rw [LinkedList.last_concat]
          exact hRun

/-
  From a state in step, add_range does what it is for exactly
  when the call is guarded.
-/
theorem InStep.addHandled_iff
    (hStep : InStep ranges items)
    (hMode : debugMode ≠ .none)
    (hPositive : 0 < size)
    (hSize : size < 2 ^ 64)
    (hFresh : ranges.records p = none)
    (hNode : ranges.loTree.nodes z = none) :
    AddHandled debugMode heap ranges lo size index (some p)
        (some z) ↔
      Guarded heap ranges lo size := by
  by_cases hExamined : Examined heap lo (highAddress lo size)
  · rcases hStep.apart.split lo with
      ⟨front, back, rfl, hFront, hBack⟩
    rcases List.eq_nil_or_concat front with
      rfl | ⟨init, a, rfl⟩
    · cases back with
      | nil =>
          exact hStep.addHandled_empty hMode hPositive
            hExamined hFresh hNode
      | cons a back =>
          rcases
              hStep.addHandled_below hMode hPositive hExamined
                hBack with
            ⟨hNot, hOpen⟩
          exact iff_of_false hNot hOpen
    · rw [List.concat_eq_append] at hStep hFront
      rw [List.append_assoc, List.singleton_append] at hStep
      exact hStep.addHandled_above hMode hPositive hSize
        hExamined hFront hBack hFresh hNode
  · refine iff_of_true ?_ fun hPasses =>
      absurd hPasses hExamined
    exact addHandled_refused hStep (fun _ _ => Iff.rfl)
      (addRange_rejects hPositive hExamined)
      fun hAdmissible =>
        hExamined (hAdmissible.examined hPositive)

------------------------------------------------------------
-- One Call Of remove_range
------------------------------------------------------------

/- The other ranges start elsewhere. -/
theorem Apart.lo_ne
    (hApart : Apart (front ++ item :: back)) :
    ∀ other ∈ front ++ back, other.lo ≠ item.lo := by
  rcases List.pairwise_append.mp hApart.lows with
    ⟨-, hTail, hCross⟩
  intro other hOther
  rcases List.mem_append.mp hOther with hFront | hBack
  · exact Nat.ne_of_lt (hCross other hFront item (by simp))
  · exact Nat.ne_of_gt
      ((List.pairwise_cons.mp hTail).1 other hBack)

theorem InStep.removeHandled
    (hStep : InStep ranges items)
    (hAddress : lo < 2 ^ 64) :
    RemoveHandled ranges lo := by
  by_cases hPresent : ∃ item ∈ items, item.lo = lo
  · rcases hPresent with ⟨item, hItem, rfl⟩
    rcases List.append_of_mem hItem with ⟨front, back, rfl⟩
    rcases removeRange_present hStep with ⟨ranges', hRun, hAfter⟩
    refine ⟨ranges', hRun, ⟨_, hAfter⟩, ?_⟩
    intro lo' hi'
    rw [hAfter.recorded_iff, hStep.recorded_iff]
    constructor
    · rintro ⟨other, hOther, rfl, rfl⟩
      refine ⟨⟨other, ?_, rfl, rfl⟩,
        hStep.apart.lo_ne other hOther⟩
      rcases List.mem_append.mp hOther with hFront | hBack
      · simp [hFront]
      · simp [hBack]
    · rintro ⟨⟨other, hOther, rfl, rfl⟩, hNe⟩
      refine ⟨other, ?_, rfl, rfl⟩
      rcases List.mem_append.mp hOther with hFront | hBack
      · simp [hFront]
      · rcases List.mem_cons.mp hBack with rfl | hBack
        · exact absurd rfl hNe
        · simp [hBack]
  · have hMissing :
        ∀ item ∈ items, (item.lo : Int) ≠ asLong lo := by
      intro item hItem hKey
      have hProper := hStep.apart.proper item hItem
      refine hPresent ⟨item, hItem, ?_⟩
      unfold asLong at hKey
      split at hKey <;> omega
    rcases removeRange_missing hStep hMissing with ⟨count, hRun⟩
    refine ⟨_, hRun, ⟨items, hStep.counted count⟩, ?_⟩
    intro lo' hi'
    rw [hStep.recorded_counted, hStep.recorded_iff]
    constructor
    · rintro ⟨item, hItem, rfl, rfl⟩
      exact ⟨⟨item, hItem, rfl, rfl⟩, fun hSame =>
        hPresent ⟨item, hItem, hSame⟩⟩
    · exact And.left

------------------------------------------------------------
-- Runs
------------------------------------------------------------

inductive Call where
  | add (heap : HeapExtent) (lo size : Nat) (index : Int)
  | remove (lo : Nat)

/-
  A call that returns, on addresses and sizes of 64 bits; malloc
  gives a record and a tree node not in use.
-/
inductive Step (debugMode : DebugMode) :
    RangeSet → Call × Option Bool → RangeSet → Prop
| add {ranges ranges' : RangeSet} {heap : HeapExtent}
    {lo size : Nat} {index : Int} {p z : Nat}
    {isNew : Bool} :
    0 < size →
    size < 2 ^ 64 →
    ranges.records p = none →
    ranges.loTree.nodes z = none →
    addRange debugMode heap ranges lo size index (some p)
        (some z) =
      .ok (ranges', isNew) →
    Step debugMode ranges
      (.add heap lo size index, some isNew) ranges'
| remove {ranges ranges' : RangeSet} {lo : Nat} :
    lo < 2 ^ 64 →
    removeRange ranges lo = .ok ranges' →
    Step debugMode ranges (.remove lo, none) ranges'

/- The condition on a call before it is made. -/
def CallGuarded
    (ranges : RangeSet) :
    Call → Prop
| .add heap lo size _ => Guarded heap ranges lo size
| .remove _ => True

/- A call that meets the condition. -/
def GuardedStep
    (debugMode : DebugMode)
    (ranges : RangeSet)
    (event : Call × Option Bool)
    (ranges' : RangeSet) :
    Prop :=
  Step debugMode ranges event ranges' ∧
    CallGuarded ranges event.1

theorem newRangeSet_inStep : InStep newRangeSet [] where
  apart := Apart.nil
  list := rfl
  held := trivial
  tree := ⟨.nil, Splay.treeNew_represents, rfl⟩

/- A guarded call keeps the list and the tree in step. -/
theorem guardedStep_inStep
    {event : Call × Option Bool}
    (hMode : debugMode ≠ .none)
    (hStep : InStep ranges items)
    (hGuarded : GuardedStep debugMode ranges event ranges') :
    ∃ items', InStep ranges' items' := by
  rcases hGuarded with ⟨hCall, hMeets⟩
  cases hCall with
  | @add _ heap lo size index p z isNew hPositive hSize
      hFresh hNode hRun =>
      rcases
          (hStep.addHandled_iff hMode hPositive hSize hFresh
            hNode).mpr hMeets with
        ⟨next, _, hOk, -, hItems, -⟩
      rw [hRun] at hOk
      cases hOk
      exact hItems
  | @remove _ lo hAddress hRun =>
      rcases hStep.removeHandled hAddress with
        ⟨next, hOk, hItems, -⟩
      rw [hRun] at hOk
      cases hOk
      exact hItems

/-
  In every state that a run of guarded calls reaches, the
  list visits the records of the tree in increasing order,
  remove_range does what it is for, and add_range does
  exactly when the call is guarded.
-/
theorem range_set_detects_overlaps
    {events : List (Call × Option Bool)}
    (hMode : debugMode ≠ .none)
    (hRun :
      Run (GuardedStep debugMode) newRangeSet events
        ranges) :
    (∃ items, InStep ranges items) ∧
      (∀ heap lo size index p z, 0 < size → size < 2 ^ 64 →
        ranges.records p = none →
        ranges.loTree.nodes z = none →
        (AddHandled debugMode heap ranges lo size index
            (some p) (some z) ↔
          Guarded heap ranges lo size)) ∧
      ∀ lo, lo < 2 ^ 64 → RemoveHandled ranges lo := by
  rcases
      hRun.invariant (fun ranges => ∃ items, InStep ranges items)
        ⟨[], newRangeSet_inStep⟩
        fun _ _ _ ⟨_, hStep⟩ hGuarded =>
          guardedStep_inStep hMode hStep hGuarded with
    ⟨items, hStep⟩
  refine ⟨⟨items, hStep⟩, ?_, fun lo hAddress =>
    hStep.removeHandled hAddress⟩
  intro heap lo size index p z hPositive hSize hFresh hNode
  exact hStep.addHandled_iff hMode hPositive hSize hFresh hNode

/- A heap of seven kilobytes. -/
def smallHeap : HeapExtent := ⟨1024, 8191, by decide⟩

/- The range set after the range at 4096 of 64 bytes. -/
def oneRange : RangeSet where
  records :=
    Function.update (fun _ => none) 0
      (some ⟨4096, 4159, 0, none, none⟩)
  list := some 0
  loTree :=
    { nodes :=
        Function.update (fun _ => none) 0
          (some ⟨none, none, none, 4096, some 0⟩)
      root := some 0
      nodeCount := 1
      comparisonCount := 0 }

theorem step_oneRange :
    Step .cheap newRangeSet
      (.add smallHeap 4096 64 0, some true) oneRange :=
  @Step.add .cheap newRangeSet oneRange smallHeap 4096 64 0
    0 0 true (by decide) (by decide) rfl rfl rfl

theorem recorded_oneRange : Recorded oneRange 4096 4159 :=
  ⟨_, 0, _, rfl, rfl, rfl, rfl⟩

/- A second range, above the first. -/
theorem step_above :
    ∃ ranges,
      Step .cheap oneRange
          (.add smallHeap 6144 64 1, some true) ranges ∧
        Recorded ranges 4096 4159 ∧
        ranges.records 2 = none ∧
        ranges.loTree.nodes 2 = none :=
  ⟨_, @Step.add .cheap oneRange _ smallHeap 6144 64 1 1 1
      true (by decide) (by decide) rfl rfl rfl,
    ⟨_, 0, _, rfl, rfl, rfl, rfl⟩, rfl, rfl⟩

/- A run of two calls, and a third one, between them. -/
theorem range_set_detects_overlaps_twoRanges :
    ∃ ranges,
      Run (GuardedStep .cheap) newRangeSet
          [(.add smallHeap 4096 64 0, some true),
           (.add smallHeap 6144 64 1, some true)] ranges ∧
        Guarded smallHeap ranges 5120 64 ∧
        AddHandled .cheap smallHeap ranges 5120 64 2
          (some 2) (some 2) := by
  have hNone : ∀ lo hi, ¬Recorded newRangeSet lo hi := by
    intro lo hi
    simp [newRangeSet_inStep.recorded_iff]
  rcases step_above with
    ⟨ranges, hStep, hRecorded, hFresh, hNode⟩
  have hFirst :
      GuardedStep .cheap newRangeSet
        (.add smallHeap 4096 64 0, some true) oneRange :=
    ⟨step_oneRange, fun _ => ⟨.inl hNone, .inl (by decide)⟩⟩
  have hSecond :
      GuardedStep .cheap oneRange
        (.add smallHeap 6144 64 1, some true) ranges :=
    ⟨hStep, fun _ =>
      ⟨.inr ⟨_, _, recorded_oneRange, by decide⟩,
       .inl (by decide)⟩⟩
  have hRun := (Run.nil.snoc hFirst).snoc hSecond
  have hGuarded : Guarded smallHeap ranges 5120 64 :=
    fun _ =>
      ⟨.inr ⟨_, _, hRecorded, by decide⟩, .inl (by decide)⟩
  exact
    ⟨ranges, hRun, hGuarded,
      ((range_set_detects_overlaps (by decide) hRun).2.1
        smallHeap 5120 64 2 2 2 (by decide) (by decide)
        hFresh hNode).mpr hGuarded⟩

/-
  A range recorded below another one that it overlaps: the
  call returns true, and the list loses the old record.
-/
theorem overlap_below_undetected :
    Run (Step .cheap) newRangeSet
        [(.add smallHeap 4096 64 0, some true)] oneRange ∧
      ∃ ranges,
        Step .cheap oneRange
            (.add smallHeap 2048 4096 1, some true) ranges ∧
          ¬Admissible smallHeap oneRange 2048 4096 ∧
          ¬∃ items, InStep ranges items := by
  refine ⟨Run.nil.snoc step_oneRange, _,
    @Step.add .cheap oneRange _ smallHeap 2048 4096 1 1 1
      true (by decide) (by decide) rfl rfl rfl, ?_, ?_⟩
  · intro hAdmissible
    rcases hAdmissible.disjoint _ _ recorded_oneRange with
      hBefore | hAfter
    · omega
    · omega
  · rintro ⟨items, hStep⟩
    rcases hStep.alone rfl rfl rfl with ⟨item, rfl⟩
    -- the tree has both ranges, the list only the new one
    rcases
        (@InStep.recorded_iff _ _ 4096 4159 hStep).mp
          ⟨_, 0, _, rfl, rfl, rfl, rfl⟩ with
      ⟨other, hOther, hOld, -⟩
    rcases
        (@InStep.recorded_iff _ _ 2048 6143 hStep).mp
          ⟨_, 1, _, rfl, rfl, rfl, rfl⟩ with
      ⟨other', hOther', hNew, -⟩
    rw [List.mem_singleton] at hOther hOther'
    rw [hOther, ← hOther', hNew] at hOld
    cases hOld

end Driver

end CsappLabs
