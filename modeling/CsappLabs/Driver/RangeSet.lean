import CsappLabs.Lib.LinkedList
import CsappLabs.Driver.Ranges

/-
  The range set while its list and its tree agree.

  The records in increasing order determine both: the list
  visits them, and the tree maps their low addresses to them.
  Recording a range puts it in its place, removing one takes
  it out.

  Key definitions:
    * `Item`, `rangeLinks`
    * `InStep`

  Key theorems:
    * `InStep.nearest`
    * `recordRange_below`, `recordRange_above`
    * `removeRange_present`, `removeRange_missing`
-/

------------------------------------------------------------
-- Records In Order
------------------------------------------------------------

namespace CsappLabs

namespace Driver

open Splay (Ptr Stop Tree treeFindNearest treeInsert
  treeRemove mapOf ok_bind)
open LinkedList (Links Held first last)
open SortedMap

/- What a record says, and where it lies. -/
structure Item where
  loc : Nat
  lo : Nat
  hi : Nat
  index : Int

/- How range_t nodes are linked. -/
def rangeLinks : Links Nat Item Range where
  loc := Item.loc
  cell := fun item next prev =>
    { lo := item.lo
      hi := item.hi
      index := item.index
      next := next
      prev := prev }
  setNext := fun link range => { range with next := link }
  setPrev := fun link range => { range with prev := link }
  setNext_cell := fun _ _ _ _ => rfl
  setPrev_cell := fun _ _ _ _ => rfl
  cell_inj := by
    rintro ⟨_, _, _, _⟩ ⟨_, _, _, _⟩ _ _ _ _ hLoc hCell
    cases hLoc
    cases hCell
    rfl

/- Low addresses and locations, as the tree has them. -/
def keyed (items : List Item) : List (Int × Ptr) :=
  items.map fun item => ((item.lo : Int), some item.loc)

/- The ranges are proper and follow one another. -/
structure Apart (items : List Item) : Prop where
  proper :
    ∀ item ∈ items, item.lo ≤ item.hi ∧ item.hi < 2 ^ 63
  sorted :
    items.Pairwise fun low high => low.hi < high.lo

/-
  The list visits the items with the right links in both
  directions, and the tree has the same items.
-/
structure InStep
    (ranges : RangeSet)
    (items : List Item) :
    Prop where
  apart : Apart items
  list : ranges.list = first rangeLinks items none
  held : Held rangeLinks ranges.records none items none
  tree :
    ∃ t, Splay.Represents ranges.loTree t ∧
      mapOf t = toMap (keyed items)

/- The range set with another comparison count. -/
def RangeSet.counted
    (ranges : RangeSet)
    (count : Nat) :
    RangeSet :=
  { ranges with loTree := ranges.loTree.counted count }

variable {ranges : RangeSet}
variable {item : Item} {items front back : List Item}
variable {lo hi : Nat} {index : Int}

theorem asLong_of_lt (hLt : lo < 2 ^ 63) :
    asLong lo = lo :=
  if_pos hLt

namespace Apart

theorem lows
    (hApart : Apart items) :
    items.Pairwise fun low high => low.lo < high.lo := by
  refine hApart.sorted.imp_of_mem fun hLow _ hBefore => ?_
  exact Nat.lt_of_le_of_lt (hApart.proper _ hLow).1 hBefore

theorem nodup (hApart : Apart items) : items.Nodup :=
  hApart.lows.imp fun hLess hSame =>
    Nat.ne_of_lt hLess (congrArg Item.lo hSame)

theorem sorted_keyed (hApart : Apart items) :
    Sorted (keyed items) :=
  List.pairwise_map.mpr
    (hApart.lows.imp fun hLess => Int.ofNat_lt.mpr hLess)

theorem nil : Apart [] :=
  ⟨by simp, List.Pairwise.nil⟩

/- An item more, between those before and after it. -/
theorem insert
    (hApart : Apart (front ++ back))
    (hProper : item.lo ≤ item.hi ∧ item.hi < 2 ^ 63)
    (hFront : ∀ other ∈ front, other.hi < item.lo)
    (hBack : ∀ other ∈ back, item.hi < other.lo) :
    Apart (front ++ item :: back) := by
  rcases List.pairwise_append.mp hApart.sorted with
    ⟨hFrontSorted, hBackSorted, hCross⟩
  constructor
  · intro other hOther
    rcases List.mem_append.mp hOther with hLow | hHigh
    · exact hApart.proper other (by simp [hLow])
    · rcases List.mem_cons.mp hHigh with rfl | hHigh
      · exact hProper
      · exact hApart.proper other (by simp [hHigh])
  · refine List.pairwise_append.mpr
      ⟨hFrontSorted,
        List.pairwise_cons.mpr ⟨hBack, hBackSorted⟩, ?_⟩
    intro low hLow high hHigh
    rcases List.mem_cons.mp hHigh with rfl | hHigh
    · exact hFront low hLow
    · exact hCross low hLow high hHigh

theorem erase
    (hApart : Apart (front ++ item :: back)) :
    Apart (front ++ back) := by
  have hSub :
      (front ++ back).Sublist (front ++ item :: back) :=
    (List.sublist_cons_self item back).append_left front
  exact ⟨fun other hOther =>
      hApart.proper other (hSub.subset hOther),
    hApart.sorted.sublist hSub⟩

/- The items up to an address, and those above it. -/
theorem split
    (hApart : Apart items)
    (lo : Nat) :
    ∃ front back,
      items = front ++ back ∧
        (∀ other ∈ front, other.lo ≤ lo) ∧
        ∀ other ∈ back, lo < other.lo := by
  induction items with
  | nil => exact ⟨[], [], rfl, by simp, by simp⟩
  | cons item rest ih =>
      have hLows := List.pairwise_cons.mp hApart.lows
      have hRest : Apart ([] ++ rest) :=
        erase hApart
      rcases ih hRest with ⟨front, back, rfl, hFront, hBack⟩
      by_cases hLe : item.lo ≤ lo
      · exact ⟨item :: front, back, rfl,
          by simpa [hLe] using hFront, hBack⟩
      · refine ⟨[], item :: (front ++ back), rfl, by simp, ?_⟩
        intro other hOther
        rcases List.mem_cons.mp hOther with rfl | hOther
        · omega
        · have hAbove := hLows.1 other hOther
          omega

end Apart

------------------------------------------------------------
-- The Two Structures
------------------------------------------------------------

namespace InStep

theorem nodup
    (hStep : InStep ranges items) :
    (items.map rangeLinks.loc).Nodup :=
  hStep.held.nodup hStep.apart.nodup

/- A search leaves all but the comparison count. -/
theorem counted
    (hStep : InStep ranges items)
    (count : Nat) :
    InStep (ranges.counted count) items := by
  rcases hStep.tree with ⟨t, hTree, hMap⟩
  exact ⟨hStep.apart, hStep.list, hStep.held,
    t, hTree.counted count, hMap⟩

/- The record of an item in the middle. -/
theorem get
    (hStep : InStep ranges (front ++ item :: back)) :
    ranges.get (some item.loc) =
      .ok
        { lo := item.lo
          hi := item.hi
          index := item.index
          next := first rangeLinks back none
          prev := last rangeLinks none front } := by
  have hNode := hStep.held.node
  unfold RangeSet.get
  rw [Option.bind_some,
    show ranges.records item.loc = _ from hNode]
  rfl

/- The tree finds the last record that starts at or below. -/
theorem nearest
    (hStep : InStep ranges (front ++ back))
    (hFront : ∀ other ∈ front, other.lo ≤ lo)
    (hBack : ∀ other ∈ back, lo < other.lo) :
    ∃ count,
      treeFindNearest ranges.loTree lo =
        .ok (ranges.loTree.counted count,
          last rangeLinks none front) := by
  rcases hStep.tree with ⟨t, hTree, hMap⟩
  rcases Splay.treeFindNearest_spec hTree lo with
    ⟨count, found, hRun, hNearest⟩
  have hSorted := hStep.apart.sorted_keyed
  rw [keyed, List.map_append] at hSorted
  have hPlace :
      Nearest (toMap (keyed (front ++ back))) (lo : Int)
        ((keyed front).getLast?.map Prod.snd) := by
    rw [keyed, List.map_append]
    apply nearest_toMap hSorted
    · exact List.forall_mem_map.mpr fun other hOther =>
        Int.ofNat_le.mpr (hFront other hOther)
    · exact List.forall_mem_map.mpr fun other hOther =>
        Int.ofNat_lt.mpr (hBack other hOther)
  rw [hMap] at hNearest
  refine ⟨count, ?_⟩
  rw [hRun, hNearest.unique hPlace]
  congr 2
  rcases List.eq_nil_or_concat front with
    rfl | ⟨rest, item, rfl⟩
  · rfl
  · rw [List.concat_eq_append, LinkedList.last_concat,
      keyed, List.map_append]
    simp
    rfl

end InStep

------------------------------------------------------------
-- Stores To Links
------------------------------------------------------------

section Stores

variable {p : Ptr} {link : Ptr} {z : Nat}

theorem modify_eq
    {x : Nat} {range : Range} {change : Range → Range}
    (hRange : ranges.records x = some range) :
    ranges.modify (some x) change =
      .ok { ranges with
        records :=
          LinkedList.put ranges.records (some x) change } := by
  simp [RangeSet.modify, LinkedList.put, hRange]

theorem linkNext_eq
    (hValid :
      ∀ x, p = some x →
        ∃ range, ranges.records x = some range) :
    linkNext ranges p link =
      .ok { ranges with
        records :=
          LinkedList.put ranges.records p
            (rangeLinks.setNext link)
        list := if p = none then link else ranges.list } := by
  cases p with
  | none => rfl
  | some x =>
      rcases hValid x rfl with ⟨range, hRange⟩
      exact modify_eq hRange

theorem linkPrev_eq
    (hValid :
      ∀ x, p = some x →
        ∃ range, ranges.records x = some range) :
    linkPrev ranges p link =
      .ok { ranges with
        records :=
          LinkedList.put ranges.records p
            (rangeLinks.setPrev link) } := by
  cases p with
  | none => rfl
  | some x =>
      rcases hValid x rfl with ⟨range, hRange⟩
      exact modify_eq hRange

/- A put leaves a record where one was. -/
theorem put_valid
    {target : Ptr} {change : Range → Range} {x : Nat}
    (hValid : ∃ range, ranges.records x = some range) :
    ∃ range,
      LinkedList.put ranges.records target change x =
        some range := by
  rcases hValid with ⟨range, hRange⟩
  by_cases hTarget : target = some x
  · rw [hTarget, LinkedList.put_self hRange]
    exact ⟨_, rfl⟩
  · rw [LinkedList.put_other hTarget]
    exact ⟨range, hRange⟩

end Stores

/- The locations of the list are records. -/
theorem InStep.stored
    {x : Nat}
    (hStep : InStep ranges items)
    (hMember : x ∈ items.map rangeLinks.loc) :
    ∃ range, ranges.records x = some range := by
  rcases List.mem_map.mp hMember with ⟨item, hItem, rfl⟩
  rcases hStep.held.mem hItem with ⟨next, prev, hRange⟩
  exact ⟨_, hRange⟩

/- The neighbours of a place in the list are records. -/
theorem InStep.valid_last
    {x : Nat}
    (hStep : InStep ranges (front ++ back))
    (hLast : last rangeLinks none front = some x) :
    ∃ range, ranges.records x = some range := by
  apply hStep.stored
  rw [List.map_append]
  exact List.mem_append_left _ (LinkedList.last_mem hLast)

theorem InStep.valid_first
    {x : Nat}
    (hStep : InStep ranges (front ++ back))
    (hFirst : first rangeLinks back none = some x) :
    ∃ range, ranges.records x = some range := by
  apply hStep.stored
  rw [List.map_append]
  exact List.mem_append_right _
    (LinkedList.first_mem hFirst)

/- A location without a record is not in the list. -/
theorem InStep.notMem_of_fresh
    {loc : Nat}
    (hStep : InStep ranges items)
    (hFresh : ranges.records loc = none) :
    loc ∉ items.map rangeLinks.loc := by
  intro hMember
  rcases hStep.stored hMember with ⟨range, hRange⟩
  exact absurd (hFresh.symm.trans hRange) (by simp)

/- Storing a new record keeps the others. -/
theorem valid_update
    {x loc : Nat} {node : Option Range}
    (hFresh : ranges.records loc = none)
    (hValid : ∃ range, ranges.records x = some range) :
    ∃ range,
      Function.update ranges.records loc node x =
        some range := by
  rcases hValid with ⟨range, hRange⟩
  have hNe : x ≠ loc := by
    rintro rfl
    exact absurd (hFresh.symm.trans hRange) (by simp)
  exact ⟨range, by rw [Function.update_of_ne hNe, hRange]⟩

theorem last_eq_none :
    last rangeLinks none front = none ↔ front = [] := by
  rcases List.eq_nil_or_concat front with
    rfl | ⟨rest, item, rfl⟩
  · simp
  · rw [List.concat_eq_append, LinkedList.last_concat]
    simp

/- The head of the list after a change behind `front`. -/
theorem InStep.list_relinked
    {rest : List Item}
    (hStep : InStep ranges (front ++ back)) :
    (if last rangeLinks none front = none then
        first rangeLinks rest none
      else
        ranges.list) =
      first rangeLinks (front ++ rest) none := by
  cases front with
  | nil => rfl
  | cons other front =>
      have hSome :
          last rangeLinks none (other :: front) ≠ none :=
        fun hNone =>
          List.cons_ne_nil other front
            (last_eq_none.mp hNone)
      rw [if_neg hSome]
      exact hStep.list

------------------------------------------------------------
-- Recording
------------------------------------------------------------

/- A new key in the map of the tree. -/
theorem notMem_keyed
    (hApart : Apart (front ++ item :: back)) :
    (item.lo : Int) ∉ toMap (keyed (front ++ back)) := by
  have hSorted := hApart.sorted_keyed
  rw [keyed, List.map_append, List.map_cons] at hSorted
  rcases hSorted.around with ⟨hFront, hBack, -⟩
  rw [mem_toMap]
  rintro ⟨v, hEntry⟩
  rw [keyed, List.map_append, List.mem_append] at hEntry
  rcases hEntry with hLow | hHigh
  · exact absurd (hFront _ hLow) (lt_irrefl _)
  · exact absurd (hBack _ hHigh) (lt_irrefl _)

theorem toMap_keyed_insert
    (hApart : Apart (front ++ item :: back)) :
    toMap (keyed (front ++ item :: back)) =
      (toMap (keyed (front ++ back))).insert
        (item.lo : Int) (some item.loc) := by
  have hSorted := hApart.sorted_keyed
  rw [keyed, List.map_append, List.map_cons] at hSorted ⊢
  rw [toMap_insert hSorted, keyed, List.map_append]

/-
  Linking a new record between its neighbours keeps the list
  and the tree in step.
-/
theorem insertRange_spec
    {z : Nat}
    (hStep : InStep ranges (front ++ back))
    (hApart : Apart (front ++ item :: back))
    (hFresh : ranges.records item.loc = none)
    (hNode : ranges.loTree.nodes z = none) :
    ∃ ranges',
      insertRange ranges item.loc
          (rangeLinks.cell item (first rangeLinks back none)
            (last rangeLinks none front))
          (some z) =
        .ok ranges' ∧
        InStep ranges' (front ++ item :: back) := by
  rcases hStep.tree with ⟨t, hTree, hMap⟩
  have hLow : item.lo < 2 ^ 63 := by
    have hProper := hApart.proper item (by simp)
    omega
  have hMissing : (item.lo : Int) ∉ mapOf t := by
    rw [hMap]
    exact notMem_keyed hApart
  rcases
      Splay.treeInsert_fresh hTree hMissing hNode
        (some item.loc) with
    ⟨tree', t', hInsert, hTree', hMap', -⟩
  refine ⟨{
    records :=
      LinkedList.insert rangeLinks ranges.records item
        (last rangeLinks none front)
        (first rangeLinks back none)
    list :=
      if last rangeLinks none front = none then
        some item.loc
      else
        ranges.list
    loTree := tree' }, ?_, hApart, ?_, ?_, t', hTree', ?_⟩
  · unfold insertRange
    change (linkNext
      { ranges with
        records :=
          Function.update ranges.records item.loc _ }
      (last rangeLinks none front) (some item.loc) >>= _) = _
    rw [linkNext_eq fun x hLast =>
      valid_update hFresh (hStep.valid_last hLast), ok_bind]
    change (linkPrev _ (first rangeLinks back none)
      (some item.loc) >>= _) = _
    rw [linkPrev_eq fun x hFirst =>
      put_valid
        (valid_update hFresh (hStep.valid_first hFirst)),
      ok_bind]
    change (treeInsert ranges.loTree (asLong item.lo) _ _
      >>= _) = _
    rw [asLong_of_lt hLow, hInsert]
    rfl
  · exact @InStep.list_relinked ranges front back
      (item :: back) hStep
  · exact hStep.held.insert hStep.nodup
      (hStep.notMem_of_fresh hFresh)
  · rw [hMap', hMap, toMap_keyed_insert hApart]

section Recording

variable {a : Item} {p : Nat} {node : Ptr}

/- Below every record there is nothing to compare with. -/
theorem recordRange_below
    (hStep : InStep ranges items)
    (hBelow : ∀ other ∈ items, lo < other.lo)
    (hLow : lo < 2 ^ 63) :
    ∃ count,
      recordRange ranges lo hi index (some p) node =
        insertRange (ranges.counted count) p
            { lo := lo
              hi := hi
              index := index
              next := none
              prev := none }
            node >>= fun ranges => .ok (ranges, true) := by
  rcases
      @InStep.nearest ranges [] items lo hStep (by simp) hBelow with
    ⟨count, hNearest⟩
  refine ⟨count, ?_⟩
  rw [recordRange, asLong_of_lt hLow, hNearest, ok_bind]
  rfl

/- The ends of the comparison with the two neighbours. -/
theorem recordRange_above
    (hStep : InStep ranges (front ++ a :: back))
    (hFront : ∀ other ∈ front ++ [a], other.lo ≤ lo)
    (hBack : ∀ other ∈ back, lo < other.lo)
    (hLow : lo < 2 ^ 63) :
    ∃ count,
      recordRange ranges lo hi index (some p) node =
        if lo ≤ a.hi then
          .ok (ranges.counted count, false)
        else
          overlapsNext (ranges.counted count)
              (first rangeLinks back none) hi >>=
            fun after =>
              if after then
                .ok (ranges.counted count, false)
              else
                insertRange (ranges.counted count) p
                    { lo := lo
                      hi := hi
                      index := index
                      next := first rangeLinks back none
                      prev := some a.loc }
                    node >>=
                  fun ranges => .ok (ranges, true) := by
  have hSplit : InStep ranges (front ++ [a] ++ back) := by
    simpa using hStep
  rcases hSplit.nearest hFront hBack with ⟨count, hNearest⟩
  refine ⟨count, ?_⟩
  rw [LinkedList.last_concat] at hNearest
  have hGet := (hStep.counted count).get
  rw [recordRange, asLong_of_lt hLow, hNearest, ok_bind]
  change (nextOf (ranges.counted count) (some a.loc) >>= _)
    = _
  have hNext :
      nextOf (ranges.counted count) (some a.loc) =
        .ok (first rangeLinks back none) := by
    change ((ranges.counted count).get (some a.loc) >>= _)
      = _
    rw [hGet]
    rfl
  have hPrev :
      overlapsPrev (ranges.counted count) (some a.loc) lo =
        .ok (decide (lo ≤ a.hi)) := by
    change ((ranges.counted count).get (some a.loc) >>= _)
      = _
    rw [hGet]
    rfl
  rw [hNext, ok_bind]
  change (overlapsPrev (ranges.counted count) (some a.loc) lo
    >>= _) = _
  rw [hPrev, ok_bind]
  by_cases hOverlap : lo ≤ a.hi
  · rw [if_pos hOverlap, if_pos (decide_eq_true hOverlap)]
    rfl
  · rw [if_neg hOverlap, if_neg (by simp [hOverlap])]
    rfl

/- What the successor says. -/
theorem overlapsNext_eq
    (hStep : InStep ranges (front ++ back)) :
    ∃ after,
      overlapsNext ranges (first rangeLinks back none) hi =
          .ok after ∧
        (after = true ↔
          ∃ other ∈ back.head?, other.lo ≤ hi) := by
  cases back with
  | nil => exact ⟨false, rfl, by simp⟩
  | cons b back =>
      refine ⟨decide (hi ≥ b.lo), ?_, by simp⟩
      change (ranges.get (some b.loc) >>= _) = _
      rw [hStep.get]
      rfl

end Recording

------------------------------------------------------------
-- Removal
------------------------------------------------------------

/- The key of a record in the map of the tree. -/
theorem lookup_keyed
    (hApart : Apart items)
    (hItem : item ∈ items) :
    (toMap (keyed items)).lookup (item.lo : Int) =
      some (some item.loc) :=
  lookup_toMap hApart.sorted_keyed
    (List.mem_map.mpr ⟨item, hItem, rfl⟩)

theorem toMap_keyed_erase
    (hApart : Apart (front ++ item :: back)) :
    toMap (keyed (front ++ back)) =
      (toMap (keyed (front ++ item :: back))).erase
        (item.lo : Int) := by
  have hSorted := hApart.sorted_keyed
  rw [keyed, List.map_append, List.map_cons] at hSorted
  rw [keyed, List.map_append, keyed, List.map_append,
    List.map_cons]
  exact toMap_erase hSorted

/- Unlinking a record keeps the list and the tree in step. -/
theorem removeRange_present
    (hStep : InStep ranges (front ++ item :: back)) :
    ∃ ranges',
      removeRange ranges item.lo = .ok ranges' ∧
        InStep ranges' (front ++ back) := by
  rcases hStep.tree with ⟨t, hTree, hMap⟩
  have hLow : item.lo < 2 ^ 63 := by
    have hProper := hStep.apart.proper item (by simp)
    omega
  have hLookup :
      (mapOf t).lookup (item.lo : Int) =
        some (some item.loc) := by
    rw [hMap]
    exact lookup_keyed hStep.apart (by simp)
  rcases
      Splay.treeRemove_present hTree
        (Finmap.mem_of_lookup_eq_some hLookup) with
    ⟨tree', t', hRemove, hTree', hMap', -⟩
  rw [hLookup, Option.join_some] at hRemove
  have hSplit : InStep ranges (front ++ [item] ++ back) := by
    simpa using hStep
  refine ⟨{
    records :=
      LinkedList.remove rangeLinks ranges.records item.loc
        (last rangeLinks none front)
        (first rangeLinks back none)
    list :=
      if last rangeLinks none front = none then
        first rangeLinks back none
      else
        ranges.list
    loTree := tree' }, ?_, hStep.apart.erase, ?_, ?_, t',
    hTree', ?_⟩
  · rw [removeRange, asLong_of_lt hLow, hRemove, ok_bind]
    have hGet :
        RangeSet.get { ranges with loTree := tree' }
            (some item.loc) =
          .ok _ :=
      hStep.get
    change (RangeSet.get _ (some item.loc) >>= fun _ =>
      RangeSet.get _ (some item.loc) >>= _) = _
    rw [hGet, ok_bind, ok_bind]
    change (linkNext { ranges with loTree := tree' }
      (last rangeLinks none front)
      (first rangeLinks back none) >>= _) = _
    rw [@linkNext_eq { ranges with loTree := tree' } _ _
      fun _ hLast => hStep.valid_last hLast, ok_bind]
    change (linkPrev _ (first rangeLinks back none)
      (last rangeLinks none front) >>= _) = _
    rw [linkPrev_eq fun x hFirst =>
      put_valid (hSplit.valid_first hFirst), ok_bind]
    rfl
  · exact hStep.list_relinked
  · exact hStep.held.remove hStep.nodup
  · rw [hMap', hMap, toMap_keyed_erase hStep.apart]

/- A search that finds nothing changes nothing. -/
theorem removeRange_missing
    (hStep : InStep ranges items)
    (hMissing : ∀ item ∈ items, (item.lo : Int) ≠ asLong lo) :
    ∃ count,
      removeRange ranges lo =
        .ok (ranges.counted count) := by
  rcases hStep.tree with ⟨t, hTree, hMap⟩
  have hNone : asLong lo ∉ mapOf t := by
    rw [hMap, mem_toMap]
    rintro ⟨v, hEntry⟩
    rcases List.mem_map.mp hEntry with ⟨item, hItem, hKey⟩
    exact hMissing item hItem (congrArg Prod.fst hKey)
  rcases Splay.treeRemove_missing hTree hNone with
    ⟨count, hRemove⟩
  refine ⟨count, ?_⟩
  rw [removeRange, hRemove]
  rfl

end Driver

end CsappLabs
