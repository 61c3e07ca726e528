import CsappLabs.Splay.Refinement

/-
  The range set of the malloc driver, translated function by
  function (malloc/f19-rec-malloc/mdriver.c).

  A range set is a doubly linked list of records and a splay
  tree from their low addresses to the records.  Records lie
  in a store that malloc and free allocate from; an access
  through NULL or through a pointer to no record is a fault.

  Key definitions:
    * `Range`, `RangeSet`
    * `newRangeSet`, `addRange`, `removeRange`
-/

------------------------------------------------------------
-- Records
------------------------------------------------------------

namespace CsappLabs

namespace Driver

open Splay (Ptr Stop Tree treeNew treeInsert
  treeFindNearest treeRemove)

/- range_t -/
structure Range where
  lo : Nat
  hi : Nat
  index : Int
  next : Ptr
  prev : Ptr

/- range_set_t and the records that malloc gave. -/
structure RangeSet where
  records : Nat → Option Range
  list : Ptr
  loTree : Tree

/- debug_mode_t -/
inductive DebugMode where
  | none
  | cheap
  | expensive
  deriving DecidableEq, Repr

/-
  What mem_heap_lo and mem_heap_hi return.  The sparse heap
  ends at SPARSE_HEAP_START + MAX_SPARSE_HEAP and the dense
  one in user space, both below 2^63.
-/
structure HeapExtent where
  lo : Nat
  hi : Nat
  below : hi < 2 ^ 63

/- ALIGNMENT -/
def alignment : Nat := 16

/- An unsigned long as a tkey_t, which is a long. -/
def asLong (value : Nat) : Int :=
  if value < 2 ^ 63 then value else (value : Int) - 2 ^ 64

/- lo + size - 1, as a pointer of 64 bits. -/
def highAddress (lo size : Nat) : Nat :=
  (lo + size + (2 ^ 64 - 1)) % 2 ^ 64

namespace RangeSet

/- *p -/
def get
    (ranges : RangeSet)
    (p : Ptr) :
    Except Stop Range :=
  match p.bind ranges.records with
  | .none => .error .fault
  | some range => .ok range

/- A store to a field of *p. -/
def modify
    (ranges : RangeSet)
    (p : Ptr)
    (change : Range → Range) :
    Except Stop RangeSet :=
  match p with
  | .none => .error .fault
  | some loc =>
      match ranges.records loc with
      | .none => .error .fault
      | some range =>
          .ok { ranges with
            records :=
              Function.update ranges.records loc
                (some (change range)) }

/- free(p) -/
def free
    (ranges : RangeSet)
    (p : Ptr) :
    RangeSet :=
  match p with
  | .none => ranges
  | some loc =>
      { ranges with
        records :=
          Function.update ranges.records loc .none }

end RangeSet

------------------------------------------------------------
-- Links
------------------------------------------------------------

/- prev ? prev->next : NULL -/
def nextOf
    (ranges : RangeSet)
    (prev : Ptr) :
    Except Stop Ptr := do
  if prev = none then
    return none
  else
    return (← ranges.get prev).next

/- prev && lo <= prev->hi -/
def overlapsPrev
    (ranges : RangeSet)
    (prev : Ptr)
    (lo : Nat) :
    Except Stop Bool := do
  if prev = none then
    return false
  else
    return decide (lo ≤ (← ranges.get prev).hi)

/- next && hi >= next->lo -/
def overlapsNext
    (ranges : RangeSet)
    (next : Ptr)
    (hi : Nat) :
    Except Stop Bool := do
  if next = none then
    return false
  else
    return decide (hi ≥ (← ranges.get next).lo)

/- if (prev) prev->next = link; else ranges->list = link; -/
def linkNext
    (ranges : RangeSet)
    (prev link : Ptr) :
    Except Stop RangeSet :=
  if prev = none then
    .ok { ranges with list := link }
  else
    ranges.modify prev
      (fun range => { range with next := link })

/- if (next) next->prev = link; -/
def linkPrev
    (ranges : RangeSet)
    (next link : Ptr) :
    Except Stop RangeSet :=
  if next = none then
    .ok ranges
  else
    ranges.modify next
      (fun range => { range with prev := link })

------------------------------------------------------------
-- The Range Set
------------------------------------------------------------

/- new_range_set -/
def newRangeSet : RangeSet where
  records := fun _ => none
  list := none
  loTree := treeNew

/-
  The part of add_range after malloc gave the record p, whose
  fields are in `range`.
-/
def insertRange
    (ranges : RangeSet)
    (p : Nat)
    (range : Range)
    (node : Ptr) :
    Except Stop RangeSet := do
  let ranges :=
    { ranges with
      records :=
        Function.update ranges.records p (some range) }
  let ranges ← linkNext ranges range.prev (some p)
  let ranges ← linkPrev ranges range.next (some p)
  let (loTree, _) ←
    treeInsert ranges.loTree (asLong range.lo) (some p) node
  return { ranges with loTree := loTree }

/-
  The part of add_range after its tests of the address alone.
-/
def recordRange
    (ranges : RangeSet)
    (lo hi : Nat)
    (index : Int)
    (malloced node : Ptr) :
    Except Stop (RangeSet × Bool) := do
  let (loTree, prev) ←
    treeFindNearest ranges.loTree (asLong lo)
  let ranges := { ranges with loTree := loTree }
  let next ← nextOf ranges prev
  let before ← overlapsPrev ranges prev lo
  if before then
    return (ranges, false)
  else
    let after ← overlapsNext ranges next hi
    if after then
      return (ranges, false)
    else
      match malloced with
      | none => .error .exit
      | some p =>
          let ranges ←
            insertRange ranges p
              { lo := lo
                hi := hi
                index := index
                next := next
                prev := prev }
              node
          return (ranges, true)

/-
  add_range; the assertion that size is positive ends the
  program.  `malloced` and `node` are what malloc returns for
  the record and for its tree node.
-/
def addRange
    (debugMode : DebugMode)
    (heap : HeapExtent)
    (ranges : RangeSet)
    (lo size : Nat)
    (index : Int)
    (malloced node : Ptr) :
    Except Stop (RangeSet × Bool) :=
  let hi := highAddress lo size
  if size = 0 then
    .error .exit
  else if lo % alignment ≠ 0 then
    .ok (ranges, false)
  else if lo < heap.lo ∨ heap.hi < lo ∨
      hi < heap.lo ∨ heap.hi < hi then
    .ok (ranges, false)
  else if debugMode = .none then
    .ok (ranges, true)
  else
    recordRange ranges lo hi index malloced node

/- remove_range -/
def removeRange
    (ranges : RangeSet)
    (lo : Nat) :
    Except Stop RangeSet := do
  let (loTree, p) ← treeRemove ranges.loTree (asLong lo)
  let ranges := { ranges with loTree := loTree }
  if p = none then
    return ranges
  else
    let prev := (← ranges.get p).prev
    let next := (← ranges.get p).next
    let ranges ← linkNext ranges prev next
    let ranges ← linkPrev ranges next prev
    return ranges.free p

end Driver

end CsappLabs
