import CsappLabs.Malloc.Macros

/-
  The allocator of `mm.c`, translated function by function.

  Key definitions include:
    * `coalesce`, `extendHeap`, `findFit`, `place`
    * `mmInit`, `mmMalloc`, `mmFree`, `mmRealloc`
    * `reallocInPlace`, the branch of `mmRealloc` that runs
      when its call of `mmMalloc` fails
-/

------------------------------------------------------------
-- Outcomes
------------------------------------------------------------

namespace CsappLabs

namespace Malloc

/-
  How a call ends: it returns a value, calls `exit`, or is
  still walking the block list after leaving the heap.
-/
inductive Outcome (α : Type) where
| ret (heap : Heap) (value : α)
| exit (heap : Heap) (code : Int)
| lost (heap : Heap)

/- Continue with the heap and the value of a call. -/
def Outcome.andThen
    {α β : Type}
    (outcome : Outcome α)
    (next : Heap → α → Outcome β) :
    Outcome β :=
  match outcome with
  | .ret heap value => next heap value
  | .exit heap code => .exit heap code
  | .lost heap => .lost heap

/- The heap as a call leaves it, however it ends. -/
def Outcome.heap {α : Type} : Outcome α → Heap
| .ret heap _ => heap
| .exit heap _ => heap
| .lost heap => heap

------------------------------------------------------------
-- Coalescing And Extension
------------------------------------------------------------

/- `coalesce`: merge a free block with its free neighbours. -/
def coalesce (heap : Heap) (bp : Nat) : Heap × Nat :=
  if bp = null then
    (heap, bp)
  else
    let size := getSize heap (hdrp bp)
    let nextAlloc := isAlloc heap (hdrp (nextBlkp heap bp))
    let prevAlloc := isAlloc heap (hdrp (prevBlkp heap bp))
    if prevAlloc ≠ 0 ∧ nextAlloc ≠ 0 then
      (heap, bp)
    else if prevAlloc ≠ 0 ∧ nextAlloc = 0 then
      let size :=
        u32 (size + getSize heap (hdrp (nextBlkp heap bp)))
      let heap := put heap (hdrp bp) (pack size 0)
      let heap := put heap (ftrp heap bp) (pack size 0)
      (heap, bp)
    else if prevAlloc = 0 ∧ nextAlloc ≠ 0 then
      let size :=
        u32 (size +
          getSize heap (ftrp heap (prevBlkp heap bp)))
      let heap :=
        put heap (hdrp (prevBlkp heap bp)) (pack size 0)
      let heap := put heap (ftrp heap bp) (pack size 0)
      (heap, prevBlkp heap bp)
    else
      let prevSize :=
        getSize heap (hdrp (prevBlkp heap bp))
      let nextSize :=
        getSize heap (hdrp (nextBlkp heap bp))
      let size := u32 (size + u32 (prevSize + nextSize))
      let heap :=
        put heap (hdrp (prevBlkp heap bp)) (pack size 0)
      let heap :=
        put heap (ftrp heap (prevBlkp heap bp))
          (pack size 0)
      (heap, prevBlkp heap bp)

/- `extend_heap`: the new free block, or null. -/
def extendHeap (heap : Heap) (words : Nat) : Heap × Nat :=
  let size :=
    if words % 2 ≠ 0 then
      u32 (u32 (words + 1) * wsize)
    else
      u32 (words * wsize)
  match memSbrk heap (asInt size) with
  | none => (heap, null)
  | some (heap, bp) =>
      let heap := { heap with finalBrk := bp + size }
      let heap := put heap (hdrp bp) (pack size 0)
      let heap := put heap (ftrp heap bp) (pack size 0)
      let heap :=
        put heap (hdrp (nextBlkp heap bp)) (pack 0 1)
      coalesce heap bp

------------------------------------------------------------
-- Fitting And Placing
------------------------------------------------------------

/-
  The loop of `find_fit` from the block at `walk`, first
  fit. Every block is at least one byte long, so a walk
  inside the heap takes fewer steps than the break.
-/
def findFitFrom (heap : Heap) (asize : Nat) :
    Nat → Nat → Option Nat
| 0, _ => none
| fuel + 1, walk =>
    let size := getSize heap (hdrp walk)
    if size = 0 then
      some null
    else if isAlloc heap (hdrp walk) = 0 ∧ asize ≤ size then
      some walk
    else
      findFitFrom heap asize fuel (nextBlkp heap walk)

/-
  `find_fit`: the first free block of `asize` bytes or more,
  or null. It has no value where the walk leaves the heap.
-/
def findFit (heap : Heap) (asize : Nat) : Option Nat :=
  findFitFrom heap asize heap.memBrk
    (nextBlkp heap heap.heapListp)

/- `place`: allocate `asize` bytes at the free block `bp`. -/
def place (heap : Heap) (bp asize : Nat) : Outcome Unit :=
  let allocableSize := getSize heap (hdrp bp)
  let kMinSize := 2 * dsize
  let remainSize := sub32 allocableSize asize
  if kMinSize ≤ remainSize then
    let heap := put heap (hdrp bp) (pack asize 1)
    let heap := put heap (ftrp heap bp) (pack asize 1)
    let heap :=
      put heap (hdrp (nextBlkp heap bp)) (pack remainSize 0)
    let heap :=
      put heap (ftrp heap (nextBlkp heap bp))
        (pack remainSize 0)
    .ret heap ()
  else
    let heap := put heap (hdrp bp) (pack asize 1)
    let heap := put heap (ftrp heap bp) (pack asize 1)
    if (remainSize / wsize) &&& 1 = 1 then
      .exit heap (-1)
    else if remainSize = dsize then
      let heap :=
        put heap (hdrp (nextBlkp heap bp)) (pack dsize 0)
      let heap :=
        put heap (ftrp heap (nextBlkp heap bp))
          (pack dsize 0)
      .ret heap ()
    else
      .ret heap ()

------------------------------------------------------------
-- The Package
------------------------------------------------------------

/-
  The stores of `mm_init`: the padding, the prologue, the
  epilogue, and the two pointers.
-/
def storeEmptyHeap (heap : Heap) (listp : Nat) : Heap :=
  let heap := put heap listp 0
  let heap := put heap (listp + 1 * wsize) (pack dsize 1)
  let heap := put heap (listp + 2 * wsize) (pack dsize 1)
  let heap := put heap (listp + 3 * wsize) (pack 0 1)
  { heap with
    startBrk := listp
    heapListp := listp + 2 * wsize }

/- `mm_init`: the value is the `int` it returns. -/
def mmInit (heap : Heap) : Heap × Int :=
  match memSbrk heap (asInt (4 * wsize)) with
  | none => ({ heap with heapListp := 2 ^ 32 - 1 }, -1)
  | some (heap, listp) =>
      let extended :=
        extendHeap (storeEmptyHeap heap listp)
          (chunkSize / wsize)
      (extended.1, if extended.2 = null then -1 else 0)

/- `AGNSIZE`, in `size_t` arithmetic. -/
def agnSize (size : Nat) : Nat :=
  u32 (dsize *
    (sub32 (u32 (u32 (size + dsize) + dsize)) 1 / dsize))

/- The block size for a request, as every caller picks it. -/
def adjustSize (size : Nat) : Nat :=
  if size ≤ dsize then 2 * dsize else agnSize size

/- `mm_malloc`: the value is the payload, or null. -/
def mmMalloc (heap : Heap) (size : Nat) : Outcome Nat :=
  if size = 0 then
    .ret heap null
  else
    let asize := adjustSize size
    match findFit heap asize with
    | none => .lost heap
    | some bp =>
        if bp ≠ null then
          (place heap bp asize).andThen
            fun heap _ => .ret heap bp
        else
          let extendSize :=
            if chunkSize < asize then asize else chunkSize
          let (heap, bp) :=
            extendHeap heap (extendSize / wsize)
          if bp = null then
            .ret heap null
          else
            (place heap bp asize).andThen
              fun heap _ => .ret heap bp

/- `mm_free`. -/
def mmFree (heap : Heap) (bp : Nat) : Heap :=
  if bp = null then
    heap
  else
    let size := getSize heap (hdrp bp)
    let heap := put heap (hdrp bp) (pack size 0)
    let heap := put heap (ftrp heap bp) (pack size 0)
    (coalesce heap bp).1

/-
  The branch of `mm_realloc` for a failed `mm_malloc`: grow
  into a neighbour that looks free, or shrink in place. The
  neighbours are tested at their payload pointers.
-/
def reallocInPlace
    (heap : Heap)
    (oldptr asize oldSize copySize : Nat) :
    Outcome Nat :=
  if oldSize < asize then
    let nextFree := isAlloc heap (nextBlkp heap oldptr) = 0
    let prevFree := isAlloc heap (prevBlkp heap oldptr) = 0
    if ¬ nextFree ∧ ¬ prevFree then
      .ret heap null
    else if nextFree ∧
        asize ≤
          u32 (getSize heap (hdrp (nextBlkp heap oldptr)) +
            oldSize) then
      let remainSize :=
        sub32
          (u32 (getSize heap (hdrp (nextBlkp heap oldptr)) +
            oldSize))
          asize
      let heap := put heap (hdrp oldptr) (pack asize 1)
      let heap := put heap (ftrp heap oldptr) (pack asize 1)
      if dsize ≤ remainSize then
        let heap :=
          put heap (hdrp (nextBlkp heap oldptr))
            (pack remainSize 0)
        let heap :=
          put heap (ftrp heap (nextBlkp heap oldptr))
            (pack remainSize 0)
        let heap :=
          (coalesce heap (nextBlkp heap oldptr)).1
        .ret heap oldptr
      else
        .exit heap (-1)
    else if prevFree ∧
        asize ≤
          u32 (getSize heap (hdrp (prevBlkp heap oldptr)) +
            oldSize) then
      let remainSize :=
        sub32
          (u32 (getSize heap (hdrp (prevBlkp heap oldptr)) +
            oldSize))
          asize
      let prevBp := prevBlkp heap oldptr
      let heap := put heap (hdrp prevBp) (pack asize 1)
      let heap := put heap (ftrp heap prevBp) (pack asize 1)
      if dsize ≤ remainSize then
        let heap :=
          put heap (hdrp (nextBlkp heap prevBp))
            (pack remainSize 0)
        let heap :=
          put heap (ftrp heap (nextBlkp heap prevBp))
            (pack remainSize 0)
        let heap :=
          (coalesce heap (nextBlkp heap prevBp)).1
        let heap :=
          memcpy heap prevBp oldptr (sub32 copySize dsize)
        .ret heap prevBp
      else
        .exit heap (-1)
    else
      .ret heap null
  else if asize < oldSize then
    let heap := put heap (hdrp oldptr) (pack asize 1)
    let heap := put heap (ftrp heap oldptr) (pack asize 1)
    let heap :=
      put heap (hdrp (nextBlkp heap oldptr))
        (pack (sub32 oldSize asize) 0)
    let heap :=
      put heap (ftrp heap (nextBlkp heap oldptr))
        (pack (sub32 oldSize asize) 0)
    let heap := (coalesce heap (nextBlkp heap oldptr)).1
    .ret heap oldptr
  else
    .ret heap null

/- `mm_realloc`: the value is the new payload, or null. -/
def mmRealloc (heap : Heap) (ptr size : Nat) :
    Outcome Nat :=
  if ptr = null then
    mmMalloc heap size
  else if size = 0 then
    .ret (mmFree heap ptr) null
  else
    let asize := adjustSize size
    let oldSize := getSize heap (hdrp ptr)
    if asize = oldSize then
      .ret heap ptr
    else
      let copySize := if asize < oldSize then asize else oldSize
      (mmMalloc heap size).andThen fun heap newptr =>
        if newptr = null then
          reallocInPlace heap ptr asize oldSize copySize
        else
          let heap :=
            memcpy heap newptr ptr (sub32 copySize dsize)
          .ret (mmFree heap ptr) newptr

end Malloc

end CsappLabs
