import CsappLabs.Recitation.Words

/-
  The recitation allocator, translated function by function
  (malloc/f19-rec-malloc, mm.c and mm-2.c).

  The two files differ in coalesce_block, where mm-2.c
  stores an int into the next block, and in the order of the
  two tags that split_block writes to the remainder.

  Key definitions:
    * `coalesceBlock`
    * `splitBlock`
    * `extendHeap`
    * `mmInit`, `malloc`, `free`, `realloc`, `calloc`
-/

------------------------------------------------------------
-- Internal Routines
------------------------------------------------------------

namespace CsappLabs

namespace Recitation

/- The two versions of the file. -/
inductive Version where
  | mm
  | mm2
  deriving DecidableEq, Repr

def coalesceBlock
    (version : Version)
    (heap : Heap)
    (block : Nat) :
    Heap × Nat :=
  let size := getSize heap block
  let blockNext := findNext heap block
  let blockPrev := findPrev heap block
  let prevAlloc :=
    extractAlloc (get heap (findPrevFooter block))
  let nextAlloc := getAlloc heap blockNext
  if prevAlloc ∧ nextAlloc then
    match version with
    | .mm => (heap, block)
    | .mm2 =>
        (store heap (headerToPayload blockNext) 4 0x15213,
          block)
  else if prevAlloc ∧ ¬ nextAlloc then
    let size := u64 (size + getSize heap blockNext)
    let heap := writeHeader heap block size false
    let heap := writeFooter heap block size false
    (heap, block)
  else if ¬ prevAlloc ∧ nextAlloc then
    let size := u64 (size + getSize heap blockPrev)
    let heap := writeHeader heap blockPrev size false
    let heap := writeFooter heap blockPrev size false
    (heap, blockPrev)
  else
    let size :=
      u64 (size +
        u64 (getSize heap blockNext +
          getSize heap blockPrev))
    let heap := writeHeader heap blockPrev size false
    let heap := writeFooter heap blockPrev size false
    (heap, blockPrev)

/- extend_heap: the free block at the end, or NULL. -/
def extendHeap
    (version : Version)
    (heap : Heap)
    (size : Nat) :
    Heap × Nat :=
  let size := roundUp size dsize
  match memSbrk heap size with
  | (heap, none) => (heap, null)
  | (heap, some bp) =>
      let block := payloadToHeader bp
      let heap := writeHeader heap block size false
      let heap := writeFooter heap block size false
      let blockNext := findNext heap block
      let heap := writeHeader heap blockNext 0 true
      coalesceBlock version heap block

/- The remainder of a block that is larger than needed. -/
def splitBlock
    (version : Version)
    (heap : Heap)
    (block asize : Nat) :
    Heap :=
  let blockSize := getSize heap block
  let rest := sub64 blockSize asize
  if minBlockSize ≤ rest then
    let heap := writeHeader heap block asize true
    let heap := writeFooter heap block asize true
    let blockNext := findNext heap block
    match version with
    | .mm =>
        let heap := writeFooter heap blockNext rest false
        writeHeader heap blockNext rest false
    | .mm2 =>
        let heap := writeHeader heap blockNext rest false
        writeFooter heap blockNext rest false
  else
    heap

/-
  The loop of find_fit from `block` on.  It has no value
  where the walk leaves the heap and does not come to an
  end within `fuel` blocks.
-/
def findFitFrom
    (heap : Heap)
    (asize : Nat) :
    Nat → Nat → Option Nat
  | 0, _ => none
  | fuel + 1, block =>
      if getSize heap block = 0 then
        some null
      else if getAlloc heap block = false ∧
          asize ≤ getSize heap block then
        some block
      else
        findFitFrom heap asize fuel (findNext heap block)

/- A heap has fewer blocks than bytes below its break. -/
def findFit
    (heap : Heap)
    (asize : Nat) :
    Option Nat :=
  findFitFrom heap asize heap.memBrk heap.heapStart

------------------------------------------------------------
-- The Package
------------------------------------------------------------

/- mm_init and the bool it returns. -/
def mmInit
    (version : Version)
    (heap : Heap) :
    Heap × Bool :=
  match memSbrk heap (2 * wsize) with
  | (heap, none) => (heap, false)
  | (heap, some start) =>
      let heap := put heap start (pack 0 true)
      let heap := put heap (start + wsize) (pack 0 true)
      let heap := { heap with heapStart := start + wsize }
      match extendHeap version heap chunksize with
      | (heap, block) => (heap, block ≠ null)

/- The end of malloc: mark the block, split it, return it. -/
def placeBlock
    (version : Version)
    (heap : Heap)
    (block asize : Nat) :
    Heap × Nat :=
  let blockSize := getSize heap block
  let heap := writeHeader heap block blockSize true
  let heap := writeFooter heap block blockSize true
  let heap := splitBlock version heap block asize
  (heap, headerToPayload block)

/- malloc, once the heap is initialized. -/
def mallocFrom
    (version : Version)
    (heap : Heap)
    (size : Nat) :
    Option (Heap × Nat) :=
  if size = 0 then
    some (heap, null)
  else
    let asize := roundUp (u64 (size + dsize)) dsize
    match findFit heap asize with
    | none => none
    | some block =>
        if block ≠ null then
          some (placeBlock version heap block asize)
        else
          match extendHeap version heap
              (max asize chunksize) with
          | (heap, block) =>
              if block = null then
                some (heap, null)
              else
                some (placeBlock version heap block asize)

/- malloc has no value where its walk never ends. -/
def malloc
    (version : Version)
    (heap : Heap)
    (size : Nat) :
    Option (Heap × Nat) :=
  if heap.heapStart = null then
    mallocFrom version (mmInit version heap).1 size
  else
    mallocFrom version heap size

def free
    (version : Version)
    (heap : Heap)
    (bp : Nat) :
    Heap :=
  if bp = null then
    heap
  else
    let block := payloadToHeader bp
    let size := getSize heap block
    let heap := writeHeader heap block size false
    let heap := writeFooter heap block size false
    (coalesceBlock version heap block).1

def realloc
    (version : Version)
    (heap : Heap)
    (ptr size : Nat) :
    Option (Heap × Nat) :=
  let block := payloadToHeader ptr
  if size = 0 then
    some (free version heap ptr, null)
  else if ptr = null then
    malloc version heap size
  else
    match malloc version heap size with
    | none => none
    | some (heap, newptr) =>
        if newptr = null then
          some (heap, null)
        else
          let copysize := getPayloadSize heap block
          let copysize :=
            if size < copysize then size else copysize
          let heap := memcpy heap newptr ptr copysize
          some (free version heap ptr, newptr)

/- calloc; its division traps where `elements` is zero. -/
def calloc
    (version : Version)
    (heap : Heap)
    (elements size : Nat) :
    Option (Heap × Nat) :=
  let asize := u64 (elements * size)
  if elements = 0 then
    none
  else if asize / elements ≠ size then
    some (heap, null)
  else
    match malloc version heap asize with
    | none => none
    | some (heap, bp) =>
        if bp = null then
          some (heap, null)
        else
          some (memzero heap bp asize, bp)

end Recitation

end CsappLabs
