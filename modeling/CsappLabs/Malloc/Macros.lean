import CsappLabs.Lib.ByteMemory

/-
  The allocator's process state and its word macros.

  `Heap` holds the simulated virtual memory of `memlib.c`
  and the static variables of `mm.c`. Addresses are natural
  numbers that do not wrap; words and `size_t` values are 32
  bits wide, as built with `-m32`.

  Key definitions include:
    * `Heap`
    * `pack`, `get`, `put`, `getSize`, `isAlloc`
    * `hdrp`, `ftrp`, `nextBlkp`, `prevBlkp`
    * `memSbrk`
-/

------------------------------------------------------------
-- Machine Arithmetic
------------------------------------------------------------

namespace CsappLabs

namespace Malloc

/- A `size_t` result, reduced to 32 bits. -/
def u32 (value : Nat) : Nat :=
  value % 2 ^ 32

/- `left - right` on 32-bit `size_t` values. -/
def sub32 (left right : Nat) : Nat :=
  (left + 2 ^ 32 - right) % 2 ^ 32

/- A 32-bit value passed as an `int`. -/
def asInt (value : Nat) : Int :=
  if value % 2 ^ 32 < 2 ^ 31 then
    (value % 2 ^ 32 : Nat)
  else
    (value % 2 ^ 32 : Nat) - 2 ^ 32

------------------------------------------------------------
-- Process State
------------------------------------------------------------

/-
  The first three addresses and the memory belong to
  `memlib.c`, the last three to `mm.c`.
-/
structure Heap where
  mem : ByteMemory
  memStartBrk : Nat
  memBrk : Nat
  memMaxAddr : Nat
  heapListp : Nat
  startBrk : Nat
  finalBrk : Nat

/- The null pointer. -/
def null : Nat := 0

/- `MAX_HEAP`, 20 megabytes. -/
def maxHeap : Nat := 20 * (1 <<< 20)

/-
  `mem_init`: the simulated memory is obtained at `base`
  with whatever bytes it holds, and the heap is empty.
-/
def memInit (base : Nat) (mem : ByteMemory) : Heap where
  mem := mem
  memStartBrk := base
  memBrk := base
  memMaxAddr := base + maxHeap
  heapListp := null
  startBrk := null
  finalBrk := null

/- `mem_sbrk`, with no value where it returns `(void *)-1`. -/
def memSbrk (heap : Heap) (incr : Int) :
    Option (Heap × Nat) :=
  if incr < 0 ∨
      (heap.memMaxAddr : Int) < heap.memBrk + incr then
    none
  else
    some
      ({ heap with memBrk := heap.memBrk + incr.toNat },
        heap.memBrk)

/- `mem_heap_lo`: the address of the first heap byte. -/
def memHeapLo (heap : Heap) : Nat :=
  heap.memStartBrk

/- `mem_heap_hi`: the address of the last heap byte. -/
def memHeapHi (heap : Heap) : Nat :=
  heap.memBrk - 1

------------------------------------------------------------
-- Word Macros
------------------------------------------------------------

/- `WSIZE`: a header or footer, in bytes. -/
def wsize : Nat := 4

/- `DSIZE`: a double word, in bytes. -/
def dsize : Nat := 8

/- `CHUNKSIZE`: the least extension of the heap, in bytes. -/
def chunkSize : Nat := 1 <<< 12

/- Pack a size and an allocated bit into a word. -/
def pack (size alloc : Nat) : Nat :=
  size ||| alloc

/- Read the word at `p`. -/
def get (heap : Heap) (p : Nat) : Nat :=
  heap.mem.readWord p wsize

/- Write a word at `p`. -/
def put (heap : Heap) (p value : Nat) : Heap :=
  { heap with mem := heap.mem.writeWord p wsize value }

/- The size field of the word at `p`. -/
def getSize (heap : Heap) (p : Nat) : Nat :=
  get heap p &&& 0xFFFFFFF8

/- The allocated field of the word at `p`. -/
def isAlloc (heap : Heap) (p : Nat) : Nat :=
  get heap p &&& 0x1

/- The header of the block whose payload starts at `bp`. -/
def hdrp (bp : Nat) : Nat :=
  bp - wsize

/- The footer of that block, found through its header. -/
def ftrp (heap : Heap) (bp : Nat) : Nat :=
  bp + getSize heap (hdrp bp) - dsize

/- The block after `bp`, found through its header. -/
def nextBlkp (heap : Heap) (bp : Nat) : Nat :=
  bp + getSize heap (hdrp bp)

/- The block before `bp`, found through its footer. -/
def prevBlkp (heap : Heap) (bp : Nat) : Nat :=
  bp - getSize heap (bp - dsize)

/- `memcpy`, as if through a temporary buffer. -/
def memcpy (heap : Heap) (target source count : Nat) :
    Heap :=
  { heap with mem := heap.mem.copy target source count }

end Malloc

end CsappLabs
