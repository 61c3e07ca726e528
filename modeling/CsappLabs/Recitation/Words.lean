import CsappLabs.Lib.ByteMemory

/-
  The state and the word helpers of the recitation allocator
  (malloc/f19-rec-malloc, mm.c and mm-2.c over memlib.c).

  Words and size_t values are 64 bits wide, and so are
  pointers.  `overrun` is set by a store that reaches the
  break or goes beyond it.

  Key definitions:
    * `Heap`
    * `put`, `get`
    * `writeHeader`, `writeFooter`
    * `findNext`, `findPrev`
    * `memSbrk`
-/

------------------------------------------------------------
-- Machine Arithmetic
------------------------------------------------------------

namespace CsappLabs

namespace Recitation

/- A size_t or a pointer, reduced to 64 bits. -/
def u64
    (value : Nat) :
    Nat :=
  value % 2 ^ 64

/- left - right on 64-bit values. -/
def sub64
    (left right : Nat) :
    Nat :=
  (left + 2 ^ 64 - right) % 2 ^ 64

------------------------------------------------------------
-- Process State
------------------------------------------------------------

/-
  The memory system and the allocator's heap_start.  The
  answer of the system's own sbrk to the k-th call that
  gets so far is `osGrants k`.
-/
structure Heap where
  mem : ByteMemory
  heapLo : Nat
  memBrk : Nat
  memMaxAddr : Nat
  osGrants : Nat → Bool
  osCalls : Nat
  heapStart : Nat
  overrun : Bool

def null : Nat := 0

/- mem_sbrk(incr), with no address where it returns -1. -/
def memSbrk
    (heap : Heap)
    (incr : Nat) :
    Heap × Option Nat :=
  if 2 ^ 63 ≤ incr then
    (heap, none)
  else if heap.memMaxAddr < heap.memBrk + incr then
    (heap, none)
  else if heap.osGrants heap.osCalls then
    ({ heap with
        osCalls := heap.osCalls + 1
        memBrk := heap.memBrk + incr },
      some heap.memBrk)
  else
    ({ heap with osCalls := heap.osCalls + 1 }, none)

/- Any store of `width` bytes. -/
def store
    (heap : Heap)
    (p width value : Nat) :
    Heap :=
  { heap with
    mem := heap.mem.writeWord p width value
    overrun :=
      heap.overrun || decide (heap.memBrk < p + width) }

------------------------------------------------------------
-- Constants and Short Helpers
------------------------------------------------------------

def wsize : Nat := 8

def dsize : Nat := 2 * wsize

def minBlockSize : Nat := 2 * dsize

def chunksize : Nat := 1 <<< 12

def allocMask : Nat := 0x1

def sizeMask : Nat := 0xFFFFFFFFFFFFFFF0

def roundUp
    (size n : Nat) :
    Nat :=
  u64 (n * (u64 (size + (n - 1)) / n))

def pack
    (size : Nat)
    (alloc : Bool) :
    Nat :=
  if alloc then
    size ||| allocMask
  else
    size

def get
    (heap : Heap)
    (p : Nat) :
    Nat :=
  heap.mem.readWord p wsize

def put
    (heap : Heap)
    (p value : Nat) :
    Heap :=
  store heap p wsize value

def extractSize
    (word : Nat) :
    Nat :=
  word &&& sizeMask

def extractAlloc
    (word : Nat) :
    Bool :=
  word &&& allocMask ≠ 0

def getSize
    (heap : Heap)
    (block : Nat) :
    Nat :=
  extractSize (get heap block)

def getPayloadSize
    (heap : Heap)
    (block : Nat) :
    Nat :=
  sub64 (getSize heap block) dsize

def getAlloc
    (heap : Heap)
    (block : Nat) :
    Bool :=
  extractAlloc (get heap block)

def payloadToHeader
    (bp : Nat) :
    Nat :=
  sub64 bp wsize

def headerToPayload
    (block : Nat) :
    Nat :=
  u64 (block + wsize)

def headerToFooter
    (heap : Heap)
    (block : Nat) :
    Nat :=
  sub64 (headerToPayload block + getSize heap block) dsize

def writeHeader
    (heap : Heap)
    (block size : Nat)
    (alloc : Bool) :
    Heap :=
  put heap block (pack size alloc)

/- The footer is found through the size in the header. -/
def writeFooter
    (heap : Heap)
    (block size : Nat)
    (alloc : Bool) :
    Heap :=
  put heap (headerToFooter heap block) (pack size alloc)

def findNext
    (heap : Heap)
    (block : Nat) :
    Nat :=
  u64 (block + getSize heap block)

def findPrevFooter
    (block : Nat) :
    Nat :=
  sub64 block wsize

def findPrev
    (heap : Heap)
    (block : Nat) :
    Nat :=
  sub64 block
    (extractSize (get heap (findPrevFooter block)))

/- memcpy, as if through a temporary buffer. -/
def memcpy
    (heap : Heap)
    (target source count : Nat) :
    Heap :=
  { heap with
    mem := heap.mem.copy target source count
    overrun :=
      heap.overrun ||
        decide (0 < count ∧ heap.memBrk < target + count) }

/- memset(target, 0, count) -/
def memzero
    (heap : Heap)
    (target count : Nat) :
    Heap :=
  { heap with
    mem := fun a =>
      if target ≤ a ∧ a < target + count then
        0
      else
        heap.mem a
    overrun :=
      heap.overrun ||
        decide (0 < count ∧ heap.memBrk < target + count) }

end Recitation

end CsappLabs
