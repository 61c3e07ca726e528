import CsappLabs.Lib.ByteMemory
import CsappLabs.Splay.Tree

/-
  The memory of the malloc driver, translated function by
  function (malloc/f19-rec-malloc/memlib.c).

  In sparse mode the bytes of the heap lie in pages that are
  allocated from a pool when they are first accessed, and
  found through a hash table of chains.  A page is given as
  it is, with the bytes of its last use.

  Key definitions:
    * `MemBlock`, `Memory`
    * `getMem`, `memRead`, `memWrite`
    * `memMemset`, `memMemcpy`
    * `memInit`, `memResetBrk`, `memSbrk`
-/

------------------------------------------------------------
-- State
------------------------------------------------------------

namespace CsappLabs

namespace Driver

open Splay (Ptr Stop)

/- SPARSE_PAGE_SIZE -/
def sparsePageSize : Nat := 1 <<< 10

/- SPARSE_HEAP_START -/
def sparseHeapStart : Nat := 0x2130051300000000

/- MAX_SPARSE_HEAP -/
def maxSparseHeap : Nat := 1 <<< 62

/- MAX_DENSE_HEAP -/
def maxDenseHeap : Nat := 100 * (1 <<< 20)

/- sizeof(uint64_t) -/
def wordSize : Nat := 8

/- mem_block_t; a pointer to a block is its place in the pool. -/
structure MemBlock where
  id : Nat
  next : Ptr
  bytes : Nat → UInt8

/-
  The static variables of memlib.c.  `blocks` is the memory
  of the pool, with the padding behind the last page as one
  more id, and `process` is the memory outside the emulation.
-/
structure Memory where
  sparse : Bool
  heap : Nat
  memBrk : Nat
  memMaxAddr : Nat
  nextFreePage : Nat
  numPages : Nat
  numFreePages : Nat
  pageTable : Nat → Ptr
  numBuckets : Nat
  blocks : Nat → MemBlock
  process : ByteMemory

namespace Memory

/- A store to a field of a block. -/
def modifyBlock
    (memory : Memory)
    (k : Nat)
    (change : MemBlock → MemBlock) :
    Memory :=
  { memory with
    blocks :=
      Function.update memory.blocks k
        (change (memory.blocks k)) }

/- The byte at an offset into the bytes of a block. -/
def byteAt
    (memory : Memory)
    (k : Nat) :
    ByteMemory :=
  fun offset =>
    if offset < sparsePageSize then
      (memory.blocks k).bytes offset
    else
      -- the next block starts with its id
      UInt8.ofNat
        ((memory.blocks (k + 1)).id /
          256 ^ (offset - sparsePageSize))

/- A store of low bytes of a value inside a page. -/
def storeBytes
    (memory : Memory)
    (k offset value len : Nat) :
    Memory :=
  memory.modifyBlock k fun block =>
    { block with
      bytes :=
        ByteMemory.writeWord block.bytes offset len value }

end Memory

------------------------------------------------------------
-- Pages
------------------------------------------------------------

/- page_id -/
def pageId (addr : Nat) : Nat :=
  (addr - sparseHeapStart) / sparsePageSize

/- page_start -/
def pageStart (id : Nat) : Nat :=
  sparseHeapStart + id * sparsePageSize

/- The loop of get_mem along a chain. -/
def chainLoop
    (memory : Memory)
    (id : Nat) :
    Nat → Ptr → Except Stop Ptr
  | 0, _ => .error .loop
  | _ + 1, none => .ok none
  | fuel + 1, some block =>
      if (memory.blocks block).id = id then
        .ok (some block)
      else
        chainLoop memory id fuel (memory.blocks block).next

/- The lines of get_mem that take a new page. -/
def newPage
    (memory : Memory)
    (id b : Nat) :
    Memory :=
  let block := memory.nextFreePage
  let memory :=
    { memory with
      nextFreePage := memory.nextFreePage + 1
      numFreePages := memory.numFreePages - 1 }
  let memory :=
    memory.modifyBlock block fun page =>
      { page with
        id := id
        next := memory.pageTable b }
  { memory with
    pageTable :=
      Function.update memory.pageTable b (some block) }

/-
  get_mem; a pointer to a byte is its block and its offset.
  No chain is longer than the pool.
-/
def getMem
    (memory : Memory)
    (addr : Nat) :
    Except Stop (Memory × Nat × Nat) := do
  let id := pageId addr
  let b := id % memory.numBuckets
  let block ←
    chainLoop memory id (memory.numPages + 1)
      (memory.pageTable b)
  let offset := addr - pageStart id
  match block with
  | some block => return (memory, block, offset)
  | none =>
      if memory.numFreePages = 0 then
        .error .exit
      else
        return (newPage memory id b, memory.nextFreePage,
          offset)

------------------------------------------------------------
-- Reading And Writing
------------------------------------------------------------

/- ((uint64_t) 1 << (8 * len)) - 1 -/
def byteMask (len : Nat) : Nat :=
  (1 <<< (8 * len)) - 1

/- The condition under which an access is emulated. -/
def emulated
    (memory : Memory)
    (addr len : Nat) :
    Bool :=
  memory.sparse && decide (memory.heap ≤ addr) &&
    decide (addr + len ≤ memory.memBrk)

/- *(uint64_t *) of a pointer into a page. -/
def fetchWord
    (memory : Memory)
    (k offset : Nat) :
    Nat :=
  (memory.byteAt k).readWord offset wordSize

/- The heap read of mem_read, before the last mask. -/
def heapRead
    (memory : Memory)
    (addr len : Nat) :
    Except Stop (Memory × Nat) := do
  let id := pageId addr
  let (memory, k, off) ← getMem memory addr
  let rdata := fetchWord memory k off
  let maddr := addr + len - 1
  if id ≠ pageId maddr then
    let saddr := pageStart id
    let offset := addr - saddr
    let llen := sparsePageSize - offset
    let rdata := rdata &&& byteMask llen
    let haddr := addr + llen
    let (memory, hk, hoff) ← getMem memory haddr
    let hdata := fetchWord memory hk hoff
    return (memory,
      rdata ||| (hdata <<< (8 * llen)) % 2 ^ 64)
  else
    return (memory, rdata)

/- The last mask of mem_read. -/
def truncate (rdata len : Nat) : Nat :=
  if len < wordSize then rdata &&& byteMask len else rdata

/- mem_read -/
def memRead
    (memory : Memory)
    (addr len : Nat) :
    Except Stop (Memory × Nat) :=
  if emulated memory addr len then do
    let (memory, rdata) ← heapRead memory addr len
    return (memory, truncate rdata len)
  else
    .ok (memory,
      truncate (memory.process.readWord addr wordSize) len)

/- The heap write of mem_write. -/
def heapWrite
    (memory : Memory)
    (addr val len : Nat) :
    Except Stop Memory := do
  let id := pageId addr
  let (memory, k, off) ← getMem memory addr
  let saddr := pageStart id
  let offset := addr - saddr
  let llen := sparsePageSize - offset
  if llen < len then
    let memory := memory.storeBytes k off val llen
    let ulen := len - llen
    let haddr := addr + llen
    let (memory, hk, hoff) ← getMem memory haddr
    -- the source is the value from its byte llen on
    return memory.storeBytes hk hoff (val / 256 ^ llen) ulen
  else
    return memory.storeBytes k off val len

/- mem_write -/
def memWrite
    (memory : Memory)
    (addr val len : Nat) :
    Except Stop Memory :=
  if emulated memory addr len then
    heapWrite memory addr val len
  else
    .ok { memory with
      process := memory.process.writeWord addr len val }

------------------------------------------------------------
-- Copying And Filling
------------------------------------------------------------

/-
  The loop of mem_memcpy and the access after it; `n` is at
  least one word in every turn.
-/
def memMemcpy
    (memory : Memory)
    (dst src n : Nat) :
    Except Stop Memory := do
  if wordSize ≤ n then
    let (memory, data) ← memRead memory src wordSize
    let memory ← memWrite memory dst data wordSize
    memMemcpy memory (dst + wordSize) (src + wordSize)
      (n - wordSize)
  else if n ≠ 0 then
    let (memory, data) ← memRead memory src n
    memWrite memory dst data n
  else
    return memory
termination_by n
decreasing_by
  unfold wordSize at *
  omega

/- The word of mem_memset, eight times the low byte of c. -/
def fillWord (c : Int) : Nat :=
  (List.range wordSize).foldl
    (fun data i => data ||| ((c % 256).toNat <<< (8 * i)))
    0

/- The loop of mem_memset and the access after it. -/
def fill
    (memory : Memory)
    (dst data n : Nat) :
    Except Stop Memory := do
  if wordSize ≤ n then
    let memory ← memWrite memory dst data wordSize
    fill memory (dst + wordSize) data (n - wordSize)
  else if n ≠ 0 then
    memWrite memory dst data n
  else
    return memory
termination_by n
decreasing_by
  unfold wordSize at *
  omega

/- mem_memset -/
def memMemset
    (memory : Memory)
    (dst : Nat)
    (c : Int)
    (n : Nat) :
    Except Stop Memory :=
  fill memory dst (fillWord c) n

------------------------------------------------------------
-- The Break
------------------------------------------------------------

/- mem_reset_brk -/
def memResetBrk (memory : Memory) : Memory :=
  if memory.sparse then
    { memory with
      pageTable := fun _ => none
      nextFreePage := 0
      numFreePages := memory.numPages
      memBrk := memory.heap }
  else
    { memory with memBrk := memory.heap }

/-
  mem_init in sparse mode, on memory of zeros.  The number of
  pages is MAX_DENSE_HEAP divided by the 1040 bytes of a page
  and its tenth of a page table entry.
-/
def memInit (process : ByteMemory) : Memory :=
  memResetBrk
    { sparse := true
      heap := sparseHeapStart
      memBrk := sparseHeapStart
      memMaxAddr := sparseHeapStart + maxSparseHeap
      nextFreePage := 0
      numPages := 10 * maxDenseHeap / (10 * 1040 + 8)
      numFreePages := 0
      pageTable := fun _ => none
      numBuckets := 10 * maxDenseHeap / (10 * 1040 + 8) / 10
      blocks := fun _ => ⟨0, none, fun _ => 0⟩
      process := process }

/-
  mem_sbrk, with no value where it returns (void *) -1.
  `granted` says whether the sbrk of a dense heap succeeds.
-/
def memSbrk
    (memory : Memory)
    (incr : Int)
    (granted : Bool) :
    Option (Memory × Nat) :=
  if incr < 0 then
    none
  else if (memory.memMaxAddr : Int) < memory.memBrk + incr then
    none
  else if !memory.sparse && !granted then
    none
  else
    some
      ({ memory with memBrk := memory.memBrk + incr.toNat },
        memory.memBrk)

end Driver

end CsappLabs
