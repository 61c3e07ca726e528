import CsappLabs.Lib.BitField
import CsappLabs.Lib.Tiling
import CsappLabs.Recitation.Allocator

/-
  The blocks that a heap of the recitation allocator holds.

  A heap is a list of blocks between the prologue word and
  the epilogue word; every block carries its tag in its
  header and in its footer.

  Key definitions:
    * `Block`, `Block.tag`
    * `Represents`
    * `Rewrites`, `Keeps`

  Key theorems:
    * `Represents.rewrite`
    * `Represents.of_payload`
-/

------------------------------------------------------------
-- Blocks
------------------------------------------------------------

namespace CsappLabs

namespace Recitation

/- A size that a block can have. -/
structure BlockSize where
  bytes : Nat
  aligned : bytes % 16 = 0
  least : 32 ≤ bytes
  deriving DecidableEq

namespace BlockSize

theorem ext
    {left right : BlockSize}
    (hBytes : left.bytes = right.bytes) :
    left = right := by
  rcases left with ⟨bytes, _, _⟩
  cases hBytes
  rfl

def plus
    (left right : BlockSize) :
    BlockSize where
  bytes := left.bytes + right.bytes
  aligned := by
    have hLeft := left.aligned
    have hRight := right.aligned
    omega
  least := by
    have hLeft := left.least
    omega

def minus
    (left right : BlockSize)
    (hRest : right.bytes + 32 ≤ left.bytes) :
    BlockSize where
  bytes := left.bytes - right.bytes
  aligned := by
    have hLeft := left.aligned
    have hRight := right.aligned
    omega
  least := by
    omega

/- The size of the block that serves a request. -/
def ofRequest
    (request : Nat)
    (hRequest : 0 < request) :
    BlockSize where
  bytes := 16 * ((request + 16 + 15) / 16)
  aligned := by
    omega
  least := by
    omega

end BlockSize

structure Block where
  size : BlockSize
  allocated : Bool
  deriving DecidableEq

namespace Block

def bytes
    (block : Block) :
    Nat :=
  block.size.bytes

/- The word in the header and in the footer. -/
def tag
    (block : Block) :
    Nat :=
  pack block.bytes block.allocated

def freed
    (block : Block) :
    Block :=
  { block with allocated := false }

/- Two neighbours as one free block. -/
def join
    (left right : Block) :
    Block where
  size := left.size.plus right.size
  allocated := false

theorem bytes_mod
    (block : Block) :
    block.bytes % 16 = 0 :=
  block.size.aligned

theorem bytes_least
    (block : Block) :
    32 ≤ block.bytes :=
  block.size.least

theorem bytes_pos
    (block : Block) :
    0 < block.bytes :=
  Nat.lt_of_lt_of_le (by decide) block.bytes_least

@[simp] theorem bytes_freed
    (block : Block) :
    block.freed.bytes = block.bytes := rfl

@[simp] theorem bytes_join
    (left right : Block) :
    (left.join right).bytes = left.bytes + right.bytes :=
  rfl

end Block

def extent
    (blocks : List Block) :
    Nat :=
  Tiling.extent Block.bytes blocks

def placed
    (start : Nat)
    (blocks : List Block) :
    List (Nat × Block) :=
  Tiling.placed Block.bytes start blocks

section Chains

variable {start p p' : Nat} {block block' : Block}
variable {blocks front back : List Block}

@[simp] theorem extent_nil :
    extent [] = 0 := rfl

@[simp] theorem extent_cons :
    extent (block :: back) = block.bytes + extent back :=
  Tiling.extent_cons block back

@[simp] theorem extent_append :
    extent (front ++ back) = extent front + extent back :=
  Tiling.extent_append front back

@[simp] theorem placed_nil :
    placed start [] = [] := rfl

@[simp] theorem placed_cons :
    placed start (block :: back) =
      (start, block) ::
        placed (start + block.bytes) back := rfl

@[simp] theorem placed_append :
    placed start (front ++ back) =
      placed start front ++
        placed (start + extent front) back :=
  Tiling.placed_append front back

theorem bounds_of_placed
    (hMember : (p, block) ∈ placed start blocks) :
    start ≤ p ∧ p + block.bytes ≤ start + extent blocks :=
  Tiling.bounds_of_mem_placed hMember

theorem apart_of_placed
    (hMember : (p, block) ∈ placed start blocks)
    (hMember' : (p', block') ∈ placed start blocks)
    (hNe : p ≠ p') :
    p + block.bytes ≤ p' ∨ p' + block'.bytes ≤ p :=
  Tiling.apart_of_mem_placed hMember hMember' hNe

theorem eq_of_placed
    (hMember : (p, block) ∈ placed start blocks)
    (hMember' : (p, block') ∈ placed start blocks) :
    block = block' :=
  Tiling.eq_of_mem_placed Block.bytes_pos hMember hMember'

theorem placed_split
    (hMember : (p, block) ∈ placed start blocks) :
    ∃ front back,
      blocks = front ++ block :: back ∧
        p = start + extent front :=
  Tiling.mem_placed_iff.mp hMember

end Chains

/- The allocated blocks with their addresses. -/
def allocated
    (start : Nat)
    (blocks : List Block) :
    List (Nat × Block) :=
  (placed start blocks).filter
    (fun entry => entry.2.allocated)

theorem mem_allocated
    {start : Nat}
    {blocks : List Block}
    {entry : Nat × Block} :
    entry ∈ allocated start blocks ↔
      entry ∈ placed start blocks ∧
        entry.2.allocated = true := by
  rw [allocated, List.mem_filter]

theorem allocated_append
    (start : Nat)
    (front back : List Block) :
    allocated start (front ++ back) =
      allocated start front ++
        allocated (start + extent front) back := by
  rw [allocated, placed_append, List.filter_append]
  rfl

theorem allocated_cons
    (start : Nat)
    (block : Block)
    (back : List Block) :
    allocated start (block :: back) =
      (if block.allocated then [(start, block)] else []) ++
        allocated (start + block.bytes) back := by
  cases hAlloc : block.allocated with
  | true => simp [allocated, hAlloc]
  | false => simp [allocated, hAlloc]

------------------------------------------------------------
-- Tags
------------------------------------------------------------

theorem pack_eq
    {size : Nat}
    (hSize : size % 16 = 0)
    (alloc : Bool) :
    pack size alloc = size + alloc.toNat := by
  cases alloc with
  | false => rfl
  | true =>
      have hShift : size = 2 ^ 4 * (size / 16) := by
        omega
      have hLt : 1 < 2 ^ 4 := by
        decide
      simp only [pack, if_true, allocMask, Bool.toNat_true]
      rw [hShift, ← Nat.two_pow_add_eq_or_of_lt hLt]

theorem extractSize_eq
    {word : Nat}
    (hWord : word < 2 ^ 64) :
    extractSize word = word / 16 * 16 := by
  have hMask : sizeMask = (2 ^ 60 - 1) <<< 4 := by
    decide
  rw [extractSize, hMask]
  exact @BitField.and_high_mask word 4 60 hWord

theorem extractAlloc_eq
    (word : Nat) :
    extractAlloc word = decide (word % 2 = 1) := by
  have hAnd : word &&& allocMask = word % 2 :=
    Nat.and_one_is_mod word
  rw [extractAlloc, hAnd]
  apply decide_eq_decide.mpr
  omega

theorem get_lt
    (heap : Heap)
    (p : Nat) :
    get heap p < 2 ^ 64 :=
  ByteMemory.readWord_lt

theorem Block.tag_eq
    (block : Block) :
    block.tag = block.bytes + block.allocated.toNat :=
  pack_eq block.bytes_mod block.allocated

theorem Block.tag_lt
    (block : Block)
    (hBytes : block.bytes < 2 ^ 64) :
    block.tag < 2 ^ 64 := by
  have hMod := block.bytes_mod
  have hBool := Bool.toNat_le block.allocated
  rw [Block.tag_eq]
  omega

theorem Block.extractSize_tag
    (block : Block)
    (hBytes : block.bytes < 2 ^ 64) :
    extractSize block.tag = block.bytes := by
  have hMod := block.bytes_mod
  have hBool := Bool.toNat_le block.allocated
  rw [extractSize_eq (block.tag_lt hBytes), Block.tag_eq]
  omega

theorem Block.extractAlloc_tag
    (block : Block) :
    extractAlloc block.tag = block.allocated := by
  have hMod := block.bytes_mod
  rw [extractAlloc_eq, Block.tag_eq]
  cases block.allocated with
  | false =>
      simp only [Bool.toNat_false, decide_eq_false_iff_not]
      omega
  | true =>
      simp only [Bool.toNat_true, decide_eq_true_iff]
      omega

/- The header and the footer of a block hold its tag. -/
structure Tagged
    (mem : ByteMemory)
    (p : Nat)
    (block : Block) :
    Prop where
  header : mem.readWord p 8 = block.tag
  footer : mem.readWord (p + block.bytes - 8) 8 = block.tag

/- Tags lie in the bytes of their block. -/
theorem Tagged.of_sameOn
    {mem mem' : ByteMemory}
    {p : Nat}
    {block : Block}
    (hTagged : Tagged mem p block)
    (hSame : mem'.SameOn mem p (p + block.bytes)) :
    Tagged mem' p block := by
  have hLeast := block.bytes_least
  constructor
  · rw [← hTagged.header]
    exact ByteMemory.readWord_of_sameOn
      (hSame.mono (by omega) (by omega))
  · rw [← hTagged.footer]
    exact ByteMemory.readWord_of_sameOn
      (hSame.mono (by omega) (by omega))

------------------------------------------------------------
-- Represented Heaps
------------------------------------------------------------

/- The header address of the first block. -/
def Heap.first
    (heap : Heap) :
    Nat :=
  heap.heapLo + 8

/- No header of a block is at the null pointer. -/
theorem Heap.first_ne_null
    (heap : Heap)
    (offset : Nat) :
    heap.first + offset ≠ null := by
  unfold Heap.first null
  omega

/- Nor is a payload. -/
theorem payload_ne_null
    (p : Nat) :
    p + 8 ≠ null :=
  Nat.succ_ne_zero (p + 7)

/- The heap holds these blocks and ends at the break. -/
structure Represents
    (heap : Heap)
    (blocks : List Block) :
    Prop where
  heapStart : heap.heapStart = heap.heapLo + 8
  lo : 0 < heap.heapLo
  prologue : get heap heap.heapLo = 1
  tagged :
    ∀ p block,
      (p, block) ∈ placed heap.first blocks →
        Tagged heap.mem p block
  epilogue : get heap (heap.memBrk - 8) = 1
  memBrk : heap.memBrk = heap.heapLo + 16 + extent blocks
  bounded : heap.memBrk ≤ heap.memMaxAddr
  maxAddr : heap.memMaxAddr < 2 ^ 64

/- Stores inside [low, high), all of them below the break. -/
structure Rewrites
    (heap heap' : Heap)
    (low high : Nat) :
    Prop where
  mem : heap'.mem.SameOutside heap.mem low high
  rest : heap' = { heap with mem := heap'.mem }

theorem Rewrites.refl
    (heap : Heap)
    (low high : Nat) :
    Rewrites heap heap low high where
  mem := ByteMemory.SameOutside.refl
  rest := rfl

theorem Rewrites.trans
    {heap heap' heap'' : Heap}
    {low high : Nat}
    (hFirst : Rewrites heap heap' low high)
    (hSecond : Rewrites heap' heap'' low high) :
    Rewrites heap heap'' low high where
  mem := hSecond.mem.trans hFirst.mem
  rest := by
    rw [hSecond.rest, hFirst.rest]

theorem Rewrites.mono
    {heap heap' : Heap}
    {low high low' high' : Nat}
    (hRewrites : Rewrites heap heap' low high)
    (hLow : low' ≤ low)
    (hHigh : high ≤ high') :
    Rewrites heap heap' low' high' where
  mem := hRewrites.mem.mono hLow hHigh
  rest := hRewrites.rest

/- A word below the break is stored without an overrun. -/
theorem put_rewrites
    {heap : Heap}
    {p : Nat}
    (hBelow : p + 8 ≤ heap.memBrk)
    (value : Nat) :
    Rewrites heap (put heap p value) p (p + 8) where
  mem := ByteMemory.writeWord_sameOutside
  rest := by
    have hNot : ¬ heap.memBrk < p + wsize := by
      unfold wsize
      omega
    simp [put, store, hNot]

theorem get_put
    (heap : Heap)
    (p : Nat)
    {value : Nat}
    (hValue : value < 2 ^ 64) :
    get (put heap p value) p = value := by
  change ByteMemory.readWord
    (heap.mem.writeWord p 8 value) p 8 = value
  rw [ByteMemory.readWord_writeWord]
  exact Nat.mod_eq_of_lt hValue

theorem get_put_apart
    (heap : Heap)
    {p q : Nat}
    (hApart : q + 8 ≤ p ∨ p + 8 ≤ q)
    (value : Nat) :
    get (put heap p value) q = get heap q :=
  ByteMemory.readWord_writeWord_disjoint hApart

theorem get_of_sameOn
    {heap heap' : Heap}
    {p : Nat}
    (hSame : heap'.mem.SameOn heap.mem p (p + 8)) :
    get heap' p = get heap p :=
  ByteMemory.readWord_of_sameOn hSame

/- Both tags of a block. -/
def tagBlock
    (heap : Heap)
    (p : Nat)
    (block : Block) :
    Heap :=
  put (put heap p block.tag) (p + block.bytes - 8) block.tag

theorem tagBlock_rewrites
    {heap : Heap}
    {p : Nat}
    {block : Block}
    (hBelow : p + block.bytes ≤ heap.memBrk) :
    Rewrites heap (tagBlock heap p block)
      p (p + block.bytes) := by
  have hLeast := block.bytes_least
  have hHeader :
      Rewrites heap (put heap p block.tag) p (p + 8) :=
    put_rewrites (by omega) block.tag
  have hFooter :
      Rewrites (put heap p block.tag)
        (tagBlock heap p block)
        (p + block.bytes - 8) (p + block.bytes - 8 + 8) :=
    put_rewrites (by
      change p + block.bytes - 8 + 8 ≤ heap.memBrk
      omega) block.tag
  exact (hHeader.mono (by omega) (by omega)).trans
    (hFooter.mono (by omega) (by omega))

theorem tagBlock_tagged
    (heap : Heap)
    {p : Nat}
    {block : Block}
    (hBytes : block.bytes < 2 ^ 64) :
    Tagged (tagBlock heap p block).mem p block := by
  have hLeast := block.bytes_least
  have hTag := block.tag_lt hBytes
  constructor
  · change get (tagBlock heap p block) p = block.tag
    rw [tagBlock, get_put_apart _ (by omega),
      get_put _ _ hTag]
  · change get (tagBlock heap p block)
      (p + block.bytes - 8) = block.tag
    rw [tagBlock, get_put _ _ hTag]

/-
  The usual pair of stores: the header first, then the
  footer, found through the header just written.
-/
theorem writeHeader_writeFooter
    (heap : Heap)
    {p : Nat}
    {block : Block}
    (hLimit : p + block.bytes < 2 ^ 64) :
    writeFooter
        (writeHeader heap p block.bytes block.allocated)
        p block.bytes block.allocated =
      tagBlock heap p block := by
  have hLeast := block.bytes_least
  have hSize :
      getSize
          (writeHeader heap p block.bytes block.allocated)
          p = block.bytes := by
    change extractSize (get (put heap p block.tag) p) = _
    rw [get_put _ _ (block.tag_lt (by omega)),
      block.extractSize_tag (by omega)]
  have hFooter :
      headerToFooter
          (writeHeader heap p block.bytes block.allocated)
          p = p + block.bytes - 8 := by
    simp only [headerToFooter, hSize, headerToPayload, u64,
      sub64, dsize, wsize]
    omega
  rw [writeFooter, hFooter]
  rfl

namespace Represents

variable {heap heap' : Heap}
variable {blocks front middle middle' back : List Block}

/- Words that keep their value keep the blocks. -/
theorem of_words
    (hHeap : Represents heap blocks)
    (hStart : heap'.heapStart = heap.heapStart)
    (hLo : heap'.heapLo = heap.heapLo)
    (hBrk : heap'.memBrk = heap.memBrk)
    (hMax : heap'.memMaxAddr = heap.memMaxAddr)
    (hPrologue :
      get heap' heap.heapLo = get heap heap.heapLo)
    (hTagged :
      ∀ p block,
        (p, block) ∈ placed heap.first blocks →
          Tagged heap.mem p block →
            Tagged heap'.mem p block)
    (hEpilogue :
      get heap' (heap.memBrk - 8) =
        get heap (heap.memBrk - 8)) :
    Represents heap' blocks where
  heapStart := by
    rw [hStart, hLo]
    exact hHeap.heapStart
  lo := by
    rw [hLo]
    exact hHeap.lo
  prologue := by
    rw [hLo, hPrologue]
    exact hHeap.prologue
  tagged := by
    intro p block hMember
    rw [Heap.first, hLo] at hMember
    exact hTagged p block hMember
      (hHeap.tagged p block hMember)
  epilogue := by
    rw [hBrk, hEpilogue]
    exact hHeap.epilogue
  memBrk := by
    rw [hBrk, hLo]
    exact hHeap.memBrk
  bounded := by
    rw [hBrk, hMax]
    exact hHeap.bounded
  maxAddr := by
    rw [hMax]
    exact hHeap.maxAddr

/- A block lies between the prologue and the epilogue. -/
theorem bounds
    (hHeap : Represents heap blocks)
    {p : Nat}
    {block : Block}
    (hMember : (p, block) ∈ placed heap.first blocks) :
    heap.heapLo + 8 ≤ p ∧
      p + block.bytes + 8 ≤ heap.memBrk := by
  have hBounds := bounds_of_placed hMember
  have hBrk := hHeap.memBrk
  unfold Heap.first at hBounds
  omega

theorem brk_lt
    (hHeap : Represents heap blocks) :
    heap.memBrk < 2 ^ 64 :=
  Nat.lt_of_le_of_lt hHeap.bounded hHeap.maxAddr

theorem brk_gt
    (hHeap : Represents heap blocks) :
    heap.heapLo + 16 ≤ heap.memBrk := by
  have hBrk := hHeap.memBrk
  omega

/- Stores inside one payload leave the blocks alone. -/
theorem of_payload
    (hHeap : Represents heap blocks)
    (hStart : heap'.heapStart = heap.heapStart)
    (hLo : heap'.heapLo = heap.heapLo)
    (hBrk : heap'.memBrk = heap.memBrk)
    (hMax : heap'.memMaxAddr = heap.memMaxAddr)
    {p low high : Nat}
    {block : Block}
    (hMember : (p, block) ∈ placed heap.first blocks)
    (hLow : p + 8 ≤ low)
    (hHigh : high ≤ p + block.bytes - 8)
    (hMem : heap'.mem.SameOutside heap.mem low high) :
    Represents heap' blocks := by
  have hLeast := block.bytes_least
  have hBounds := hHeap.bounds hMember
  apply hHeap.of_words hStart hLo hBrk hMax
  · exact get_of_sameOn (hMem.sameOn (by omega))
  · intro p' block' hMember' hTagged
    by_cases hEq : p' = p
    · subst hEq
      have hBlock : block' = block :=
        eq_of_placed hMember' hMember
      subst hBlock
      constructor
      · rw [← hTagged.header]
        exact ByteMemory.readWord_of_sameOn
          (hMem.sameOn (by omega))
      · rw [← hTagged.footer]
        exact ByteMemory.readWord_of_sameOn
          (hMem.sameOn (by omega))
    · have hApart :=
        apart_of_placed hMember' hMember hEq
      exact hTagged.of_sameOn (hMem.sameOn (by omega))
  · exact get_of_sameOn (hMem.sameOn (by omega))

/- Stores beyond the break leave the blocks alone. -/
theorem of_beyond
    (hHeap : Represents heap blocks)
    (hStart : heap'.heapStart = heap.heapStart)
    (hLo : heap'.heapLo = heap.heapLo)
    (hBrk : heap'.memBrk = heap.memBrk)
    (hMax : heap'.memMaxAddr = heap.memMaxAddr)
    {low high : Nat}
    (hLow : heap.memBrk ≤ low)
    (hMem : heap'.mem.SameOutside heap.mem low high) :
    Represents heap' blocks := by
  have hGt := hHeap.brk_gt
  apply hHeap.of_words hStart hLo hBrk hMax
  · exact get_of_sameOn (hMem.sameOn (by omega))
  · intro p block hMember hTagged
    have hBounds := hHeap.bounds hMember
    exact hTagged.of_sameOn (hMem.sameOn (by omega))
  · exact get_of_sameOn (hMem.sameOn (by omega))

/-
  Rewriting one interval replaces the blocks of the interval
  by any blocks that cover it and are tagged there.
-/
theorem rewrite
    (hHeap : Represents heap (front ++ middle ++ back))
    (hExtent : extent middle' = extent middle)
    (hTagged :
      ∀ p block,
        (p, block) ∈
            placed (heap.first + extent front) middle' →
          Tagged heap'.mem p block)
    (hRewrites :
      Rewrites heap heap'
        (heap.first + extent front)
        (heap.first + extent front + extent middle)) :
    Represents heap' (front ++ middle' ++ back) := by
  have hBrk := hHeap.memBrk
  have hMem := hRewrites.mem
  have hRest := hRewrites.rest
  simp only [extent_append, Heap.first]
    at hBrk hExtent hMem
  rw [hRest]
  refine
    { heapStart := hHeap.heapStart
      lo := hHeap.lo
      prologue := ?_
      tagged := ?_
      epilogue := ?_
      memBrk := ?_
      bounded := hHeap.bounded
      maxAddr := hHeap.maxAddr }
  · rw [← hHeap.prologue]
    exact get_of_sameOn (hMem.sameOn (by
      simp only
      omega))
  · intro p block hMember
    have hOld := hHeap.tagged p block
    change (p, block) ∈ placed heap.first _ at hMember
    simp only [placed_append, List.mem_append]
      at hMember hOld
    rcases hMember with (hFront | hMiddle) | hBack
    · have hBounds := bounds_of_placed hFront
      unfold Heap.first at hBounds
      exact (hOld (.inl (.inl hFront))).of_sameOn
        (hMem.sameOn (by omega))
    · exact hTagged p block hMiddle
    · simp only [extent_append, hExtent] at hBack hOld
      have hBounds := bounds_of_placed hBack
      unfold Heap.first at hBounds
      exact (hOld (.inr hBack)).of_sameOn
        (hMem.sameOn (by omega))
  · rw [← hHeap.epilogue]
    exact get_of_sameOn (hMem.sameOn (by
      simp only
      omega))
  · change heap.memBrk = heap.heapLo + 16 + _
    simp only [extent_append]
    omega

/- Tagging one block over an interval. -/
theorem retag
    (hHeap : Represents heap (front ++ middle ++ back))
    {block : Block}
    (hBytes : block.bytes = extent middle) :
    Represents
        (tagBlock heap (heap.first + extent front) block)
        (front ++ [block] ++ back) ∧
      Rewrites heap
        (tagBlock heap (heap.first + extent front) block)
        (heap.first + extent front)
        (heap.first + extent front + extent middle) := by
  have hBrk := hHeap.memBrk
  have hLt := hHeap.brk_lt
  simp only [extent_append] at hBrk
  have hBelow :
      heap.first + extent front + block.bytes ≤
        heap.memBrk := by
    unfold Heap.first
    omega
  have hRewrites := tagBlock_rewrites hBelow
  rw [hBytes] at hRewrites
  refine ⟨hHeap.rewrite ?_ ?_ hRewrites, hRewrites⟩
  · simp [hBytes]
  · intro p other hMember
    simp only [placed_cons, placed_nil,
      List.mem_singleton, Prod.mk.injEq] at hMember
    rw [hMember.1, hMember.2]
    exact tagBlock_tagged heap (by omega)

end Represents

------------------------------------------------------------
-- What Stays
------------------------------------------------------------

/- Every byte of the allocated blocks is as before. -/
structure Keeps
    (heap heap' : Heap)
    (blocks : List Block) :
    Prop where
  heapLo : heap'.heapLo = heap.heapLo
  bytes :
    ∀ p block,
      (p, block) ∈ allocated heap.first blocks →
        heap'.mem.SameOn heap.mem p (p + block.bytes)

theorem Keeps.refl
    (heap : Heap)
    (blocks : List Block) :
    Keeps heap heap blocks where
  heapLo := rfl
  bytes := fun _ _ _ => ByteMemory.SameOn.refl

theorem Keeps.first
    {heap heap' : Heap}
    {blocks : List Block}
    (hKeeps : Keeps heap heap' blocks) :
    heap'.first = heap.first := by
  rw [Heap.first, Heap.first, hKeeps.heapLo]

/- What two operations keep in a row. -/
theorem Keeps.trans
    {heap heap' heap'' : Heap}
    {blocks blocks' : List Block}
    (hFirst : Keeps heap heap' blocks)
    (hSub :
      ∀ entry ∈ allocated heap.first blocks,
        entry ∈ allocated heap.first blocks')
    (hSecond : Keeps heap' heap'' blocks') :
    Keeps heap heap'' blocks where
  heapLo := hSecond.heapLo.trans hFirst.heapLo
  bytes := by
    intro p block hMember
    have hLater := hSecond.bytes p block
    rw [hFirst.first] at hLater
    exact (hLater (hSub _ hMember)).trans
      (hFirst.bytes p block hMember)

theorem Rewrites.overrun
    {heap heap' : Heap}
    {low high : Nat}
    (hRewrites : Rewrites heap heap' low high) :
    heap'.overrun = heap.overrun := by
  rw [hRewrites.rest]

/- An interval without allocated blocks may be rewritten. -/
theorem Rewrites.keeps
    {heap heap' : Heap}
    {front middle back : List Block}
    (hRewrites :
      Rewrites heap heap'
        (heap.first + extent front)
        (heap.first + extent front + extent middle))
    (hFree : ∀ block ∈ middle, block.allocated = false) :
    Keeps heap heap' (front ++ middle ++ back) where
  heapLo := by
    rw [hRewrites.rest]
  bytes := by
    intro p block hMember
    rw [mem_allocated] at hMember
    rcases hMember with ⟨hPlaced, hAlloc⟩
    simp only [placed_append, extent_append,
      List.mem_append] at hPlaced
    rcases hPlaced with (hFront | hMiddle) | hBack
    · have hBounds := bounds_of_placed hFront
      exact hRewrites.mem.sameOn (by omega)
    · rcases placed_split hMiddle with ⟨before, after, hSplit, _⟩
      have hMem : block ∈ middle := by
        rw [hSplit]
        simp
      rw [hFree block hMem] at hAlloc
      cases hAlloc
    · have hBounds := bounds_of_placed hBack
      exact hRewrites.mem.sameOn (by omega)

end Recitation

end CsappLabs
