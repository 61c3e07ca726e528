import CsappLabs.Lib.BitField
import CsappLabs.Malloc.Allocator
import CsappLabs.Malloc.BlockList

/-
  How the words of a heap represent a list of blocks.

  Every block carries the same tag in its header and its
  footer. A represented heap is the prologue, the blocks end
  to end, and the epilogue word just below the break. Every
  operation rewrites one interval of the heap, and
  `Represents.replace` says when that replaces the blocks of
  the interval by others.

  Key definitions include:
    * `Block.tag`, `Tagged`, `writeTags`
    * `Represents`
    * `KeepsAllocated`

  Key theorems include:
    * `put_header_footer`
    * `Represents.replace`
-/

------------------------------------------------------------
-- Tags
------------------------------------------------------------

namespace CsappLabs

namespace Malloc

/- The word in the header and the footer of a block. -/
def Block.tag (block : Block) : Nat :=
  pack block.bytes (if block.allocated then 1 else 0)

/- The prologue is an allocated block without a payload. -/
def prologue : Block := ⟨eight, true⟩

theorem pack_eq_add
    {size alloc : Nat}
    (hSize : size % 8 = 0)
    (hAlloc : alloc < 2) :
    pack size alloc = size + alloc := by
  have hShift : size = 2 ^ 3 * (size / 8) := by omega
  have hLt : alloc < 2 ^ 3 := by omega
  unfold pack
  rw [hShift, ← Nat.two_pow_add_eq_or_of_lt hLt]

theorem and_size_mask
    {word : Nat}
    (hWord : word < 2 ^ 32) :
    word &&& 0xFFFFFFF8 = word / 8 * 8 := by
  have hMask : 0xFFFFFFF8 = (2 ^ 29 - 1) <<< 3 := by
    decide
  rw [hMask]
  exact @BitField.and_high_mask word 3 29 hWord

section Words

variable {heap : Heap} {p q value : Nat} {block : Block}

theorem get_lt : get heap p < 2 ^ 32 :=
  ByteMemory.readWord_lt

theorem getSize_eq : getSize heap p = get heap p / 8 * 8 :=
  and_size_mask get_lt

theorem isAlloc_eq : isAlloc heap p = get heap p % 2 :=
  Nat.and_one_is_mod _

theorem Block.tag_eq :
    block.tag =
      block.bytes + if block.allocated then 1 else 0 := by
  apply pack_eq_add block.bytes_mod
  split <;> decide

theorem getSize_of_tag (hGet : get heap p = block.tag) :
    getSize heap p = block.bytes := by
  have hMod := block.bytes_mod
  rw [getSize_eq, hGet, Block.tag_eq]
  split <;> omega

theorem isAlloc_of_tag (hGet : get heap p = block.tag) :
    isAlloc heap p = if block.allocated then 1 else 0 := by
  have hMod := block.bytes_mod
  rw [isAlloc_eq, hGet, Block.tag_eq]
  split <;> omega

@[simp] theorem put_memStartBrk :
    (put heap p value).memStartBrk = heap.memStartBrk := rfl

@[simp] theorem put_memBrk :
    (put heap p value).memBrk = heap.memBrk := rfl

theorem get_put
    (hValue : value < 2 ^ 32) :
    get (put heap p value) p = value := by
  change ByteMemory.readWord
    (heap.mem.writeWord p 4 value) p 4 = value
  rw [ByteMemory.readWord_writeWord]
  exact Nat.mod_eq_of_lt hValue

theorem get_put_apart
    (hApart : q + 4 ≤ p ∨ p + 4 ≤ q) :
    get (put heap p value) q = get heap q :=
  ByteMemory.readWord_writeWord_disjoint hApart

end Words

------------------------------------------------------------
-- Tagged Blocks
------------------------------------------------------------

/- The header and the footer of a block hold its tag. -/
structure Tagged
    (mem : ByteMemory) (bp : Nat) (block : Block) :
    Prop where
  header : mem.readWord (bp - 4) 4 = block.tag
  footer : mem.readWord (bp + block.bytes - 8) 4 = block.tag

/- Write both tags of a block. -/
def writeTags
    (mem : ByteMemory) (bp : Nat) (block : Block) :
    ByteMemory :=
  (mem.writeWord (bp - 4) 4 block.tag).writeWord
    (bp + block.bytes - 8) 4 block.tag

section Tags

variable {mem mem' : ByteMemory} {bp : Nat} {block : Block}
variable {heap : Heap}

/- The tags of a block lie in its own bytes. -/
theorem Tagged.of_sameOn
    (hTagged : Tagged mem bp block)
    (hSame :
      mem'.SameOn mem (bp - 4) (bp - 4 + block.bytes)) :
    Tagged mem' bp block := by
  have hBytes := block.eight_le_bytes
  constructor
  · rw [← hTagged.header]
    exact ByteMemory.readWord_of_sameOn
      (hSame.mono (by omega) (by omega))
  · rw [← hTagged.footer]
    exact ByteMemory.readWord_of_sameOn
      (hSame.mono (by omega) (by omega))

theorem Block.tag_lt
    (hBytes : block.bytes < 2 ^ 31) :
    block.tag < 2 ^ 32 := by
  rw [Block.tag_eq]
  split <;> omega

theorem tagged_writeTags
    (hBp : 4 ≤ bp)
    (hBytes : block.bytes < 2 ^ 31) :
    Tagged (writeTags mem bp block) bp block := by
  have hLeast := block.eight_le_bytes
  have hTag := Block.tag_lt hBytes
  constructor
  · unfold writeTags
    rw [ByteMemory.readWord_writeWord_disjoint (by omega),
      ByteMemory.readWord_writeWord]
    exact Nat.mod_eq_of_lt hTag
  · unfold writeTags
    rw [ByteMemory.readWord_writeWord]
    exact Nat.mod_eq_of_lt hTag

theorem writeTags_sameOutside :
    (writeTags mem bp block).SameOutside mem
      (bp - 4) (bp - 4 + block.bytes) := by
  have hLeast := block.eight_le_bytes
  unfold writeTags
  exact
    (ByteMemory.writeWord_sameOutside.mono
      (by omega) (by omega)).trans
    (ByteMemory.writeWord_sameOutside.mono
      (by omega) (by omega))

/-
  The usual pair of stores: the header first, then the
  footer, found through the header just written.
-/
theorem put_header_footer
    (hBytes : block.bytes < 2 ^ 31) :
    put (put heap (hdrp bp) block.tag)
        (ftrp (put heap (hdrp bp) block.tag) bp)
        block.tag =
      { heap with mem := writeTags heap.mem bp block } := by
  have hSize :
      getSize (put heap (hdrp bp) block.tag) (hdrp bp) =
        block.bytes :=
    getSize_of_tag (get_put (Block.tag_lt hBytes))
  unfold ftrp
  rw [hSize]
  rfl

theorem get_header_writeTags
    (hBp : 4 ≤ bp)
    (hBytes : block.bytes < 2 ^ 31) :
    get { heap with mem := writeTags heap.mem bp block }
        (hdrp bp) =
      block.tag :=
  (tagged_writeTags hBp hBytes).header

theorem nextBlkp_of_header
    (hHeader : get heap (hdrp bp) = block.tag) :
    nextBlkp heap bp = bp + block.bytes := by
  rw [nextBlkp, getSize_of_tag hHeader]

/-
  The pair of stores that tags the block after `bp`: both
  times the header of `bp` leads there.
-/
theorem put_next_pair
    {next : Block}
    (hBp : 4 ≤ bp)
    (hHeader : get heap (hdrp bp) = block.tag)
    (hNext : next.bytes < 2 ^ 31) :
    put
        (put heap (hdrp (nextBlkp heap bp)) next.tag)
        (ftrp
          (put heap (hdrp (nextBlkp heap bp)) next.tag)
          (nextBlkp
            (put heap (hdrp (nextBlkp heap bp)) next.tag)
            bp))
        next.tag =
      { heap with
        mem :=
          writeTags heap.mem (bp + block.bytes) next } := by
  have hBytes := block.eight_le_bytes
  have hFirst := nextBlkp_of_header hHeader
  have hKept :
      get (put heap (hdrp (bp + block.bytes)) next.tag)
          (hdrp bp) =
        block.tag := by
    rw [get_put_apart (by unfold hdrp wsize; omega)]
    exact hHeader
  rw [hFirst, nextBlkp_of_header hKept]
  exact put_header_footer hNext

end Tags

------------------------------------------------------------
-- Represented Heaps
------------------------------------------------------------

/- The payload address of the first block. -/
def Heap.first (heap : Heap) : Nat :=
  heap.memStartBrk + 16

/-
  The heap holds these blocks between the prologue and the
  epilogue, and ends at the break.
-/
structure Represents
    (heap : Heap) (blocks : List Block) : Prop where
  heapListp : heap.heapListp = heap.memStartBrk + 8
  prologue :
    Tagged heap.mem (heap.memStartBrk + 8) prologue
  tagged :
    ∀ bp block,
      (bp, block) ∈ placed heap.first blocks →
      Tagged heap.mem bp block
  epilogue : get heap (heap.memBrk - 4) = 1
  memBrk : heap.memBrk = heap.first + extent blocks
  memMaxAddr : heap.memMaxAddr = heap.memStartBrk + maxHeap
  bounded : heap.memBrk ≤ heap.memMaxAddr
  startBrk : heap.startBrk = heap.memStartBrk
  finalBrk : heap.finalBrk = heap.memBrk

/-
  An operation keeps the allocated blocks: every byte of
  them, tags included, is as before.
-/
structure KeepsAllocated
    (heap heap' : Heap) (blocks : List Block) : Prop where
  start : heap'.memStartBrk = heap.memStartBrk
  bytes :
    ∀ bp block,
      (bp, block) ∈ allocated heap.first blocks →
      heap'.mem.SameOn heap.mem
        (bp - 4) (bp - 4 + block.bytes)

namespace Represents

variable {heap : Heap} {mem' : ByteMemory}
variable {blocks front middle middle' back : List Block}
variable {block : Block} {bp : Nat}

/- A represented heap is far smaller than the word size. -/
theorem extent_le
    (hHeap : Represents heap blocks) :
    16 + extent blocks ≤ maxHeap := by
  have hBrk := hHeap.memBrk
  have hMax := hHeap.memMaxAddr
  have hBounded := hHeap.bounded
  unfold Heap.first at hBrk
  omega

theorem bytes_lt
    (hHeap : Represents heap blocks)
    (hMember : block ∈ blocks) :
    block.bytes < 2 ^ 31 := by
  have hExtent := hHeap.extent_le
  have hPiece :
      block.bytes ≤ Tiling.extent Block.bytes blocks :=
    Tiling.length_le_extent hMember
  have hMax : maxHeap = 20971520 := by decide
  unfold extent at hExtent
  omega

/-
  Rewriting one interval replaces the blocks of the interval
  by any blocks that cover it and are tagged there.
-/
theorem replace
    (hHeap : Represents heap (front ++ middle ++ back))
    (hExtent : extent middle' = extent middle)
    (hTagged :
      ∀ bp block,
        (bp, block) ∈
          placed (heap.first + extent front) middle' →
        Tagged mem' bp block)
    (hSame :
      mem'.SameOutside heap.mem
        (heap.first + extent front - 4)
        (heap.first + extent front - 4 + extent middle)) :
    Represents { heap with mem := mem' }
      (front ++ middle' ++ back) := by
  have hFirst : heap.first = heap.memStartBrk + 16 := rfl
  have hBrk := hHeap.memBrk
  simp only [extent, Tiling.extent_append]
    at hBrk hExtent hSame
  refine
    { heapListp := hHeap.heapListp
      prologue := ?_
      tagged := ?_
      epilogue := ?_
      memBrk := ?_
      memMaxAddr := hHeap.memMaxAddr
      bounded := hHeap.bounded
      startBrk := hHeap.startBrk
      finalBrk := hHeap.finalBrk }
  · apply hHeap.prologue.of_sameOn
    have hBytes : Malloc.prologue.bytes = 8 := rfl
    exact hSame.sameOn (by omega)
  · intro bp block hMember
    have hOld := hHeap.tagged bp block
    change (bp, block) ∈ placed heap.first _ at hMember
    simp only [placed, Tiling.placed_append,
      List.mem_append] at hMember hOld
    rcases hMember with (hFront | hMiddle) | hBack
    · have hBounds := Tiling.bounds_of_mem_placed hFront
      exact (hOld (.inl (.inl hFront))).of_sameOn
        (hSame.sameOn (by omega))
    · exact hTagged bp block hMiddle
    · simp only [Tiling.extent_append, hExtent]
        at hBack hOld
      have hBounds := Tiling.bounds_of_mem_placed hBack
      exact (hOld (.inr hBack)).of_sameOn
        (hSame.sameOn (by omega))
  · have hWord :
        get { heap with mem := mem' } (heap.memBrk - 4) =
          get heap (heap.memBrk - 4) :=
      ByteMemory.readWord_of_sameOn
        (hSame.sameOn (by
          unfold wsize
          omega))
    exact hWord.trans hHeap.epilogue
  · change heap.memBrk = heap.first + _
    simp only [extent, Tiling.extent_append]
    omega

/- Writing the tags of one block over an interval. -/
theorem retag
    (hHeap : Represents heap (front ++ middle ++ back))
    (hBytes : block.bytes = extent middle) :
    Represents
      { heap with
        mem :=
          writeTags heap.mem (heap.first + extent front)
            block }
      (front ++ [block] ++ back) := by
  have hFirst : heap.first = heap.memStartBrk + 16 := rfl
  have hExtent := hHeap.extent_le
  have hMax : maxHeap = 20971520 := by decide
  simp only [extent, Tiling.extent_append]
    at hExtent hBytes
  apply hHeap.replace
  · simp [extent, hBytes]
  · intro bp other hMember
    simp only [placed, Tiling.placed_cons,
      Tiling.placed_nil, List.mem_singleton,
      Prod.mk.injEq] at hMember
    rw [hMember.1, hMember.2]
    exact tagged_writeTags (by omega) (by omega)
  · change (writeTags _ _ _).SameOutside heap.mem _
      (_ + Tiling.extent Block.bytes middle)
    rw [← hBytes]
    exact writeTags_sameOutside

/- Writing the tags of two blocks over an interval. -/
theorem retag_pair
    {next : Block}
    (hHeap : Represents heap (front ++ middle ++ back))
    (hBytes : block.bytes + next.bytes = extent middle) :
    Represents
      { heap with
        mem :=
          writeTags
            (writeTags heap.mem
              (heap.first + extent front) block)
            (heap.first + extent front + block.bytes)
            next }
      (front ++ [block, next] ++ back) := by
  have hFirst : heap.first = heap.memStartBrk + 16 := rfl
  have hExtent := hHeap.extent_le
  have hMax : maxHeap = 20971520 := by decide
  simp only [extent, Tiling.extent_append]
    at hExtent hBytes
  apply hHeap.replace
  · simp [extent, hBytes]
  · intro bp other hMember
    simp only [placed, Tiling.placed_cons,
      Tiling.placed_nil, List.mem_cons, Prod.mk.injEq,
      List.not_mem_nil, or_false] at hMember
    rcases hMember with ⟨rfl, rfl⟩ | ⟨rfl, rfl⟩
    · exact (tagged_writeTags (by omega) (by omega)).of_sameOn
        (writeTags_sameOutside.sameOn (by omega))
    · exact tagged_writeTags (by omega) (by omega)
  · exact
      (writeTags_sameOutside.mono
        (by omega) (by unfold extent; omega)).trans
      (writeTags_sameOutside.mono
        (by omega) (by unfold extent; omega))

/- A payload may hold any bytes: no tag lies in it. -/
theorem payload
    (hHeap : Represents heap blocks)
    (hMember : (bp, block) ∈ placed heap.first blocks)
    (hSame :
      mem'.SameOutside heap.mem bp
        (bp + block.bytes - 8)) :
    Represents { heap with mem := mem' } blocks := by
  have hFirst : heap.first = heap.memStartBrk + 16 := rfl
  have hLeast := block.eight_le_bytes
  rcases Tiling.mem_placed_iff.mp hMember with
    ⟨front, back, rfl, hBp⟩
  have hStart : bp = heap.first + extent front := hBp
  have hOne : extent [block] = block.bytes := by
    simp [extent]
  have hMiddle :
      Represents heap (front ++ [block] ++ back) := by
    simpa using hHeap
  have hReplaced :
      Represents { heap with mem := mem' }
        (front ++ [block] ++ back) := by
    apply hMiddle.replace rfl
    · intro bp other hOther
      simp only [placed, Tiling.placed_cons,
        Tiling.placed_nil, List.mem_singleton,
        Prod.mk.injEq] at hOther
      rw [hOther.1, hOther.2, ← hStart]
      have hTagged := hHeap.tagged _ _ hMember
      constructor
      · rw [← hTagged.header]
        exact ByteMemory.readWord_of_sameOn
          (hSame.sameOn (by omega))
      · rw [← hTagged.footer]
        exact ByteMemory.readWord_of_sameOn
          (hSame.sameOn (by omega))
    · rw [hOne]
      exact hSame.mono (by omega) (by omega)
  simpa using hReplaced

theorem eq_of_tag
    {other : Block}
    (hTag : block.tag = other.tag) :
    block = other := by
  have hLeft := block.bytes_mod
  have hRight := other.bytes_mod
  rw [Block.tag_eq, Block.tag_eq] at hTag
  rcases block with ⟨⟨bytes, _, _⟩, alloc⟩
  rcases other with ⟨⟨bytes', _, _⟩, alloc'⟩
  simp only [Block.bytes_mk] at hTag hLeft hRight
  cases alloc <;> cases alloc' <;> simp at hTag ⊢ <;> omega

/- The words of a heap represent one list of blocks only. -/
theorem unique
    (hLeft : Represents heap (front ++ middle))
    (hRight : Represents heap (front ++ middle')) :
    middle = middle' := by
  have hBrk := hLeft.memBrk.symm.trans hRight.memBrk
  induction middle generalizing front middle' with
  | nil =>
      cases middle' with
      | nil => rfl
      | cons other rest =>
          have hBytes := other.bytes_pos
          simp [extent] at hBrk
          omega
  | cons block middle ih =>
      cases middle' with
      | nil =>
          have hBytes := block.bytes_pos
          simp [extent] at hBrk
          omega
      | cons other rest =>
          have hTag : block.tag = other.tag :=
            (hLeft.tagged (heap.first + extent front) block
              (by simp)).header.symm.trans
            (hRight.tagged (heap.first + extent front) other
              (by simp)).header
          have hEq := eq_of_tag hTag
          subst hEq
          have hRest :=
            @ih (front ++ [block]) rest
              (by simpa using hLeft) (by simpa using hRight)
              (by simpa using hBrk)
          rw [hRest]

/-
  An operation that only touches free blocks keeps the
  allocated ones.
-/
theorem keepsAllocated
    (hFree :
      allocated (heap.first + extent front) middle = [])
    (hSame :
      mem'.SameOutside heap.mem
        (heap.first + extent front - 4)
        (heap.first + extent front - 4 + extent middle)) :
    KeepsAllocated heap { heap with mem := mem' }
      (front ++ middle ++ back) := by
  have hFirst : heap.first = heap.memStartBrk + 16 := rfl
  refine ⟨rfl, fun bp block hMember => ?_⟩
  rw [allocated_append, allocated_append, hFree,
    List.append_nil, List.mem_append] at hMember
  rcases hMember with hFront | hBack
  · have hBounds :=
      Tiling.bounds_of_mem_placed
        (mem_allocated_iff.mp hFront).1
    exact hSame.sameOn (by
      unfold extent
      omega)
  · have hBounds :=
      Tiling.bounds_of_mem_placed
        (mem_allocated_iff.mp hBack).1
    simp only [extent, Tiling.extent_append] at hBounds
    exact hSame.sameOn (by
      unfold extent
      omega)

end Represents

namespace KeepsAllocated

variable {heap middle heap' : Heap}
variable {blocks blocks' : List Block}

theorem refl : KeepsAllocated heap heap blocks :=
  ⟨rfl, fun _ _ _ => ByteMemory.SameOn.refl⟩

/- Two operations in turn keep what both of them keep. -/
theorem trans
    (hLeft : KeepsAllocated heap middle blocks)
    (hRight : KeepsAllocated middle heap' blocks')
    (hSub :
      allocated heap.first blocks ⊆
        allocated heap.first blocks') :
    KeepsAllocated heap heap' blocks := by
  have hFirst : middle.first = heap.first := by
    unfold Heap.first
    rw [hLeft.start]
  refine
    ⟨hRight.start.trans hLeft.start,
      fun bp block hMember => ?_⟩
  have hRest := hRight.bytes bp block
  rw [hFirst] at hRest
  exact (hRest (hSub hMember)).trans
    (hLeft.bytes bp block hMember)

end KeepsAllocated

end Malloc

end CsappLabs
