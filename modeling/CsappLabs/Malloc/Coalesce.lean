import CsappLabs.Malloc.Representation

/-
  `coalesce` on a represented heap.

  The four cases are first settled from the words around the
  block alone, then lifted to the block list.

  Key definitions include:
    * `Around`

  Key theorems include:
    * `Represents.around`
    * `coalesce_spec`
-/

------------------------------------------------------------
-- The Words Around A Block
------------------------------------------------------------

namespace CsappLabs

namespace Malloc

/- The block before a position, the prologue at the start. -/
def leftOf (front : List Block) : Block :=
  front.getLastD prologue

/- The header word after a position, the epilogue at the end. -/
def wordAfter : List Block → Nat
| [] => 1
| next :: _ => next.tag

/- What `coalesce` reads around the block at `bp`. -/
structure Around
    (heap : Heap) (bp : Nat) (left block : Block)
    (word : Nat) : Prop where
  leftTags : Tagged heap.mem (bp - left.bytes) left
  blockTags : Tagged heap.mem bp block
  nextWord : get heap (bp + block.bytes - 4) = word
  room : left.bytes + 8 ≤ bp

namespace Around

variable {heap : Heap} {bp word : Nat} {left block : Block}

theorem bp_ne_null (hAround : Around heap bp left block word) :
    bp ≠ null := by
  have hRoom := hAround.room
  unfold null
  omega

theorem getSize_hdrp (hAround : Around heap bp left block word) :
    getSize heap (hdrp bp) = block.bytes :=
  getSize_of_tag hAround.blockTags.header

theorem isAlloc_hdrp (hAround : Around heap bp left block word) :
    isAlloc heap (hdrp bp) =
      if block.allocated then 1 else 0 :=
  isAlloc_of_tag hAround.blockTags.header

theorem nextBlkp_eq (hAround : Around heap bp left block word) :
    nextBlkp heap bp = bp + block.bytes := by
  rw [nextBlkp, hAround.getSize_hdrp]

theorem get_leftFooter
    (hAround : Around heap bp left block word) :
    get heap (bp - dsize) = left.tag := by
  have hRoom := hAround.room
  have hWord := hAround.leftTags.footer
  rw [show bp - left.bytes + left.bytes - 8 = bp - 8 by
    omega] at hWord
  exact hWord

theorem prevBlkp_eq (hAround : Around heap bp left block word) :
    prevBlkp heap bp = bp - left.bytes := by
  rw [prevBlkp, getSize_of_tag hAround.get_leftFooter]

theorem isAlloc_prev (hAround : Around heap bp left block word) :
    isAlloc heap (hdrp (prevBlkp heap bp)) =
      if left.allocated then 1 else 0 := by
  rw [hAround.prevBlkp_eq]
  exact isAlloc_of_tag hAround.leftTags.header

theorem getSize_prev (hAround : Around heap bp left block word) :
    getSize heap (hdrp (prevBlkp heap bp)) =
      left.bytes := by
  rw [hAround.prevBlkp_eq]
  exact getSize_of_tag hAround.leftTags.header

theorem get_next (hAround : Around heap bp left block word) :
    get heap (hdrp (nextBlkp heap bp)) = word := by
  rw [hAround.nextBlkp_eq]
  exact hAround.nextWord

theorem isAlloc_next
    (hAround : Around heap bp left block word) :
    isAlloc heap (hdrp (nextBlkp heap bp)) = word % 2 := by
  rw [isAlloc_eq, hAround.get_next]

end Around

/- Retagging from the block before on leaves its footer. -/
theorem Around.prevBlkp_writeTags
    {heap : Heap} {bp word : Nat} {left block rest : Block}
    (hAround : Around heap bp left block word) :
    prevBlkp
        { heap with
          mem :=
            writeTags heap.mem (bp - left.bytes)
              (left.join rest) } bp =
      bp - left.bytes := by
  have hRoom := hAround.room
  have hLeft := left.eight_le_bytes
  have hRest := rest.eight_le_bytes
  have hFooter :
      get
          { heap with
            mem :=
              writeTags heap.mem (bp - left.bytes)
                (left.join rest) }
          (bp - dsize) =
        left.tag := by
    rw [← hAround.get_leftFooter]
    change
      (writeTags heap.mem _ _).readWord (bp - 8) 4 =
        heap.mem.readWord (bp - 8) 4
    unfold writeTags
    rw [ByteMemory.readWord_writeWord_disjoint,
      ByteMemory.readWord_writeWord_disjoint]
    · omega
    · rw [Block.bytes_join]
      omega
  rw [prevBlkp, getSize_of_tag hFooter]

------------------------------------------------------------
-- The Four Cases
------------------------------------------------------------

section Cases

variable {heap : Heap} {bp word : Nat}
variable {left block next : Block}

theorem coalesce_neither
    (hAround : Around heap bp left block word)
    (hLeft : left.allocated = true)
    (hNext : word % 2 = 1) :
    coalesce heap bp = (heap, bp) := by
  have hBp := hAround.bp_ne_null
  simp [coalesce, hBp, hAround.isAlloc_next,
    hAround.isAlloc_prev, hLeft, hNext]

theorem coalesce_next
    (hAround : Around heap bp left block next.tag)
    (hLeft : left.allocated = true)
    (hNext : next.allocated = false)
    (hBytes : block.bytes + next.bytes < 2 ^ 31) :
    coalesce heap bp =
      ({ heap with
          mem :=
            writeTags heap.mem bp (block.join next) },
        bp) := by
  have hBp := hAround.bp_ne_null
  have hSize :
      u32 (getSize heap (hdrp bp) +
          getSize heap (hdrp (nextBlkp heap bp))) =
        (block.join next).bytes := by
    rw [hAround.getSize_hdrp,
      getSize_of_tag hAround.get_next]
    exact Nat.mod_eq_of_lt (by omega)
  have hTag :
      pack (block.join next).bytes 0 =
        (block.join next).tag := rfl
  have hJoined : (block.join next).bytes < 2 ^ 31 := hBytes
  simp only [coalesce, hBp, hAround.isAlloc_prev,
    isAlloc_of_tag hAround.get_next, hLeft, hNext, hSize,
    hTag, put_header_footer hJoined]
  simp

theorem coalesce_prev
    (hAround : Around heap bp left block word)
    (hLeft : left.allocated = false)
    (hNext : word % 2 = 1)
    (hBytes : left.bytes + block.bytes < 2 ^ 31) :
    coalesce heap bp =
      ({ heap with
          mem :=
            writeTags heap.mem (bp - left.bytes)
              (left.join block) },
        bp - left.bytes) := by
  have hBp := hAround.bp_ne_null
  have hRoom := hAround.room
  have hLeftBytes := left.eight_le_bytes
  have hBlockBytes := block.eight_le_bytes
  have hPrev := hAround.prevBlkp_eq
  have hTag :
      pack (left.join block).bytes 0 =
        (left.join block).tag := rfl
  have hTagLt : (left.join block).tag < 2 ^ 32 :=
    Block.tag_lt hBytes
  have hFooter : ftrp heap (bp - left.bytes) = bp - dsize := by
    rw [ftrp, ← hPrev, hAround.getSize_prev, hPrev]
    unfold dsize
    omega
  have hSize :
      u32 (getSize heap (hdrp bp) +
          getSize heap (ftrp heap (bp - left.bytes))) =
        (left.join block).bytes := by
    rw [hAround.getSize_hdrp, hFooter,
      getSize_of_tag hAround.get_leftFooter, Nat.add_comm]
    exact Nat.mod_eq_of_lt (by omega)
  -- The first store leaves the header of `bp` alone.
  have hKept :
      get (put heap (hdrp (bp - left.bytes))
          (left.join block).tag) (hdrp bp) =
        block.tag := by
    rw [get_put_apart (by unfold hdrp wsize; omega)]
    exact hAround.blockTags.header
  have hStored :
      ftrp (put heap (hdrp (bp - left.bytes))
          (left.join block).tag) bp =
        bp + block.bytes - 8 := by
    rw [ftrp, getSize_of_tag hKept]
    rfl
  have hEnd :
      bp + block.bytes - 8 =
        bp - left.bytes + (left.join block).bytes - 8 := by
    rw [Block.bytes_join]
    omega
  have hMerged :
      put
          (put heap (hdrp (bp - left.bytes))
            (left.join block).tag)
          (bp + block.bytes - 8) (left.join block).tag =
        { heap with
          mem :=
            writeTags heap.mem (bp - left.bytes)
              (left.join block) } := by
    rw [hEnd]
    rfl
  have hPrevAlloc := hAround.isAlloc_prev
  rw [hPrev] at hPrevAlloc
  simp only [coalesce, hBp, hPrev, hPrevAlloc,
    hAround.isAlloc_next, hLeft, hNext, hSize, hTag,
    hStored, hMerged, hAround.prevBlkp_writeTags]
  simp

theorem coalesce_both
    (hAround : Around heap bp left block next.tag)
    (hLeft : left.allocated = false)
    (hNext : next.allocated = false)
    (hBytes :
      left.bytes + (block.bytes + next.bytes) < 2 ^ 31) :
    coalesce heap bp =
      ({ heap with
          mem :=
            writeTags heap.mem (bp - left.bytes)
              (left.join (block.join next)) },
        bp - left.bytes) := by
  have hBp := hAround.bp_ne_null
  have hRoom := hAround.room
  have hLeftBytes := left.eight_le_bytes
  have hPrev := hAround.prevBlkp_eq
  have hJoined :
      (left.join (block.join next)).bytes < 2 ^ 31 := hBytes
  have hSize :
      u32 (getSize heap (hdrp bp) +
          u32 (getSize heap (hdrp (bp - left.bytes)) +
            getSize heap (hdrp (nextBlkp heap bp)))) =
        (left.join (block.join next)).bytes := by
    rw [hAround.getSize_hdrp, ← hPrev, hAround.getSize_prev,
      getSize_of_tag hAround.get_next, Block.bytes_join,
      Block.bytes_join]
    unfold u32
    omega
  have hTag :
      pack (left.join (block.join next)).bytes 0 =
        (left.join (block.join next)).tag := rfl
  -- Neither store reaches the footer of the block before.
  have hFooter :
      get (put heap (hdrp (bp - left.bytes))
          (left.join (block.join next)).tag) (bp - dsize) =
        left.tag := by
    rw [get_put_apart (by unfold hdrp wsize dsize; omega)]
    exact hAround.get_leftFooter
  have hPrev' :
      prevBlkp (put heap (hdrp (bp - left.bytes))
          (left.join (block.join next)).tag) bp =
        bp - left.bytes := by
    rw [prevBlkp, getSize_of_tag hFooter]
  have hPrevAlloc := hAround.isAlloc_prev
  rw [hPrev] at hPrevAlloc
  simp only [coalesce, hBp, hPrev, hPrev', hPrevAlloc,
    isAlloc_of_tag hAround.get_next, hLeft, hNext, hSize,
    hTag, put_header_footer hJoined,
    hAround.prevBlkp_writeTags]
  simp

end Cases

------------------------------------------------------------
-- Lifting To Block Lists
------------------------------------------------------------

variable {heap : Heap}
variable {front back : List Block} {block : Block}

/- The words around any block of a represented heap. -/
theorem Represents.around
    (hHeap : Represents heap (front ++ block :: back)) :
    Around heap (heap.first + extent front)
      (leftOf front) block (wordAfter back) := by
  have hFirst : heap.first = heap.memStartBrk + 16 := rfl
  have hBlock :
      Tagged heap.mem (heap.first + extent front) block :=
    hHeap.tagged _ _
      (Tiling.mem_placed_iff.mpr ⟨front, back, rfl, rfl⟩)
  have hNext :
      get heap
          (heap.first + extent front + block.bytes - 4) =
        wordAfter back := by
    cases back with
    | nil =>
        have hBrk := hHeap.memBrk
        simp only [extent, Tiling.extent_append,
          Tiling.extent_cons, Tiling.extent_nil] at hBrk
        rw [show heap.first + extent front + block.bytes =
          heap.memBrk by
            unfold extent
            omega]
        exact hHeap.epilogue
    | cons next back =>
        have hTags :=
          hHeap.tagged
            (heap.first + extent front + block.bytes) next
            (Tiling.mem_placed_iff.mpr
              ⟨front ++ [block], back, by simp, by
                simp [extent]
                omega⟩)
        exact hTags.header
  rcases List.eq_nil_or_concat' front with
    rfl | ⟨front, last, rfl⟩
  · have hPrologue := hHeap.prologue
    refine ⟨?_, hBlock, hNext, ?_⟩
    · exact hPrologue
    · change 8 + 8 ≤ heap.first + 0
      omega
  · have hLeft : leftOf (front ++ [last]) = last := by
      simp [leftOf]
    have hStart :
        heap.first + extent (front ++ [last]) - last.bytes =
          heap.first + extent front := by
      simp only [extent, Tiling.extent_append,
        Tiling.extent_cons, Tiling.extent_nil]
      omega
    refine ⟨?_, hBlock, hNext, ?_⟩
    · rw [hLeft, hStart]
      exact hHeap.tagged _ _
        (Tiling.mem_placed_iff.mpr
          ⟨front, block :: back, by simp, rfl⟩)
    · rw [hLeft]
      simp only [extent, Tiling.extent_append,
        Tiling.extent_cons, Tiling.extent_nil]
      omega


/- Merging free blocks into one, as `coalesce` does. -/
theorem Represents.merge
    {middle : List Block} {merged : Block}
    (hHeap : Represents heap (front ++ middle ++ back))
    (hBytes : merged.bytes = extent middle)
    (hFree :
      allocated (heap.first + extent front) middle = []) :
    Represents
        { heap with
          mem :=
            writeTags heap.mem (heap.first + extent front)
              merged }
        (front ++ [merged] ++ back) ∧
      KeepsAllocated heap
        { heap with
          mem :=
            writeTags heap.mem (heap.first + extent front)
              merged }
        (front ++ middle ++ back) := by
  refine ⟨hHeap.retag hBytes, keepsAllocated hFree ?_⟩
  rw [← hBytes]
  exact writeTags_sameOutside

/- Nothing to merge on the left, or a free last block. -/
theorem left_cases (front : List Block) :
    ((leftOf front).allocated = true ∧
      keptFront front = front ∧
      ∀ block back,
        joinLeft front (block :: back) =
          front ++ block :: back) ∨
    ∃ front' last,
      front = front' ++ [last] ∧ last.allocated = false := by
  rcases List.eq_nil_or_concat' front with
    rfl | ⟨front, last, rfl⟩
  · exact Or.inl ⟨rfl, rfl, fun _ _ => rfl⟩
  · cases hLast : last.allocated with
    | true =>
        left
        refine ⟨by simpa [leftOf] using hLast,
          by simp [hLast], fun block back => ?_⟩
        rw [joinLeft_concat]
        simp [hLast]
    | false => exact Or.inr ⟨front, last, rfl, hLast⟩

/- Nothing to merge on the right, or a free next block. -/
theorem right_cases (block : Block) (back : List Block) :
    (wordAfter back % 2 = 1 ∧
      joinRight block back = block :: back) ∨
    ∃ next rest,
      back = next :: rest ∧ next.allocated = false := by
  cases back with
  | nil => exact Or.inl ⟨rfl, rfl⟩
  | cons next rest =>
      cases hNext : next.allocated with
      | true =>
          left
          refine ⟨?_, by simp [joinRight_cons, hNext]⟩
          have hMod := next.bytes_mod
          simp only [wordAfter, Block.tag_eq, hNext,
            ↓reduceIte]
          omega
      | false => exact Or.inr ⟨next, rest, rfl, hNext⟩

/-
  `coalesce` at a free block merges it with its free
  neighbours and returns the start of the merged block.
-/
theorem coalesce_spec
    (hHeap : Represents heap (front ++ block :: back))
    (hFree : block.allocated = false) :
    ∃ mem',
      coalesce heap (heap.first + extent front) =
        ({ heap with mem := mem' },
          heap.first + extent (keptFront front)) ∧
      Represents { heap with mem := mem' }
        (coalesceAt front block back) ∧
      KeepsAllocated heap { heap with mem := mem' }
        (front ++ block :: back) := by
  have hAround := hHeap.around
  have hExtent := hHeap.extent_le
  have hMax : maxHeap = 20971520 := by decide
  simp only [extent, Tiling.extent_append,
    Tiling.extent_cons] at hExtent
  unfold coalesceAt
  rcases left_cases front with
    ⟨hLeft, hKept, hJoinLeft⟩ | ⟨front, last, rfl, hLast⟩
  · rw [hKept]
    rcases right_cases block back with
      ⟨hNext, hJoinRight⟩ | ⟨next, back, rfl, hNext⟩
    · refine ⟨heap.mem,
        coalesce_neither hAround hLeft hNext, ?_, ?_⟩
      · rw [hJoinRight, hJoinLeft]
        exact hHeap
      · exact KeepsAllocated.refl
    · simp only [Tiling.extent_cons] at hExtent
      have hMiddle :
          Represents heap
            (front ++ [block, next] ++ back) := by
        simpa using hHeap
      have hBytes :
          (block.join next).bytes =
            extent [block, next] := by
        simp [extent]
      have hMerge :=
        hMiddle.merge hBytes (by simp [hFree, hNext])
      refine ⟨_,
        coalesce_next hAround hLeft hNext (by omega),
        ?_, ?_⟩
      · rw [joinRight_cons, hNext]
        simpa [hJoinLeft] using hMerge.1
      · simpa using hMerge.2
  · have hLeftOf : leftOf (front ++ [last]) = last := by
      simp [leftOf]
    have hKept : keptFront (front ++ [last]) = front := by
      simp [hLast]
    have hStart :
        heap.first + extent (front ++ [last]) - last.bytes =
          heap.first + extent front := by
      simp only [extent, Tiling.extent_append,
        Tiling.extent_cons, Tiling.extent_nil]
      omega
    simp only [Tiling.extent_append, Tiling.extent_cons,
      Tiling.extent_nil] at hExtent
    rw [hKept]
    rw [hLeftOf] at hAround
    rcases right_cases block back with
      ⟨hNext, hJoinRight⟩ | ⟨next, back, rfl, hNext⟩
    · have hMiddle :
          Represents heap
            (front ++ [last, block] ++ back) := by
        simpa using hHeap
      have hBytes :
          (last.join block).bytes =
            extent [last, block] := by
        simp [extent]
      have hMerge :=
        hMiddle.merge hBytes (by simp [hFree, hLast])
      have hCode :=
        coalesce_prev hAround hLast hNext (by omega)
      rw [hStart] at hCode
      refine ⟨_, hCode, ?_, ?_⟩
      · rw [hJoinRight, joinLeft_concat, hLast]
        simpa using hMerge.1
      · simpa using hMerge.2
    · have hMiddle :
          Represents heap
            (front ++ [last, block, next] ++ back) := by
        simpa using hHeap
      have hBytes :
          (last.join (block.join next)).bytes =
            extent [last, block, next] := by
        simp [extent]
      have hMerge :=
        hMiddle.merge hBytes (by simp [hFree, hLast, hNext])
      simp only [Tiling.extent_cons] at hExtent
      have hCode :=
        coalesce_both hAround hLast hNext (by omega)
      rw [hStart] at hCode
      refine ⟨_, hCode, ?_, ?_⟩
      · rw [joinRight_cons, hNext]
        simp only [Bool.false_eq_true, ↓reduceIte]
        rw [joinLeft_concat, hLast]
        simpa using hMerge.1
      · simpa using hMerge.2

end Malloc

end CsappLabs
