import CsappLabs.Malloc.Operations

/-
  `mm_realloc` where its call of `mm_malloc` is not needed or
  succeeds.

  The block stays where its size is right already; otherwise
  a new block is allocated, the common part of the two
  payloads is copied, and the old block is released.

  Key theorems include:
    * `mmRealloc_same`
    * `mmRealloc_move`
-/

------------------------------------------------------------
-- Moving A Block
------------------------------------------------------------

namespace CsappLabs

namespace Malloc

variable {heap : Heap} {front back blocks : List Block}
variable {block : Block} {request offset : Nat}

/- The size is read from the header of the block. -/
theorem mmRealloc_size_iff
    (hHeap : Represents heap (front ++ block :: back))
    (hRequest : request < 2 ^ 31) :
    adjustSize request =
        getSize heap (hdrp (heap.first + extent front)) ↔
      block.size = BlockSize.ofRequest request := by
  rw [hHeap.around.getSize_hdrp, adjustSize_eq hRequest]
  constructor
  · intro hBytes
    rcases block with ⟨⟨bytes, _, _⟩, _⟩
    simp only [Block.bytes_mk] at hBytes
    simp only [← hBytes]
  · intro hSize
    rw [← hSize]
    rfl

/- A block that has the right size already stays. -/
theorem mmRealloc_same
    (hHeap : Represents heap (front ++ block :: back))
    (hPositive : 0 < request)
    (hRequest : request < 2 ^ 31)
    (hSame : block.size = BlockSize.ofRequest request) :
    mmRealloc heap (heap.first + extent front) request =
      .ret heap (heap.first + extent front) := by
  unfold mmRealloc
  rw [if_neg first_ne_null,
    if_neg (Nat.ne_of_gt hPositive)]
  exact if_pos
    ((mmRealloc_size_iff hHeap hRequest).mpr hSame)

/- The number of bytes `mm_realloc` copies. -/
theorem copySize_eq
    {asize oldSize : Nat}
    (hAsize : 8 ≤ asize)
    (hOldSize : 8 ≤ oldSize)
    (hLt : oldSize < 2 ^ 31) :
    sub32 (if asize < oldSize then asize else oldSize)
        dsize =
      min asize oldSize - 8 := by
  unfold sub32 dsize
  split <;> omega

/-
  Copying into the new block and releasing the old one
  keeps every other allocated block.
-/
theorem copy_free_spec
    {target : Nat} {fresh : Block}
    (hHeap : Represents heap blocks)
    (hFresh :
      (target, fresh) ∈ allocated heap.first blocks)
    (hOld :
      (heap.first + offset, block) ∈
        allocated heap.first blocks)
    (hNe : target ≠ heap.first + offset) :
    Represents
        (mmFree
          (memcpy heap target (heap.first + offset)
            (min fresh.bytes block.bytes - 8))
          (heap.first + offset))
        (release blocks offset) ∧
      (∀ i, i < min fresh.bytes block.bytes - 8 →
        (mmFree
            (memcpy heap target (heap.first + offset)
              (min fresh.bytes block.bytes - 8))
            (heap.first + offset)).mem (target + i) =
          heap.mem (heap.first + offset + i)) ∧
      (mmFree
          (memcpy heap target (heap.first + offset)
            (min fresh.bytes block.bytes - 8))
          (heap.first + offset)).memStartBrk =
        heap.memStartBrk ∧
      ∀ p other,
        (p, other) ∈ allocated heap.first blocks →
        p ≠ target → p ≠ heap.first + offset →
        (mmFree
            (memcpy heap target (heap.first + offset)
              (min fresh.bytes block.bytes - 8))
            (heap.first + offset)).mem.SameOn
          heap.mem (p - 4) (p - 4 + other.bytes) := by
  have hFirst : heap.first = heap.memStartBrk + 16 := rfl
  have hFreshPlaced := (mem_allocated_iff.mp hFresh).1
  have hFreshBounds :=
    Tiling.bounds_of_mem_placed hFreshPlaced
  have hLeast := fresh.eight_le_bytes
  have hCopied :
      Represents
        (memcpy heap target (heap.first + offset)
          (min fresh.bytes block.bytes - 8))
        blocks :=
    hHeap.payload hFreshPlaced
      (ByteMemory.copy_sameOutside.mono
        (by omega) (by omega))
  rcases mem_allocated_iff.mp hOld with
    ⟨hOldPlaced, hAllocated⟩
  rcases Tiling.mem_placed_iff.mp hOldPlaced with
    ⟨front, back, rfl, hOffset⟩
  have hExtent : offset = extent front := by
    unfold extent
    omega
  subst hExtent
  rcases mmFree_spec hCopied with ⟨hFreed, hKeeps⟩
  have hStays : ∀ p other,
      (p, other) ∈
        allocated heap.first (front ++ block :: back) →
      p ≠ heap.first + extent front →
      (p, other) ∈
        allocated heap.first
          (front ++ block.freed :: back) :=
    fun p other hMember hApart =>
      (mem_allocated_freed_iff hAllocated).mpr
        ⟨hMember, hApart⟩
  refine ⟨?_, ?_, hKeeps.start, ?_⟩
  · rw [release_eq]
    exact hFreed
  · intro i hIndex
    have hByte :=
      hKeeps.bytes target fresh
        (hStays target fresh hFresh hNe) (target + i)
        (by omega) (by omega)
    exact hByte.trans (ByteMemory.copy_inside hIndex)
  · intro p other hMember hNeTarget hNeOld
    have hApart :=
      Tiling.apart_of_mem_placed
        (mem_allocated_iff.mp hMember).1 hFreshPlaced
        hNeTarget
    have hBounds :=
      Tiling.bounds_of_mem_placed
        (mem_allocated_iff.mp hMember).1
    exact
      (hKeeps.bytes p other
        (hStays p other hMember hNeOld)).trans
      (ByteMemory.copy_sameOutside.sameOn (by omega))

/- A block of the wrong size moves into a new block. -/
theorem mmRealloc_move
    (hHeap : Represents heap (front ++ block :: back))
    (hAllocated : block.allocated = true)
    (hPositive : 0 < request)
    (hRequest : request < 2 ^ 31)
    (hDiffer : block.size ≠ BlockSize.ofRequest request)
    (hSome :
      (allocate (front ++ block :: back) request).2 =
        some offset) :
    ∃ heap',
      mmRealloc heap (heap.first + extent front) request =
        .ret heap' (heap.first + offset) ∧
      Represents heap'
        (release
          (allocate (front ++ block :: back) request).1
          (extent front)) ∧
      KeepsAllocated heap heap'
        (front ++ block.freed :: back) ∧
      ∀ i,
        i <
          min (BlockSize.ofRequest request).bytes
            block.bytes - 8 →
        heap'.mem (heap.first + offset + i) =
          heap.mem (heap.first + extent front + i) := by
  have hLt : block.bytes < 2 ^ 31 := hHeap.bytes_lt (by simp)
  have hPerm := @allocated_allocate heap.first _ _ _ hSome
  have hOld :
      (heap.first + extent front, block) ∈
        allocated heap.first (front ++ block :: back) := by
    simp [hAllocated]
  rcases mmMalloc_spec hHeap hPositive hRequest with
    ⟨middle, hCode, hRepr, hKeeps, -⟩
  rw [hSome] at hCode
  have hMiddle : middle.first = heap.first := by
    unfold Heap.first
    rw [hKeeps.start]
  rw [← hMiddle] at hPerm
  have hSub :
      ∀ p other,
        (p, other) ∈
          allocated heap.first (front ++ block :: back) →
        (p, other) ∈
          allocated middle.first
            (allocate (front ++ block :: back) request).1 :=
    fun p other hMember =>
      hPerm.mem_iff.mpr
        (List.mem_cons_of_mem _ (hMiddle ▸ hMember))
  have hOldStays :
      (middle.first + extent front, block) ∈
        allocated middle.first
          (allocate (front ++ block :: back) request).1 := by
    rw [hMiddle] at hSub ⊢
    exact hSub _ _ hOld
  have hNew := hPerm.mem_iff.mpr List.mem_cons_self
  have hNe :
      middle.first + offset ≠
        middle.first + extent front := by
    rw [hMiddle]
    exact (allocate_fresh hSome hOld).symm
  rcases copy_free_spec hRepr hNew hOldStays hNe with
    ⟨hFinal, hPrefix, hStart, hRest⟩
  rw [hMiddle] at hFinal hPrefix hStart hRest
  refine ⟨_, ?_, hFinal, ?_, ?_⟩
  · unfold mmRealloc
    rw [if_neg first_ne_null,
      if_neg (Nat.ne_of_gt hPositive)]
    simp only
    rw [if_neg (fun h =>
        hDiffer ((mmRealloc_size_iff hHeap hRequest).mp h)),
      hCode, hHeap.around.getSize_hdrp,
      adjustSize_eq hRequest,
      copySize_eq (BlockSize.eight_le_bytes _)
        block.eight_le_bytes hLt]
    exact if_neg (@first_ne_null heap offset)
  · refine ⟨hStart.trans hKeeps.start, ?_⟩
    intro p other hMember
    rcases (mem_allocated_freed_iff hAllocated).mp hMember
      with ⟨hMember, hApart⟩
    exact
      (hRest p other (hMiddle ▸ hSub p other hMember)
        (allocate_fresh hSome hMember) hApart).trans
      (hKeeps.bytes p other hMember)
  · intro i hIndex
    have hByte :=
      hKeeps.bytes _ _ hOld
        (heap.first + extent front + i)
        (by omega) (by omega)
    exact (hPrefix i hIndex).trans hByte

end Malloc

end CsappLabs
