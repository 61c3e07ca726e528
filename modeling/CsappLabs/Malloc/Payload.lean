import CsappLabs.Malloc.InPlace

/-
  What the tags that are written leave of the payloads.

  The words between the header and the footer of a block are
  not touched when the block is freed or merged. The branch
  of `mm_realloc` for a failed `mm_malloc` writes its tags
  into the middle of an interval, and everything else of the
  interval stays.

  Key definitions include:
    * `freeBytes`
    * `Refitted`

  Key theorems include:
    * `coalesce_payload`
    * `mmFree_payload`
    * `refitted_withRest`
-/

------------------------------------------------------------
-- Freed And Merged Blocks
------------------------------------------------------------

namespace CsappLabs

namespace Malloc

variable {heap : Heap} {mem : ByteMemory} {bp : Nat}
variable {front middle back : List Block}
variable {block next : Block}

/- The tags of a block lie around its payload. -/
theorem writeTags_payload
    (hBp : 4 ≤ bp) :
    (writeTags mem bp block).SameOn mem bp
      (bp + block.bytes - 8) := by
  intro a hLow hHigh
  unfold writeTags
  rw [ByteMemory.writeWord_outside (by omega),
    ByteMemory.writeWord_outside (by omega)]

/- Merging a free block leaves the words of its payload. -/
theorem coalesce_payload
    (hHeap : Represents heap (front ++ block :: back)) :
    (coalesce heap (heap.first + extent front)).1.mem.SameOn
      heap.mem (heap.first + extent front)
      (heap.first + extent front + block.bytes - 8) := by
  have hAround := hHeap.around
  have hRoom := hAround.room
  have hBp : 4 ≤ heap.first + extent front := by omega
  have hExtent := hHeap.extent_le
  have hMax : maxHeap = 20971520 := by decide
  have hBlock := block.eight_le_bytes
  simp only [extent, Tiling.extent_append,
    Tiling.extent_cons] at hExtent
  rcases left_cases front with
    ⟨hLeft, -, -⟩ | ⟨front, last, rfl, hLast⟩
  · rcases right_cases block back with
      ⟨hNext, -⟩ | ⟨next, back, rfl, hNext⟩
    · rw [coalesce_neither hAround hLeft hNext]
      exact ByteMemory.SameOn.refl
    · simp only [Tiling.extent_cons] at hExtent
      rw [coalesce_next hAround hLeft hNext (by omega)]
      exact (writeTags_payload hBp).mono (Nat.le_refl _)
        (by rw [Block.bytes_join]; omega)
  · have hLeftOf : leftOf (front ++ [last]) = last := by
      simp [leftOf]
    rw [hLeftOf] at hAround hRoom
    simp only [Tiling.extent_append, Tiling.extent_cons,
      Tiling.extent_nil] at hExtent
    rcases right_cases block back with
      ⟨hNext, -⟩ | ⟨next, back, rfl, hNext⟩
    · rw [coalesce_prev hAround hLast hNext (by omega)]
      exact (writeTags_payload (by omega)).mono (by omega)
        (by rw [Block.bytes_join]; omega)
    · simp only [Tiling.extent_cons] at hExtent
      rw [coalesce_both hAround hLast hNext (by omega)]
      exact (writeTags_payload (by omega)).mono (by omega)
        (by rw [Block.bytes_join, Block.bytes_join]; omega)

/- Freeing a block leaves the words of its payload. -/
theorem mmFree_payload
    (hHeap : Represents heap (front ++ block :: back)) :
    (mmFree heap (heap.first + extent front)).mem.SameOn
      heap.mem (heap.first + extent front)
      (heap.first + extent front + block.bytes - 8) := by
  have hLt : block.bytes < 2 ^ 31 := hHeap.bytes_lt (by simp)
  have hBytes : block.freed.bytes < 2 ^ 31 := hLt
  have hTag :
      pack block.bytes 0 = block.freed.tag := rfl
  have hSize := hHeap.around.getSize_hdrp
  have hRoom := hHeap.around.room
  have hBp : 4 ≤ heap.first + extent front := by omega
  have hMiddle :
      Represents heap (front ++ [block] ++ back) := by
    simpa using hHeap
  have hOne : block.freed.bytes = extent [block] := by
    simp [extent]
  have hFreed :
      Represents
        { heap with
          mem :=
            writeTags heap.mem (heap.first + extent front)
              block.freed }
        (front ++ block.freed :: back) := by
    simpa using hMiddle.retag hOne
  have hMerged := coalesce_payload hFreed
  unfold mmFree
  rw [if_neg first_ne_null]
  simp only [hSize, hTag, put_header_footer hBytes]
  exact hMerged.trans (writeTags_payload hBp)

/- The bytes behind a word that heads a free block. -/
def freeBytes (word : Nat) : Nat :=
  if word % 2 = 0 then word else 0

/- The header of a merged block, where the left one is live. -/
theorem coalesce_header
    (hHeap : Represents heap (front ++ block :: back))
    (hFree : block.allocated = false)
    (hLeft : (leftOf front).allocated = true) :
    get (coalesce heap (heap.first + extent front)).1
        (hdrp (heap.first + extent front)) =
      block.bytes + freeBytes (wordAfter back) := by
  have hAround := hHeap.around
  have hRoom := hAround.room
  have hExtent := hHeap.extent_le
  have hMax : maxHeap = 20971520 := by decide
  simp only [extent, Tiling.extent_append,
    Tiling.extent_cons] at hExtent
  rcases right_cases block back with
    ⟨hNext, -⟩ | ⟨next, back, rfl, hNext⟩
  · rw [coalesce_neither hAround hLeft hNext, freeBytes,
      if_neg (by omega)]
    have hHeader := hAround.blockTags.header
    rw [Block.tag_eq, hFree] at hHeader
    exact hHeader
  · simp only [Tiling.extent_cons] at hExtent
    have hMod := next.bytes_mod
    have hWord : wordAfter (next :: back) = next.bytes := by
      rw [wordAfter, Block.tag_eq, hNext]
      rfl
    rw [coalesce_next hAround hLeft hNext (by omega), hWord,
      freeBytes, if_pos (by omega)]
    have hHeader :=
      @get_header_writeTags (heap.first + extent front)
        (block.join next) heap (by omega)
        (by rw [Block.bytes_join]; omega)
    rw [Block.tag_eq] at hHeader
    exact hHeader

------------------------------------------------------------
-- Refitted Intervals
------------------------------------------------------------

/-
  What an interval of `total` bytes from the payload pointer
  `bp` on holds after its front is allocated and its rest is
  freed: two tags at the seam, and its old words elsewhere.
-/
structure Refitted
    (heap heap' : Heap) (bp asize total merged : Nat) :
    Prop where
  before :
    heap'.mem.SameOn heap.mem bp (bp + asize - 8)
  footer : get heap' (bp + asize - 8) = pack asize 1
  header : get heap' (bp + asize - 4) = merged
  behind :
    heap'.mem.SameOn heap.mem (bp + asize)
      (bp + total - 8)

variable {total asize : BlockSize}

/- The branch refits any interval of whole blocks. -/
theorem refitted_withRest
    (hHeap : Represents heap (front ++ middle ++ back))
    (hExtent : extent middle = total.bytes)
    (hLt : asize.bytes < total.bytes) :
    Refitted heap
      (coalesce
        (withRest heap (heap.first + extent front) asize
          (total.minus asize hLt))
        (heap.first + extent front + asize.bytes)).1
      (heap.first + extent front) asize.bytes total.bytes
      (total.bytes - asize.bytes +
        freeBytes (wordAfter back)) := by
  have hStart : heap.first = heap.memStartBrk + 16 := rfl
  have hLeast := asize.eight_le_bytes
  have hRestLeast :=
    (total.minus asize hLt).eight_le_bytes
  have hTotal :
      asize.bytes + (total.minus asize hLt).bytes =
        total.bytes := by
    rw [BlockSize.bytes_minus]
    omega
  have hPair := represents_withRest hHeap hExtent hLt
  have hSeam :
      (withRest heap (heap.first + extent front) asize
          (total.minus asize hLt)).first +
          extent (front ++ [⟨asize, true⟩]) =
        heap.first + extent front + asize.bytes := by
    have hFirst :
        (withRest heap (heap.first + extent front) asize
          (total.minus asize hLt)).first = heap.first := rfl
    rw [hFirst]
    simp [extent, Nat.add_assoc]
  rcases coalesce_spec hPair rfl with
    ⟨mem', hCode, -, hKeeps⟩
  have hHeader := coalesce_header hPair rfl (by simp [leftOf])
  have hBehind := coalesce_payload hPair
  rw [hSeam] at hCode hHeader hBehind
  -- the new block keeps its bytes while the rest is merged
  have hTaken :
      (heap.first + extent front, ⟨asize, true⟩) ∈
        allocated
          (withRest heap (heap.first + extent front) asize
            (total.minus asize hLt)).first
          ((front ++ [⟨asize, true⟩]) ++
            ⟨total.minus asize hLt, false⟩ :: back) := by
    have hFirst :
        (withRest heap (heap.first + extent front) asize
          (total.minus asize hLt)).first = heap.first := rfl
    rw [hFirst]
    simp
  have hTags :=
    (hPair.tagged _ _ (mem_allocated_iff.mp hTaken).1)
  have hKept := hKeeps.bytes _ _ hTaken
  rw [hCode] at hHeader hBehind ⊢
  refine ⟨?_, ?_, ?_, ?_⟩
  · refine (hKept.mono (by omega)
      (by rw [Block.bytes_mk]; omega)).trans ?_
    refine (writeTags_sameOutside.sameOn
      (by omega)).trans ?_
    exact writeTags_payload (by omega)
  · exact (hTags.of_sameOn hKept).footer
  · exact hHeader
  · refine (hBehind.mono (Nat.le_refl _)
      (by rw [Block.bytes_mk]; omega)).trans ?_
    refine ((writeTags_payload (by omega)).mono
      (Nat.le_refl _)
      (by rw [Block.bytes_mk]; omega)).trans ?_
    exact writeTags_sameOutside.sameOn
      (Or.inr (by rw [Block.bytes_mk]; omega))

end Malloc

end CsappLabs
