import CsappLabs.Malloc.Coalesce

/-
  Every function of the allocator on a represented heap.

  Each specification names the block list the function
  leaves, the value it returns, and says that the allocated
  blocks keep every byte.

  Key theorems include:
    * `extendHeap_spec`, `extendHeap_refused`
    * `findFit_spec`
    * `place_spec`
    * `mmMalloc_spec`
    * `mmFree_spec`
    * `mmInit_spec`
-/

------------------------------------------------------------
-- Extension
------------------------------------------------------------

namespace CsappLabs

namespace Malloc

variable {heap : Heap} {mem : ByteMemory}
variable {blocks front back : List Block} {block : Block}
variable {asize size : BlockSize}

/- The number of words is even, so the size survives. -/
theorem words_mul
    (hSize : size.bytes < 2 ^ 32) :
    (if size.bytes / wsize % 2 ≠ 0 then
      u32 (u32 (size.bytes / wsize + 1) * wsize)
    else
      u32 (size.bytes / wsize * wsize)) = size.bytes := by
  have hAligned := size.aligned
  unfold u32 wsize
  rw [if_neg (by omega)]
  omega

theorem asInt_of_lt {value : Nat} (hLt : value < 2 ^ 31) :
    asInt value = value := by
  unfold asInt
  rw [if_pos (by omega), Nat.mod_eq_of_lt (by omega)]

theorem asInt_neg
    {value : Nat}
    (hLow : 2 ^ 31 ≤ value)
    (hHigh : value < 2 ^ 32) :
    asInt value < 0 := by
  unfold asInt
  rw [if_neg (by omega)]
  omega

/- `mem_sbrk` grants what stays below the last address. -/
theorem memSbrk_of_room
    {incr : Nat}
    (hIncr : incr < 2 ^ 31)
    (hRoom : heap.memBrk + incr ≤ heap.memMaxAddr) :
    memSbrk heap (asInt incr) =
      some
        ({ heap with memBrk := heap.memBrk + incr },
          heap.memBrk) := by
  unfold memSbrk
  rw [asInt_of_lt hIncr, if_neg (by omega),
    Int.toNat_natCast]

/- A refused extension leaves the heap as it is. -/
theorem extendHeap_refused
    (hHeap : Represents heap blocks)
    (hSize : size.bytes < 2 ^ 32)
    (hRefused : Refused blocks size) :
    extendHeap heap (size.bytes / wsize) = (heap, null) := by
  have hBrk := hHeap.memBrk
  have hMaxAddr := hHeap.memMaxAddr
  have hFirst : heap.first = heap.memStartBrk + 16 := rfl
  have hSbrk : memSbrk heap (asInt size.bytes) = none := by
    unfold memSbrk
    rw [if_pos]
    rcases Nat.lt_or_ge size.bytes (2 ^ 31) with hLt | hGe
    · rcases hRefused with hBig | hFull
      · omega
      · right
        rw [asInt_of_lt hLt]
        omega
    · exact Or.inl (asInt_neg hGe hSize)
  simp only [extendHeap, words_mul hSize, hSbrk]

/- The heap after its new memory became one free block. -/
def grown (heap : Heap) (size : BlockSize) : Heap :=
  { heap with
    memBrk := heap.memBrk + size.bytes
    finalBrk := heap.memBrk + size.bytes
    mem :=
      (writeTags heap.mem heap.memBrk
        ⟨size, false⟩).writeWord
          (heap.memBrk + size.bytes - 4) 4 1 }

@[simp] theorem grown_first :
    (grown heap size).first = heap.first := rfl

/- Everything new lies from the old epilogue on. -/
theorem grown_sameOutside :
    (grown heap size).mem.SameOutside heap.mem
      (heap.memBrk - 4) (heap.memBrk + size.bytes) := by
  have hLeast := size.eight_le_bytes
  apply ByteMemory.SameOutside.trans
  · exact ByteMemory.writeWord_sameOutside.mono
      (by omega) (by omega)
  · exact writeTags_sameOutside.mono
      (by omega) (by rw [Block.bytes_mk]; omega)

theorem Represents.grown
    (hHeap :
      Represents { heap with finalBrk := heap.memBrk }
        blocks)
    (hRoom : 16 + extent blocks + size.bytes ≤ maxHeap) :
    Represents (grown heap size)
      (blocks ++ [⟨size, false⟩]) := by
  have hFirst : heap.first = heap.memStartBrk + 16 := rfl
  have hBrk : heap.memBrk = heap.first + extent blocks :=
    hHeap.memBrk
  have hMaxAddr :
      heap.memMaxAddr = heap.memStartBrk + maxHeap :=
    hHeap.memMaxAddr
  have hMax : maxHeap = 20971520 := by decide
  have hLeast := size.eight_le_bytes
  have hSame :
      (Malloc.grown heap size).mem.SameOutside heap.mem
        (heap.memBrk - 4) (heap.memBrk + size.bytes) :=
    grown_sameOutside
  refine
    { heapListp := hHeap.heapListp
      prologue := ?_
      tagged := ?_
      epilogue := ?_
      memBrk := ?_
      memMaxAddr := hMaxAddr
      bounded := ?_
      startBrk := hHeap.startBrk
      finalBrk := rfl }
  · apply hHeap.prologue.of_sameOn
    have hBytes : Malloc.prologue.bytes = 8 := rfl
    exact hSame.sameOn (by
      simp only
      omega)
  · intro bp other hMember
    simp only [placed, Tiling.placed_append,
      List.mem_append, Tiling.placed_cons,
      Tiling.placed_nil, List.mem_singleton,
      Prod.mk.injEq, grown_first] at hMember
    rcases hMember with hOld | ⟨hBp, rfl⟩
    · have hBounds := Tiling.bounds_of_mem_placed hOld
      apply (hHeap.tagged bp other hOld).of_sameOn
      unfold extent at hBrk
      exact hSame.sameOn (by omega)
    · have hBp' : bp = heap.memBrk := hBp.trans hBrk.symm
      have hTags :
          Tagged
            (writeTags heap.mem heap.memBrk ⟨size, false⟩)
            heap.memBrk ⟨size, false⟩ :=
        tagged_writeTags (by omega) (by
          rw [Block.bytes_mk]
          omega)
      rw [hBp']
      exact hTags.of_sameOn
        (ByteMemory.writeWord_sameOutside.sameOn (by
          rw [Block.bytes_mk]
          omega))
  · exact ByteMemory.readWord_writeWord
  · change heap.memBrk + size.bytes = heap.first + _
    simp only [extent, Tiling.extent_append,
      Tiling.extent_cons, Tiling.extent_nil,
      Block.bytes_mk] at hBrk ⊢
    omega
  · change heap.memBrk + size.bytes ≤ heap.memMaxAddr
    omega

/- `extend_heap` before its call of `coalesce`. -/
theorem extendHeap_eq
    (hMaxAddr :
      heap.memBrk + size.bytes ≤ heap.memMaxAddr)
    (hBrk : 4 ≤ heap.memBrk)
    (hSize : size.bytes < 2 ^ 31) :
    extendHeap heap (size.bytes / wsize) =
      coalesce (grown heap size) heap.memBrk := by
  have hSbrk := memSbrk_of_room hSize hMaxAddr
  have hTag :
      pack size.bytes 0 = (Block.mk size false).tag := rfl
  have hBytes : (Block.mk size false).bytes < 2 ^ 31 := hSize
  have hHeader :
      get
          { heap with
            memBrk := heap.memBrk + size.bytes
            finalBrk := heap.memBrk + size.bytes
            mem :=
              writeTags heap.mem heap.memBrk
                ⟨size, false⟩ }
          (hdrp heap.memBrk) =
        (Block.mk size false).tag :=
    (tagged_writeTags hBrk hBytes).header
  have hWords : size.bytes < 2 ^ 32 := by omega
  simp only [extendHeap, words_mul hWords, hSbrk, hTag,
    put_header_footer hBytes, nextBlkp_of_header hHeader]
  rfl

theorem extendHeap_spec
    (hHeap :
      Represents { heap with finalBrk := heap.memBrk }
        blocks)
    (hAllowed : ¬ Refused blocks size) :
    ∃ heap',
      extendHeap heap (size.bytes / wsize) =
        (heap', heap.first + extent (keptFront blocks)) ∧
      Represents heap'
        (coalesceAt blocks ⟨size, false⟩ []) ∧
      KeepsAllocated heap heap' blocks := by
  have hBrk : heap.memBrk = heap.first + extent blocks :=
    hHeap.memBrk
  have hFirst : heap.first = heap.memStartBrk + 16 := rfl
  have hMaxAddr :
      heap.memMaxAddr = heap.memStartBrk + maxHeap :=
    hHeap.memMaxAddr
  have hRoom :
      size.bytes < 2 ^ 31 ∧
        16 + extent blocks + size.bytes ≤ maxHeap := by
    unfold Refused at hAllowed
    omega
  have hGrown := hHeap.grown hRoom.2
  rcases coalesce_spec hGrown rfl with
    ⟨mem', hCode, hRepr, hKeeps⟩
  refine ⟨_, ?_, hRepr, ?_⟩
  · rw [extendHeap_eq (by omega) (by omega) hRoom.1, hBrk]
    exact hCode
  · have hOld :
        KeepsAllocated heap (grown heap size) blocks := by
      refine ⟨rfl, fun bp other hMember => ?_⟩
      have hBounds :=
        Tiling.bounds_of_mem_placed
          (mem_allocated_iff.mp hMember).1
      exact grown_sameOutside.sameOn (by
        unfold extent at hBrk
        omega)
    exact hOld.trans hKeeps (by simp)

------------------------------------------------------------
-- First Fit
------------------------------------------------------------

/- The walk from any block finds the first fit behind it. -/
theorem findFitFrom_spec
    {fuel : Nat}
    (hHeap : Represents heap (front ++ back))
    (hFuel : back.length < fuel) :
    findFitFrom heap asize.bytes fuel
        (heap.first + extent front) =
      some
        (match Tiling.firstSplit (fits asize) back with
        | some (skipped, _, _) =>
            heap.first + extent front + extent skipped
        | none => null) := by
  induction back generalizing front fuel with
  | nil =>
      cases fuel with
      | zero => cases hFuel
      | succ fuel =>
          have hBrk := hHeap.memBrk
          rw [List.append_nil] at hBrk
          have hWord :
              get heap (hdrp (heap.first + extent front)) =
                1 := by
            rw [← hBrk]
            exact hHeap.epilogue
          simp [findFitFrom, getSize_eq, hWord,
            Tiling.firstSplit]
  | cons block back ih =>
      cases fuel with
      | zero => cases hFuel
      | succ fuel =>
          have hAround := hHeap.around
          have hBytes := block.bytes_pos
          have hSplit :
              Represents heap ((front ++ [block]) ++ back) := by
            simpa using hHeap
          have hRest := ih hSplit (by simpa using hFuel)
          have hNext :
              heap.first + extent (front ++ [block]) =
                heap.first + extent front + block.bytes := by
            simp [extent]
            omega
          rw [hNext] at hRest
          rw [findFitFrom, hAround.getSize_hdrp,
            hAround.isAlloc_hdrp, hAround.nextBlkp_eq,
            if_neg (by omega), hRest, Tiling.firstSplit]
          cases hFits : fits asize block with
          | true =>
              simp only [fits, Bool.and_eq_true,
                Bool.not_eq_true', decide_eq_true_eq]
                at hFits
              simp [hFits]
          | false =>
              have hNot :
                  ¬ ((if block.allocated then 1 else 0) = 0 ∧
                    asize.bytes ≤ block.bytes) := by
                simpa [fits] using hFits
              rw [if_neg hNot]
              cases Tiling.firstSplit (fits asize) back with
              | none => rfl
              | some split =>
                  simp [extent, Nat.add_assoc]

theorem findFit_spec (hHeap : Represents heap blocks) :
    findFit heap asize.bytes =
      some
        (match Tiling.firstSplit (fits asize) blocks with
        | some (skipped, _, _) =>
            heap.first + extent skipped
        | none => null) := by
  have hBrk := hHeap.memBrk
  have hFirst : heap.first = heap.memStartBrk + 16 := rfl
  have hLength : blocks.length ≤ extent blocks :=
    Tiling.count_le_extent Block.bytes_pos blocks
  have hHeader :
      get heap (hdrp (heap.memStartBrk + 8)) =
        prologue.tag :=
    hHeap.prologue.header
  have hStart : nextBlkp heap heap.heapListp = heap.first := by
    rw [hHeap.heapListp, nextBlkp_of_header hHeader]
    rfl
  have hSplit : Represents heap ([] ++ blocks) := hHeap
  have hFuel : blocks.length < heap.memBrk := by omega
  have hWalk := @findFitFrom_spec _ _ _ asize _ hSplit hFuel
  simpa [findFit, hStart] using hWalk

------------------------------------------------------------
-- Placement
------------------------------------------------------------

/- The stores of `place` where the block has the exact size. -/
theorem place_exact
    {bp : Nat}
    (hSize : getSize heap (hdrp bp) = asize.bytes)
    (hLt : asize.bytes < 2 ^ 31) :
    place heap bp asize.bytes =
      .ret
        { heap with
          mem := writeTags heap.mem bp ⟨asize, true⟩ } () := by
  have hRemain : sub32 asize.bytes asize.bytes = 0 := by
    unfold sub32
    omega
  have hTag :
      pack asize.bytes 1 = (Block.mk asize true).tag := rfl
  have hBytes : (Block.mk asize true).bytes < 2 ^ 31 := hLt
  simp only [place, hSize, hRemain, hTag,
    put_header_footer hBytes]
  rfl

/- The stores of `place` where something remains. -/
theorem place_split
    {bp : Nat} {rest : BlockSize}
    (hBp : 4 ≤ bp)
    (hSize :
      getSize heap (hdrp bp) = asize.bytes + rest.bytes)
    (hLt : asize.bytes + rest.bytes < 2 ^ 31) :
    place heap bp asize.bytes =
      .ret
        { heap with
          mem :=
            writeTags
              (writeTags heap.mem bp ⟨asize, true⟩)
              (bp + asize.bytes) ⟨rest, false⟩ } () := by
  have hAligned := rest.aligned
  have hPositive := rest.positive
  have hRemain :
      sub32 (asize.bytes + rest.bytes) asize.bytes =
        rest.bytes := by
    unfold sub32
    omega
  have hTag :
      pack asize.bytes 1 = (Block.mk asize true).tag := rfl
  have hBytes : (Block.mk asize true).bytes < 2 ^ 31 := by
    rw [Block.bytes_mk]
    omega
  have hRest : (Block.mk rest false).bytes < 2 ^ 31 := by
    rw [Block.bytes_mk]
    omega
  have hHeader :
      get
          { heap with
            mem := writeTags heap.mem bp ⟨asize, true⟩ }
          (hdrp bp) =
        (Block.mk asize true).tag :=
    get_header_writeTags hBp hBytes
  have hPair := put_next_pair hBp hHeader hRest
  rcases Nat.lt_or_ge rest.bytes 16 with hSmall | hLarge
  · have hEight : rest.bytes = 8 := by omega
    have hRestTag :
        pack dsize 0 = (Block.mk rest false).tag := by
      unfold Block.tag
      rw [Block.bytes_mk, hEight]
      rfl
    simp only [place, hSize, hRemain, hTag,
      put_header_footer hBytes, hRestTag, hPair]
    simp [hEight, wsize, dsize]
  · have hRestTag :
        pack rest.bytes 0 = (Block.mk rest false).tag := rfl
    simp only [place, hSize, hRemain, hTag,
      put_header_footer hBytes, hRestTag, hPair]
    have hSplit : 2 * dsize ≤ rest.bytes := hLarge
    rw [if_pos hSplit]
    rfl

/- `place` carves a free block that is large enough. -/
theorem place_spec
    (hHeap : Represents heap (front ++ block :: back))
    (hFree : block.allocated = false)
    (hFits : asize.bytes ≤ block.bytes) :
    ∃ mem',
      place heap (heap.first + extent front) asize.bytes =
        .ret { heap with mem := mem' } () ∧
      Represents { heap with mem := mem' }
        (front ++ block.carve asize ++ back) ∧
      KeepsAllocated heap { heap with mem := mem' }
        (front ++ block :: back) := by
  have hLt : block.bytes < 2 ^ 31 := hHeap.bytes_lt (by simp)
  have hFirst : heap.first = heap.memStartBrk + 16 := rfl
  have hSize := hHeap.around.getSize_hdrp
  have hMiddle :
      Represents heap (front ++ [block] ++ back) := by
    simpa using hHeap
  have hOne : extent [block] = block.bytes := by
    simp [extent]
  have hNone :
      allocated (heap.first + extent front) [block] = [] := by
    simp [hFree]
  have hBytes : block.size.bytes = block.bytes := rfl
  rw [show front ++ block :: back =
    front ++ [block] ++ back by simp]
  by_cases hSplit : asize.bytes < block.size.bytes
  · have hRest :
        (block.size.minus asize hSplit).bytes =
          block.bytes - asize.bytes := rfl
    have hCarve :
        block.carve asize =
          [⟨asize, true⟩,
            ⟨block.size.minus asize hSplit, false⟩] := by
      simp [Block.carve, hSplit]
    have hSum :
        block.bytes =
          asize.bytes +
            (block.size.minus asize hSplit).bytes := by
      omega
    refine ⟨_, place_split (by omega) (hSize.trans hSum)
      (hSum ▸ hLt), ?_, ?_⟩
    · rw [hCarve]
      exact hMiddle.retag_pair (hSum.symm.trans hOne.symm)
    · refine Represents.keepsAllocated hNone ?_
      rw [hOne]
      exact
        (writeTags_sameOutside.mono (by omega) (by
          simp only [Block.bytes_mk]
          omega)).trans
        (writeTags_sameOutside.mono (by omega) (by
          simp only [Block.bytes_mk]
          omega))
  · have hExact : asize.bytes = block.bytes := by omega
    have hCarve : block.carve asize = [⟨asize, true⟩] := by
      simp [Block.carve, hSplit]
    refine ⟨_, place_exact (hSize.trans hExact.symm)
      (by omega), ?_, ?_⟩
    · rw [hCarve]
      exact hMiddle.retag (hExact.trans hOne.symm)
    · refine Represents.keepsAllocated hNone ?_
      rw [hOne, ← hExact]
      exact writeTags_sameOutside

------------------------------------------------------------
-- Allocation
------------------------------------------------------------

/-
  The adjusted size is that of the abstract allocator, as
  long as rounding it up does not wrap.
-/
theorem adjustSize_of_room
    {request : Nat}
    (hRoom : request + 16 ≤ 2 ^ 32) :
    adjustSize request =
      (BlockSize.ofRequest request).bytes := by
  unfold adjustSize agnSize sub32 u32 dsize
  rw [BlockSize.bytes_ofRequest]
  split <;> omega

theorem adjustSize_eq
    {request : Nat}
    (hRequest : request < 2 ^ 31) :
    adjustSize request =
      (BlockSize.ofRequest request).bytes :=
  adjustSize_of_room (by omega)

/- The extension is that of the abstract allocator. -/
theorem extendSize_eq (request : Nat) :
    (if chunkSize < (BlockSize.ofRequest request).bytes then
      (BlockSize.ofRequest request).bytes
    else
      chunkSize) = (extension request).bytes := by
  rw [extension, BlockSize.bytes_larger,
    BlockSize.bytes_chunk]
  unfold chunkSize
  split <;> omega

theorem extension_lt
    {request : Nat}
    (hRoom : request + 16 ≤ 2 ^ 32) :
    (extension request).bytes < 2 ^ 32 := by
  simp only [extension, BlockSize.bytes_larger,
    BlockSize.bytes_ofRequest, BlockSize.bytes_chunk]
  omega

section Malloc

variable {request : Nat}

theorem first_ne_null
    {offset : Nat} :
    heap.first + offset ≠ null := by
  unfold Heap.first null
  omega

/- `mm_malloc` where some block fits. -/
theorem mmMalloc_fit
    (hHeap : Represents heap (front ++ block :: back))
    (hPositive : 0 < request)
    (hRoom : request + 16 ≤ 2 ^ 32)
    (hSplit :
      Tiling.firstSplit
          (fits (BlockSize.ofRequest request))
          (front ++ block :: back) =
        some (front, block, back)) :
    ∃ mem',
      mmMalloc heap request =
        .ret { heap with mem := mem' }
          (heap.first + extent front) ∧
      Represents { heap with mem := mem' }
        (front ++
          block.carve (BlockSize.ofRequest request) ++
          back) ∧
      KeepsAllocated heap { heap with mem := mem' }
        (front ++ block :: back) := by
  have hBlock :
      block.allocated = false ∧
        (BlockSize.ofRequest request).bytes ≤
          block.bytes := by
    have hTest :=
      (Tiling.firstSplit_eq_some_iff.mp hSplit).2.1
    simpa [fits] using hTest
  have hFit :
      findFit heap (BlockSize.ofRequest request).bytes =
        some (heap.first + extent front) := by
    rw [findFit_spec hHeap, hSplit]
  rcases place_spec hHeap hBlock.1 hBlock.2 with
    ⟨mem', hCode, hRepr, hKeeps⟩
  refine ⟨mem', ?_, hRepr, hKeeps⟩
  unfold mmMalloc
  rw [if_neg (Nat.ne_of_gt hPositive),
    adjustSize_of_room hRoom]
  simp only [hFit]
  rw [if_pos first_ne_null, hCode]
  rfl

/- `mm_malloc` where none fits and the heap may not grow. -/
theorem mmMalloc_refused
    (hHeap : Represents heap blocks)
    (hPositive : 0 < request)
    (hRoom : request + 16 ≤ 2 ^ 32)
    (hSplit :
      Tiling.firstSplit
          (fits (BlockSize.ofRequest request)) blocks =
        none)
    (hRefused : Refused blocks (extension request)) :
    mmMalloc heap request = .ret heap null := by
  have hFit :
      findFit heap (BlockSize.ofRequest request).bytes =
        some null := by
    rw [findFit_spec hHeap, hSplit]
  have hCode :=
    extendHeap_refused hHeap (extension_lt hRoom)
      hRefused
  unfold mmMalloc
  rw [if_neg (Nat.ne_of_gt hPositive),
    adjustSize_of_room hRoom]
  simp only [hFit, extendSize_eq, hCode]
  rw [if_neg (fun h => h rfl), if_pos trivial]

/- `mm_malloc` where none fits and the heap grows. -/
theorem mmMalloc_extend
    (hHeap : Represents heap blocks)
    (hPositive : 0 < request)
    (hRoom : request + 16 ≤ 2 ^ 32)
    (hSplit :
      Tiling.firstSplit
          (fits (BlockSize.ofRequest request)) blocks =
        none)
    (hAllowed : ¬ Refused blocks (extension request)) :
    ∃ heap',
      mmMalloc heap request =
        .ret heap'
          (heap.first + extent (keptFront blocks)) ∧
      Represents heap'
        ((extendBlocks (extension request) blocks).1 ++
          (extendBlocks (extension request) blocks).2.carve
            (BlockSize.ofRequest request)) ∧
      KeepsAllocated heap heap' blocks := by
  have hFit :
      findFit heap (BlockSize.ofRequest request).bytes =
        some null := by
    rw [findFit_spec hHeap, hSplit]
  have hStart :
      Represents { heap with finalBrk := heap.memBrk }
        blocks :=
    { hHeap with finalBrk := rfl }
  rcases extendHeap_spec hStart hAllowed with
    ⟨grown, hExtend, hGrown, hOld⟩
  rw [← extendBlocks_eq_coalesceAt, extendBlocks_front]
    at hGrown
  have hFirst : grown.first = heap.first := by
    unfold Heap.first
    rw [hOld.start]
  have hTail :=
    @extendBlocks_tail (extension request) blocks
  have hFits :
      (BlockSize.ofRequest request).bytes ≤
        (extendBlocks (extension request)
          blocks).2.bytes := by
    refine Nat.le_trans ?_ hTail.2
    rw [extension, BlockSize.bytes_larger]
    exact Nat.le_max_left _ _
  rcases place_spec hGrown hTail.1 hFits with
    ⟨mem', hPlace, hRepr, hNew⟩
  rw [hFirst] at hPlace
  refine ⟨_, ?_, ?_, hOld.trans hNew ?_⟩
  · unfold mmMalloc
    rw [if_neg (Nat.ne_of_gt hPositive),
      adjustSize_of_room hRoom]
    simp only [hFit, extendSize_eq, hExtend]
    rw [if_neg (fun h => h rfl), if_neg first_ne_null,
      hPlace]
    rfl
  · rw [extendBlocks_front]
    simpa using hRepr
  · rw [← extendBlocks_front, extendBlocks_eq_coalesceAt,
      allocated_coalesceAt rfl]
    simp

/- `mm_malloc` does what the abstract allocator does. -/
theorem mmMalloc_spec_of_room
    (hHeap : Represents heap blocks)
    (hPositive : 0 < request)
    (hRoom : request + 16 ≤ 2 ^ 32) :
    ∃ heap',
      mmMalloc heap request =
        .ret heap'
          (address heap.first
            (allocate blocks request).2) ∧
      Represents heap' (allocate blocks request).1 ∧
      KeepsAllocated heap heap' blocks ∧
      ((allocate blocks request).2 = none →
        heap' = heap) := by
  cases hSplit :
      Tiling.firstSplit
        (fits (BlockSize.ofRequest request)) blocks with
  | some split =>
      rcases split with ⟨front, block, back⟩
      have hBlocks :=
        (Tiling.firstSplit_eq_some_iff.mp hSplit).1
      rw [allocate_fit hSplit]
      subst hBlocks
      rcases mmMalloc_fit hHeap hPositive hRoom hSplit
        with ⟨mem', hCode, hRepr, hKeeps⟩
      exact ⟨_, hCode, hRepr, hKeeps, by simp⟩
  | none =>
      by_cases hRefused :
          Refused blocks (extension request)
      · rw [allocate_refused hSplit hRefused]
        exact
          ⟨heap,
            mmMalloc_refused hHeap hPositive hRoom
              hSplit hRefused,
            hHeap, KeepsAllocated.refl, fun _ => rfl⟩
      · rw [allocate_extend hSplit hRefused]
        rcases mmMalloc_extend hHeap hPositive hRoom
            hSplit hRefused with
          ⟨heap', hCode, hRepr, hKeeps⟩
        rw [← extendBlocks_front] at hCode
        exact ⟨heap', hCode, hRepr, hKeeps, by simp⟩

theorem mmMalloc_spec
    (hHeap : Represents heap blocks)
    (hPositive : 0 < request)
    (hRequest : request < 2 ^ 31) :
    ∃ heap',
      mmMalloc heap request =
        .ret heap'
          (address heap.first
            (allocate blocks request).2) ∧
      Represents heap' (allocate blocks request).1 ∧
      KeepsAllocated heap heap' blocks ∧
      ((allocate blocks request).2 = none →
        heap' = heap) :=
  mmMalloc_spec_of_room hHeap hPositive (by omega)

end Malloc

------------------------------------------------------------
-- Release
------------------------------------------------------------

/- `mm_free` releases the block and merges it. -/
theorem mmFree_spec
    (hHeap : Represents heap (front ++ block :: back)) :
    Represents
        (mmFree heap (heap.first + extent front))
        (coalesceAt front block.freed back) ∧
      KeepsAllocated heap
        (mmFree heap (heap.first + extent front))
        (front ++ block.freed :: back) := by
  have hLt : block.bytes < 2 ^ 31 := hHeap.bytes_lt (by simp)
  have hBytes : block.freed.bytes < 2 ^ 31 := hLt
  have hOne : block.freed.bytes = extent [block] := by
    simp [extent]
  have hTag :
      pack block.bytes 0 = block.freed.tag := rfl
  have hSize := hHeap.around.getSize_hdrp
  have hMiddle :
      Represents heap (front ++ [block] ++ back) := by
    simpa using hHeap
  have hFreed :
      Represents
        { heap with
          mem :=
            writeTags heap.mem (heap.first + extent front)
              block.freed }
        (front ++ block.freed :: back) := by
    simpa using hMiddle.retag hOne
  have hKept :
      KeepsAllocated heap
        { heap with
          mem :=
            writeTags heap.mem (heap.first + extent front)
              block.freed }
        (front ++ [block.freed] ++ back) := by
    refine Represents.keepsAllocated (by simp) ?_
    have hFreedOne :
        extent [block.freed] = block.freed.bytes := by
      simp [extent]
    rw [hFreedOne]
    exact writeTags_sameOutside
  rcases coalesce_spec hFreed rfl with
    ⟨mem', hCode, hRepr, hKeeps⟩
  have hFree :
      mmFree heap (heap.first + extent front) =
        { heap with mem := mem' } := by
    unfold mmFree
    rw [if_neg first_ne_null]
    simp only [hSize, hTag, put_header_footer hBytes]
    exact congrArg Prod.fst hCode
  rw [hFree]
  refine ⟨hRepr, ?_⟩
  rw [List.append_assoc, List.singleton_append] at hKept
  exact hKept.trans hKeeps (List.Subset.refl _)

------------------------------------------------------------
-- Initialisation
------------------------------------------------------------

section Initialisation

variable {base : Nat}

theorem represents_storeEmptyHeap
    (hStart : heap.memStartBrk = base)
    (hBrk : heap.memBrk = base + 16)
    (hMaxAddr : heap.memMaxAddr = base + maxHeap) :
    Represents
      { storeEmptyHeap heap base with
        finalBrk := heap.memBrk }
      [] := by
  subst hStart
  have hMax : maxHeap = 20971520 := by decide
  have hWord : wsize = 4 := rfl
  have hTagLt : pack dsize 1 < 2 ^ 32 := by decide
  refine
    { heapListp := rfl
      prologue := ?_
      tagged := by simp
      epilogue := ?_
      memBrk := hBrk
      memMaxAddr := hMaxAddr
      bounded := ?_
      startBrk := rfl
      finalBrk := rfl }
  · constructor
    · have hHeader :
          get (storeEmptyHeap heap heap.memStartBrk)
              (heap.memStartBrk + 1 * wsize) =
            pack dsize 1 :=
          (get_put_apart (by omega)).trans
            ((get_put_apart (by omega)).trans
              (get_put hTagLt))
      exact hHeader
    · have hFooter :
          get (storeEmptyHeap heap heap.memStartBrk)
              (heap.memStartBrk + 2 * wsize) =
            pack dsize 1 :=
          (get_put_apart (by omega)).trans (get_put hTagLt)
      exact hFooter
  · have hEpilogue :
        get (storeEmptyHeap heap heap.memStartBrk)
            (heap.memStartBrk + 3 * wsize) =
          1 :=
      get_put (by decide)
    have hLast :
        heap.memBrk - 4 = heap.memStartBrk + 3 * wsize := by
      omega
    change get (storeEmptyHeap heap heap.memStartBrk)
      (heap.memBrk - 4) = 1
    rw [hLast]
    exact hEpilogue
  · change heap.memBrk ≤ heap.memMaxAddr
    omega

/- `mem_sbrk` grants the four words `mm_init` asks for. -/
theorem memSbrk_empty
    (hBrk : heap.memBrk = heap.memStartBrk)
    (hMaxAddr : heap.memMaxAddr = heap.memStartBrk + maxHeap) :
    ∃ start,
      memSbrk heap (asInt (4 * wsize)) =
        some (start, heap.memStartBrk) ∧
      start.memStartBrk = heap.memStartBrk ∧
      start.memBrk = heap.memStartBrk + 16 ∧
      start.memMaxAddr = heap.memStartBrk + maxHeap := by
  have hMax : maxHeap = 20971520 := by decide
  have hWords : 4 * wsize = 16 := rfl
  have hRoom :
      heap.memBrk + 4 * wsize ≤ heap.memMaxAddr := by
    rw [hMaxAddr, hWords, hMax]
    omega
  have hSbrk := memSbrk_of_room (by decide) hRoom
  rw [hBrk] at hSbrk
  exact ⟨_, hSbrk, rfl, rfl, hMaxAddr⟩

theorem mmInit_of_memSbrk
    {start : Heap}
    (hSbrk :
      memSbrk heap (asInt (4 * wsize)) =
        some (start, base)) :
    mmInit heap =
      ((extendHeap (storeEmptyHeap start base)
          (chunkSize / wsize)).1,
        if
          (extendHeap (storeEmptyHeap start base)
            (chunkSize / wsize)).2 = null
        then -1 else 0) := by
  unfold mmInit
  rw [hSbrk]

/- `mm_init` of an empty heap leaves one free block. -/
theorem mmInit_empty
    (hBrk : heap.memBrk = heap.memStartBrk)
    (hMaxAddr : heap.memMaxAddr = heap.memStartBrk + maxHeap) :
    ∃ heap',
      mmInit heap = (heap', 0) ∧
      heap'.memStartBrk = heap.memStartBrk ∧
      Represents heap' [⟨BlockSize.chunk, false⟩] := by
  rcases memSbrk_empty hBrk hMaxAddr with
    ⟨start, hSbrk, hStart, hBrk', hMaxAddr'⟩
  have hEmpty :=
    represents_storeEmptyHeap hStart hBrk' hMaxAddr'
  have hAllowed : ¬ Refused [] BlockSize.chunk := by decide
  rcases extendHeap_spec hEmpty hAllowed with
    ⟨heap', hCode, hRepr, hKeeps⟩
  have hWords :
      BlockSize.chunk.bytes / wsize = chunkSize / wsize := by
    decide
  rw [hWords] at hCode
  refine ⟨heap', ?_, hKeeps.start.trans hStart, hRepr⟩
  rw [mmInit_of_memSbrk hSbrk, hCode, if_neg first_ne_null]

theorem mmInit_spec :
    ∃ heap,
      mmInit (memInit base mem) = (heap, 0) ∧
      heap.memStartBrk = base ∧
      Represents heap [⟨BlockSize.chunk, false⟩] :=
  mmInit_empty rfl rfl

end Initialisation

end Malloc

end CsappLabs
