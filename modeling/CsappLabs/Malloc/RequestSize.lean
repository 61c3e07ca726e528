import CsappLabs.Malloc.GrowLeft

/-
  Requests of any size.

  `AGNSIZE` adds 15 to the request before it rounds down, in
  32-bit arithmetic. For the last fifteen values of `size_t`
  the sum wraps, the adjusted size is 0 or 8, and any free
  block serves the request.

  Key theorems include:
    * `adjustSize_wrapped`
    * `Represents.malloc_served_iff`
    * `Represents.realloc_served_iff`
    * `requests_served_iff`
    * `wrapped_request_served_short`
-/

------------------------------------------------------------
-- Adjusted Sizes
------------------------------------------------------------

namespace CsappLabs

namespace Malloc

variable {heap heap' : Heap} {blocks front back : List Block}
variable {block own : Block} {size ptr asize : Nat}

/- The last requests are rounded to almost nothing. -/
theorem adjustSize_wrapped
    (hWraps : 2 ^ 32 < size + 16)
    (hSize : size < 2 ^ 32) :
    adjustSize size = 0 ∨ adjustSize size = 8 := by
  unfold adjustSize agnSize sub32 u32 dsize
  rw [if_neg (by omega)]
  omega

theorem adjustSize_covers_iff
    (hPositive : 0 < size)
    (hSize : size < 2 ^ 32) :
    size ≤ adjustSize size ↔ size + 16 ≤ 2 ^ 32 := by
  constructor
  · intro hCovers
    by_contra hWraps
    rcases adjustSize_wrapped (by omega) hSize with
      hZero | hEight
    · omega
    · omega
  · intro hRoom
    have hFits := Consistent.size_add_eight_le size
    rw [adjustSize_of_room hRoom]
    omega

------------------------------------------------------------
-- Wrapped Requests
------------------------------------------------------------

/- No block of a heap is large enough for a wrapped request. -/
theorem not_served_wrapped
    {p : Nat}
    (hWraps : 2 ^ 32 < size + 16)
    (hNe : p ≠ null) :
    ¬ Served heap size heap' p := by
  rintro (⟨hNull, -⟩ |
    ⟨-, blocks', block, hHeap, hMember, hFits⟩)
  · exact hNe hNull
  · have hPlaced := (mem_allocated_iff.mp hMember).1
    rcases Tiling.mem_placed_iff.mp hPlaced with
      ⟨front, back, rfl, -⟩
    have hLt : block.bytes < 2 ^ 31 :=
      hHeap.bytes_lt (by simp)
    omega

/- An adjusted size of 0 fits where one of 8 fits. -/
theorem findFitFrom_small
    {fuel walk : Nat}
    (hSmall : asize ≤ 8) :
    findFitFrom heap asize fuel walk =
      findFitFrom heap 8 fuel walk := by
  induction fuel generalizing walk with
  | zero => rfl
  | succ fuel ih =>
      have hMod := getSize_mod heap (hdrp walk)
      unfold findFitFrom
      simp only
      by_cases hEnd : getSize heap (hdrp walk) = 0
      · rw [if_pos hEnd, if_pos hEnd]
      · have hTest :
            (isAlloc heap (hdrp walk) = 0 ∧
                asize ≤ getSize heap (hdrp walk)) ↔
              (isAlloc heap (hdrp walk) = 0 ∧
                8 ≤ getSize heap (hdrp walk)) := by
          omega
        rw [if_neg hEnd, if_neg hEnd, ih]
        simp only [hTest]

/- So a wrapped request takes the first free block. -/
theorem findFit_small
    (hSmall : asize ≤ 8) :
    findFit heap asize = findFit heap eight.bytes :=
  findFitFrom_small hSmall

theorem fits_eight (block : Block) :
    fits eight block = true ↔ block.allocated = false := by
  have hLeast := block.eight_le_bytes
  unfold fits eight
  simp [hLeast]

/-
  A wrapped request fails where nothing is free and the heap
  may not grow.
-/
theorem mmMalloc_wrapped_null
    (hHeap : Represents heap blocks)
    (hPositive : 0 < size)
    (hSmall : adjustSize size ≤ 8)
    (hTaken : ∀ block ∈ blocks, block.allocated = true)
    (hRefused : Refused blocks BlockSize.chunk) :
    mmMalloc heap size = .ret heap null := by
  have hNone :
      Tiling.firstSplit (fits eight) blocks = none := by
    rw [Tiling.firstSplit_eq_none_iff]
    intro block hBlock
    rw [← Bool.not_eq_true, fits_eight, hTaken block hBlock]
    decide
  have hFit :
      findFit heap (adjustSize size) = some null := by
    rw [findFit_small hSmall, findFit_spec hHeap, hNone]
  have hExtend :
      extendHeap heap (chunkSize / wsize) = (heap, null) :=
    @extendHeap_refused heap blocks BlockSize.chunk hHeap
      (by decide) hRefused
  have hChunk : ¬ chunkSize < adjustSize size := by
    unfold chunkSize
    omega
  unfold mmMalloc
  rw [if_neg (Nat.ne_of_gt hPositive)]
  simp only [hFit, hChunk, if_false, hExtend]
  rw [if_neg (fun h => h rfl), if_pos trivial]

/- Otherwise it returns a block. -/
theorem mmMalloc_wrapped_some
    (hHeap : Represents heap blocks)
    (hPositive : 0 < size)
    (hSmall : adjustSize size ≤ 8)
    (hRoom :
      ¬ ((∀ block ∈ blocks, block.allocated = true) ∧
        Refused blocks BlockSize.chunk)) :
    ∃ heap' p,
      mmMalloc heap size = .ret heap' p ∧ p ≠ null := by
  have hMod := adjustSize_mod size
  have hFind :=
    (@findFit_small heap _ hSmall).trans (findFit_spec hHeap)
  unfold mmMalloc
  rw [if_neg (Nat.ne_of_gt hPositive)]
  cases hSplit : Tiling.firstSplit (fits eight) blocks with
  | some split =>
      rcases split with ⟨front, block, back⟩
      rw [hSplit] at hFind
      rcases place_returns heap (heap.first + extent front)
          hMod with ⟨placed, hPlace⟩
      simp only [hFind]
      rw [if_pos first_ne_null, hPlace]
      exact ⟨placed, _, rfl, first_ne_null⟩
  | none =>
      rw [hSplit] at hFind
      have hTaken :
          ∀ block ∈ blocks, block.allocated = true := by
        intro block hBlock
        have hTest :=
          Tiling.firstSplit_eq_none_iff.mp hSplit block
            hBlock
        rw [← Bool.not_eq_true, fits_eight,
          Bool.not_eq_false] at hTest
        exact hTest
      have hAllowed : ¬ Refused blocks BlockSize.chunk :=
        fun hRefused => hRoom ⟨hTaken, hRefused⟩
      have hStart :
          Represents { heap with finalBrk := heap.memBrk }
            blocks :=
        { hHeap with finalBrk := rfl }
      rcases extendHeap_spec hStart hAllowed with
        ⟨grown, hExtend, -, -⟩
      have hExtend' :
          extendHeap heap (chunkSize / wsize) =
            (grown,
              heap.first + extent (keptFront blocks)) :=
        hExtend
      have hChunk : ¬ chunkSize < adjustSize size := by
        unfold chunkSize
        omega
      rcases place_returns grown
          (heap.first + extent (keptFront blocks)) hMod with
        ⟨placed, hPlace⟩
      simp only [hFind, hChunk, if_false, hExtend']
      rw [if_neg (fun h => h rfl), if_neg first_ne_null,
        hPlace]
      exact ⟨placed, _, rfl, first_ne_null⟩

theorem Represents.malloc_served_iff
    (hHeap : Represents heap blocks)
    (hPositive : 0 < size)
    (hSize : size < 2 ^ 32) :
    (∃ heap' p,
      mmMalloc heap size = .ret heap' p ∧
        Served heap size heap' p) ↔
      size + 16 ≤ 2 ^ 32 ∨
        ((∀ block ∈ blocks, block.allocated = true) ∧
          Refused blocks BlockSize.chunk) := by
  constructor
  · rintro ⟨heap', p, hCode, hServed⟩
    by_contra hNot
    rw [not_or] at hNot
    have hWraps : 2 ^ 32 < size + 16 := by omega
    have hSmall : adjustSize size ≤ 8 := by
      have hAdjusted := adjustSize_wrapped hWraps hSize
      omega
    rcases mmMalloc_wrapped_some hHeap hPositive hSmall
        hNot.2 with ⟨other, q, hOther, hNe⟩
    rw [hCode] at hOther
    injection hOther with _ hResult
    subst hResult
    exact not_served_wrapped hWraps hNe hServed
  · rintro (hRoom | ⟨hTaken, hRefused⟩)
    · exact hHeap.malloc_served hPositive hRoom
    · rcases Nat.lt_or_ge (2 ^ 32) (size + 16) with
        hWraps | hRoom
      · have hSmall : adjustSize size ≤ 8 := by
          have hAdjusted := adjustSize_wrapped hWraps hSize
          omega
        exact ⟨heap, null,
          mmMalloc_wrapped_null hHeap hPositive hSmall hTaken
            hRefused,
          Or.inl ⟨rfl, rfl⟩⟩
      · exact hHeap.malloc_served hPositive hRoom

------------------------------------------------------------
-- Reallocation
------------------------------------------------------------

/- A wrapped `mm_realloc` always returns a block. -/
theorem mmRealloc_wrapped
    (hHeap : Represents heap (front ++ own :: back))
    (hPositive : 0 < size)
    (hSmall : adjustSize size ≤ 8) :
    ∃ heap' p,
      mmRealloc heap (heap.first + extent front) size =
          .ret heap' p ∧
        p ≠ null := by
  have hLeast := own.eight_le_bytes
  have hOld := hHeap.around.getSize_hdrp
  unfold mmRealloc
  rw [if_neg first_ne_null,
    if_neg (Nat.ne_of_gt hPositive)]
  simp only [hOld]
  by_cases hSame : adjustSize size = own.bytes
  · rw [if_pos hSame]
    exact ⟨heap, _, rfl, first_ne_null⟩
  · rw [if_neg hSame]
    by_cases hNull :
        (∀ block ∈ front ++ own :: back,
          block.allocated = true) ∧
        Refused (front ++ own :: back) BlockSize.chunk
    · -- the block is cut down to the wrapped size
      rw [mmMalloc_wrapped_null hHeap hPositive hSmall
        hNull.1 hNull.2]
      unfold Outcome.andThen
      simp only [if_true]
      unfold reallocInPlace
      rw [if_neg (by omega), if_pos (by omega)]
      exact ⟨_, _, rfl, first_ne_null⟩
    · rcases mmMalloc_wrapped_some hHeap hPositive hSmall
          hNull with ⟨middle, p, hCode, hNe⟩
      rw [hCode]
      unfold Outcome.andThen
      simp only [hNe, if_false]
      exact ⟨_, p, rfl, hNe⟩

/- The neighbours of a block are part of the heap. -/
theorem Represents.not_grows
    (hHeap : Represents heap (front ++ own :: back))
    (hLarge : 2 ^ 31 ≤ asize) :
    ¬ GrowsRight heap (heap.first + extent front) asize ∧
      ¬ GrowsLeft heap (heap.first + extent front) asize := by
  have hAround := hHeap.around
  have hExtent := hHeap.extent_le
  have hMax : maxHeap = 20971520 := by decide
  simp only [extent, Tiling.extent_append,
    Tiling.extent_cons] at hExtent
  constructor
  · rintro ⟨-, hRoom⟩
    have hNext :
        getSize heap
            (hdrp (nextBlkp heap
              (heap.first + extent front))) ≤
          Tiling.extent Block.bytes back := by
      cases back with
      | nil =>
          have hWord := hAround.get_next
          rw [getSize_eq, hWord]
          simp [wordAfter]
      | cons next back =>
          rw [getSize_of_tag hAround.get_next,
            Tiling.extent_cons]
          omega
    have hMod := Nat.mod_le
      (getSize heap
          (hdrp (nextBlkp heap (heap.first + extent front))) +
        getSize heap (hdrp (heap.first + extent front)))
      (2 ^ 32)
    rw [hAround.getSize_hdrp] at hRoom hMod
    unfold u32 at hRoom
    omega
  · rintro ⟨-, hRoom⟩
    have hPrev :
        (leftOf front).bytes ≤
          8 + Tiling.extent Block.bytes front := by
      rcases List.eq_nil_or_concat' front with
        rfl | ⟨front, last, rfl⟩
      · exact Nat.le_refl 8
      · simp [leftOf]
        omega
    have hMod := Nat.mod_le
      (getSize heap
          (hdrp (prevBlkp heap (heap.first + extent front))) +
        getSize heap (hdrp (heap.first + extent front)))
      (2 ^ 32)
    rw [hAround.getSize_hdrp, hAround.getSize_prev]
      at hRoom hMod
    unfold u32 at hRoom
    omega

/- A request no heap can hold leaves the block alone. -/
theorem Represents.realloc_huge
    (hHeap : Represents heap (front ++ own :: back))
    (hLarge : 2 ^ 31 ≤ size)
    (hRoom : size + 16 ≤ 2 ^ 32) :
    mmRealloc heap (heap.first + extent front) size =
      .ret heap null := by
  have hLt : own.bytes < 2 ^ 31 := hHeap.bytes_lt (by simp)
  have hFits := Consistent.size_add_eight_le size
  have hNone :
      (allocate (front ++ own :: back) size).2 = none := by
    have hSplit :
        Tiling.firstSplit (fits (BlockSize.ofRequest size))
            (front ++ own :: back) =
          none := by
      rw [Tiling.firstSplit_eq_none_iff]
      intro block hBlock
      have hBlockLt := hHeap.bytes_lt hBlock
      unfold fits
      rw [decide_eq_false (by omega), Bool.and_false]
    have hRefused :
        Refused (front ++ own :: back) (extension size) := by
      left
      rw [extension, BlockSize.bytes_larger]
      omega
    rw [allocate_refused hSplit hRefused]
  rcases mmMalloc_spec_of_room hHeap (by omega) hRoom with
    ⟨middle, hCode, -, -, hSame⟩
  rw [hNone, hSame hNone] at hCode
  rcases hHeap.not_grows (show 2 ^ 31 ≤ adjustSize size by
    rw [adjustSize_of_room hRoom]; omega) with
    ⟨hNotRight, hNotLeft⟩
  unfold mmRealloc
  rw [if_neg first_ne_null, if_neg (by omega)]
  simp only [hHeap.around.getSize_hdrp]
  rw [if_neg (by rw [adjustSize_of_room hRoom]; omega), hCode]
  unfold Outcome.andThen address
  simp only [if_true]
  exact reallocInPlace_stuck hHeap.around.getSize_hdrp
    (by rw [adjustSize_of_room hRoom]; omega) hNotRight
    hNotLeft

/-
  `mm_realloc` serves a request exactly when its size does
  not wrap.
-/
theorem Represents.realloc_served_iff
    (hHeap : Represents heap (front ++ own :: back))
    (hOwn : own.allocated = true)
    (hPositive : 0 < size)
    (hSize : size < 2 ^ 32) :
    (∀ heap' p,
      mmRealloc heap (heap.first + extent front) size =
          .ret heap' p →
        Served heap size heap' p) ↔
      size + 16 ≤ 2 ^ 32 := by
  constructor
  · intro hAll
    by_contra hNot
    have hWraps : 2 ^ 32 < size + 16 := by omega
    have hSmall : adjustSize size ≤ 8 := by
      have hAdjusted := adjustSize_wrapped hWraps hSize
      omega
    rcases mmRealloc_wrapped hHeap hPositive hSmall with
      ⟨heap', p, hRet, hNe⟩
    exact not_served_wrapped hWraps hNe (hAll heap' p hRet)
  · intro hRoom heap' p hRet
    rcases Nat.lt_or_ge size (2 ^ 31) with hShort | hLarge
    · exact hHeap.realloc_served hOwn hPositive hShort hRet
    · rw [hHeap.realloc_huge hLarge hRoom] at hRet
      cases hRet
      exact Or.inl ⟨rfl, rfl⟩

------------------------------------------------------------
-- The Exact Condition
------------------------------------------------------------

/-
  For every well-formed heap and every request: the adjusted
  size covers it, `mm_malloc` serves it, and `mm_realloc` of
  any allocated block serves it, exactly when the size does
  not wrap; a wrapped `mm_malloc` does no harm only where
  nothing is free and the heap may not grow.
-/
theorem requests_served_iff
    (hHeap : Represents heap blocks)
    (hPositive : 0 < size)
    (hSize : size < 2 ^ 32) :
    (size ≤ adjustSize size ↔ size + 16 ≤ 2 ^ 32) ∧
      ((∃ heap' p,
        mmMalloc heap size = .ret heap' p ∧
          Served heap size heap' p) ↔
        size + 16 ≤ 2 ^ 32 ∨
          ((∀ block ∈ blocks, block.allocated = true) ∧
            Refused blocks BlockSize.chunk)) ∧
      ∀ ptr own, (ptr, own) ∈ allocated heap.first blocks →
        ((∀ heap' p,
          mmRealloc heap ptr size = .ret heap' p →
            Served heap size heap' p) ↔
          size + 16 ≤ 2 ^ 32) := by
  refine ⟨adjustSize_covers_iff hPositive hSize,
    hHeap.malloc_served_iff hPositive hSize, ?_⟩
  intro ptr own hMember
  rcases mem_allocated_iff.mp hMember with
    ⟨hPlaced, hOwn⟩
  rcases Tiling.mem_placed_iff.mp hPlaced with
    ⟨front, back, rfl, rfl⟩
  exact hHeap.realloc_served_iff hOwn hPositive hSize

/- On the first heap, the largest request that is rounded. -/
theorem requests_served_iff_first :
    ∃ heap,
      mmInit (memInit 1024 fun _ => 0) = (heap, 0) ∧
        ((∃ heap' p,
          mmMalloc heap 4294967280 = .ret heap' p ∧
            Served heap 4294967280 heap' p) ↔
          4294967280 + 16 ≤ 2 ^ 32 ∨
            ((∀ block ∈ [Block.mk BlockSize.chunk false],
              block.allocated = true) ∧
              Refused [⟨BlockSize.chunk, false⟩]
                BlockSize.chunk)) := by
  rcases @mmInit_spec (fun _ => 0) 1024 with
    ⟨heap, hCode, -, hHeap⟩
  exact ⟨heap, hCode,
    (requests_served_iff hHeap (by decide) (by decide)).2.1⟩

/-
  On the first heap the largest `size_t` gets a block of
  eight bytes.
-/
theorem wrapped_request_served_short :
    ∃ heap,
      mmInit (memInit 1024 fun _ => 0) = (heap, 0) ∧
        Represents heap [⟨BlockSize.chunk, false⟩] ∧
        ¬ ∃ heap' p,
          mmMalloc heap 4294967295 = .ret heap' p ∧
            Served heap 4294967295 heap' p := by
  rcases @mmInit_spec (fun _ => 0) 1024 with
    ⟨heap, hCode, -, hHeap⟩
  refine ⟨heap, hCode, hHeap, ?_⟩
  rw [hHeap.malloc_served_iff (by decide) (by decide)]
  rintro (hRoom | ⟨hTaken, -⟩)
  · exact absurd hRoom (by decide)
  · have hFree := hTaken _ List.mem_cons_self
    cases hFree

end Malloc

end CsappLabs
