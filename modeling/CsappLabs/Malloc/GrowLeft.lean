import CsappLabs.Malloc.Failure

/-
  What `mm_realloc` keeps of the payload when the heap is
  exhausted.

  Growing over the block behind and shrinking leave the
  payload where it is. Growing over the block in front writes
  the footer of the new block and the header of the rest
  before it copies, and both lie in the old payload as soon
  as the new block is larger than the block in front.

  Key definitions include:
    * `Preserves`
    * `SparesPayload`

  Key theorems include:
    * `Refitted.spares_iff`
    * `preserves_iff`
    * `fallback_data_iff`
    * `fallback_overwrites_payload`
-/

------------------------------------------------------------
-- The Payload And The Tags
------------------------------------------------------------

namespace CsappLabs

namespace Malloc

variable {heap heap' : Heap} {blocks front back : List Block}
variable {own next prev : Block} {asize : BlockSize}
variable {size ptr : Nat} {outcome : Outcome Nat}

/-
  A call for the payload at `ptr` that returns a pointer
  leaves a well-formed heap with a large enough block there,
  and the common part of the payload is in it.
-/
def Preserves
    (heap : Heap) (ptr size : Nat) (outcome : Outcome Nat) :
    Prop :=
  ∀ heap' q, outcome = .ret heap' q → q ≠ null →
    (∃ blocks' block,
      Represents heap' blocks' ∧
        (q, block) ∈ allocated heap'.first blocks' ∧
        size + 8 ≤ block.bytes) ∧
    ∀ i, i < min (getSize heap (hdrp ptr) - 8) size →
      heap'.mem (q + i) = heap.mem (ptr + i)

/-
  The branch does not grow to the left; or it exits; or the
  new block ends in front of the payload; or the payload
  already holds the two tags where they are written.
-/
def SparesPayload (heap : Heap) (ptr size : Nat) : Prop :=
  getSize heap (hdrp ptr) < adjustSize size →
    ¬ GrowsRight heap ptr (adjustSize size) →
    GrowsLeft heap ptr (adjustSize size) →
    getSize heap (hdrp (prevBlkp heap ptr)) +
        getSize heap (hdrp ptr) = adjustSize size ∨
      prevBlkp heap ptr + adjustSize size ≤ ptr ∨
      (get heap (prevBlkp heap ptr + adjustSize size - 8) =
          pack (adjustSize size) 1 ∧
        get heap (prevBlkp heap ptr + adjustSize size - 4) =
          getSize heap (hdrp (prevBlkp heap ptr)) +
              getSize heap (hdrp ptr) - adjustSize size +
            freeBytes (get heap (hdrp (nextBlkp heap ptr))))

/-
  An interval of a block and the payload behind it, refitted:
  the payload keeps its bytes exactly when the seam lies in
  front of it or was spelled there before.
-/
theorem Refitted.spares_iff
    {bp asize total merged ptr old : Nat}
    (hRefit : Refitted heap heap' bp asize total merged)
    (hEnd : ptr + old = bp + total)
    (hPtr : bp ≤ ptr)
    (hLeast : 8 ≤ asize)
    (hLt : asize + 8 ≤ total)
    (hSeam : bp + asize ≤ ptr ∨ ptr + 8 ≤ bp + asize) :
    heap'.mem.SameOn heap.mem ptr (ptr + old - 8) ↔
      bp + asize ≤ ptr ∨
        get heap (bp + asize - 8) = pack asize 1 ∧
          get heap (bp + asize - 4) = merged := by
  have hFooterEnd : bp + asize - 8 + 4 = bp + asize - 4 := by
    omega
  have hHeaderEnd : bp + asize - 4 + 4 = bp + asize := by
    omega
  constructor
  · intro hSame
    refine or_iff_not_imp_left.mpr fun hInside => ⟨?_, ?_⟩
    · rw [← hRefit.footer]
      exact (ByteMemory.readWord_of_sameOn
        (hSame.mono (by omega) (by unfold wsize; omega))).symm
    · rw [← hRefit.header]
      exact (ByteMemory.readWord_of_sameOn
        (hSame.mono (by omega) (by unfold wsize; omega))).symm
  · rintro (hBefore | ⟨hFooter, hHeader⟩)
    · exact hRefit.behind.mono hBefore (by omega)
    · have hFooterSame :=
        ByteMemory.sameOn_of_readWord
          (hRefit.footer.trans hFooter.symm)
      have hHeaderSame :=
        ByteMemory.sameOn_of_readWord
          (hRefit.header.trans hHeader.symm)
      rw [show wsize = 4 from rfl, hFooterEnd] at hFooterSame
      rw [show wsize = 4 from rfl, hHeaderEnd] at hHeaderSame
      intro a hLow hHigh
      rcases Nat.lt_or_ge a (bp + asize - 8) with
        hBefore | hRest
      · exact hRefit.before a (by omega) hBefore
      · rcases Nat.lt_or_ge a (bp + asize - 4) with
          hIn | hRest
        · exact hFooterSame a (by omega) hIn
        · rcases Nat.lt_or_ge a (bp + asize) with
            hIn | hBehind
          · exact hHeaderSame a (by omega) hIn
          · exact hRefit.behind a hBehind (by omega)

------------------------------------------------------------
-- The Cases Of The Branch
------------------------------------------------------------

/- Where the block stays, nothing in front of its end moves. -/
theorem Takes.preserves
    {middle : List Block} {total : BlockSize}
    (hTakes :
      Takes heap front middle (BlockSize.ofRequest size) back
        outcome total)
    (hSame :
      outcome =
          .ret outcome.heap (heap.first + extent front) →
        outcome.heap.mem.SameOn heap.mem
          (heap.first + extent front)
          (heap.first + extent front +
            min (getSize heap
                (hdrp (heap.first + extent front)) - 8)
              size)) :
    Preserves heap (heap.first + extent front) size
      outcome := by
  intro heap' q hRet _
  rcases hTakes.result with hResult | ⟨hExit, -⟩
  · have hKept := hSame hResult
    have hFits := hTakes.fits_request
    rw [hRet] at hResult hKept hFits
    injection hResult with _ hPtr
    subst hPtr
    exact ⟨hFits, fun i hI =>
      hKept _ (Nat.le_add_right _ _) (by omega)⟩
  · rw [hRet] at hExit
    cases hExit

variable {copySize : Nat}

theorem preserves_right
    (hHeap :
      Represents heap (front ++ own :: next :: back))
    (hGrow : own.bytes < (BlockSize.ofRequest size).bytes)
    (hRight :
      GrowsRight heap (heap.first + extent front)
        (BlockSize.ofRequest size).bytes) :
    Preserves heap (heap.first + extent front) size
      (reallocInPlace heap (heap.first + extent front)
        (BlockSize.ofRequest size).bytes own.bytes
        copySize) := by
  have hMiddle :
      Represents heap (front ++ [own, next] ++ back) := by
    simpa using hHeap
  apply (takes_right hHeap hGrow hRight).preserves
  rcases @reallocInPlace_next _ _ _ _ _ _ copySize hHeap
      hGrow hRight with ⟨-, hCode⟩
  rw [hCode, hHeap.around.getSize_hdrp]
  by_cases hRest :
      (BlockSize.ofRequest size).bytes <
        (own.size.plus next.size).bytes
  · rw [dif_pos hRest]
    intro _
    have hRefit :=
      refitted_withRest hMiddle (extent_pair own next) hRest
    have hLeast := (BlockSize.ofRequest size).eight_le_bytes
    exact hRefit.before.mono (Nat.le_refl _) (by omega)
  · rw [dif_neg hRest]
    intro hRet
    cases hRet

theorem preserves_shrink
    (hHeap : Represents heap (front ++ own :: back))
    (hShrink :
      (BlockSize.ofRequest size).bytes < own.bytes) :
    Preserves heap (heap.first + extent front) size
      (reallocInPlace heap (heap.first + extent front)
        (BlockSize.ofRequest size).bytes own.bytes
        copySize) := by
  have hMiddle :
      Represents heap (front ++ [own] ++ back) := by
    simpa using hHeap
  have hExtent : extent [own] = own.size.bytes := by
    simp only [extent, Tiling.extent_cons,
      Tiling.extent_nil, Block.bytes]
    omega
  have hBp : 4 ≤ heap.first + extent front := by
    unfold Heap.first
    omega
  have hFits := Consistent.size_add_eight_le size
  have hCode :=
    @reallocInPlace_shrink heap own.size
      (BlockSize.ofRequest size) (heap.first + extent front)
      copySize hShrink (hHeap.bytes_lt (by simp)) hBp
  apply (takes_shrink hHeap hShrink).preserves
  rw [show own.bytes = own.size.bytes from rfl, hCode]
  intro _
  have hRefit := refitted_withRest hMiddle hExtent hShrink
  exact hRefit.before.mono (Nat.le_refl _) (by omega)

/- A copy of the payload has what its source still had. -/
theorem preserves_copied_iff
    {q count : Nat}
    (hFits :
      ∃ blocks' block,
        Represents (memcpy heap' q ptr count) blocks' ∧
          (q, block) ∈
            allocated (memcpy heap' q ptr count).first
              blocks' ∧
          size + 8 ≤ block.bytes)
    (hNonNull : q ≠ null)
    (hCount :
      min (getSize heap (hdrp ptr) - 8) size = count) :
    Preserves heap ptr size
        (.ret (memcpy heap' q ptr count) q) ↔
      heap'.mem.SameOn heap.mem ptr (ptr + count) := by
  have hCopied :
      ∀ i, i < count →
        (memcpy heap' q ptr count).mem (q + i) =
          heap'.mem (ptr + i) :=
    fun i hI => ByteMemory.copy_inside hI
  unfold Preserves
  rw [hCount]
  constructor
  · intro hKept a hLow hHigh
    rcases Nat.exists_eq_add_of_le hLow with ⟨i, rfl⟩
    have hIndex : i < count := by omega
    rw [← hCopied i hIndex]
    exact (hKept _ _ rfl hNonNull).2 i hIndex
  · intro hSame heap₁ q₁ hRet _
    rcases Outcome.ret.inj hRet with ⟨rfl, rfl⟩
    refine ⟨hFits, fun i hI => ?_⟩
    rw [hCopied i hI]
    exact hSame _ (Nat.le_add_right _ _) (by omega)

/- The copy goes to the left, so what matters is its source. -/
theorem preserves_left_iff
    (hHeap :
      Represents heap (front ++ prev :: own :: back))
    (hGrow : own.bytes < (BlockSize.ofRequest size).bytes)
    (hNotRight :
      ¬ GrowsRight heap
        (heap.first + extent (front ++ [prev]))
        (BlockSize.ofRequest size).bytes)
    (hLeft :
      GrowsLeft heap
        (heap.first + extent (front ++ [prev]))
        (BlockSize.ofRequest size).bytes) :
    Preserves heap (heap.first + extent (front ++ [prev]))
        size
        (reallocInPlace heap
          (heap.first + extent (front ++ [prev]))
          (BlockSize.ofRequest size).bytes own.bytes
          own.bytes) ↔
      prev.bytes + own.bytes =
          (BlockSize.ofRequest size).bytes ∨
        heap.first + extent front +
            (BlockSize.ofRequest size).bytes ≤
          heap.first + extent (front ++ [prev]) ∨
        (get heap
              (heap.first + extent front +
                (BlockSize.ofRequest size).bytes - 8) =
            pack (BlockSize.ofRequest size).bytes 1 ∧
          get heap
              (heap.first + extent front +
                (BlockSize.ofRequest size).bytes - 4) =
            prev.bytes + own.bytes -
                (BlockSize.ofRequest size).bytes +
              freeBytes (wordAfter back)) := by
  have hMiddle :
      Represents heap (front ++ [prev, own] ++ back) := by
    simpa using hHeap
  have hSplit :
      Represents heap ((front ++ [prev]) ++ own :: back) := by
    simpa using hHeap
  have hPtr :
      heap.first + extent (front ++ [prev]) =
        heap.first + extent front + prev.bytes := by
    simp [extent, Nat.add_assoc]
  have hTotal :
      (prev.size.plus own.size).bytes =
        prev.bytes + own.bytes := rfl
  have hLt : own.bytes < 2 ^ 31 := hHeap.bytes_lt (by simp)
  have hOwnLeast := own.eight_le_bytes
  have hOwnMod := own.bytes_mod
  have hPrevMod := prev.bytes_mod
  have hAsizeMod := (BlockSize.ofRequest size).aligned
  have hAsizeLeast := (BlockSize.ofRequest size).eight_le_bytes
  have hCopy : sub32 own.bytes dsize = own.bytes - 8 :=
    sub32_eq (by unfold dsize; omega) (by omega)
  -- the whole old payload is asked for
  have hMin : min (own.bytes - 8) size = own.bytes - 8 := by
    rw [BlockSize.bytes_ofRequest] at hGrow
    omega
  have hTakes :=
    takes_left hHeap hGrow hNotRight hLeft
      (Nat.le_trans (Nat.le_of_eq hCopy) (by omega))
  rcases @reallocInPlace_prev _ _ _ _ _ _ own.bytes hHeap
      hGrow hNotRight hLeft with ⟨hRoom, hCode⟩
  rw [hCode] at hTakes
  rw [hCode]
  by_cases hRest :
      (BlockSize.ofRequest size).bytes <
        (prev.size.plus own.size).bytes
  · rw [dif_pos hRest] at hTakes ⊢
    have hRefit :=
      refitted_withRest hMiddle (extent_pair prev own) hRest
    have hSpares :=
      hRefit.spares_iff
        (show
          heap.first + extent (front ++ [prev]) +
              own.bytes =
            heap.first + extent front +
              (prev.size.plus own.size).bytes by omega)
        (by omega) hAsizeLeast (by omega) (by omega)
    rw [hTotal] at hSpares
    rw [or_iff_right (by omega), ← hSpares]
    have hFits := hTakes.fits_request
    rw [hCopy] at hFits ⊢
    rw [preserves_copied_iff hFits first_ne_null
        (by rw [hSplit.around.getSize_hdrp, hMin]),
      Nat.add_sub_assoc (by omega)]
  · rw [dif_neg hRest]
    refine iff_of_true ?_ (Or.inl (by omega))
    intro heap' q hRet
    cases hRet

------------------------------------------------------------
-- The Exact Condition
------------------------------------------------------------

/- The block stays where nothing is to be done. -/
theorem preserves_same
    (hHeap : Represents heap (front ++ own :: back))
    (hOwn : own.allocated = true)
    (hFits : size + 8 ≤ own.bytes) :
    Preserves heap (heap.first + extent front) size
      (.ret heap (heap.first + extent front)) := by
  intro heap' q hRet _
  injection hRet with hHeaps hResult
  subst hHeaps hResult
  exact ⟨⟨_, own, hHeap, by simp [hOwn], hFits⟩,
    fun _ _ => rfl⟩

theorem preserves_null :
    Preserves heap ptr size (.ret heap null) := by
  intro heap' q hRet hNe
  injection hRet with _ hResult
  exact absurd hResult.symm hNe

/-
  After a failed `mm_malloc`, the block that `mm_realloc`
  returns holds the payload exactly when the condition holds.
-/
theorem preserves_iff
    (hHeap : Represents heap (front ++ own :: back))
    (hOwn : own.allocated = true)
    (hPositive : 0 < size)
    (hSize : size < 2 ^ 31)
    (hFails : MallocFails heap size) :
    Preserves heap (heap.first + extent front) size
        (mmRealloc heap (heap.first + extent front) size) ↔
      SparesPayload heap (heap.first + extent front) size := by
  have hAround := hHeap.around
  unfold SparesPayload
  rw [hAround.getSize_hdrp, adjustSize_eq hSize,
    hAround.get_next]
  by_cases hSame : own.size = BlockSize.ofRequest size
  · rw [mmRealloc_same hHeap hPositive hSize hSame]
    have hEqual :
        own.bytes = (BlockSize.ofRequest size).bytes :=
      congrArg BlockSize.bytes hSame
    refine iff_of_true ?_ fun hGrow => absurd hGrow (by omega)
    exact preserves_same hHeap hOwn
      (hEqual ▸ Consistent.size_add_eight_le size)
  · have hBytes :
        own.bytes ≠ (BlockSize.ofRequest size).bytes :=
      fun hEqual => hSame (BlockSize.ext hEqual)
    rw [mmRealloc_failed hHeap hPositive hSize hFails hSame]
    rcases Nat.lt_or_gt_of_ne hBytes with hGrow | hShrink
    · rw [if_neg (by omega)]
      by_cases hRight :
          GrowsRight heap (heap.first + extent front)
            (BlockSize.ofRequest size).bytes
      · rcases next_of_growsRight hHeap hGrow hRight with
          ⟨next, rest, rfl⟩
        exact iff_of_true
          (preserves_right hHeap hGrow hRight)
          fun _ hNot => absurd hRight hNot
      · by_cases hLeft :
            GrowsLeft heap (heap.first + extent front)
              (BlockSize.ofRequest size).bytes
        · rcases prev_of_growsLeft hHeap hLeft with
            ⟨rest, prev, rfl⟩
          have hSplit :
              Represents heap
                (rest ++ prev :: own :: back) := by
            simpa using hHeap
          have hPrev :
              prevBlkp heap
                  (heap.first + extent (rest ++ [prev])) =
                heap.first + extent rest := by
            rw [hAround.prevBlkp_eq]
            simp [leftOf, extent]
            omega
          have hPrevSize :
              getSize heap
                  (hdrp (heap.first + extent rest)) =
                prev.bytes := by
            rw [← hPrev, hAround.getSize_prev]
            simp [leftOf]
          rw [preserves_left_iff hSplit hGrow hRight hLeft,
            hPrev, hPrevSize]
          exact
            ⟨fun hHolds _ _ _ => hHolds,
              fun hHolds => hHolds hGrow hRight hLeft⟩
        · rw [reallocInPlace_stuck hAround.getSize_hdrp
            hGrow hRight hLeft]
          exact iff_of_true preserves_null
            fun _ _ hYes => absurd hYes hLeft
    · exact iff_of_true (preserves_shrink hHeap hShrink)
        fun hGrow => absurd hGrow (by omega)

/-
  After every run whose earlier fallbacks grew into free
  neighbours only, a call of `mm_realloc` that exhausts the
  heap preserves the payload exactly when the condition
  holds, whatever the payload contains.
-/
theorem fallback_data_iff
    {base : Nat} {mem : ByteMemory} {world : World}
    {payload : Live} {labels : List (Call × Nat)}
    (hRun :
      Transition.Run OomStep (World.start base mem)
        labels world)
    (hLive : payload ∈ world.live)
    (hPositive : 0 < size)
    (hSize : size < 2 ^ 31)
    (hFails : MallocFails world.heap size) :
    Preserves world.heap payload.ptr size
        (mmRealloc world.heap payload.ptr size) ↔
      SparesPayload world.heap payload.ptr size := by
  rcases oomRun_consistent hRun with ⟨blocks, hWorld⟩
  rcases hWorld.live_split hLive with
    ⟨front, back, rfl, hPtr⟩
  rw [hPtr]
  exact preserves_iff hWorld.represents rfl hPositive hSize
    hFails

/- On the full heap the block of 16 bytes grows to the left. -/
theorem FullHeap.moves_left
    {world : World}
    (hFull : FullHeap 1024 world)
    (hFails : MallocFails world.heap 24) :
    ∃ heap, mmRealloc world.heap 1064 24 = .ret heap 1040 := by
  have hHeap :
      Represents world.heap
        ([] ++ ⟨BlockSize.ofRequest 16, false⟩ ::
          ⟨BlockSize.ofRequest 16, true⟩ ::
            fullBlocks.drop 2) :=
    hFull.consistent.represents
  have hSplit :
      Represents world.heap
        ([⟨BlockSize.ofRequest 16, false⟩] ++
          ⟨BlockSize.ofRequest 16, true⟩ ::
            fullBlocks.drop 2) := hHeap
  have hFront : world.heap.first + extent [] = 1040 := by
    rw [hFull.first_eq]
    rfl
  have hPtr :
      world.heap.first +
          extent [⟨BlockSize.ofRequest 16, false⟩] =
        1064 := by
    rw [hFull.first_eq]
    rfl
  have hNotRight : ¬ GrowsRight world.heap 1064 32 := by
    rintro ⟨hFree, -⟩
    rw [show nextBlkp world.heap 1064 = 1088 from
      hFull.next_eq] at hFree
    rw [show isAlloc world.heap 1088 = 1 from
      hFull.next_taken] at hFree
    cases hFree
  have hLeft : GrowsLeft world.heap 1064 32 := by
    unfold GrowsLeft
    rw [show prevBlkp world.heap 1064 = 1040 from
        hFull.prev_eq,
      show getSize world.heap (hdrp 1040) = 24 from
        hFull.prevSize,
      show getSize world.heap (hdrp 1064) = 24 from
        hFull.oldSize]
    exact ⟨hFull.prev_free, by decide⟩
  have hCode :=
    mmRealloc_failed hSplit (by decide) (by decide) hFails
      (show BlockSize.ofRequest 16 ≠ BlockSize.ofRequest 24
        by decide)
  have hMoved :=
    (@reallocInPlace_prev _ _ _ _ _ (BlockSize.ofRequest 24)
      (Block.bytes ⟨BlockSize.ofRequest 16, true⟩) hHeap
      (by decide) (by rwa [List.nil_append, hPtr])
      (by rwa [List.nil_append, hPtr])).2
  rw [List.nil_append, hPtr, hFront, dif_pos (by decide)]
    at hMoved
  rw [hPtr, if_neg (by decide), hMoved] at hCode
  exact ⟨_, hCode⟩

/- On the full heap, growing over the free block in front. -/
theorem fallback_data_iff_left :
    ∃ (world : World) (heap : Heap),
      mmRealloc world.heap 1064 24 = .ret heap 1040 ∧
        (Preserves world.heap 1064 24
            (mmRealloc world.heap 1064 24) ↔
          SparesPayload world.heap 1064 24) := by
  rcases @run_fullHeap 1024 (fun _ => 0) with
    ⟨world, hRun, hFull⟩
  have hFails :=
    hFull.malloc_fails (show _ = none by decide)
      (show 0 < 24 by decide) (by decide)
  rcases hFull.moves_left hFails with ⟨heap, hCode⟩
  exact
    ⟨world, heap, hCode,
      fallback_data_iff (hRun.mono fun _ _ _ => .step)
        hFull.live (by decide) (by decide) hFails⟩

------------------------------------------------------------
-- A Run That Loses Payload Bytes
------------------------------------------------------------

/-
  On the full heap the live payload of 16 bytes grows to 24
  over a free block of 24. The footer of the new block is
  written to its first word before that word is copied.
-/
theorem fallback_overwrites_payload :
    ∃ (world : World) (payload : Live),
      Transition.Run Step (World.start 1024 fun _ => 0)
          (fullLabels 1024) world ∧
        payload ∈ world.live ∧
        payload.ptr = 1064 ∧
        payload.contents 0 = some 4 ∧
        MallocFails world.heap 24 ∧
        ¬ Preserves world.heap payload.ptr 24
          (mmRealloc world.heap payload.ptr 24) := by
  rcases @run_fullHeap 1024 (fun _ => 0) with
    ⟨world, hRun, hFull⟩
  have hFails :=
    hFull.malloc_fails (show _ = none by decide)
      (show 0 < 24 by decide) (by decide)
  refine ⟨world, _, hRun, hFull.live, rfl, rfl, hFails, ?_⟩
  have hHeap :
      Represents world.heap
        ([⟨BlockSize.ofRequest 16, false⟩] ++
          ⟨BlockSize.ofRequest 16, true⟩ ::
            fullBlocks.drop 2) :=
    hFull.consistent.represents
  have hIff :=
    preserves_iff hHeap rfl (show 0 < 24 by decide)
      (by decide) hFails
  have hPtr :
      world.heap.first +
          extent [⟨BlockSize.ofRequest 16, false⟩] =
        1064 := by
    rw [hFull.first_eq]
    rfl
  rw [hPtr] at hIff
  change ¬ Preserves world.heap 1064 24
    (mmRealloc world.heap 1064 24)
  rw [hIff]
  have hAsize : adjustSize 24 = 32 := by decide
  have hOld : getSize world.heap (hdrp 1064) = 24 :=
    hFull.oldSize
  have hPrev : prevBlkp world.heap 1064 = 1040 :=
    hFull.prev_eq
  have hPrevSize : getSize world.heap (hdrp 1040) = 24 :=
    hFull.prevSize
  have hPrevFree : isAlloc world.heap 1040 = 0 :=
    hFull.prev_free
  have hNext : nextBlkp world.heap 1064 = 1088 :=
    hFull.next_eq
  have hNextTaken : isAlloc world.heap 1088 = 1 :=
    hFull.next_taken
  intro hSpares
  unfold SparesPayload GrowsRight GrowsLeft at hSpares
  rw [hAsize, hOld, hPrev, hPrevSize, hPrevFree, hNext,
    hNextTaken] at hSpares
  rcases hSpares (by decide) (by simp) (by decide) with
    hExact | hBefore | ⟨hFooter, -⟩
  · exact absurd hExact (by decide)
  · exact absurd hBefore (by decide)
  · -- the first payload byte is 4, and the tag is odd
    have hLow : isAlloc world.heap 1064 = 0 := by
      rw [isAlloc_byte, show world.heap.mem 1064 = 4 from
        hFull.ownByte]
      rfl
    unfold isAlloc at hLow
    rw [show 1040 + 32 - 8 = 1064 from rfl] at hFooter
    rw [hFooter] at hLow
    exact absurd hLow (by decide)

end Malloc

end CsappLabs
