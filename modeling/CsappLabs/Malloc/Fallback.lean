import CsappLabs.Malloc.InPlace

/-
  What `mm_realloc` does to the other blocks when the heap is
  exhausted.

  The branch for a failed `mm_malloc` asks whether a
  neighbour is free at the neighbour's payload, not at its
  header. It keeps the other live blocks exactly when the
  neighbour it grows into is free by its header as well.

  Key definitions include:
    * `FrameKept`
    * `NeighbourFree`
    * `Takes`, `Fallback`

  Key theorems include:
    * `Takes.frameKept`
    * `fallback_cases`
    * `frame_kept_iff`
-/

------------------------------------------------------------
-- The Frame
------------------------------------------------------------

namespace CsappLabs

namespace Malloc

/-
  The byte at `a` was in the block `own`, or in a free block
  next to it.
-/
def TakenFrom
    (start : Nat) (blocks : List Block)
    (own : Nat × Block) (a : Nat) : Prop :=
  ∃ entry ∈ placed start blocks,
    entry.1 - 4 ≤ a ∧
      a < entry.1 - 4 + entry.2.bytes ∧
      (entry = own ∨
        entry.2.allocated = false ∧
          (entry.1 + entry.2.bytes = own.1 ∨
            own.1 + own.2.bytes = entry.1))

/-
  A call for the block `own` leaves a well-formed heap, keeps
  the tags and the payload of every other live block, and
  takes its result from `own` and its free neighbours.
-/
structure FrameKept
    (heap : Heap) (blocks : List Block)
    (own : Nat × Block) (outcome : Outcome Nat)
    (blocks' : List Block) : Prop where
  represents : Represents outcome.heap blocks'
  start : outcome.heap.memStartBrk = heap.memStartBrk
  kept :
    ∀ entry ∈ allocated heap.first blocks, entry ≠ own →
      entry ∈ allocated heap.first blocks' ∧
        outcome.heap.mem.SameOn heap.mem
          (entry.1 - 4) (entry.1 - 4 + entry.2.bytes)
  taken :
    ∀ heap' q, outcome = .ret heap' q → q ≠ null →
      ∃ block,
        (q, block) ∈ allocated heap.first blocks' ∧
          ∀ a, q - 4 ≤ a → a < q - 4 + block.bytes →
            TakenFrom heap.first blocks own a

/-
  The neighbour that the branch grows into, if any, is free
  by its header.
-/
def NeighbourFree (heap : Heap) (ptr size : Nat) : Prop :=
  getSize heap (hdrp ptr) < adjustSize size →
    (GrowsRight heap ptr (adjustSize size) →
      isAlloc heap (hdrp (nextBlkp heap ptr)) = 0) ∧
    (¬ GrowsRight heap ptr (adjustSize size) →
      GrowsLeft heap ptr (adjustSize size) →
        isAlloc heap (hdrp (prevBlkp heap ptr)) = 0)

------------------------------------------------------------
-- Taking An Interval
------------------------------------------------------------

/-
  The branch refills the blocks of `middle` for one block,
  and returns that block or exits.
-/
structure Takes
    (heap : Heap) (front middle : List Block)
    (asize : BlockSize) (back : List Block)
    (outcome : Outcome Nat) (total : BlockSize) :
    Prop where
  covers : extent middle = total.bytes
  fits : asize.bytes ≤ total.bytes
  refilled :
    Refilled heap front total asize back outcome.heap
  result :
    outcome =
        .ret outcome.heap (heap.first + extent front) ∨
      outcome = .exit outcome.heap (-1) ∧
        asize.bytes = total.bytes

variable {heap : Heap} {mem : ByteMemory}
variable {front middle back blocks' : List Block}
variable {own next prev : Block} {asize total : BlockSize}
variable {outcome : Outcome Nat} {size : Nat}

/- The outcome is the only one with its block list. -/
theorem Takes.eq_refill
    (hTakes :
      Takes heap front middle asize back outcome total)
    (hRepr : Represents outcome.heap blocks') :
    blocks' = refill front total asize back := by
  have hLeft : Represents outcome.heap ([] ++ blocks') :=
    hRepr
  have hRight :
      Represents outcome.heap
        ([] ++ refill front total asize back) :=
    hTakes.refilled.represents
  exact hLeft.unique hRight

/- Blocks beside the interval keep their place and bytes. -/
theorem Takes.beside
    {entry : Nat × Block}
    (hTakes :
      Takes heap front middle asize back outcome total)
    (hMember :
      entry ∈ allocated heap.first front ∨
        entry ∈
          allocated
            (heap.first + extent front + total.bytes)
            back) :
    entry ∈
        allocated heap.first
          (refill front total asize back) ∧
      outcome.heap.mem.SameOn heap.mem
        (entry.1 - 4) (entry.1 - 4 + entry.2.bytes) := by
  constructor
  · rw [allocated_refill hTakes.fits, List.mem_append,
      List.mem_cons]
    rcases hMember with hFront | hBack
    · exact Or.inl hFront
    · exact Or.inr (Or.inr hBack)
  · apply hTakes.refilled.keeps.bytes
    rw [allocated_append, List.mem_append]
    rcases hMember with hFront | hBack
    · exact Or.inl hFront
    · right
      simpa using hBack

/-
  Where the interval holds no live block but `own`, and its
  free blocks are next to `own`, the frame is kept.
-/
theorem Takes.frameKept
    {entry : Nat × Block}
    (hTakes :
      Takes heap front middle asize back outcome total)
    (hOwn :
      allocated (heap.first + extent front) middle =
        [entry])
    (hNeighbours :
      ∀ other ∈
        placed (heap.first + extent front) middle,
        other = entry ∨
          other.2.allocated = false ∧
            (other.1 + other.2.bytes = entry.1 ∨
              entry.1 + entry.2.bytes = other.1)) :
    FrameKept heap (front ++ middle ++ back) entry outcome
      (refill front total asize back) := by
  refine
    { represents := hTakes.refilled.represents
      start := hTakes.refilled.keeps.start
      kept := ?_
      taken := ?_ }
  · intro other hMember hNe
    apply hTakes.beside
    rw [List.append_assoc, allocated_append,
      allocated_append, hOwn, hTakes.covers] at hMember
    simp only [List.mem_append, List.mem_singleton, hNe,
      false_or] at hMember
    exact hMember
  · intro heap' q hRet _
    have hPtr : q = heap.first + extent front := by
      rcases hTakes.result with hResult | ⟨hExit, -⟩
      · rw [hRet] at hResult
        cases hResult
        rfl
      · rw [hRet] at hExit
        cases hExit
    refine ⟨⟨asize, true⟩, ?_, ?_⟩
    · rw [allocated_refill hTakes.fits, hPtr]
      simp
    · intro a hLow hHigh
      have hFits := hTakes.fits
      have hCovers := hTakes.covers
      have hFirst :
          heap.first = heap.memStartBrk + 16 := rfl
      simp only [Block.bytes_mk] at hHigh
      rcases @Tiling.exists_mem_placed Block Block.bytes
          middle (heap.first + extent front) (a + 4)
          (by omega) (by unfold extent at hCovers; omega)
        with ⟨other, hOther, hInside⟩
      have hBounds := Tiling.bounds_of_mem_placed hOther
      refine ⟨other, ?_, by omega, by omega,
        hNeighbours other hOther⟩
      rw [List.append_assoc, placed, Tiling.placed_append,
        Tiling.placed_append, List.mem_append,
        List.mem_append]
      exact Or.inr (Or.inl hOther)

------------------------------------------------------------
-- The Cases Of The Branch
------------------------------------------------------------

variable {copySize : Nat}

/- The blocks of an interval, taken together. -/
theorem extent_pair
    (left right : Block) :
    extent [left, right] =
      (left.size.plus right.size).bytes := by
  simp only [extent, Tiling.extent_cons,
    Tiling.extent_nil, BlockSize.bytes_plus, Block.bytes]
  omega

theorem plus_lt
    {left right : Block}
    (hHeap : Represents heap (front ++ [left, right] ++ back)) :
    (left.size.plus right.size).bytes < 2 ^ 31 := by
  have hLe := hHeap.extent_le
  have hMax : maxHeap = 20971520 := by decide
  have hExtent := extent_pair left right
  simp only [extent, Tiling.extent_append] at hLe hExtent
  omega

/- The stores that grow a block over the one behind. -/
theorem reallocInPlace_next
    (hHeap :
      Represents heap (front ++ own :: next :: back))
    (hGrow : own.bytes < asize.bytes)
    (hRight :
      GrowsRight heap (heap.first + extent front)
        asize.bytes) :
    asize.bytes ≤ (own.size.plus next.size).bytes ∧
      reallocInPlace heap (heap.first + extent front)
          asize.bytes own.bytes copySize =
        if hRest :
            asize.bytes < (own.size.plus next.size).bytes
        then
          .ret
            (coalesce
              (withRest heap (heap.first + extent front)
                asize
                ((own.size.plus next.size).minus asize
                  hRest))
              (heap.first + extent front +
                asize.bytes)).1
            (heap.first + extent front)
        else
          .exit
            (withFront heap (heap.first + extent front)
              asize)
            (-1) := by
  have hAround := hHeap.around
  have hMiddle :
      Represents heap (front ++ [own, next] ++ back) := by
    simpa using hHeap
  have hTotal :
      getSize heap
          (hdrp (nextBlkp heap (heap.first + extent front)))
          + own.bytes =
        (own.size.plus next.size).bytes := by
    rw [getSize_of_tag hAround.get_next, Nat.add_comm]
    rfl
  have hRoom := hRight.2
  rw [hAround.getSize_hdrp, hTotal] at hRoom
  have hBp : 4 ≤ heap.first + extent front := by
    unfold Heap.first
    omega
  exact ⟨hRoom.trans (Nat.mod_le _ _),
    reallocInPlace_right hAround.getSize_hdrp hGrow
      hRight hTotal (plus_lt hMiddle) hBp⟩

/- Growing over the block behind. -/
theorem takes_right
    (hHeap :
      Represents heap (front ++ own :: next :: back))
    (hGrow : own.bytes < asize.bytes)
    (hRight :
      GrowsRight heap (heap.first + extent front)
        asize.bytes) :
    Takes heap front [own, next] asize back
      (reallocInPlace heap (heap.first + extent front)
        asize.bytes own.bytes copySize)
      (own.size.plus next.size) := by
  have hMiddle :
      Represents heap (front ++ [own, next] ++ back) := by
    simpa using hHeap
  have hExtent := extent_pair own next
  rcases @reallocInPlace_next _ _ _ _ _ _ copySize hHeap
      hGrow hRight with ⟨hRoom, hCode⟩
  rw [hCode]
  by_cases hRest :
      asize.bytes < (own.size.plus next.size).bytes
  · rw [dif_pos hRest]
    exact ⟨hExtent, hRoom,
      refilled_withRest hMiddle hExtent hRest,
      Or.inl rfl⟩
  · have hExact :
        asize.bytes = (own.size.plus next.size).bytes := by
      omega
    rw [dif_neg hRest]
    exact ⟨hExtent, hRoom,
      refilled_withFront hMiddle hExtent hExact,
      Or.inr ⟨rfl, hExact⟩⟩

/- Shrinking a block. -/
theorem takes_shrink
    (hHeap : Represents heap (front ++ own :: back))
    (hLt : asize.bytes < own.bytes) :
    Takes heap front [own] asize back
      (reallocInPlace heap (heap.first + extent front)
        asize.bytes own.bytes copySize)
      own.size := by
  have hMiddle :
      Represents heap (front ++ [own] ++ back) := by
    simpa using hHeap
  have hExtent : extent [own] = own.size.bytes := by
    simp only [extent, Tiling.extent_cons,
      Tiling.extent_nil, Block.bytes]
    omega
  have hBp : 4 ≤ heap.first + extent front := by
    unfold Heap.first
    omega
  have hBytes : own.bytes < 2 ^ 31 :=
    hHeap.bytes_lt (by simp)
  have hCode :=
    @reallocInPlace_shrink heap own.size asize
      (heap.first + extent front) copySize hLt hBytes hBp
  rw [show own.bytes = own.size.bytes from rfl, hCode]
  exact ⟨hExtent, Nat.le_of_lt hLt,
    refilled_withRest hMiddle hExtent hLt, Or.inl rfl⟩

/- Copying into the new payload keeps what was refilled. -/
theorem Refilled.memcpy
    {heap' : Heap} {source count : Nat}
    (hRefilled : Refilled heap front total asize back heap')
    (hLe : asize.bytes ≤ total.bytes)
    (hCount : count ≤ asize.bytes - 8) :
    Refilled heap front total asize back
      (memcpy heap' (heap.first + extent front) source
        count) := by
  have hFirst : heap'.first = heap.first := by
    unfold Heap.first
    rw [hRefilled.keeps.start]
  have hStart : heap.first = heap.memStartBrk + 16 := rfl
  have hLeast := asize.eight_le_bytes
  have hNew :
      (heap.first + extent front, ⟨asize, true⟩) ∈
        placed heap'.first
          (refill front total asize back) := by
    apply (mem_allocated_iff.mp ?_).1
    rw [hFirst, allocated_refill hLe]
    simp
  have hSame :
      (Malloc.memcpy heap' (heap.first + extent front) source
          count).mem.SameOutside heap'.mem
        (heap.first + extent front)
        (heap.first + extent front + asize.bytes - 8) :=
    ByteMemory.copy_sameOutside.mono (Nat.le_refl _)
      (by omega)
  constructor
  · exact hRefilled.represents.payload hNew hSame
  · refine ⟨hRefilled.keeps.start, fun p block hMember => ?_⟩
    refine ByteMemory.SameOn.trans (hSame.sameOn ?_)
      (hRefilled.keeps.bytes p block hMember)
    rw [allocated_append, List.mem_append] at hMember
    rcases hMember with hFront | hBack
    · have hBounds :=
        Tiling.bounds_of_mem_placed
          (mem_allocated_iff.mp hFront).1
      unfold extent
      omega
    · simp only [allocated_cons, Bool.false_eq_true,
        ↓reduceIte, Block.bytes_mk] at hBack
      have hBounds :=
        Tiling.bounds_of_mem_placed
          (mem_allocated_iff.mp hBack).1
      omega

/- The stores that grow a block over the one in front. -/
theorem reallocInPlace_prev
    (hHeap :
      Represents heap (front ++ prev :: own :: back))
    (hGrow : own.bytes < asize.bytes)
    (hNotRight :
      ¬ GrowsRight heap
        (heap.first + extent (front ++ [prev]))
        asize.bytes)
    (hLeft :
      GrowsLeft heap
        (heap.first + extent (front ++ [prev]))
        asize.bytes) :
    asize.bytes ≤ (prev.size.plus own.size).bytes ∧
      reallocInPlace heap
          (heap.first + extent (front ++ [prev]))
          asize.bytes own.bytes copySize =
        if hRest :
            asize.bytes < (prev.size.plus own.size).bytes
        then
          .ret
            (memcpy
              (coalesce
                (withRest heap (heap.first + extent front)
                  asize
                  ((prev.size.plus own.size).minus asize
                    hRest))
                (heap.first + extent front +
                  asize.bytes)).1
              (heap.first + extent front)
              (heap.first + extent (front ++ [prev]))
              (sub32 copySize dsize))
            (heap.first + extent front)
        else
          .exit
            (withFront heap (heap.first + extent front)
              asize)
            (-1) := by
  have hSplit :
      Represents heap ((front ++ [prev]) ++ own :: back) := by
    simpa using hHeap
  have hAround := hSplit.around
  have hLeftOf : leftOf (front ++ [prev]) = prev := by
    simp [leftOf]
  rw [hLeftOf] at hAround
  have hMiddle :
      Represents heap (front ++ [prev, own] ++ back) := by
    simpa using hHeap
  have hPrev :
      prevBlkp heap
          (heap.first + extent (front ++ [prev])) =
        heap.first + extent front := by
    rw [hAround.prevBlkp_eq]
    simp only [extent, Tiling.extent_append,
      Tiling.extent_cons, Tiling.extent_nil]
    omega
  have hTotal :
      getSize heap (hdrp (heap.first + extent front)) +
          own.bytes =
        (prev.size.plus own.size).bytes := by
    rw [← hPrev, hAround.getSize_prev]
    rfl
  have hRoom := hLeft.2
  rw [hAround.getSize_hdrp, hPrev, hTotal] at hRoom
  have hBp : 4 ≤ heap.first + extent front := by
    unfold Heap.first
    omega
  exact ⟨hRoom.trans (Nat.mod_le _ _),
    reallocInPlace_left hAround.getSize_hdrp hPrev hGrow
      hNotRight hLeft hTotal (plus_lt hMiddle) hBp⟩

/- Growing over the block in front. -/
theorem takes_left
    (hHeap :
      Represents heap (front ++ prev :: own :: back))
    (hGrow : own.bytes < asize.bytes)
    (hNotRight :
      ¬ GrowsRight heap
        (heap.first + extent (front ++ [prev]))
        asize.bytes)
    (hLeft :
      GrowsLeft heap
        (heap.first + extent (front ++ [prev]))
        asize.bytes)
    (hCopy : sub32 copySize dsize ≤ own.bytes) :
    Takes heap front [prev, own] asize back
      (reallocInPlace heap
        (heap.first + extent (front ++ [prev]))
        asize.bytes own.bytes copySize)
      (prev.size.plus own.size) := by
  have hMiddle :
      Represents heap (front ++ [prev, own] ++ back) := by
    simpa using hHeap
  have hExtent := extent_pair prev own
  rcases @reallocInPlace_prev _ _ _ _ _ _ copySize hHeap
      hGrow hNotRight hLeft with ⟨hRoom, hCode⟩
  rw [hCode]
  by_cases hRest :
      asize.bytes < (prev.size.plus own.size).bytes
  · rw [dif_pos hRest]
    have hAligned := own.bytes_mod
    have hAligned' := asize.aligned
    exact ⟨hExtent, hRoom,
      (refilled_withRest hMiddle hExtent hRest).memcpy hRoom
        (by omega),
      Or.inl rfl⟩
  · have hExact :
        asize.bytes = (prev.size.plus own.size).bytes := by
      omega
    rw [dif_neg hRest]
    exact ⟨hExtent, hRoom,
      refilled_withFront hMiddle hExtent hExact,
      Or.inr ⟨rfl, hExact⟩⟩

------------------------------------------------------------
-- Keeping The Frame
------------------------------------------------------------

theorem frameKept_right
    (hOwn : own.allocated = true)
    (hNext : next.allocated = false)
    (hTakes :
      Takes heap front [own, next] asize back outcome
        total) :
    FrameKept heap (front ++ own :: next :: back)
      (heap.first + extent front, own) outcome
      (refill front total asize back) := by
  have hFrame :=
    hTakes.frameKept
      (show allocated (heap.first + extent front)
          [own, next] =
        [(heap.first + extent front, own)] by
          simp [hOwn, hNext])
      (by
        intro other hOther
        simp only [Tiling.placed_cons, Tiling.placed_nil,
          List.mem_cons, List.not_mem_nil, or_false]
          at hOther
        rcases hOther with rfl | rfl
        · exact Or.inl rfl
        · exact Or.inr ⟨hNext, Or.inr rfl⟩)
  rw [List.append_assoc] at hFrame
  exact hFrame

theorem frameKept_shrink
    (hOwn : own.allocated = true)
    (hTakes :
      Takes heap front [own] asize back outcome total) :
    FrameKept heap (front ++ own :: back)
      (heap.first + extent front, own) outcome
      (refill front total asize back) := by
  have hFrame :=
    hTakes.frameKept
      (show allocated (heap.first + extent front) [own] =
        [(heap.first + extent front, own)] by
          simp [hOwn])
      (by
        intro other hOther
        simp only [Tiling.placed_cons, Tiling.placed_nil,
          List.mem_cons, List.not_mem_nil, or_false]
          at hOther
        exact Or.inl hOther)
  rw [List.append_assoc] at hFrame
  exact hFrame

theorem frameKept_left
    (hOwn : own.allocated = true)
    (hPrev : prev.allocated = false)
    (hTakes :
      Takes heap front [prev, own] asize back outcome
        total) :
    FrameKept heap (front ++ prev :: own :: back)
      (heap.first + extent front + prev.bytes, own) outcome
      (refill front total asize back) := by
  have hFrame :=
    hTakes.frameKept
      (show allocated (heap.first + extent front)
          [prev, own] =
        [(heap.first + extent front + prev.bytes, own)] by
          simp [hOwn, hPrev])
      (by
        intro other hOther
        simp only [Tiling.placed_cons, Tiling.placed_nil,
          List.mem_cons, List.not_mem_nil, or_false]
          at hOther
        rcases hOther with rfl | rfl
        · exact Or.inr ⟨hPrev, Or.inl rfl⟩
        · exact Or.inl rfl)
  rw [List.append_assoc] at hFrame
  exact hFrame

/- A call that leaves the heap alone keeps the frame. -/
theorem frameKept_stays
    (hHeap : Represents heap (front ++ own :: back))
    (hOwn : own.allocated = true)
    (hResult :
      outcome = .ret heap null ∨
        outcome =
          .ret heap (heap.first + extent front)) :
    FrameKept heap (front ++ own :: back)
      (heap.first + extent front, own) outcome
      (front ++ own :: back) := by
  have hHeapEq : outcome.heap = heap := by
    rcases hResult with rfl | rfl <;> rfl
  refine
    { represents := hHeapEq.symm ▸ hHeap
      start := by rw [hHeapEq]
      kept := ?_
      taken := ?_ }
  · intro entry hMember _
    rw [hHeapEq]
    exact ⟨hMember, ByteMemory.SameOn.refl⟩
  · intro heap' q hRet hNe
    rcases hResult with rfl | rfl
    · cases hRet
      exact absurd rfl hNe
    · cases hRet
      refine ⟨own, by simp [hOwn], ?_⟩
      intro a hLow hHigh
      exact ⟨(heap.first + extent front, own), by simp,
        hLow, hHigh, Or.inl rfl⟩

------------------------------------------------------------
-- Losing A Live Block
------------------------------------------------------------

/- Growing over a live block behind takes its place. -/
theorem not_frameKept_right
    (hNext : next.allocated = true)
    (hTakes :
      Takes heap front [own, next] asize back outcome
        total) :
    ¬ FrameKept heap (front ++ own :: next :: back)
      (heap.first + extent front, own) outcome
      blocks' := by
  intro hFrame
  have hOwnBytes := own.bytes_pos
  have hNextBytes := next.bytes_pos
  have hMember :
      (heap.first + extent front + own.bytes, next) ∈
        allocated heap.first
          (front ++ own :: next :: back) := by
    cases hOwn : own.allocated <;> simp [hOwn, hNext]
  have hNe :
      (heap.first + extent front + own.bytes, next) ≠
        (heap.first + extent front, own) := by
    intro hEq
    have hPtr := congrArg Prod.fst hEq
    simp only at hPtr
    omega
  have hKept := (hFrame.kept _ hMember hNe).1
  rw [hTakes.eq_refill hFrame.represents] at hKept
  have hCovers := hTakes.covers
  simp only [extent, Tiling.extent_cons,
    Tiling.extent_nil] at hCovers
  rcases mem_allocated_refill hTakes.fits hKept with
    hLow | hEq | hHigh
  · simp only at hLow
    omega
  · have hPtr := congrArg Prod.fst hEq
    simp only at hPtr
    omega
  · simp only at hHigh
    omega

/- Growing over a live block in front takes its bytes. -/
theorem not_frameKept_left
    (hPrev : prev.allocated = true)
    (hTakes :
      Takes heap front [prev, own] asize back outcome
        total) :
    ¬ FrameKept heap (front ++ prev :: own :: back)
      (heap.first + extent front + prev.bytes, own) outcome
      blocks' := by
  intro hFrame
  have hFirst : heap.first = heap.memStartBrk + 16 := rfl
  have hPrevBytes := prev.bytes_pos
  have hOwnBytes := own.bytes_pos
  have hMember :
      (heap.first + extent front, prev) ∈
        allocated heap.first
          (front ++ prev :: own :: back) := by
    simp [hPrev]
  have hPlaced := (mem_allocated_iff.mp hMember).1
  have hNe :
      (heap.first + extent front, prev) ≠
        (heap.first + extent front + prev.bytes, own) := by
    intro hEq
    have hPtr := congrArg Prod.fst hEq
    simp only at hPtr
    omega
  rcases hTakes.result with hRet | ⟨-, hExact⟩
  · -- The returned block starts inside the live block.
    have hNull : heap.first + extent front ≠ null :=
      first_ne_null
    rcases hFrame.taken _ _ hRet hNull with
      ⟨block, -, hBytes⟩
    have hBlock := block.bytes_pos
    rcases hBytes (heap.first + extent front - 4)
        (Nat.le_refl _) (by omega) with
      ⟨⟨p, other⟩, hOther, hLow, hHigh, hWhose⟩
    simp only at hLow hHigh hWhose
    have hBounds := Tiling.bounds_of_mem_placed hOther
    have hSame : p = heap.first + extent front := by
      by_contra hApart
      have hSides :=
        Tiling.apart_of_mem_placed hOther hPlaced hApart
      omega
    subst hSame
    have hEq :=
      Tiling.eq_of_mem_placed Block.bytes_pos hOther hPlaced
    subst hEq
    rcases hWhose with hOwn | ⟨hFree, -⟩
    · exact hNe hOwn
    · rw [hPrev] at hFree
      cases hFree
  · have hKept := (hFrame.kept _ hMember hNe).1
    rw [hTakes.eq_refill hFrame.represents] at hKept
    have hCovers := hTakes.covers
    simp only [extent, Tiling.extent_cons,
      Tiling.extent_nil] at hCovers
    rcases mem_allocated_refill hTakes.fits hKept with
      hLow | hEq | hHigh
    · exact absurd hLow (Nat.lt_irrefl _)
    · have hBlock := congrArg Prod.snd hEq
      simp only at hBlock
      rw [hBlock, Block.bytes_mk] at hCovers
      omega
    · simp only at hHigh
      have hTotal := total.positive
      omega

------------------------------------------------------------
-- The Exact Condition
------------------------------------------------------------

/- `mm_malloc` returns null. -/
def MallocFails (heap : Heap) (size : Nat) : Prop :=
  ∃ heap', mmMalloc heap size = .ret heap' null

/- A failed `mm_malloc` leads into the branch. -/
theorem mmRealloc_failed
    (hHeap : Represents heap (front ++ own :: back))
    (hPositive : 0 < size)
    (hSize : size < 2 ^ 31)
    (hFails : MallocFails heap size)
    (hDiffer : own.size ≠ BlockSize.ofRequest size) :
    mmRealloc heap (heap.first + extent front) size =
      reallocInPlace heap (heap.first + extent front)
        (BlockSize.ofRequest size).bytes own.bytes
        (if (BlockSize.ofRequest size).bytes < own.bytes then
          (BlockSize.ofRequest size).bytes
        else
          own.bytes) := by
  rcases hFails with ⟨heap', hNull⟩
  rcases mmMalloc_spec hHeap hPositive hSize with
    ⟨middle, hCode, -, -, hSame⟩
  have hNone :
      (allocate (front ++ own :: back) size).2 = none := by
    rw [hNull] at hCode
    cases hOffset :
        (allocate (front ++ own :: back) size).2 with
    | none => rfl
    | some offset =>
        rw [hOffset] at hCode
        injection hCode with _ hPtr
        exact absurd hPtr.symm first_ne_null
  rw [hNone, hSame hNone] at hCode
  unfold mmRealloc
  rw [if_neg first_ne_null,
    if_neg (Nat.ne_of_gt hPositive)]
  simp only
  rw [if_neg (fun h =>
      hDiffer ((mmRealloc_size_iff hHeap hSize).mp h)),
    hCode, hHeap.around.getSize_hdrp, adjustSize_eq hSize,
    address]
  rfl

/- The branch grows right over a block, not the epilogue. -/
theorem next_of_growsRight
    (hHeap : Represents heap (front ++ own :: back))
    (hGrow : own.bytes < asize.bytes)
    (hRight :
      GrowsRight heap (heap.first + extent front)
        asize.bytes) :
    ∃ next rest, back = next :: rest := by
  cases back with
  | cons next rest => exact ⟨next, rest, rfl⟩
  | nil =>
      have hAround := hHeap.around
      have hRoom := hRight.2
      have hWord := hAround.get_next
      rw [hAround.getSize_hdrp, getSize_eq, hWord] at hRoom
      simp only [wordAfter, u32] at hRoom
      omega

/- The branch grows left over a block, not the prologue. -/
theorem prev_of_growsLeft
    (hHeap : Represents heap (front ++ own :: back))
    (hLeft :
      GrowsLeft heap (heap.first + extent front)
        asize.bytes) :
    ∃ rest prev, front = rest ++ [prev] := by
  rcases List.eq_nil_or_concat' front with
    rfl | ⟨rest, prev, rfl⟩
  · have hPrev := hHeap.around.prevBlkp_eq
    have hFooter :
        get heap (heap.memStartBrk + 8) = prologue.tag :=
      hHeap.prologue.footer
    have hFree := hLeft.1
    have hStart :
        heap.first + extent [] - (leftOf []).bytes =
          heap.memStartBrk + 8 := by
      change heap.memStartBrk + 16 + 0 - 8 = _
      omega
    rw [hPrev, hStart, isAlloc_of_tag hFooter] at hFree
    cases hFree
  · exact ⟨rest, prev, rfl⟩

/- A header says free exactly when the block is. -/
theorem isAlloc_tag_iff
    {p : Nat}
    (hGet : get heap p = own.tag) :
    isAlloc heap p = 0 ↔ own.allocated = false := by
  rw [isAlloc_of_tag hGet]
  cases own.allocated <;> simp

theorem frame_iff_right
    (hOwn : own.allocated = true)
    (hTakes :
      Takes heap front [own, next] asize back outcome
        total) :
    (∃ blocks',
      FrameKept heap (front ++ own :: next :: back)
        (heap.first + extent front, own) outcome
        blocks') ↔
      next.allocated = false := by
  constructor
  · rintro ⟨blocks', hFrame⟩
    by_contra hLive
    exact not_frameKept_right (by simpa using hLive)
      hTakes hFrame
  · intro hNext
    exact ⟨_, frameKept_right hOwn hNext hTakes⟩

theorem frame_iff_left
    (hOwn : own.allocated = true)
    (hTakes :
      Takes heap front [prev, own] asize back outcome
        total) :
    (∃ blocks',
      FrameKept heap ((front ++ [prev]) ++ own :: back)
        (heap.first + extent (front ++ [prev]), own) outcome
        blocks') ↔
      prev.allocated = false := by
  have hStart :
      heap.first + extent (front ++ [prev]) =
        heap.first + extent front + prev.bytes := by
    simp [extent, Nat.add_assoc]
  rw [hStart, List.append_assoc, List.singleton_append]
  constructor
  · rintro ⟨blocks', hFrame⟩
    by_contra hLive
    exact not_frameKept_left (by simpa using hLive)
      hTakes hFrame
  · intro hPrev
    exact ⟨_, frameKept_left hOwn hPrev hTakes⟩

/- The copied part of a growing block is its payload. -/
theorem copySize_le
    (hGrow : own.bytes < asize.bytes)
    (hLt : own.bytes < 2 ^ 31) :
    sub32
        (if asize.bytes < own.bytes then
          asize.bytes
        else
          own.bytes)
        dsize ≤
      own.bytes := by
  have hLeast := own.eight_le_bytes
  rw [if_neg (by omega),
    sub32_eq (by unfold dsize; omega) (by omega)]
  omega

/-
  The ways the call can go, and what each of them says about
  the neighbour.
-/
inductive Fallback (heap : Heap) (size : Nat) :
    List Block → Block → List Block → Outcome Nat → Prop
| stays {front back : List Block} {own : Block} :
    NeighbourFree heap (heap.first + extent front) size →
    Fallback heap size front own back (.ret heap null)
| same {front back : List Block} {own : Block} :
    NeighbourFree heap (heap.first + extent front) size →
    own.size = BlockSize.ofRequest size →
    Fallback heap size front own back
      (.ret heap (heap.first + extent front))
| shrinks
    {front back : List Block} {own : Block}
    {outcome : Outcome Nat} {total : BlockSize} :
    NeighbourFree heap (heap.first + extent front) size →
    Takes heap front [own] (BlockSize.ofRequest size) back
      outcome total →
    Fallback heap size front own back outcome
| growsRight
    {front back : List Block} {own next : Block}
    {outcome : Outcome Nat} {total : BlockSize} :
    (NeighbourFree heap (heap.first + extent front) size ↔
      next.allocated = false) →
    Takes heap front [own, next]
      (BlockSize.ofRequest size) back outcome total →
    Fallback heap size front own (next :: back) outcome
| growsLeft
    {front back : List Block} {prev own : Block}
    {outcome : Outcome Nat} {total : BlockSize} :
    (NeighbourFree heap
        (heap.first + extent (front ++ [prev])) size ↔
      prev.allocated = false) →
    Takes heap front [prev, own]
      (BlockSize.ofRequest size) back outcome total →
    Fallback heap size (front ++ [prev]) own back outcome

theorem fallback_cases
    (hHeap : Represents heap (front ++ own :: back))
    (hPositive : 0 < size)
    (hSize : size < 2 ^ 31)
    (hFails : MallocFails heap size) :
    Fallback heap size front own back
      (mmRealloc heap (heap.first + extent front)
        size) := by
  have hAround := hHeap.around
  have hLt : own.bytes < 2 ^ 31 := hHeap.bytes_lt (by simp)
  have hCondition :
      NeighbourFree heap (heap.first + extent front) size ↔
        (own.bytes < (BlockSize.ofRequest size).bytes →
          (GrowsRight heap (heap.first + extent front)
              (BlockSize.ofRequest size).bytes →
            isAlloc heap
              (hdrp
                (nextBlkp heap
                  (heap.first + extent front))) = 0) ∧
          (¬ GrowsRight heap (heap.first + extent front)
              (BlockSize.ofRequest size).bytes →
            GrowsLeft heap (heap.first + extent front)
              (BlockSize.ofRequest size).bytes →
            isAlloc heap
              (hdrp
                (prevBlkp heap
                  (heap.first + extent front))) = 0)) := by
    unfold NeighbourFree
    rw [hAround.getSize_hdrp, adjustSize_eq hSize]
  by_cases hSame : own.size = BlockSize.ofRequest size
  · rw [mmRealloc_same hHeap hPositive hSize hSame]
    have hEqual :
        own.bytes = (BlockSize.ofRequest size).bytes := by
      rw [← hSame]
      rfl
    exact .same
      (hCondition.mpr fun hGrow =>
        absurd hGrow (by omega))
      hSame
  · have hBytes :
        own.bytes ≠ (BlockSize.ofRequest size).bytes :=
      fun hEqual => hSame (BlockSize.ext hEqual)
    rw [mmRealloc_failed hHeap hPositive hSize hFails hSame]
    rcases Nat.lt_or_gt_of_ne hBytes with hGrow | hShrink
    · by_cases hRight :
          GrowsRight heap (heap.first + extent front)
            (BlockSize.ofRequest size).bytes
      · rcases next_of_growsRight hHeap hGrow hRight with
          ⟨next, rest, rfl⟩
        refine .growsRight ?_
          (takes_right hHeap hGrow hRight)
        rw [hCondition, ← isAlloc_tag_iff hAround.get_next]
        exact
          ⟨fun hFree => (hFree hGrow).1 hRight,
            fun hFree _ =>
              ⟨fun _ => hFree,
                fun hNot => absurd hRight hNot⟩⟩
      · by_cases hLeft :
            GrowsLeft heap (heap.first + extent front)
              (BlockSize.ofRequest size).bytes
        · rcases prev_of_growsLeft hHeap hLeft with
            ⟨rest, prev, rfl⟩
          have hSplit :
              Represents heap
                (rest ++ prev :: own :: back) := by
            simpa using hHeap
          have hPrev :
              isAlloc heap
                  (hdrp
                    (prevBlkp heap
                      (heap.first +
                        extent (rest ++ [prev])))) = 0 ↔
                prev.allocated = false := by
            rw [hAround.isAlloc_prev]
            simp [leftOf]
          refine .growsLeft ?_
            (takes_left hSplit hGrow hRight hLeft
              (copySize_le hGrow hLt))
          rw [hCondition, ← hPrev]
          exact
            ⟨fun hFree => (hFree hGrow).2 hRight hLeft,
              fun hFree _ =>
                ⟨fun hYes => absurd hYes hRight,
                  fun _ _ => hFree⟩⟩
        · rw [reallocInPlace_stuck hAround.getSize_hdrp
            hGrow hRight hLeft]
          exact .stays
            (hCondition.mpr fun _ =>
              ⟨fun hYes => absurd hYes hRight,
                fun _ hYes => absurd hYes hLeft⟩)
    · exact .shrinks
        (hCondition.mpr fun hGrow =>
          absurd hGrow (by omega))
        (takes_shrink hHeap hShrink)

/-
  `mm_realloc` after a failed `mm_malloc` keeps the frame
  exactly when the neighbour it grows into is free.
-/
theorem frame_kept_iff
    (hHeap : Represents heap (front ++ own :: back))
    (hOwn : own.allocated = true)
    (hPositive : 0 < size)
    (hSize : size < 2 ^ 31)
    (hFails : MallocFails heap size) :
    (∃ blocks',
      FrameKept heap (front ++ own :: back)
        (heap.first + extent front, own)
        (mmRealloc heap (heap.first + extent front) size)
        blocks') ↔
      NeighbourFree heap (heap.first + extent front)
        size := by
  have hCases :=
    fallback_cases hHeap hPositive hSize hFails
  generalize
    mmRealloc heap (heap.first + extent front) size =
      outcome at hCases ⊢
  cases hCases with
  | stays hFree =>
      exact iff_of_true
        ⟨_, frameKept_stays hHeap hOwn (Or.inl rfl)⟩ hFree
  | same hFree _ =>
      exact iff_of_true
        ⟨_, frameKept_stays hHeap hOwn (Or.inr rfl)⟩ hFree
  | shrinks hFree hTakes =>
      exact iff_of_true
        ⟨_, frameKept_shrink hOwn hTakes⟩ hFree
  | growsRight hFree hTakes =>
      rw [hFree]
      exact frame_iff_right hOwn hTakes
  | growsLeft hFree hTakes =>
      rw [hFree]
      exact frame_iff_left hOwn hTakes

end Malloc

end CsappLabs
