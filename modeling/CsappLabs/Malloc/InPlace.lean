import CsappLabs.Malloc.Realloc

/-
  The branch of `mm_realloc` for a failed `mm_malloc`.

  The branch takes an interval of whole blocks, allocates the
  front of it, and frees the rest. What it leaves is well
  formed for any interval; whether the interval was its to
  take is another matter, settled with the clients.

  Key definitions include:
    * `refill`
    * `Refilled`
    * `GrowsRight`, `GrowsLeft`

  Key theorems include:
    * `allocated_refill`
    * `reallocInPlace_right`, `reallocInPlace_left`
    * `reallocInPlace_shrink`, `reallocInPlace_stuck`
-/

------------------------------------------------------------
-- Refilling An Interval
------------------------------------------------------------

namespace CsappLabs

namespace Malloc

/-
  Replace `total` bytes of blocks by an allocated block and
  a free one for what remains, merged with its neighbours.
-/
def refill
    (front : List Block)
    (total asize : BlockSize)
    (back : List Block) :
    List Block :=
  if hLt : asize.bytes < total.bytes then
    coalesceAt (front ++ [⟨asize, true⟩])
      ⟨total.minus asize hLt, false⟩ back
  else
    front ++ ⟨asize, true⟩ :: back

variable {start : Nat} {heap : Heap} {mem : ByteMemory}
variable {front middle back : List Block}
variable {total asize : BlockSize}

theorem allocated_refill
    (hLe : asize.bytes ≤ total.bytes) :
    allocated start (refill front total asize back) =
      allocated start front ++
        (start + extent front, ⟨asize, true⟩) ::
          allocated (start + extent front + total.bytes)
            back := by
  unfold refill
  by_cases hLt : asize.bytes < total.bytes
  · have hSum :
        start +
            (extent front +
              (asize.bytes + (total.bytes - asize.bytes))) =
          start + (extent front + total.bytes) := by
      omega
    rw [dif_pos hLt, allocated_coalesceAt rfl]
    simp [Nat.add_assoc, hSum]
  · have hEq : asize.bytes = total.bytes := by omega
    rw [dif_neg hLt]
    simp [hEq]

/- What is allocated after a refill, by its address. -/
theorem mem_allocated_refill
    {entry : Nat × Block}
    (hLe : asize.bytes ≤ total.bytes)
    (hMember :
      entry ∈
        allocated start (refill front total asize back)) :
    entry.1 < start + extent front ∨
      entry = (start + extent front, ⟨asize, true⟩) ∨
      start + extent front + total.bytes ≤ entry.1 := by
  rcases entry with ⟨p, block⟩
  rw [allocated_refill hLe, List.mem_append,
    List.mem_cons] at hMember
  rcases hMember with hFront | hNew | hBack
  · have hBounds :=
      Tiling.bounds_of_mem_placed
        (mem_allocated_iff.mp hFront).1
    have hPositive := block.bytes_pos
    left
    simp only [extent]
    omega
  · exact Or.inr (Or.inl hNew)
  · have hBounds :=
      Tiling.bounds_of_mem_placed
        (mem_allocated_iff.mp hBack).1
    exact Or.inr (Or.inr hBounds.1)

/- The heap with the front of an interval allocated. -/
def withFront (heap : Heap) (bp : Nat) (asize : BlockSize) :
    Heap :=
  { heap with mem := writeTags heap.mem bp ⟨asize, true⟩ }

/- The heap with a free remainder behind that. -/
def withRest
    (heap : Heap) (bp : Nat) (asize rest : BlockSize) :
    Heap :=
  { heap with
    mem :=
      writeTags (writeTags heap.mem bp ⟨asize, true⟩)
        (bp + asize.bytes) ⟨rest, false⟩ }

/-
  The heap represents the refilled list, and the blocks
  beside the interval keep their bytes.
-/
structure Refilled
    (heap : Heap)
    (front : List Block)
    (total asize : BlockSize)
    (back : List Block)
    (heap' : Heap) : Prop where
  represents :
    Represents heap' (refill front total asize back)
  keeps :
    KeepsAllocated heap heap'
      (front ++ ⟨total, false⟩ :: back)

theorem refilled_withFront
    (hHeap : Represents heap (front ++ middle ++ back))
    (hExtent : extent middle = total.bytes)
    (hExact : asize.bytes = total.bytes) :
    Refilled heap front total asize back
      (withFront heap (heap.first + extent front)
        asize) := by
  have hOne : extent [⟨total, false⟩] = total.bytes := by
    simp [extent]
  constructor
  · have hEq :
        refill front total asize back =
          front ++ [⟨asize, true⟩] ++ back := by
      rw [refill, dif_neg (by omega)]
      simp
    rw [hEq]
    exact hHeap.retag (hExact.trans hExtent.symm)
  · have hSame :
        (writeTags heap.mem (heap.first + extent front)
            ⟨asize, true⟩).SameOutside heap.mem
          (heap.first + extent front - 4)
          (heap.first + extent front - 4 +
            extent [⟨total, false⟩]) := by
      rw [hOne, ← hExact]
      exact writeTags_sameOutside
    have hKeeps :=
      @Represents.keepsAllocated heap _ front
        [⟨total, false⟩] back (by simp) hSame
    rw [List.append_assoc] at hKeeps
    exact hKeeps

/- The stores of the branch tag both parts of the interval. -/
theorem represents_withRest
    (hHeap : Represents heap (front ++ middle ++ back))
    (hExtent : extent middle = total.bytes)
    (hLt : asize.bytes < total.bytes) :
    Represents
      (withRest heap (heap.first + extent front) asize
        (total.minus asize hLt))
      ((front ++ [⟨asize, true⟩]) ++
        ⟨total.minus asize hLt, false⟩ :: back) := by
  have hSum :
      (Block.mk asize true).bytes +
          (Block.mk (total.minus asize hLt) false).bytes =
        extent middle := by
    rw [hExtent]
    simp only [Block.bytes_mk, BlockSize.bytes_minus]
    omega
  have hRetagged := hHeap.retag_pair hSum
  rw [List.append_assoc] at hRetagged ⊢
  exact hRetagged

theorem refilled_withRest
    (hHeap : Represents heap (front ++ middle ++ back))
    (hExtent : extent middle = total.bytes)
    (hLt : asize.bytes < total.bytes) :
    Refilled heap front total asize back
      (coalesce
        (withRest heap (heap.first + extent front) asize
          (total.minus asize hLt))
        (heap.first + extent front + asize.bytes)).1 := by
  have hFirst : heap.first = heap.memStartBrk + 16 := rfl
  have hPositive := asize.positive
  have hOne : extent [⟨total, false⟩] = total.bytes := by
    simp [extent]
  have hPair := represents_withRest hHeap hExtent hLt
  have hSame :
      (withRest heap (heap.first + extent front) asize
          (total.minus asize hLt)).mem.SameOutside heap.mem
        (heap.first + extent front - 4)
        (heap.first + extent front - 4 +
          extent [⟨total, false⟩]) := by
    rw [hOne]
    exact
      (writeTags_sameOutside.mono (by omega) (by
        simp only [Block.bytes_mk, BlockSize.bytes_minus]
        omega)).trans
      (writeTags_sameOutside.mono (by omega) (by
        simp only [Block.bytes_mk]
        omega))
  have hBeside :=
    @Represents.keepsAllocated heap _ front
      [⟨total, false⟩] back (by simp) hSame
  rcases coalesce_spec hPair rfl with
    ⟨mem', hCode, hRepr, hKeeps⟩
  have hStart :
      (withRest heap (heap.first + extent front) asize
          (total.minus asize hLt)).first +
          extent (front ++ [⟨asize, true⟩]) =
        heap.first + extent front + asize.bytes := by
    have hSameFirst :
        (withRest heap (heap.first + extent front) asize
          (total.minus asize hLt)).first = heap.first := rfl
    rw [hSameFirst]
    simp [extent, Nat.add_assoc]
  rw [hStart] at hCode
  rw [hCode]
  constructor
  · rw [refill, dif_pos hLt]
    exact hRepr
  · have hBoth :=
      hBeside.trans hKeeps (by
        have hSum :
            asize.bytes + (total.bytes - asize.bytes) =
              total.bytes := by
          omega
        simp [Nat.add_assoc, hSum])
    rw [List.append_assoc] at hBoth
    exact hBoth

------------------------------------------------------------
-- The Stores
------------------------------------------------------------

variable {bp oldSize copySize : Nat}

theorem put_front
    (hLt : asize.bytes < 2 ^ 31) :
    put (put heap (hdrp bp) (pack asize.bytes 1))
        (ftrp (put heap (hdrp bp) (pack asize.bytes 1)) bp)
        (pack asize.bytes 1) =
      withFront heap bp asize :=
  @put_header_footer bp ⟨asize, true⟩ heap hLt

theorem put_rest
    {rest : BlockSize}
    (hBp : 4 ≤ bp)
    (hLt : asize.bytes < 2 ^ 31)
    (hRest : rest.bytes < 2 ^ 31) :
    put
        (put (withFront heap bp asize)
          (hdrp (nextBlkp (withFront heap bp asize) bp))
          (pack rest.bytes 0))
        (ftrp
          (put (withFront heap bp asize)
            (hdrp (nextBlkp (withFront heap bp asize) bp))
            (pack rest.bytes 0))
          (nextBlkp
            (put (withFront heap bp asize)
              (hdrp (nextBlkp (withFront heap bp asize) bp))
              (pack rest.bytes 0))
            bp))
        (pack rest.bytes 0) =
      withRest heap bp asize rest :=
  @put_next_pair bp ⟨asize, true⟩
    (withFront heap bp asize) ⟨rest, false⟩ hBp
    (get_header_writeTags hBp hLt) hRest

/- The remainder lies behind the header it is found by. -/
theorem nextBlkp_withRest
    {rest : BlockSize}
    (hBp : 4 ≤ bp)
    (hLt : asize.bytes < 2 ^ 31) :
    nextBlkp (withRest heap bp asize rest) bp =
      bp + asize.bytes := by
  have hLeast := asize.eight_le_bytes
  have hHeader :
      get (withRest heap bp asize rest) (hdrp bp) =
        (Block.mk asize true).tag := by
    rw [← @get_header_writeTags bp ⟨asize, true⟩ heap
      hBp hLt]
    exact ByteMemory.readWord_of_sameOn
      (writeTags_sameOutside.sameOn (by
        unfold hdrp wsize
        omega))
  exact nextBlkp_of_header hHeader

theorem sub32_eq
    {left right : Nat}
    (hLe : right ≤ left)
    (hLt : left < 2 ^ 32) :
    sub32 left right = left - right := by
  unfold sub32
  omega

------------------------------------------------------------
-- The Cases Of The Branch
------------------------------------------------------------

/- The branch takes the block behind: its own two tests. -/
def GrowsRight (heap : Heap) (bp asize : Nat) : Prop :=
  isAlloc heap (nextBlkp heap bp) = 0 ∧
    asize ≤
      u32 (getSize heap (hdrp (nextBlkp heap bp)) +
        getSize heap (hdrp bp))

/- The tests for the block in front, made after those. -/
def GrowsLeft (heap : Heap) (bp asize : Nat) : Prop :=
  isAlloc heap (prevBlkp heap bp) = 0 ∧
    asize ≤
      u32 (getSize heap (hdrp (prevBlkp heap bp)) +
        getSize heap (hdrp bp))

/- The remainder behind `bp`, tagged as free and coalesced. -/
def freeRest (heap : Heap) (bp remainSize : Nat) : Heap :=
  let heap :=
    put heap (hdrp (nextBlkp heap bp)) (pack remainSize 0)
  let heap :=
    put heap (ftrp heap (nextBlkp heap bp))
      (pack remainSize 0)
  (coalesce heap (nextBlkp heap bp)).1

theorem freeRest_eq
    {rest : BlockSize}
    (hBp : 4 ≤ bp)
    (hLt : asize.bytes < 2 ^ 31)
    (hRest : rest.bytes < 2 ^ 31) :
    freeRest (withFront heap bp asize) bp rest.bytes =
      (coalesce (withRest heap bp asize rest)
        (bp + asize.bytes)).1 := by
  simp only [freeRest, put_rest hBp hLt hRest,
    nextBlkp_withRest hBp hLt]

/- Either there is a remainder, or the function exits. -/
theorem freeRest_or_exit
    (finish : Heap → Outcome Nat)
    (hLe : asize.bytes ≤ total.bytes)
    (hLt : total.bytes < 2 ^ 31)
    (hBp : 4 ≤ bp) :
    (if dsize ≤ sub32 total.bytes asize.bytes then
        finish
          (freeRest (withFront heap bp asize) bp
            (sub32 total.bytes asize.bytes))
      else
        .exit (withFront heap bp asize) (-1)) =
      if hRest : asize.bytes < total.bytes then
        finish
          (coalesce
            (withRest heap bp asize
              (total.minus asize hRest))
            (bp + asize.bytes)).1
      else
        .exit (withFront heap bp asize) (-1) := by
  have hAligned := total.aligned
  have hAligned' := asize.aligned
  rw [sub32_eq hLe (by omega)]
  by_cases hRest : asize.bytes < total.bytes
  · have hBytes :
        total.bytes - asize.bytes =
          (total.minus asize hRest).bytes := rfl
    have hRestLt :
        (total.minus asize hRest).bytes < 2 ^ 31 := by
      omega
    rw [dif_pos hRest, if_pos (by unfold dsize; omega),
      hBytes, freeRest_eq hBp (by omega) hRestLt]
  · rw [dif_neg hRest, if_neg (by unfold dsize; omega)]

theorem reallocInPlace_right
    (hOld : getSize heap (hdrp bp) = oldSize)
    (hGrow : oldSize < asize.bytes)
    (hRight : GrowsRight heap bp asize.bytes)
    (hTotal :
      getSize heap (hdrp (nextBlkp heap bp)) + oldSize =
        total.bytes)
    (hLt : total.bytes < 2 ^ 31)
    (hBp : 4 ≤ bp) :
    reallocInPlace heap bp asize.bytes oldSize copySize =
      if hRest : asize.bytes < total.bytes then
        .ret
          (coalesce
            (withRest heap bp asize
              (total.minus asize hRest))
            (bp + asize.bytes)).1
          bp
      else
        .exit (withFront heap bp asize) (-1) := by
  rcases hRight with ⟨hFree, hRoom⟩
  have hSum :
      u32 (getSize heap (hdrp (nextBlkp heap bp)) +
          oldSize) =
        total.bytes := by
    rw [hTotal]
    exact Nat.mod_eq_of_lt (by omega)
  rw [hOld, hSum] at hRoom
  have hAsize : asize.bytes < 2 ^ 31 := by omega
  unfold reallocInPlace
  rw [if_pos hGrow]
  simp only [hFree, hSum, hRoom, put_front hAsize,
    not_true_eq_false, false_and, ↓reduceIte, and_self]
  exact
    freeRest_or_exit (fun heap => .ret heap bp) hRoom hLt hBp

theorem reallocInPlace_left
    {prev : Nat}
    (hOld : getSize heap (hdrp bp) = oldSize)
    (hPrev : prevBlkp heap bp = prev)
    (hGrow : oldSize < asize.bytes)
    (hNotRight : ¬ GrowsRight heap bp asize.bytes)
    (hLeft : GrowsLeft heap bp asize.bytes)
    (hTotal :
      getSize heap (hdrp prev) + oldSize = total.bytes)
    (hLt : total.bytes < 2 ^ 31)
    (hBp : 4 ≤ prev) :
    reallocInPlace heap bp asize.bytes oldSize copySize =
      if hRest : asize.bytes < total.bytes then
        .ret
          (memcpy
            (coalesce
              (withRest heap prev asize
                (total.minus asize hRest))
              (prev + asize.bytes)).1
            prev bp (sub32 copySize dsize))
          prev
      else
        .exit (withFront heap prev asize) (-1) := by
  rcases hLeft with ⟨hFree, hRoom⟩
  have hSum :
      u32 (getSize heap (hdrp prev) + oldSize) =
        total.bytes := by
    rw [hTotal]
    exact Nat.mod_eq_of_lt (by omega)
  rw [hPrev] at hFree
  rw [hOld, hPrev, hSum] at hRoom
  unfold GrowsRight at hNotRight
  rw [hOld] at hNotRight
  have hAsize : asize.bytes < 2 ^ 31 := by omega
  unfold reallocInPlace
  rw [if_pos hGrow]
  simp only [hPrev, hFree, hSum, hRoom, hNotRight,
    put_front hAsize, not_true_eq_false, and_false,
    ↓reduceIte, and_self]
  exact
    freeRest_or_exit
      (fun heap =>
        .ret (memcpy heap prev bp (sub32 copySize dsize))
          prev)
      hRoom hLt hBp

/- Where neither neighbour is taken, nothing happens. -/
theorem reallocInPlace_stuck
    {request : Nat}
    (hOld : getSize heap (hdrp bp) = oldSize)
    (hGrow : oldSize < request)
    (hNotRight : ¬ GrowsRight heap bp request)
    (hNotLeft : ¬ GrowsLeft heap bp request) :
    reallocInPlace heap bp request oldSize copySize =
      .ret heap null := by
  unfold GrowsRight at hNotRight
  unfold GrowsLeft at hNotLeft
  rw [hOld] at hNotRight hNotLeft
  unfold reallocInPlace
  rw [if_pos hGrow]
  simp only [hNotRight, hNotLeft, ↓reduceIte, ite_self]

theorem reallocInPlace_shrink
    (hLe : asize.bytes < total.bytes)
    (hLt : total.bytes < 2 ^ 31)
    (hBp : 4 ≤ bp) :
    reallocInPlace heap bp asize.bytes total.bytes
        copySize =
      .ret
        (coalesce
          (withRest heap bp asize (total.minus asize hLe))
          (bp + asize.bytes)).1
        bp := by
  have hAsize : asize.bytes < 2 ^ 31 := by omega
  have hRemain :
      sub32 total.bytes asize.bytes =
        (total.minus asize hLe).bytes :=
    sub32_eq (by omega) (by omega)
  have hRestLt :
      (total.minus asize hLe).bytes < 2 ^ 31 := by
    rw [BlockSize.bytes_minus]
    omega
  unfold reallocInPlace
  rw [if_neg (by omega), if_pos hLe]
  simp only [hRemain, put_front hAsize]
  exact
    congrArg (fun heap => Outcome.ret heap bp)
      (freeRest_eq hBp hAsize hRestLt)

end Malloc

end CsappLabs
