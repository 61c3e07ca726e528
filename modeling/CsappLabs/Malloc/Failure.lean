import CsappLabs.Malloc.FullHeap

/-
  Calls that fail, and calls that never come back.

  A call that returns null has stored nothing. A call of
  `mm_realloc` reaches one of its exits exactly when the
  block and the neighbour it grows into together have the
  size asked for: nothing then remains, which the code takes
  for an impossible fragment.

  Key definitions include:
    * `Served`
    * `FillsExactly`

  Key theorems include:
    * `Represents.realloc_served`
    * `failure_atomic`
    * `reallocInPlace_exits_iff`
    * `realloc_exits_iff`
-/

------------------------------------------------------------
-- Served Requests
------------------------------------------------------------

namespace CsappLabs

namespace Malloc

variable {heap heap' : Heap} {blocks front back : List Block}
variable {own : Block} {size ptr : Nat}
variable {outcome : Outcome Nat}

/-
  A call returns null and changes nothing, or it returns a
  block of a well-formed heap whose payload, the block less
  its two tags, has the size asked for.
-/
def Served
    (heap : Heap) (size : Nat) (heap' : Heap) (p : Nat) :
    Prop :=
  (p = null ∧ heap' = heap) ∨
    (p ≠ null ∧
      ∃ blocks' block,
        Represents heap' blocks' ∧
          (p, block) ∈ allocated heap'.first blocks' ∧
          size + 8 ≤ block.bytes)

/- `mm_malloc` serves a request whose size does not wrap. -/
theorem Represents.malloc_served
    (hHeap : Represents heap blocks)
    (hPositive : 0 < size)
    (hRoom : size + 16 ≤ 2 ^ 32) :
    ∃ heap' p,
      mmMalloc heap size = .ret heap' p ∧
        Served heap size heap' p := by
  rcases mmMalloc_spec_of_room hHeap hPositive hRoom with
    ⟨heap', hCode, hRepr, hKeeps, hSame⟩
  refine ⟨heap', _, hCode, ?_⟩
  cases hOffset : (allocate blocks size).2 with
  | none => exact Or.inl ⟨rfl, hSame hOffset⟩
  | some offset =>
      have hFirst : heap'.first = heap.first := by
        unfold Heap.first
        rw [hKeeps.start]
      refine Or.inr ⟨first_ne_null, _,
        ⟨BlockSize.ofRequest size, true⟩, hRepr, ?_,
        Consistent.size_add_eight_le size⟩
      rw [hFirst]
      exact (allocated_allocate hOffset).mem_iff.mpr
        List.mem_cons_self

/- What the branch returns is large enough. -/
theorem Takes.fits_request
    {middle : List Block} {total : BlockSize}
    (hTakes :
      Takes heap front middle (BlockSize.ofRequest size) back
        outcome total) :
    ∃ blocks' block,
      Represents outcome.heap blocks' ∧
        (heap.first + extent front, block) ∈
          allocated outcome.heap.first blocks' ∧
        size + 8 ≤ block.bytes := by
  have hFirst : outcome.heap.first = heap.first := by
    unfold Heap.first
    rw [hTakes.refilled.keeps.start]
  refine ⟨_, ⟨BlockSize.ofRequest size, true⟩,
    hTakes.refilled.represents, ?_,
    Consistent.size_add_eight_le size⟩
  rw [hFirst, allocated_refill hTakes.fits]
  simp

/- A block that has the right size already serves. -/
theorem Represents.served_same
    (hHeap : Represents heap (front ++ own :: back))
    (hOwn : own.allocated = true)
    (hSame : own.size = BlockSize.ofRequest size) :
    Served heap size heap (heap.first + extent front) := by
  have hFits := Consistent.size_add_eight_le size
  rw [← hSame] at hFits
  exact Or.inr ⟨first_ne_null, _, own, hHeap,
    by simp [hOwn], hFits⟩

/- What the branch for a failed `mm_malloc` returns. -/
theorem Fallback.served
    {p : Nat}
    (hCases :
      Fallback heap size front own back (.ret heap' p))
    (hHeap : Represents heap (front ++ own :: back))
    (hOwn : own.allocated = true) :
    Served heap size heap' p := by
  generalize hOutcome :
    Outcome.ret heap' p = outcome at hCases
  have hTaken : ∀ {front middle back total},
      Takes heap front middle (BlockSize.ofRequest size)
          back outcome total →
        Served heap size heap' p := by
    intro front middle back total hTakes
    have hFits := hTakes.fits_request
    rcases hTakes.result with hResult | ⟨hExit, -⟩
    · rw [← hOutcome] at hResult hFits
      injection hResult with _ hPtr
      subst hPtr
      exact Or.inr ⟨first_ne_null, hFits⟩
    · rw [← hOutcome] at hExit
      cases hExit
  cases hCases with
  | stays _ =>
      cases hOutcome
      exact Or.inl ⟨rfl, rfl⟩
  | same _ hSame =>
      cases hOutcome
      exact hHeap.served_same hOwn hSame
  | shrinks _ hTakes => exact hTaken hTakes
  | growsRight _ hTakes => exact hTaken hTakes
  | growsLeft _ hTakes => exact hTaken hTakes

/- Whatever `mm_realloc` returns serves the request. -/
theorem Represents.realloc_served
    {p : Nat}
    (hHeap : Represents heap (front ++ own :: back))
    (hOwn : own.allocated = true)
    (hPositive : 0 < size)
    (hSize : size < 2 ^ 31)
    (hRet :
      mmRealloc heap (heap.first + extent front) size =
        .ret heap' p) :
    Served heap size heap' p := by
  by_cases hFails : MallocFails heap size
  · have hCases :=
      fallback_cases hHeap hPositive hSize hFails
    rw [hRet] at hCases
    exact hCases.served hHeap hOwn
  · by_cases hSame : own.size = BlockSize.ofRequest size
    · rw [mmRealloc_same hHeap hPositive hSize hSame]
        at hRet
      cases hRet
      exact hHeap.served_same hOwn hSame
    · cases hOffset :
          (allocate (front ++ own :: back) size).2 with
      | none =>
          rcases mmMalloc_spec hHeap hPositive hSize with
            ⟨middle, hCode, -⟩
          rw [hOffset] at hCode
          exact absurd ⟨middle, hCode⟩ hFails
      | some offset =>
          -- the block moves, and its new place is allocated
          rcases mmRealloc_move hHeap hOwn hPositive hSize
              hSame hOffset with
            ⟨moved, hCode, hRepr, hKeeps, -⟩
          have hFirst : moved.first = heap.first := by
            unfold Heap.first
            rw [hKeeps.start]
          rw [hRet] at hCode
          rcases Outcome.ret.inj hCode with ⟨rfl, rfl⟩
          refine Or.inr ⟨first_ne_null, _,
            ⟨BlockSize.ofRequest size, true⟩, hRepr, ?_,
            Consistent.size_add_eight_le size⟩
          have hOld :
              (heap.first + extent front, own) ∈
                allocated heap.first
                  (front ++ own :: back) := by
            simp [hOwn]
          rw [hFirst]
          exact (allocated_move hOffset hOld).mem_iff.mpr
            List.mem_cons_self

------------------------------------------------------------
-- Calls That Return Null
------------------------------------------------------------

/- A call that returns null has changed nothing. -/
theorem Served.heap_eq
    (hServed : Served heap size heap' null) :
    heap' = heap := by
  rcases hServed with ⟨-, hSame⟩ | ⟨hNe, -⟩
  · exact hSame
  · exact absurd rfl hNe

theorem Represents.malloc_null
    (hHeap : Represents heap blocks)
    (hPositive : 0 < size)
    (hSize : size < 2 ^ 31)
    (hNull : mmMalloc heap size = .ret heap' null) :
    heap' = heap := by
  rcases hHeap.malloc_served hPositive (by omega) with
    ⟨middle, p, hCode, hServed⟩
  rw [hNull] at hCode
  rcases Outcome.ret.inj hCode with ⟨rfl, rfl⟩
  exact hServed.heap_eq

/-
  After every run a call of `mm_malloc`, or of `mm_realloc`
  on a live payload, that returns null leaves the whole
  process state as it was, so the payload is still held.
-/
theorem failure_atomic
    {base : Nat} {mem : ByteMemory} {world : World}
    {labels : List (Call × Nat)}
    (hRun :
      Transition.Run Step (World.start base mem)
        labels world)
    (hPositive : 0 < size)
    (hSize : size < 2 ^ 31) :
    (∀ heap', mmMalloc world.heap size = .ret heap' null →
      heap' = world.heap) ∧
    ∀ payload ∈ world.live, ∀ heap',
      mmRealloc world.heap payload.ptr size =
          .ret heap' null →
        heap' = world.heap ∧ payload.HeldBy heap'.mem := by
  rcases run_simulated hRun with ⟨blocks, -, hWorld, -⟩
  refine ⟨fun heap' hNull =>
    hWorld.represents.malloc_null hPositive hSize hNull, ?_⟩
  intro payload hLive heap' hNull
  have hHeld := hWorld.held payload hLive
  rcases hWorld.live_split hLive with
    ⟨front, back, rfl, hPtr⟩
  rw [hPtr] at hNull
  have hServed :=
    hWorld.represents.realloc_served rfl hPositive hSize hNull
  rw [hServed.heap_eq]
  exact ⟨rfl, hHeld⟩

/- On the full heap a call of `mm_malloc` does fail. -/
theorem failure_atomic_full :
    ∃ (world : World) (heap' : Heap),
      mmMalloc world.heap 40 = .ret heap' null ∧
        heap' = world.heap := by
  rcases @run_fullHeap 1024 (fun _ => 0) with
    ⟨world, hRun, hFull⟩
  rcases hFull.malloc_fails (show _ = none by decide)
      (show 0 < 40 by decide) (by decide) with
    ⟨heap', hCode⟩
  exact
    ⟨world, heap', hCode,
      (failure_atomic hRun (show 0 < 40 by decide)
        (by decide)).1 heap' hCode⟩

------------------------------------------------------------
-- Sizes Are Multiples Of Eight
------------------------------------------------------------

theorem getSize_mod
    (heap : Heap) (p : Nat) :
    getSize heap p % 8 = 0 := by
  rw [getSize_eq]
  omega

theorem adjustSize_mod (size : Nat) :
    adjustSize size % 8 = 0 := by
  unfold adjustSize agnSize u32 dsize
  split
  · rfl
  · omega

theorem u32_mod
    {value : Nat}
    (hMod : value % 8 = 0) :
    u32 value % 8 = 0 := by
  unfold u32
  omega

theorem sub32_mod
    {left right : Nat}
    (hLeft : left % 8 = 0)
    (hRight : right % 8 = 0) :
    sub32 left right % 8 = 0 := by
  unfold sub32
  omega

theorem u32_lt (value : Nat) : u32 value < 2 ^ 32 :=
  Nat.mod_lt _ (by decide)

/- `place` splits off whole double words and returns. -/
theorem place_returns
    (heap : Heap) (bp : Nat) {asize : Nat}
    (hMod : asize % 8 = 0) :
    ∃ heap', place heap bp asize = .ret heap' () := by
  have hRemain :
      sub32 (getSize heap (hdrp bp)) asize % 8 = 0 :=
    sub32_mod (getSize_mod _ _) hMod
  have hEven :
      ¬ ((sub32 (getSize heap (hdrp bp)) asize / wsize) &&&
        1 = 1) := by
    rw [Nat.and_one_is_mod]
    unfold wsize
    omega
  unfold place
  simp only [hEven, if_false]
  split
  · exact ⟨_, rfl⟩
  · split
    · exact ⟨_, rfl⟩
    · exact ⟨_, rfl⟩

/- So `mm_malloc` never exits, on any heap. -/
theorem mmMalloc_ne_exit
    (heap heap' : Heap) (size : Nat) (code : Int) :
    mmMalloc heap size ≠ .exit heap' code := by
  have hPlace : ∀ heap bp,
      (place heap bp (adjustSize size)).andThen
          (fun heap _ => Outcome.ret heap bp) ≠
        .exit heap' code := by
    intro heap bp
    rcases place_returns heap bp (adjustSize_mod size) with
      ⟨placed, hCode⟩
    rw [hCode]
    intro hExit
    cases hExit
  unfold mmMalloc
  by_cases hZero : size = 0
  · rw [if_pos hZero]
    intro hExit
    cases hExit
  · simp only [hZero, if_false]
    cases findFit heap (adjustSize size) with
    | none =>
        intro hExit
        cases hExit
    | some bp =>
        by_cases hFit : bp ≠ null
        · simp only [hFit, ne_eq, not_false_eq_true, if_true]
          exact hPlace _ _
        · simp only [hFit, if_false]
          generalize
            extendHeap heap
                ((if chunkSize < adjustSize size then
                    adjustSize size
                  else
                    chunkSize) / wsize) =
              extended
          by_cases hNone : extended.2 = null
          · rw [if_pos hNone]
            intro hExit
            cases hExit
          · rw [if_neg hNone]
            exact hPlace _ _

------------------------------------------------------------
-- The Exits Of mm_realloc
------------------------------------------------------------

/- The call ends in `exit`. -/
def Outcome.Exits {α : Type} (outcome : Outcome α) : Prop :=
  ∃ heap code, outcome = .exit heap code

@[simp] theorem not_exits_ret
    {α : Type} {value : α} :
    ¬ (Outcome.ret heap value).Exits := by
  rintro ⟨_, _, hExit⟩
  cases hExit

@[simp] theorem exits_exit
    {α : Type} {code : Int} :
    (Outcome.exit heap code : Outcome α).Exits :=
  ⟨heap, code, rfl⟩

/-
  A block that is to grow has a neighbour that looks free and
  that the branch would take, and with it exactly the size
  asked for. The neighbour in front counts where the one
  behind is not taken.
-/
def FillsExactly (heap : Heap) (ptr asize old : Nat) : Prop :=
  old < asize ∧
    ((isAlloc heap (nextBlkp heap ptr) = 0 ∧
        u32 (getSize heap (hdrp (nextBlkp heap ptr)) + old) =
          asize) ∨
      (¬ (isAlloc heap (nextBlkp heap ptr) = 0 ∧
          asize ≤
            u32 (getSize heap (hdrp (nextBlkp heap ptr)) +
              old)) ∧
        isAlloc heap (prevBlkp heap ptr) = 0 ∧
        u32 (getSize heap (hdrp (prevBlkp heap ptr)) + old) =
          asize))

/- The test behind the exit, on sizes in double words. -/
theorem dsize_le_sub32_iff
    {total asize : Nat}
    (hTotal : total % 8 = 0)
    (hAsize : asize % 8 = 0)
    (hLe : asize ≤ total)
    (hLt : total < 2 ^ 32) :
    dsize ≤ sub32 total asize ↔ total ≠ asize := by
  rw [sub32_eq hLe hLt]
  unfold dsize
  omega

theorem reallocInPlace_exits_iff
    {asize old copySize : Nat}
    (hAsize : asize % 8 = 0)
    (hOld : old % 8 = 0) :
    (reallocInPlace heap ptr asize old copySize).Exits ↔
      FillsExactly heap ptr asize old := by
  have hNextMod :
      u32 (getSize heap (hdrp (nextBlkp heap ptr)) + old) %
        8 = 0 :=
    u32_mod (by
      have hMod := getSize_mod heap (hdrp (nextBlkp heap ptr))
      omega)
  have hPrevMod :
      u32 (getSize heap (hdrp (prevBlkp heap ptr)) + old) %
        8 = 0 :=
    u32_mod (by
      have hMod := getSize_mod heap (hdrp (prevBlkp heap ptr))
      omega)
  have hNextLt :=
    u32_lt (getSize heap (hdrp (nextBlkp heap ptr)) + old)
  have hPrevLt :=
    u32_lt (getSize heap (hdrp (prevBlkp heap ptr)) + old)
  unfold reallocInPlace FillsExactly
  by_cases hGrow : old < asize
  · by_cases hRight :
        isAlloc heap (nextBlkp heap ptr) = 0 ∧
          asize ≤
            u32 (getSize heap (hdrp (nextBlkp heap ptr)) +
              old)
    · have hTest :=
        dsize_le_sub32_iff hNextMod hAsize hRight.2 hNextLt
      by_cases hExact :
          u32 (getSize heap (hdrp (nextBlkp heap ptr)) +
            old) = asize
      · rw [hExact] at hTest
        simp [hGrow, hRight, hTest, hExact]
      · simp [hGrow, hRight, hTest, hExact]
    · have hNotRight : isAlloc heap (nextBlkp heap ptr) = 0 →
          u32 (getSize heap (hdrp (nextBlkp heap ptr)) +
            old) ≠ asize :=
        fun hFree hExact => hRight ⟨hFree, hExact.ge⟩
      by_cases hLeft :
          isAlloc heap (prevBlkp heap ptr) = 0 ∧
            asize ≤
              u32 (getSize heap (hdrp (prevBlkp heap ptr)) +
                old)
      · have hTest :=
          dsize_le_sub32_iff hPrevMod hAsize hLeft.2 hPrevLt
        by_cases hExact :
            u32 (getSize heap (hdrp (prevBlkp heap ptr)) +
              old) = asize
        · rw [hExact] at hTest
          simp [hGrow, hRight, hLeft, hTest, hExact]
        · simpa [hGrow, hRight, hLeft, hTest, hExact] using
            hNotRight
      · have hNotLeft : isAlloc heap (prevBlkp heap ptr) = 0 →
            u32 (getSize heap (hdrp (prevBlkp heap ptr)) +
              old) ≠ asize :=
          fun hFree hExact => hLeft ⟨hFree, hExact.ge⟩
        simpa [hGrow, hRight, hLeft] using
          And.intro hNotRight hNotLeft
  · by_cases hShrink : asize < old
    · simp [hGrow, hShrink]
    · simp [hGrow, hShrink]

/-
  On any heap, for any block and any request, `mm_realloc`
  returns unless `mm_malloc` fails and the branch for that
  finds exactly the size asked for.
-/
theorem realloc_exits_iff
    (hPtr : ptr ≠ null)
    (hPositive : 0 < size) :
    ¬ (mmRealloc heap ptr size).Exits ↔
      ∀ heap', mmMalloc heap size = .ret heap' null →
        ¬ FillsExactly heap' ptr (adjustSize size)
          (getSize heap (hdrp ptr)) := by
  have hAsize := adjustSize_mod size
  have hOld := getSize_mod heap (hdrp ptr)
  unfold mmRealloc
  rw [if_neg hPtr, if_neg (Nat.ne_of_gt hPositive)]
  simp only
  by_cases hSame :
      adjustSize size = getSize heap (hdrp ptr)
  · rw [if_pos hSame]
    refine iff_of_true not_exits_ret fun heap' _ hFills => ?_
    exact absurd hFills.1 (by omega)
  · rw [if_neg hSame]
    cases hMalloc : mmMalloc heap size with
    | exit heap' code =>
        exact absurd hMalloc (mmMalloc_ne_exit _ _ _ _)
    | lost heap' =>
        refine iff_of_true ?_ fun other hRet => ?_
        · rintro ⟨_, _, hExit⟩
          cases hExit
        · cases hRet
    | ret middle newptr =>
        unfold Outcome.andThen
        by_cases hNew : newptr = null
        · subst hNew
          simp only [if_true]
          rw [reallocInPlace_exits_iff hAsize hOld]
          constructor
          · intro hNot heap' hRet
            cases hRet
            exact hNot
          · exact fun hAll => hAll middle rfl
        · simp only [hNew, if_false]
          refine iff_of_true not_exits_ret fun heap' hRet => ?_
          cases hRet
          exact absurd rfl hNew

/- On the full heap growth by one word leaves a rest. -/
theorem realloc_exits_iff_full :
    ∃ world : World,
      ¬ (mmRealloc world.heap 1064 24).Exits := by
  rcases @run_fullHeap 1024 (fun _ => 0) with
    ⟨world, -, hFull⟩
  refine ⟨world, (realloc_exits_iff (by decide)
    (by decide)).mpr fun heap' hNull => ?_⟩
  rw [hFull.consistent.represents.malloc_null
    (by decide) (by decide) hNull]
  rintro ⟨-, ⟨hNext, -⟩ | ⟨-, -, hPrev⟩⟩
  · rw [hFull.next_eq, hFull.next_taken] at hNext
    cases hNext
  · rw [hFull.prev_eq, hFull.prevSize, hFull.oldSize] at hPrev
    exact absurd hPrev (by decide)

/-
  A run of ordinary calls leads to a live payload of 16 bytes
  whose free neighbour has 24; growing it to 40 bytes exits.
-/
theorem realloc_aborts :
    ∃ (world : World) (payload : Live),
      Transition.Run Step (World.start 1024 fun _ => 0)
          (fullLabels 1024) world ∧
        payload ∈ world.live ∧
        payload.ptr = 1064 ∧
        MallocFails world.heap 40 ∧
        (mmRealloc world.heap payload.ptr 40).Exits := by
  rcases @run_fullHeap 1024 (fun _ => 0) with
    ⟨world, hRun, hFull⟩
  have hFails :=
    hFull.malloc_fails (show _ = none by decide)
      (show 0 < 40 by decide) (by decide)
  refine ⟨world, _, hRun, hFull.live, rfl, hFails, ?_⟩
  have hHeap :
      Represents world.heap
        ([⟨BlockSize.ofRequest 16, false⟩] ++
          ⟨BlockSize.ofRequest 16, true⟩ ::
            fullBlocks.drop 2) :=
    hFull.consistent.represents
  have hCode :=
    mmRealloc_failed hHeap (show 0 < 40 by decide)
      (by decide) hFails (by decide)
  have hPtr :
      world.heap.first +
          extent [⟨BlockSize.ofRequest 16, false⟩] =
        1064 := by
    rw [hFull.first_eq]
    rfl
  rw [hPtr] at hCode
  change (mmRealloc world.heap 1064 40).Exits
  rw [hCode, reallocInPlace_exits_iff (by decide) (by decide)]
  refine ⟨by decide, Or.inr ⟨?_, ?_, ?_⟩⟩
  · rintro ⟨hNext, -⟩
    rw [hFull.next_eq, hFull.next_taken] at hNext
    cases hNext
  · rw [hFull.prev_eq]
    exact hFull.prev_free
  · rw [hFull.prev_eq, hFull.prevSize]
    decide

end Malloc

end CsappLabs
