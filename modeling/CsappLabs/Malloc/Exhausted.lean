import CsappLabs.Malloc.Client
import CsappLabs.Malloc.Fallback

/-
  Runs that reach the branch of `mm_realloc` for a failed
  `mm_malloc`.

  A run may take the branch as long as the neighbour it grows
  into is free. In every state of such a run the next call
  keeps the other live blocks exactly when it meets the same
  condition; and a run of three ordinary calls leads to a
  state where it does not.

  Key definitions include:
    * `OomStep`

  Key theorems include:
    * `Consistent.fallback`
    * `fallback_frame_iff`
    * `fallback_takes_live_block`
-/

------------------------------------------------------------
-- Steps On An Exhausted Heap
------------------------------------------------------------

namespace CsappLabs

namespace Malloc

/-
  A step of a client, or a call of `mm_realloc` whose
  `mm_malloc` fails while the neighbour is free.
-/
inductive OomStep : World → Call × Nat → World → Prop
| step {world world' : World} {label : Call × Nat} :
    Step world label world' →
    OomStep world label world'
| fallback
    {world : World} {payload : Live}
    {size ptr : Nat} {heap : Heap} :
    payload ∈ world.live →
    0 < size →
    size < 2 ^ 31 →
    MallocFails world.heap size →
    NeighbourFree world.heap payload.ptr size →
    mmRealloc world.heap payload.ptr size =
      .ret heap ptr →
    OomStep world (.realloc payload.ptr size, ptr)
      ⟨heap,
        if ptr = null then
          world.live
        else
          Live.fresh ptr size ::
            without world.live payload.ptr⟩

------------------------------------------------------------
-- Consistency
------------------------------------------------------------

namespace Consistent

variable {world : World} {payload : Live} {heap : Heap}
variable {blocks front middle back : List Block}
variable {size ptr : Nat} {total : BlockSize}

theorem held_fresh {mem : ByteMemory} :
    (Live.fresh ptr size).HeldBy mem := by
  intro offset byte hByte
  cases hByte

/- Refilling the interval of a payload resizes it. -/
theorem takes
    (hWorld : Consistent world (front ++ middle ++ back))
    (hOwn :
      allocated (world.heap.first + extent front) middle =
        [payload.entry])
    (hTakes :
      Takes world.heap front middle
        (BlockSize.ofRequest size) back (.ret heap ptr)
        total) :
    Consistent
      ⟨heap,
        if ptr = null then
          world.live
        else
          Live.fresh ptr size ::
            without world.live payload.ptr⟩
      (refill front total (BlockSize.ofRequest size)
        back) := by
  have hPtr : ptr = world.heap.first + extent front := by
    rcases hTakes.result with hRet | ⟨hExit, -⟩
    · cases hRet
      rfl
    · cases hExit
  subst hPtr
  have hStart :
      heap.memStartBrk = world.heap.memStartBrk :=
    hTakes.refilled.keeps.start
  have hFirst : heap.first = world.heap.first := by
    unfold Heap.first
    rw [hStart]
  have hSplit :
      allocated world.heap.first (front ++ middle ++ back) =
        allocated world.heap.first front ++
          payload.entry ::
            allocated
              (world.heap.first + extent front +
                total.bytes)
              back := by
    rw [List.append_assoc, allocated_append,
      allocated_append, hOwn, hTakes.covers]
    rfl
  have hPerm :
      (allocated world.heap.first
          (front ++ middle ++ back)).Perm
        (payload.entry ::
          (allocated world.heap.first front ++
            allocated
              (world.heap.first + extent front +
                total.bytes)
              back)) := by
    rw [hSplit]
    exact List.perm_middle
  rw [if_neg first_ne_null]
  refine ⟨hTakes.refilled.represents, ?_, ?_⟩
  · rw [hFirst, allocated_refill hTakes.fits]
    exact List.perm_middle.trans
      ((hWorld.without_perm hPerm).cons _)
  · intro other hOther
    rcases List.mem_cons.mp hOther with rfl | hRest
    · exact held_fresh
    · rcases mem_of_without hRest with ⟨hLive, hApart⟩
      have hMember :=
        hPerm.mem_iff.mp
          (hWorld.live.mem_iff.mpr
            (List.mem_map_of_mem hLive))
      rcases List.mem_cons.mp hMember with hSame | hBeside
      · exact absurd (congrArg Prod.fst hSame) hApart
      · have hKept :=
          hTakes.beside (List.mem_append.mp hBeside)
        exact hWorld.held_of_sameOn hLive hKept.2

/- The branch keeps the world consistent. -/
theorem fallback
    (hWorld : Consistent world blocks)
    (hLive : payload ∈ world.live)
    (hPositive : 0 < size)
    (hSize : size < 2 ^ 31)
    (hFails : MallocFails world.heap size)
    (hFree : NeighbourFree world.heap payload.ptr size)
    (hCode :
      mmRealloc world.heap payload.ptr size =
        .ret heap ptr) :
    ∃ blocks',
      Consistent
        ⟨heap,
          if ptr = null then
            world.live
          else
            Live.fresh ptr size ::
              without world.live payload.ptr⟩
        blocks' := by
  rcases hWorld.live_split hLive with
    ⟨front, back, rfl, hPtr⟩
  have hCases :=
    fallback_cases hWorld.represents hPositive hSize hFails
  rw [← hPtr, hCode] at hCases
  generalize hOutcome :
    Outcome.ret heap ptr = outcome at hCases
  cases hCases with
  | stays _ =>
      cases hOutcome
      rw [if_pos rfl]
      exact ⟨_, hWorld⟩
  | same _ hSame =>
      cases hOutcome
      rw [← hPtr, if_neg (hWorld.ptr_ne_null hLive)]
      have hReleased :=
        @allocated_release world.heap.first
          ⟨BlockSize.ofRequest payload.size, true⟩
          front back rfl
      rw [← hPtr] at hReleased
      refine ⟨_, hWorld.represents, ?_, ?_⟩
      · refine hReleased.trans ?_
        rw [List.map_cons, Live.entry, Live.fresh, ← hSame]
        exact (hWorld.without_perm hReleased).cons _
      · intro other hOther
        rcases List.mem_cons.mp hOther with rfl | hRest
        · exact held_fresh
        · exact hWorld.held other (mem_of_without hRest).1
  | shrinks _ hTakes =>
      subst hOutcome
      have hMiddle :
          Consistent world
            (front ++
              [⟨BlockSize.ofRequest payload.size, true⟩] ++
              back) := by
        simpa using hWorld
      refine ⟨_, hMiddle.takes ?_ hTakes⟩
      rw [← hPtr]
      simp [Live.entry]
  | @growsRight _ back _ next _ _ hNext hTakes =>
      subst hOutcome
      have hMiddle :
          Consistent world
            (front ++
              [⟨BlockSize.ofRequest payload.size, true⟩,
                next] ++
              back) := by
        simpa using hWorld
      rw [← hPtr] at hNext
      refine ⟨_, hMiddle.takes ?_ hTakes⟩
      rw [← hPtr]
      simp [Live.entry, hNext.mp hFree]
  | @growsLeft front _ prev _ _ _ hPrev hTakes =>
      subst hOutcome
      have hMiddle :
          Consistent world
            (front ++
              [prev,
                ⟨BlockSize.ofRequest payload.size, true⟩] ++
              back) := by
        simpa using hWorld
      rw [← hPtr] at hPrev
      refine ⟨_, hMiddle.takes ?_ hTakes⟩
      simp [Live.entry, hPrev.mp hFree, hPtr, extent,
        Nat.add_assoc]

end Consistent

------------------------------------------------------------
-- Runs
------------------------------------------------------------

variable {base size : Nat} {mem : ByteMemory}
variable {world : World} {payload : Live}
variable {labels : List (Call × Nat)}

/- Every run that meets the condition stays consistent. -/
theorem oomRun_consistent
    (hRun :
      Transition.Run OomStep (World.start base mem)
        labels world) :
    ∃ blocks, Consistent world blocks := by
  refine hRun.invariant
    (fun world => ∃ blocks, Consistent world blocks)
    ⟨_, consistent_start.1⟩ ?_
  rintro world label world' ⟨blocks, hWorld⟩ hStep
  cases hStep with
  | step hStep =>
      rcases hStep.simulated hWorld with
        ⟨blocks', -, hNext, -⟩
      exact ⟨blocks', hNext⟩
  | fallback hLive hPositive hSize hFails hFree hCode =>
      exact hWorld.fallback hLive hPositive hSize hFails
        hFree hCode

/-
  After every run that meets the condition, the next call of
  `mm_realloc` that exhausts the heap keeps the other live
  blocks exactly when it meets the condition too.
-/
theorem fallback_frame_iff
    (hRun :
      Transition.Run OomStep (World.start base mem)
        labels world)
    (hLive : payload ∈ world.live)
    (hPositive : 0 < size)
    (hSize : size < 2 ^ 31)
    (hFails : MallocFails world.heap size) :
    ∃ blocks,
      Consistent world blocks ∧
        ((∃ blocks',
          FrameKept world.heap blocks payload.entry
            (mmRealloc world.heap payload.ptr size)
            blocks') ↔
          NeighbourFree world.heap payload.ptr size) := by
  rcases oomRun_consistent hRun with ⟨blocks, hWorld⟩
  refine ⟨blocks, hWorld, ?_⟩
  rcases hWorld.live_split hLive with
    ⟨front, back, rfl, hPtr⟩
  unfold Live.entry
  rw [hPtr]
  exact frame_kept_iff hWorld.represents rfl hPositive hSize
    hFails

------------------------------------------------------------
-- A Run That Loses A Live Block
------------------------------------------------------------

/- The low bit of a word is the low bit of its first byte. -/
theorem isAlloc_byte (heap : Heap) (p : Nat) :
    isAlloc heap p = (heap.mem p).toNat % 2 := by
  rw [isAlloc_eq]
  change ((heap.mem p).toNat + 256 * _) % 2 = _
  omega

/- The word at a payload is even where its first byte is. -/
theorem isAlloc_of_byte
    {heap : Heap} {p : Nat}
    (hByte : heap.mem p = 0) :
    isAlloc heap p = 0 := by
  rw [isAlloc_byte, hByte]
  rfl

/- The blocks after two calls, of 8 and 15000000 bytes. -/
def exhaustedBlocks : List Block :=
  [⟨BlockSize.ofRequest 8, true⟩,
    ⟨BlockSize.ofRequest 15000000, true⟩,
    ⟨⟨4080, by decide, by decide⟩, false⟩]

/-
  Two calls of `mm_malloc`, and a zero byte written at the
  start of the second payload.
-/
theorem run_exhausted :
    ∃ world,
      Transition.Run Step (World.start base mem)
          [(.malloc 8, base + 16),
            (.malloc 15000000, base + 16 + 16),
            (.write (base + 16 + 16) 0 0, null)]
          world ∧
        Live.fresh (base + 16) 8 ∈ world.live ∧
        world.heap.memStartBrk = base ∧
        world.heap.mem (base + 16 + 16) = 0 ∧
        Consistent world exhaustedBlocks := by
  rcases @consistent_start base mem with ⟨hWorld, hStart⟩
  have hFirst :
      (allocate [⟨BlockSize.chunk, false⟩] 8).2 =
        some 0 := by
    decide
  have hSecond :
      (allocate (allocate [⟨BlockSize.chunk, false⟩] 8).1
          15000000) =
        (exhaustedBlocks, some 16) := by
    decide
  rcases hWorld.malloc_step hStart (by decide) (by decide)
      hFirst with
    ⟨heap, hStepA, hStartA, hWorldA⟩
  rcases hWorldA.malloc_step hStartA (by decide) (by decide)
      (congrArg Prod.snd hSecond) with
    ⟨heap', hStepB, hStartB, hWorldB⟩
  rw [hSecond] at hWorldB
  have hLive :
      Live.fresh (base + 16 + 16) 15000000 ∈
        (World.mk heap'
          (Live.fresh (base + 16 + 16) 15000000 ::
            Live.fresh (base + 16) 8 ::
              (World.start base mem).live)).live :=
    List.mem_cons_self
  have hOffset :
      0 < (Live.fresh (base + 16 + 16) 15000000).size :=
    (by decide : 0 < 15000000)
  have hStepC := @Step.write _ _ 0 0 hLive hOffset
  have hWorldC := @Consistent.write _ _ _ 0 0 hWorldB
    hLive hOffset
  refine ⟨_, ((Transition.Run.nil.snoc hStepA).snoc
    hStepB).snoc hStepC, ?_, hStartB, ?_, hWorldC⟩
  · refine List.mem_map.mpr
      ⟨Live.fresh (base + 16) 8, by simp, ?_⟩
    have hNe : base + 16 ≠ base + 16 + 16 := by omega
    exact if_neg hNe
  · exact ByteMemory.writeWord_one

/- No block fits ten million bytes more. -/
theorem Consistent.exhausted_fails
    (hWorld : Consistent world exhaustedBlocks) :
    MallocFails world.heap 10000000 := by
  rcases mmMalloc_spec hWorld.represents
      (show 0 < 10000000 by decide) (by decide) with
    ⟨heap, hCode, -⟩
  have hNone :
      (allocate exhaustedBlocks 10000000).2 = none := by
    decide
  rw [hNone] at hCode
  exact ⟨heap, hCode⟩

/-
  In that state `mm_realloc` of the first payload takes the
  second one, which is live: its first word looks free.
-/
theorem fallback_takes_live_block :
    ∃ (world : World) (payload : Live),
      Transition.Run Step (World.start 1024 fun _ => 0)
          [(.malloc 8, 1040), (.malloc 15000000, 1056),
            (.write 1056 0 0, null)]
          world ∧
        payload ∈ world.live ∧
        payload.ptr = 1040 ∧
        MallocFails world.heap 10000000 ∧
        Consistent world exhaustedBlocks ∧
        ¬ ∃ blocks',
          FrameKept world.heap exhaustedBlocks payload.entry
            (mmRealloc world.heap payload.ptr 10000000)
            blocks' := by
  rcases @run_exhausted 1024 (fun _ => 0) with
    ⟨world, hRun, hLive, hStart, hByte, hWorld⟩
  have hFirst : world.heap.first = 1040 := by
    unfold Heap.first
    rw [hStart]
  have hFails := hWorld.exhausted_fails
  refine ⟨world, Live.fresh 1040 8, hRun, hLive, rfl, hFails,
    hWorld, ?_⟩
  have hHeap :
      Represents world.heap
        ([] ++
          ⟨BlockSize.ofRequest 8, true⟩ ::
            ⟨BlockSize.ofRequest 15000000, true⟩ ::
              [⟨⟨4080, by decide, by decide⟩, false⟩]) :=
    hWorld.represents
  have hIff :=
    frame_kept_iff hHeap rfl (show 0 < 10000000 by decide)
      (by decide) hFails
  have hPtr : world.heap.first + extent [] = 1040 := hFirst
  rw [hPtr] at hIff
  have hAround := hHeap.around
  rw [hPtr] at hAround
  have hSize : getSize world.heap (hdrp 1040) = 16 :=
    hAround.getSize_hdrp
  have hNext : nextBlkp world.heap 1040 = 1056 :=
    hAround.nextBlkp_eq
  have hNextSize :
      getSize world.heap (hdrp 1056) = 15000008 := by
    rw [← hNext]
    exact getSize_of_tag hAround.get_next
  have hNextAlloc :
      isAlloc world.heap (hdrp 1056) = 1 := by
    rw [← hNext]
    exact isAlloc_of_tag hAround.get_next
  have hAsize : adjustSize 10000000 = 10000008 := by decide
  intro hFrame
  have hFree := hIff.mp hFrame
  unfold NeighbourFree GrowsRight at hFree
  rw [hSize, hNext, hNextSize, hNextAlloc, hAsize,
    isAlloc_of_byte hByte] at hFree
  exact absurd
    ((hFree (by decide)).1 ⟨rfl, by decide⟩) (by decide)

theorem fallback_frame_iff_exhausted :
    ∃ (world : World) (blocks : List Block),
      MallocFails world.heap 10000000 ∧
        Consistent world blocks ∧
        ((∃ blocks',
          FrameKept world.heap blocks
            (Live.fresh 1040 8).entry
            (mmRealloc world.heap 1040 10000000)
            blocks') ↔
          NeighbourFree world.heap 1040 10000000) := by
  rcases @run_exhausted 1024 (fun _ => 0) with
    ⟨world, hRun, hLive, -, -, hWorld⟩
  have hFails := hWorld.exhausted_fails
  rcases fallback_frame_iff
      (hRun.mono fun _ _ _ hStep => OomStep.step hStep)
      hLive (by decide) (by decide) hFails with
    ⟨blocks, hBlocks, hIff⟩
  exact ⟨world, blocks, hFails, hBlocks, hIff⟩

end Malloc

end CsappLabs
