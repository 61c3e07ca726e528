import CsappLabs.Malloc.Exhausted
import CsappLabs.Malloc.Payload

/-
  A run that fills the heap to the last eight bytes.

  Four calls of `mm_malloc` take all of the simulated memory;
  the client writes one byte into three of the payloads and
  releases the first one. What is left free is a block of 24
  bytes in front of a live block of 24 bytes.

  Key definitions include:
    * `fullBlocks`
    * `FullHeap`

  Key theorems include:
    * `run_fullHeap`
    * `FullHeap.malloc_fails`
-/

------------------------------------------------------------
-- Writing Into A Payload
------------------------------------------------------------

namespace CsappLabs

namespace Malloc

variable {base : Nat} {mem : ByteMemory} {world : World}
variable {blocks : List Block} {payload : Live}

/- The world after a client wrote the first byte. -/
def World.mark
    (world : World) (payload : Live) (byte : UInt8) :
    World where
  heap :=
    { world.heap with
      mem :=
        world.heap.mem.writeWord (payload.ptr + 0) 1
          byte.toNat }
  live :=
    world.live.map fun other =>
      if other.ptr = payload.ptr then
        other.written 0 byte
      else
        other

theorem Consistent.mark
    {byte : UInt8}
    (hWorld : Consistent world blocks)
    (hLive : payload ∈ world.live)
    (hSize : 0 < payload.size) :
    Step world (.write payload.ptr 0 byte, null)
        (world.mark payload byte) ∧
      Consistent (world.mark payload byte) blocks :=
  ⟨.write hLive hSize, hWorld.write hLive hSize⟩

theorem World.mark_self
    {byte : UInt8}
    (hLive : payload ∈ world.live) :
    payload.written 0 byte ∈
      (world.mark payload byte).live :=
  List.mem_map.mpr ⟨payload, hLive, if_pos rfl⟩

theorem World.mark_other
    {other : Live} {byte : UInt8}
    (hLive : other ∈ world.live)
    (hNe : other.ptr ≠ payload.ptr) :
    other ∈ (world.mark payload byte).live :=
  List.mem_map.mpr ⟨other, hLive, if_neg hNe⟩

/- A payload whose first byte was written holds it. -/
theorem Consistent.marked
    {byte : UInt8}
    (hWorld : Consistent world blocks)
    (hLive : payload.written 0 byte ∈ world.live) :
    world.heap.mem payload.ptr = byte :=
  (hWorld.held _ hLive 0 byte rfl).2

theorem mem_without
    {live : List Live} {ptr : Nat}
    (hLive : payload ∈ live)
    (hNe : payload.ptr ≠ ptr) :
    payload ∈ without live ptr :=
  List.mem_filter.mpr ⟨hLive, by simpa using hNe⟩

------------------------------------------------------------
-- The Full Heap
------------------------------------------------------------

/- The blocks after the four calls and the release. -/
def fullBlocks : List Block :=
  [⟨BlockSize.ofRequest 16, false⟩,
    ⟨BlockSize.ofRequest 16, true⟩,
    ⟨BlockSize.ofRequest 4040, true⟩,
    ⟨BlockSize.ofRequest 20967392, true⟩]

/- The calls of the run, and what they return. -/
def fullLabels (base : Nat) : List (Call × Nat) :=
  [(.malloc 16, base + 16 + 0),
    (.malloc 16, base + 16 + 24),
    (.malloc 4040, base + 16 + 48),
    (.malloc 20967392, base + 16 + 4096),
    (.write (base + 16 + 24) 0 4, null),
    (.write (base + 16 + 48) 0 1, null),
    (.write (base + 16 + 0) 0 0, null),
    (.free (base + 16 + 0), null)]

/- The world after the run. -/
structure FullHeap (base : Nat) (world : World) : Prop where
  consistent : Consistent world fullBlocks
  start : world.heap.memStartBrk = base
  live :
    (Live.fresh (base + 16 + 24) 16).written 0 4 ∈
      world.live
  freeByte : world.heap.mem (base + 16) = 0
  ownByte : world.heap.mem (base + 16 + 24) = 4
  nextByte : world.heap.mem (base + 16 + 48) = 1

/- The world after the four calls, with nothing left. -/
def filledWorld (base : Nat) (heap : Heap) : World where
  heap := heap
  live :=
    [Live.fresh (base + 16 + 4096) 20967392,
      Live.fresh (base + 16 + 48) 4040,
      Live.fresh (base + 16 + 24) 16,
      Live.fresh (base + 16 + 0) 16]

/- The world after the writes to three of the payloads. -/
def markedWorld (base : Nat) (heap : Heap) : World :=
  (((filledWorld base heap).mark
    (Live.fresh (base + 16 + 24) 16) 4).mark
    (Live.fresh (base + 16 + 48) 4040) 1).mark
    (Live.fresh (base + 16 + 0) 16) 0

/- The world after the release of the first payload. -/
def freedWorld (base : Nat) (heap : Heap) : World where
  heap := mmFree (markedWorld base heap).heap (base + 16 + 0)
  live :=
    without (markedWorld base heap).live (base + 16 + 0)

theorem run_filled :
    ∃ heap,
      Transition.Run Step (World.start base mem)
          ((fullLabels base).take 4)
          (filledWorld base heap) ∧
        heap.memStartBrk = base ∧
        Consistent (filledWorld base heap)
          (⟨BlockSize.ofRequest 16, true⟩ ::
            fullBlocks.tail) := by
  rcases @consistent_start base mem with ⟨hWorld, hStart⟩
  have hFour :
      (allocate [⟨BlockSize.chunk, false⟩] 16).2 = some 0 ∧
      (allocate (allocate [⟨BlockSize.chunk, false⟩] 16).1
        16).2 = some 24 ∧
      (allocate (allocate (allocate
        [⟨BlockSize.chunk, false⟩] 16).1 16).1 4040).2 =
          some 48 ∧
      allocate (allocate (allocate (allocate
        [⟨BlockSize.chunk, false⟩] 16).1 16).1 4040).1
          20967392 =
        (⟨BlockSize.ofRequest 16, true⟩ :: fullBlocks.tail,
          some 4096) := by
    decide
  rcases hFour with ⟨hA, hB, hC, hD⟩
  rcases hWorld.malloc_step hStart (by decide) (by decide) hA
    with ⟨heapA, hStepA, hStartA, hWorldA⟩
  rcases hWorldA.malloc_step hStartA (by decide)
      (by decide) hB with
    ⟨heapB, hStepB, hStartB, hWorldB⟩
  rcases hWorldB.malloc_step hStartB (by decide)
      (by decide) hC with
    ⟨heapC, hStepC, hStartC, hWorldC⟩
  rcases hWorldC.malloc_step hStartC (by decide)
      (by decide) (congrArg Prod.snd hD) with
    ⟨heapD, hStepD, hStartD, hWorldD⟩
  rw [hD] at hWorldD
  have hRun :=
    (((Transition.Run.nil.snoc hStepA).snoc hStepB).snoc
      hStepC).snoc hStepD
  exact ⟨heapD, hRun, hStartD, hWorldD⟩

theorem run_marked
    {heap : Heap}
    (hWorld : Consistent (filledWorld base heap) blocks) :
    Transition.Run Step (filledWorld base heap)
        (((fullLabels base).drop 4).take 3)
        (markedWorld base heap) ∧
      Consistent (markedWorld base heap) blocks := by
  have hSecond :
      Live.fresh (base + 16 + 24) 16 ∈
        (filledWorld base heap).live := by
    simp [filledWorld]
  rcases @Consistent.mark _ _ _ 4 hWorld hSecond
      (show 0 < 16 by decide) with ⟨hStepE, hWorldE⟩
  have hThird :=
    @World.mark_other (filledWorld base heap)
      (Live.fresh (base + 16 + 24) 16)
      (Live.fresh (base + 16 + 48) 4040) 4
      (by simp [filledWorld]) (by simp [Live.fresh])
  rcases @Consistent.mark _ _ _ 1 hWorldE hThird
      (show 0 < 4040 by decide) with ⟨hStepF, hWorldF⟩
  have hFirst :
      Live.fresh (base + 16 + 0) 16 ∈
        (((filledWorld base heap).mark
          (Live.fresh (base + 16 + 24) 16) 4).mark
          (Live.fresh (base + 16 + 48) 4040) 1).live :=
    World.mark_other
      (World.mark_other (by simp [filledWorld])
        (by simp [Live.fresh]))
      (by simp [Live.fresh])
  rcases @Consistent.mark _ _ _ 0 hWorldF hFirst
      (show 0 < 16 by decide) with ⟨hStepG, hWorldG⟩
  exact ⟨((Transition.Run.nil.snoc hStepE).snoc
    hStepF).snoc hStepG, hWorldG⟩

/- The writes are in the payloads that the client owns. -/
theorem marked_live
    {heap : Heap} :
    (Live.fresh (base + 16 + 24) 16).written 0 4 ∈
        (markedWorld base heap).live ∧
      (Live.fresh (base + 16 + 48) 4040).written 0 1 ∈
        (markedWorld base heap).live ∧
      (Live.fresh (base + 16 + 0) 16).written 0 0 ∈
        (markedWorld base heap).live := by
  refine ⟨?_, ?_, ?_⟩
  · exact World.mark_other
      (World.mark_other
        (World.mark_self (by simp [filledWorld]))
        (by simp [Live.fresh, Live.written]))
      (by simp [Live.fresh, Live.written])
  · exact World.mark_other
      (World.mark_self
        (World.mark_other (by simp [filledWorld])
          (by simp [Live.fresh])))
      (by simp [Live.fresh, Live.written])
  · exact World.mark_self
      (World.mark_other
        (World.mark_other (by simp [filledWorld])
          (by simp [Live.fresh]))
        (by simp [Live.fresh]))

/- What the client still owns. -/
theorem freed_live
    {heap : Heap}
    (hLive : payload ∈ (markedWorld base heap).live)
    (hNe : payload.ptr ≠ base + 16 + 0) :
    payload ∈ (freedWorld base heap).live := by
  unfold freedWorld
  dsimp only
  exact mem_without hLive hNe

theorem run_freed
    {heap : Heap}
    (hStart : heap.memStartBrk = base)
    (hWorld :
      Consistent (markedWorld base heap)
        (⟨BlockSize.ofRequest 16, true⟩ ::
          fullBlocks.tail)) :
    Step (markedWorld base heap)
        (.free (base + 16 + 0), null)
        (freedWorld base heap) ∧
      (freedWorld base heap).heap.memStartBrk = base ∧
      Consistent (freedWorld base heap) fullBlocks := by
  have hFirst := (@marked_live base heap).2.2
  rcases hWorld.free hFirst with ⟨hStartH, hNext⟩
  have hOffset :
      ((Live.fresh (base + 16 + 0) 16).written 0 0).ptr -
          (markedWorld base heap).heap.first =
        0 := by
    change base + 16 + 0 - (heap.memStartBrk + 16) = 0
    omega
  have hRelease :
      release
          (⟨BlockSize.ofRequest 16, true⟩ :: fullBlocks.tail)
          0 =
        fullBlocks := by
    decide
  rw [hOffset, hRelease] at hNext
  exact ⟨.free hFirst, hStartH.trans hStart, hNext⟩

/- The byte written last stays in the block released. -/
theorem freed_byte
    {heap : Heap}
    (hStart : heap.memStartBrk = base)
    (hWorld :
      Consistent (markedWorld base heap)
        (⟨BlockSize.ofRequest 16, true⟩ ::
          fullBlocks.tail)) :
    (freedWorld base heap).heap.mem (base + 16) = 0 := by
  have hHeap :
      Represents (markedWorld base heap).heap
        ([] ++ ⟨BlockSize.ofRequest 16, true⟩ ::
          fullBlocks.tail) :=
    hWorld.represents
  have hKept := mmFree_payload hHeap
  have hPtr :
      (markedWorld base heap).heap.first + extent [] =
        base + 16 := by
    change heap.memStartBrk + 16 + 0 = base + 16
    omega
  rw [hPtr] at hKept
  have hByte :
      (markedWorld base heap).heap.mem (base + 16) = 0 :=
    ByteMemory.writeWord_one
  have hRoom :
      base + 16 <
        base + 16 +
          (Block.mk (BlockSize.ofRequest 16) true).bytes -
            8 := by
    rw [show
      (Block.mk (BlockSize.ofRequest 16) true).bytes = 24 from
        rfl]
    omega
  exact (hKept (base + 16) (Nat.le_refl _) hRoom).trans hByte

theorem run_fullHeap :
    ∃ world,
      Transition.Run Step (World.start base mem)
          (fullLabels base) world ∧
        FullHeap base world := by
  rcases @run_filled base mem with
    ⟨heap, hFilled, hStart, hWorldD⟩
  rcases run_marked hWorldD with ⟨hMarked, hWorldG⟩
  rcases run_freed hStart hWorldG with ⟨hStepH, hStartH, hWorldH⟩
  rcases @marked_live base heap with ⟨hSecond, hThird, _⟩
  have hOwn := freed_live hSecond (by
    simp [Live.fresh, Live.written])
  have hNext := freed_live hThird (by
    simp [Live.fresh, Live.written])
  exact ⟨freedWorld base heap,
    (hFilled.append hMarked).snoc hStepH,
    { consistent := hWorldH
      start := hStartH
      live := hOwn
      freeByte := freed_byte hStart hWorldG
      ownByte := hWorldH.marked hOwn
      nextByte := hWorldH.marked hNext }⟩

namespace FullHeap

variable (hFull : FullHeap base world)

include hFull

/- Nothing of 32 bytes or more is left. -/
theorem malloc_fails
    {size : Nat}
    (hNone : (allocate fullBlocks size).2 = none)
    (hPositive : 0 < size)
    (hSize : size < 2 ^ 31) :
    MallocFails world.heap size := by
  rcases mmMalloc_spec hFull.consistent.represents hPositive
      hSize with ⟨heap, hCode, -⟩
  rw [hNone] at hCode
  exact ⟨heap, hCode⟩

theorem first_eq : world.heap.first = base + 16 := by
  unfold Heap.first
  rw [hFull.start]

/- What the branch reads around the second block. -/
theorem around :
    Around world.heap (base + 16 + 24)
      ⟨BlockSize.ofRequest 16, false⟩
      ⟨BlockSize.ofRequest 16, true⟩
      (Block.mk (BlockSize.ofRequest 4040) true).tag := by
  have hHeap :
      Represents world.heap
        ([⟨BlockSize.ofRequest 16, false⟩] ++
          ⟨BlockSize.ofRequest 16, true⟩ ::
            fullBlocks.drop 2) :=
    hFull.consistent.represents
  have hAround := hHeap.around
  rw [hFull.first_eq] at hAround
  exact hAround

theorem oldSize :
    getSize world.heap (hdrp (base + 16 + 24)) = 24 :=
  hFull.around.getSize_hdrp

theorem next_eq :
    nextBlkp world.heap (base + 16 + 24) = base + 16 + 48 :=
  hFull.around.nextBlkp_eq

theorem prev_eq :
    prevBlkp world.heap (base + 16 + 24) = base + 16 :=
  hFull.around.prevBlkp_eq

theorem prevSize :
    getSize world.heap (hdrp (base + 16)) = 24 := by
  rw [← hFull.prev_eq]
  exact hFull.around.getSize_prev

theorem next_taken :
    isAlloc world.heap (base + 16 + 48) = 1 := by
  rw [isAlloc_byte, hFull.nextByte]
  rfl

theorem prev_free : isAlloc world.heap (base + 16) = 0 :=
  isAlloc_of_byte hFull.freeByte

end FullHeap

end Malloc

end CsappLabs
