import CsappLabs.Lib.Transition
import CsappLabs.Malloc.Realloc
import Mathlib.Data.List.Nodup

/-
  Clients of the allocator, and what they may rely on.

  A client calls the package and writes into the payloads it
  holds. The world pairs the heap with the live payloads; it
  is consistent with a block list when the heap represents
  the list and the allocated blocks are the live payloads.
  Every step of a client keeps the world consistent with the
  list the abstract allocator computes.

  Key definitions include:
    * `World`, `Call`, `Step`
    * `serve`, `SpecStep`
    * `Consistent`

  Key theorems include:
    * `Step.simulated`
    * `heap_refines_block_list`
    * `live_payloads_safe`
    * `free_blocks_coalesced`
-/

------------------------------------------------------------
-- Worlds
------------------------------------------------------------

namespace CsappLabs

namespace Malloc

/- A live payload, and the bytes its client wrote into it. -/
structure Live where
  ptr : Nat
  size : Nat
  contents : Nat → Option UInt8

/- The allocated block that holds a live payload. -/
def Live.entry (payload : Live) : Nat × Block :=
  (payload.ptr, ⟨BlockSize.ofRequest payload.size, true⟩)

/- A payload as `mm_malloc` returns it. -/
def Live.fresh (ptr size : Nat) : Live where
  ptr := ptr
  size := size
  contents := fun _ => none

/- The payload after its client wrote one byte. -/
def Live.written
    (payload : Live) (offset : Nat) (byte : UInt8) :
    Live :=
  { payload with
    contents := fun i =>
      if i = offset then some byte else payload.contents i }

/- The payload after `mm_realloc`: the common part remains. -/
def Live.resized (payload : Live) (ptr size : Nat) :
    Live where
  ptr := ptr
  size := size
  contents := fun i =>
    if i < min payload.size size then
      payload.contents i
    else
      none

/- Memory holds the bytes that were written last. -/
def Live.HeldBy (payload : Live) (mem : ByteMemory) : Prop :=
  ∀ offset byte,
    payload.contents offset = some byte →
      offset < payload.size ∧
        mem (payload.ptr + offset) = byte

/- The process: the allocator's heap and the live payloads. -/
structure World where
  heap : Heap
  live : List Live

/- The world a call of `mm_init` leaves. -/
def World.ofInit (result : Heap × Int) : World where
  heap := result.1
  live := []

/- The world after `mm_init` on the memory at `base`. -/
def World.start (base : Nat) (mem : ByteMemory) : World :=
  World.ofInit (mmInit (memInit base mem))

/- The live payloads other than the one at `ptr`. -/
def without (live : List Live) (ptr : Nat) : List Live :=
  live.filter fun payload => payload.ptr ≠ ptr

/- What a client may do. -/
inductive Call where
| malloc (size : Nat)
| free (ptr : Nat)
| realloc (ptr size : Nat)
| write (ptr offset : Nat) (byte : UInt8)

/-
  `mm_realloc` does not reach its branch for a failed
  `mm_malloc`: it does not call it, or it gets a block.
-/
def InnerSucceeds (heap : Heap) (ptr size : Nat) : Prop :=
  adjustSize size = getSize heap (hdrp ptr) ∨
    ∃ heap' newptr,
      mmMalloc heap size = .ret heap' newptr ∧
        newptr ≠ null

/-
  One step of a client, labelled with the call and the value
  it returns. Frees and reallocations are of live payloads,
  and writes go inside them.
-/
inductive Step : World → Call × Nat → World → Prop
| malloc {world : World} {size ptr : Nat} {heap : Heap} :
    0 < size →
    size < 2 ^ 31 →
    mmMalloc world.heap size = .ret heap ptr →
    Step world (.malloc size, ptr)
      ⟨heap,
        if ptr = null then
          world.live
        else
          Live.fresh ptr size :: world.live⟩
| free {world : World} {payload : Live} :
    payload ∈ world.live →
    Step world (.free payload.ptr, null)
      ⟨mmFree world.heap payload.ptr,
        without world.live payload.ptr⟩
| reallocNull
    {world : World} {size ptr : Nat} {heap : Heap} :
    0 < size →
    size < 2 ^ 31 →
    mmRealloc world.heap null size = .ret heap ptr →
    Step world (.realloc null size, ptr)
      ⟨heap,
        if ptr = null then
          world.live
        else
          Live.fresh ptr size :: world.live⟩
| realloc
    {world : World} {payload : Live}
    {size ptr : Nat} {heap : Heap} :
    payload ∈ world.live →
    0 < size →
    size < 2 ^ 31 →
    InnerSucceeds world.heap payload.ptr size →
    mmRealloc world.heap payload.ptr size =
      .ret heap ptr →
    Step world (.realloc payload.ptr size, ptr)
      ⟨heap,
        payload.resized ptr size ::
          without world.live payload.ptr⟩
| write
    {world : World} {payload : Live}
    {offset : Nat} {byte : UInt8} :
    payload ∈ world.live →
    offset < payload.size →
    Step world (.write payload.ptr offset byte, null)
      ⟨{ world.heap with
          mem :=
            world.heap.mem.writeWord
              (payload.ptr + offset) 1 byte.toNat },
        world.live.map fun other =>
          if other.ptr = payload.ptr then
            other.written offset byte
          else
            other⟩

------------------------------------------------------------
-- The Abstract Allocator
------------------------------------------------------------

/-
  What a call does to the blocks from `start` on, and what
  it returns.
-/
def serve (start : Nat) (blocks : List Block) :
    Call → List Block × Nat
| .malloc size =>
    ((allocate blocks size).1,
      address start (allocate blocks size).2)
| .free ptr => (release blocks (ptr - start), null)
| .realloc ptr size =>
    if ptr = null then
      ((allocate blocks size).1,
        address start (allocate blocks size).2)
    else
      match
        Tiling.locate Block.bytes (ptr - start) blocks with
      | some (_, block, _) =>
          if block.size = BlockSize.ofRequest size then
            (blocks, ptr)
          else
            match (allocate blocks size).2 with
            | some offset =>
                (release (allocate blocks size).1
                    (ptr - start),
                  start + offset)
            | none => (blocks, null)
      | none => (blocks, null)
| .write _ _ _ => (blocks, null)

/- One step of the abstract allocator. -/
def SpecStep
    (start : Nat)
    (blocks : List Block)
    (label : Call × Nat)
    (blocks' : List Block) : Prop :=
  serve start blocks label.1 = (blocks', label.2)

------------------------------------------------------------
-- Consistency
------------------------------------------------------------

/- The heap and the live payloads agree on a block list. -/
structure Consistent
    (world : World) (blocks : List Block) : Prop where
  represents : Represents world.heap blocks
  live :
    (allocated world.heap.first blocks).Perm
      (world.live.map Live.entry)
  held :
    ∀ payload ∈ world.live,
      payload.HeldBy world.heap.mem

namespace Consistent

variable {world : World} {blocks : List Block}
variable {payload : Live} {size : Nat}

/- The block of a live payload. -/
theorem live_split
    (hWorld : Consistent world blocks)
    (hLive : payload ∈ world.live) :
    ∃ front back,
      blocks =
          front ++
            ⟨BlockSize.ofRequest payload.size, true⟩ ::
              back ∧
        payload.ptr = world.heap.first + extent front := by
  have hEntry :
      payload.entry ∈ allocated world.heap.first blocks :=
    hWorld.live.mem_iff.mpr (List.mem_map_of_mem hLive)
  exact Tiling.mem_placed_iff.mp
    (mem_allocated_iff.mp hEntry).1

/- A live payload is known by its address. -/
theorem eq_of_ptr
    {other : Live}
    (hWorld : Consistent world blocks)
    (hLive : payload ∈ world.live)
    (hOther : other ∈ world.live)
    (hPtr : other.ptr = payload.ptr) :
    other = payload := by
  have hNodup :
      ((world.live.map Live.entry).map Prod.fst).Nodup :=
    (hWorld.live.map Prod.fst).nodup_iff.mp nodup_allocated
  rw [List.map_map] at hNodup
  exact List.inj_on_of_nodup_map hNodup hOther hLive hPtr

theorem ptr_ne_null
    (hWorld : Consistent world blocks)
    (hLive : payload ∈ world.live) :
    payload.ptr ≠ null := by
  rcases hWorld.live_split hLive with ⟨_, _, _, hPtr⟩
  rw [hPtr]
  exact first_ne_null

/- The payload of a request ends before the footer. -/
theorem size_add_eight_le (size : Nat) :
    size + 8 ≤ (BlockSize.ofRequest size).bytes := by
  rw [BlockSize.bytes_ofRequest]
  omega

/- A payload stays held where its block keeps its bytes. -/
theorem held_of_sameOn
    {mem' : ByteMemory}
    (hWorld : Consistent world blocks)
    (hLive : payload ∈ world.live)
    (hSame :
      mem'.SameOn world.heap.mem
        (payload.ptr - 4)
        (payload.ptr - 4 +
          (BlockSize.ofRequest payload.size).bytes)) :
    payload.HeldBy mem' := by
  intro offset byte hByte
  rcases hWorld.held payload hLive offset byte hByte with
    ⟨hOffset, hMem⟩
  have hSize := size_add_eight_le payload.size
  refine ⟨hOffset, ?_⟩
  rw [← hMem]
  exact hSame _ (by omega) (by omega)

theorem without_perm
    {entries : List (Nat × Block)} {block : Block}
    (hWorld : Consistent world blocks)
    (hPerm :
      (allocated world.heap.first blocks).Perm
        ((payload.ptr, block) :: entries)) :
    entries.Perm
      ((without world.live payload.ptr).map
        Live.entry) := by
  have hMap :
      (without world.live payload.ptr).map Live.entry =
        (world.live.map Live.entry).filter
          fun entry => entry.1 ≠ payload.ptr := by
    rw [List.filter_map]
    rfl
  rw [hMap]
  exact
    (filter_perm_of_perm_cons hPerm
      nodup_allocated).symm.trans
    (hWorld.live.filter _)

/- A payload that is still live after another was removed. -/
theorem mem_of_without
    {other : Live}
    (hMember : other ∈ without world.live payload.ptr) :
    other ∈ world.live ∧ other.ptr ≠ payload.ptr := by
  simpa [without] using hMember

/- Releasing one payload keeps the block of another. -/
theorem bytes_of_keeps
    {heap : Heap} {front back : List Block} {block : Block}
    {other : Live}
    (hWorld :
      Consistent world (front ++ block :: back))
    (hAllocated : block.allocated = true)
    (hKeeps :
      KeepsAllocated world.heap heap
        (front ++ block.freed :: back))
    (hPtr :
      payload.ptr = world.heap.first + extent front)
    (hMember : other ∈ world.live)
    (hNe : other.ptr ≠ payload.ptr) :
    heap.mem.SameOn world.heap.mem
      (other.ptr - 4)
      (other.ptr - 4 +
        (BlockSize.ofRequest other.size).bytes) := by
  refine hKeeps.bytes other.ptr
    ⟨BlockSize.ofRequest other.size, true⟩ ?_
  refine (mem_allocated_freed_iff hAllocated).mpr
    ⟨hWorld.live.mem_iff.mpr
      (List.mem_map_of_mem hMember), ?_⟩
  rw [← hPtr]
  exact hNe

------------------------------------------------------------
-- The Calls
------------------------------------------------------------

/- `mm_malloc` adds the payload it returns. -/
theorem malloc
    (hWorld : Consistent world blocks)
    (hPositive : 0 < size)
    (hSize : size < 2 ^ 31) :
    ∃ heap,
      mmMalloc world.heap size =
        .ret heap
          (address world.heap.first
            (allocate blocks size).2) ∧
      heap.memStartBrk = world.heap.memStartBrk ∧
      Consistent
        ⟨heap,
          if
            address world.heap.first
              (allocate blocks size).2 = null
          then
            world.live
          else
            Live.fresh
                (address world.heap.first
                  (allocate blocks size).2)
                size ::
              world.live⟩
        (allocate blocks size).1 := by
  rcases mmMalloc_spec hWorld.represents hPositive hSize with
    ⟨heap, hCode, hRepr, hKeeps, hSame⟩
  have hFirst : heap.first = world.heap.first := by
    unfold Heap.first
    rw [hKeeps.start]
  have hHeld :
      ∀ payload ∈ world.live, payload.HeldBy heap.mem :=
    fun payload hLive =>
      hWorld.held_of_sameOn hLive
        (hKeeps.bytes _ _
          (hWorld.live.mem_iff.mpr
            (List.mem_map_of_mem hLive)))
  refine ⟨heap, hCode, hKeeps.start, hRepr, ?_, ?_⟩
  · cases hOffset : (allocate blocks size).2 with
    | none =>
        rw [allocate_none hOffset, hFirst, address,
          if_pos rfl]
        exact hWorld.live
    | some offset =>
        rw [address, if_neg first_ne_null, List.map_cons,
          hFirst]
        exact (allocated_allocate hOffset).trans
          (hWorld.live.cons _)
  · intro payload hLive
    cases hOffset : (allocate blocks size).2 with
    | none =>
        rw [hOffset, address, if_pos rfl] at hLive
        exact hHeld payload hLive
    | some offset =>
        rw [hOffset, address, if_neg first_ne_null] at hLive
        rcases List.mem_cons.mp hLive with rfl | hOld
        · intro offset byte hByte
          cases hByte
        · exact hHeld payload hOld

/- `mm_free` takes its payload away. -/
theorem free
    (hWorld : Consistent world blocks)
    (hLive : payload ∈ world.live) :
    (mmFree world.heap payload.ptr).memStartBrk =
        world.heap.memStartBrk ∧
      Consistent
        ⟨mmFree world.heap payload.ptr,
          without world.live payload.ptr⟩
        (release blocks
          (payload.ptr - world.heap.first)) := by
  rcases hWorld.live_split hLive with
    ⟨front, back, rfl, hPtr⟩
  rcases mmFree_spec hWorld.represents with ⟨hRepr, hKeeps⟩
  rw [← hPtr] at hRepr hKeeps
  have hFirst :
      (mmFree world.heap payload.ptr).first =
        world.heap.first := by
    unfold Heap.first
    rw [hKeeps.start]
  have hOffset :
      payload.ptr - world.heap.first = extent front := by
    omega
  rw [hOffset]
  refine ⟨hKeeps.start, ?_, ?_, ?_⟩
  · rw [release_eq]
    exact hRepr
  · rw [hFirst]
    have hReleased :=
      @allocated_release world.heap.first
        ⟨BlockSize.ofRequest payload.size, true⟩
        front back rfl
    rw [← hPtr] at hReleased
    exact hWorld.without_perm hReleased
  · intro other hOther
    rcases mem_of_without hOther with ⟨hMember, hNe⟩
    exact hWorld.held_of_sameOn hMember
      (hWorld.bytes_of_keeps rfl hKeeps hPtr hMember hNe)

/-
  What `mm_realloc` of a live payload does: the call returns,
  the abstract allocator agrees, and the common part of the
  payload keeps its bytes.
-/
structure Resizes
    (world : World) (blocks : List Block)
    (payload : Live) (size : Nat)
    (heap : Heap) (ptr : Nat) (blocks' : List Block) :
    Prop where
  code :
    mmRealloc world.heap payload.ptr size = .ret heap ptr
  served :
    serve world.heap.first blocks
        (.realloc payload.ptr size) =
      (blocks', ptr)
  start : heap.memStartBrk = world.heap.memStartBrk
  consistent :
    Consistent
      ⟨heap,
        payload.resized ptr size ::
          without world.live payload.ptr⟩
      blocks'
  kept :
    ∀ i, i < min payload.size size →
      heap.mem (ptr + i) =
        world.heap.mem (payload.ptr + i)

/- A resized payload is held where the common part was kept. -/
theorem held_resized
    {mem' : ByteMemory} {ptr : Nat}
    (hWorld : Consistent world blocks)
    (hLive : payload ∈ world.live)
    (hKept :
      ∀ i, i < min payload.size size →
        mem' (ptr + i) =
          world.heap.mem (payload.ptr + i)) :
    (payload.resized ptr size).HeldBy mem' := by
  intro i byte hByte
  simp only [Live.resized] at hByte ⊢
  split at hByte
  · have hHeld := hWorld.held payload hLive i byte hByte
    refine ⟨by omega, ?_⟩
    rw [← hHeld.2]
    exact hKept i (by omega)
  · cases hByte

theorem locate_live
    {front back : List Block} {block : Block}
    (hPtr :
      payload.ptr = world.heap.first + extent front) :
    Tiling.locate Block.bytes
        (payload.ptr - world.heap.first)
        (front ++ block :: back) =
      some (front, block, back) := by
  apply (Tiling.locate_eq_some_iff Block.bytes_pos).mpr
  refine ⟨rfl, ?_⟩
  unfold extent at hPtr
  omega

/- A payload that needs no other block stays in its own. -/
theorem realloc_same
    (hWorld : Consistent world blocks)
    (hLive : payload ∈ world.live)
    (hPositive : 0 < size)
    (hSize : size < 2 ^ 31)
    (hSame :
      BlockSize.ofRequest payload.size =
        BlockSize.ofRequest size) :
    Resizes world blocks payload size
      world.heap payload.ptr blocks := by
  have hNull := hWorld.ptr_ne_null hLive
  rcases hWorld.live_split hLive with
    ⟨front, back, rfl, hPtr⟩
  have hReleased :=
    @allocated_release world.heap.first
      ⟨BlockSize.ofRequest payload.size, true⟩
      front back rfl
  rw [← hPtr] at hReleased
  have hCode :=
    mmRealloc_same hWorld.represents hPositive hSize hSame
  rw [← hPtr] at hCode
  refine
    { code := hCode
      served := ?_
      start := rfl
      consistent := ⟨hWorld.represents, ?_, ?_⟩
      kept := fun _ _ => rfl }
  · simp only [serve]
    rw [if_neg hNull, locate_live hPtr]
    exact if_pos hSame
  · refine hReleased.trans ?_
    rw [List.map_cons, Live.entry, Live.resized, ← hSame]
    exact (hWorld.without_perm hReleased).cons _
  · intro other hOther
    rcases List.mem_cons.mp hOther with rfl | hRest
    · exact hWorld.held_resized hLive fun _ _ => rfl
    · exact hWorld.held other (mem_of_without hRest).1

/- A payload that needs another block moves there. -/
theorem realloc_move
    {offset : Nat}
    (hWorld : Consistent world blocks)
    (hLive : payload ∈ world.live)
    (hPositive : 0 < size)
    (hSize : size < 2 ^ 31)
    (hDiffer :
      BlockSize.ofRequest payload.size ≠
        BlockSize.ofRequest size)
    (hSome : (allocate blocks size).2 = some offset) :
    ∃ heap,
      Resizes world blocks payload size heap
        (world.heap.first + offset)
        (release (allocate blocks size).1
          (payload.ptr - world.heap.first)) := by
  have hNull := hWorld.ptr_ne_null hLive
  have hOldSize := size_add_eight_le payload.size
  have hNewSize := size_add_eight_le size
  rcases hWorld.live_split hLive with
    ⟨front, back, rfl, hPtr⟩
  rcases mmRealloc_move hWorld.represents rfl hPositive
      hSize hDiffer hSome with
    ⟨heap, hCode, hRepr, hKeeps, hPrefix⟩
  have hOffset :
      payload.ptr - world.heap.first = extent front := by
    omega
  have hReleased :=
    @allocated_release world.heap.first
      ⟨BlockSize.ofRequest payload.size, true⟩
      front back rfl
  have hMember :=
    hReleased.mem_iff.mpr List.mem_cons_self
  rw [← hPtr] at hCode hPrefix hReleased
  rw [hOffset]
  have hFirst : heap.first = world.heap.first := by
    unfold Heap.first
    rw [hKeeps.start]
  have hKept :
      ∀ i, i < min payload.size size →
        heap.mem (world.heap.first + offset + i) =
          world.heap.mem (payload.ptr + i) :=
    fun i hIndex =>
      hPrefix i (by simp only [Block.bytes_mk]; omega)
  refine ⟨heap,
    { code := hCode
      served := ?_
      start := hKeeps.start
      consistent := ⟨hRepr, ?_, ?_⟩
      kept := hKept }⟩
  · simp only [serve]
    rw [if_neg hNull, locate_live hPtr]
    simp only
    rw [if_neg hDiffer, hSome, hOffset]
  · rw [hFirst]
    exact (allocated_move hSome hMember).trans
      ((hWorld.without_perm hReleased).cons _)
  · intro other hOther
    rcases List.mem_cons.mp hOther with rfl | hRest
    · exact hWorld.held_resized hLive hKept
    · rcases mem_of_without hRest with ⟨hOld, hNe⟩
      exact hWorld.held_of_sameOn hOld
        (hWorld.bytes_of_keeps rfl hKeeps hPtr hOld hNe)

/- `mm_realloc` whose call of `mm_malloc` does not fail. -/
theorem realloc
    (hWorld : Consistent world blocks)
    (hLive : payload ∈ world.live)
    (hPositive : 0 < size)
    (hSize : size < 2 ^ 31)
    (hInner : InnerSucceeds world.heap payload.ptr size) :
    ∃ heap ptr blocks',
      Resizes world blocks payload size heap ptr
        blocks' := by
  by_cases hSame :
      BlockSize.ofRequest payload.size =
        BlockSize.ofRequest size
  · exact ⟨_, _, _,
      hWorld.realloc_same hLive hPositive hSize hSame⟩
  · have hSome : (allocate blocks size).2 ≠ none := by
      rcases hInner with hEarly | ⟨heap, newptr, hRet, hNew⟩
      · rcases hWorld.live_split hLive with
          ⟨front, back, rfl, hPtr⟩
        rw [hPtr] at hEarly
        exact absurd
          ((mmRealloc_size_iff hWorld.represents hSize).mp
            hEarly)
          hSame
      · intro hNone
        rcases mmMalloc_spec hWorld.represents hPositive
            hSize with
          ⟨heap, hCode, -⟩
        rw [hCode, hNone] at hRet
        cases hRet
        exact hNew rfl
    rcases Option.ne_none_iff_exists'.mp hSome with
      ⟨offset, hOffset⟩
    rcases hWorld.realloc_move hLive hPositive hSize hSame
        hOffset with
      ⟨heap, hResizes⟩
    exact ⟨heap, _, _, hResizes⟩

/- A client may write any byte of its payload. -/
theorem write
    {offset : Nat} {byte : UInt8}
    (hWorld : Consistent world blocks)
    (hLive : payload ∈ world.live)
    (hOffset : offset < payload.size) :
    Consistent
      ⟨{ world.heap with
          mem :=
            world.heap.mem.writeWord
              (payload.ptr + offset) 1 byte.toNat },
        world.live.map fun other =>
          if other.ptr = payload.ptr then
            other.written offset byte
          else
            other⟩
      blocks := by
  have hSize := size_add_eight_le payload.size
  have hEntry :
      ∀ other ∈ world.live,
        other.entry ∈ placed world.heap.first blocks :=
    fun other hOther =>
      (mem_allocated_iff.mp
        (hWorld.live.mem_iff.mpr
          (List.mem_map_of_mem hOther))).1
  refine ⟨?_, ?_, ?_⟩
  · exact hWorld.represents.payload (hEntry payload hLive)
      (ByteMemory.writeWord_sameOutside.mono
        (by omega)
        (by simp only [Block.bytes_mk]; omega))
  · rw [List.map_map]
    refine hWorld.live.trans (List.Perm.of_eq ?_)
    apply List.map_congr_left
    intro other _
    simp only [Function.comp_apply]
    split <;> rfl
  · intro other hOther
    rcases List.mem_map.mp hOther with
      ⟨before, hBefore, rfl⟩
    have hHeld := hWorld.held before hBefore
    by_cases hPtr : before.ptr = payload.ptr
    · have hEq := hWorld.eq_of_ptr hLive hBefore hPtr
      subst hEq
      rw [if_pos rfl]
      intro i value hValue
      simp only [Live.written] at hValue ⊢
      split at hValue
      · rename_i hIndex
        cases hValue
        rw [hIndex]
        exact ⟨hOffset, ByteMemory.writeWord_one⟩
      · rcases hHeld i value hValue with ⟨hIndex, hMem⟩
        refine ⟨hIndex, ?_⟩
        rw [ByteMemory.writeWord_outside (by omega)]
        exact hMem
    · rw [if_neg hPtr]
      have hApart :=
        Tiling.apart_of_mem_placed
          (hEntry before hBefore) (hEntry payload hLive)
          hPtr
      have hFirst :
          world.heap.first = world.heap.memStartBrk + 16 :=
        rfl
      have hBounds :=
        Tiling.bounds_of_mem_placed
          (hEntry before hBefore)
      have hBounds' :=
        Tiling.bounds_of_mem_placed (hEntry payload hLive)
      simp only [Block.bytes_mk] at hApart
      exact hWorld.held_of_sameOn hBefore
        (ByteMemory.writeWord_sameOutside.sameOn
          (by omega))

end Consistent

------------------------------------------------------------
-- Simulation
------------------------------------------------------------

variable {base size : Nat} {mem : ByteMemory}
variable {world world' : World} {label : Call × Nat}
variable {labels : List (Call × Nat)}
variable {blocks : List Block}

/- Every step is a step of the abstract allocator. -/
theorem Step.simulated
    (hStep : Step world label world')
    (hWorld : Consistent world blocks) :
    ∃ blocks',
      SpecStep world.heap.first blocks label blocks' ∧
        Consistent world' blocks' ∧
        world'.heap.memStartBrk = world.heap.memStartBrk := by
  cases hStep with
  | malloc hPositive hSize hCode =>
      rcases hWorld.malloc hPositive hSize with
        ⟨heap, hRet, hStart, hNext⟩
      rw [hCode] at hRet
      cases hRet
      exact ⟨_, rfl, hNext, hStart⟩
  | free hLive =>
      rcases hWorld.free hLive with ⟨hStart, hNext⟩
      exact ⟨_, rfl, hNext, hStart⟩
  | reallocNull hPositive hSize hCode =>
      rcases hWorld.malloc hPositive hSize with
        ⟨heap, hRet, hStart, hNext⟩
      have hNull : mmRealloc world.heap null _ = _ :=
        hCode
      unfold mmRealloc at hNull
      rw [if_pos rfl, hRet] at hNull
      cases hNull
      refine ⟨_, ?_, hNext, hStart⟩
      unfold SpecStep serve
      exact if_pos rfl
  | realloc hLive hPositive hSize hInner hCode =>
      rcases hWorld.realloc hLive hPositive hSize hInner
        with ⟨heap, ptr, blocks', hResizes⟩
      have hRet := hResizes.code
      rw [hCode] at hRet
      cases hRet
      exact
        ⟨blocks', hResizes.served, hResizes.consistent,
          hResizes.start⟩
  | write hLive hOffset =>
      exact ⟨_, rfl, hWorld.write hLive hOffset, rfl⟩

/- `mm_init` succeeds and leaves one free block. -/
theorem consistent_start :
    Consistent (World.start base mem)
        [⟨BlockSize.chunk, false⟩] ∧
      (World.start base mem).heap.memStartBrk = base := by
  rcases @mmInit_spec mem base with
    ⟨heap, hCode, hStart, hRepr⟩
  have hWorld : World.start base mem = ⟨heap, []⟩ := by
    unfold World.start
    rw [hCode]
    rfl
  rw [hWorld]
  refine ⟨⟨hRepr, ?_, ?_⟩, hStart⟩
  · exact List.Perm.of_eq (by simp)
  · intro payload hLive
    cases hLive

/- Every run is a run of the abstract allocator. -/
theorem run_simulated
    (hRun :
      Transition.Run Step (World.start base mem)
        labels world) :
    ∃ blocks,
      Transition.Run (SpecStep (base + 16))
          [⟨BlockSize.chunk, false⟩] labels blocks ∧
        Consistent world blocks ∧
        world.heap.memStartBrk = base := by
  apply hRun.simulation fun world blocks =>
    Consistent world blocks ∧ world.heap.memStartBrk = base
  · exact consistent_start
  · intro world blocks label world' hRelated hStep
    rcases hRelated with ⟨hWorld, hStart⟩
    rcases hStep.simulated hWorld with
      ⟨blocks', hSpec, hNext, hStart'⟩
    have hFirst : world.heap.first = base + 16 := by
      unfold Heap.first
      rw [hStart]
    rw [hFirst] at hSpec
    exact ⟨blocks', hSpec, hNext, hStart'.trans hStart⟩

------------------------------------------------------------
-- Refinement
------------------------------------------------------------

/-
  After every run the words of the heap decode to the block
  list that the abstract allocator computes for the same
  calls, with the same returned pointers; and `mm_malloc`
  returns for every request.
-/
theorem heap_refines_block_list
    (hRun :
      Transition.Run Step (World.start base mem)
        labels world) :
    ∃ blocks,
      Transition.Run (SpecStep (base + 16))
          [⟨BlockSize.chunk, false⟩] labels blocks ∧
        world.heap.memStartBrk = base ∧
        Represents world.heap blocks ∧
        ∀ size, 0 < size → size < 2 ^ 31 →
          ∃ heap ptr,
            mmMalloc world.heap size = .ret heap ptr := by
  rcases run_simulated hRun with
    ⟨blocks, hSpec, hWorld, hStart⟩
  refine ⟨blocks, hSpec, hStart, hWorld.represents, ?_⟩
  intro size hPositive hSize
  rcases hWorld.malloc hPositive hSize with
    ⟨heap, hCode, -⟩
  exact ⟨heap, _, hCode⟩

/- A call of `mm_malloc` as a step of a run. -/
theorem Consistent.malloc_step
    {offset : Nat}
    (hWorld : Consistent world blocks)
    (hStart : world.heap.memStartBrk = base)
    (hPositive : 0 < size)
    (hSize : size < 2 ^ 31)
    (hSome : (allocate blocks size).2 = some offset) :
    ∃ heap,
      Step world (.malloc size, base + 16 + offset)
          ⟨heap,
            Live.fresh (base + 16 + offset) size ::
              world.live⟩ ∧
        heap.memStartBrk = base ∧
        Consistent
          ⟨heap,
            Live.fresh (base + 16 + offset) size ::
              world.live⟩
          (allocate blocks size).1 := by
  have hFirst : world.heap.first = base + 16 := by
    unfold Heap.first
    rw [hStart]
  have hNe : base + 16 + offset ≠ null := by
    unfold null
    omega
  rcases hWorld.malloc hPositive hSize with
    ⟨heap, hCode, hKept, hNext⟩
  rw [hSome, hFirst, address] at hCode hNext
  rw [if_neg hNe] at hNext
  have hStep := Step.malloc hPositive hSize hCode
  rw [if_neg hNe] at hStep
  exact ⟨heap, hStep, hKept.trans hStart, hNext⟩

/- Two calls of `mm_malloc` on the initial heap. -/
theorem run_two :
    ∃ heap,
      Transition.Run Step (World.start base mem)
        [(.malloc 8, base + 16), (.malloc 8, base + 32)]
        ⟨heap,
          [Live.fresh (base + 32) 8,
           Live.fresh (base + 16) 8]⟩ := by
  rcases @consistent_start base mem with ⟨hWorld, hStart⟩
  have hTwo :
      (allocate [⟨BlockSize.chunk, false⟩] 8).2 = some 0 ∧
        (allocate (allocate [⟨BlockSize.chunk, false⟩] 8).1
          8).2 = some 16 := by
    decide
  rcases hTwo with ⟨hA, hB⟩
  rcases hWorld.malloc_step hStart (by decide) (by decide) hA
    with ⟨heapA, hStepA, hStartA, hWorldA⟩
  rcases hWorldA.malloc_step hStartA (by decide)
      (by decide) hB with
    ⟨heapB, hStepB, -, -⟩
  exact ⟨heapB, .snoc (.snoc .nil hStepA) hStepB⟩

section Pair

variable {heap : Heap} {left right : Live}

/- Writes into two payloads. -/
theorem run_write_both
    {i j : Nat} {a b : UInt8}
    (hRun :
      Transition.Run Step (World.start base mem) labels
        ⟨heap, [left, right]⟩)
    (hNe : left.ptr ≠ right.ptr)
    (hLeft : i < left.size)
    (hRight : j < right.size) :
    ∃ heap',
      Transition.Run Step (World.start base mem)
        (labels ++ [(.write left.ptr i a, null)] ++
          [(.write right.ptr j b, null)])
        ⟨heap', [left.written i a, right.written j b]⟩ := by
  have hFirst :=
    @Step.write ⟨heap, [left, right]⟩ left i a
      (by simp) hLeft
  simp only [List.map_cons, List.map_nil, if_true,
    if_neg hNe.symm] at hFirst
  have hSecond :=
    @Step.write
      ⟨{ heap with
          mem := heap.mem.writeWord (left.ptr + i) 1 a.toNat },
        [left.written i a, right]⟩ right j b
      (by simp) hRight
  have hWritten :
      (left.written i a).ptr ≠ right.ptr := hNe
  simp only [List.map_cons, List.map_nil, if_true,
    if_neg hWritten] at hSecond
  exact ⟨_, (hRun.snoc hFirst).snoc hSecond⟩

/- Both payloads are freed. -/
theorem run_free_both
    (hRun :
      Transition.Run Step (World.start base mem) labels
        ⟨heap, [left, right]⟩)
    (hNe : left.ptr ≠ right.ptr) :
    ∃ heap',
      Transition.Run Step (World.start base mem)
        (labels ++ [(.free left.ptr, null)] ++
          [(.free right.ptr, null)])
        ⟨heap', []⟩ := by
  have hFirst :=
    @Step.free ⟨heap, [left, right]⟩ left (by simp)
  have hRest : without [left, right] left.ptr = [right] := by
    simp [without, hNe.symm]
  have hNone : without [right] right.ptr = [] := by
    simp [without]
  rw [hRest] at hFirst
  have hSecond :=
    @Step.free ⟨mmFree heap left.ptr, [right]⟩ right
      (by simp)
  rw [hNone] at hSecond
  exact ⟨_, (hRun.snoc hFirst).snoc hSecond⟩

end Pair

/- Two neighbours that were allocated and freed. -/
theorem heap_refines_block_list_two :
    ∃ (world : World) (blocks : List Block),
      Transition.Run (SpecStep (1024 + 16))
          [⟨BlockSize.chunk, false⟩]
          [(.malloc 8, 1024 + 16), (.malloc 8, 1024 + 32),
           (.free (1024 + 32), null),
           (.free (1024 + 16), null)] blocks ∧
        world.heap.memStartBrk = 1024 ∧
        Represents world.heap blocks ∧
        ∀ size, 0 < size → size < 2 ^ 31 →
          ∃ heap ptr,
            mmMalloc world.heap size = .ret heap ptr := by
  rcases @run_two 1024 (fun _ => 0) with ⟨heap, hRun⟩
  rcases run_free_both hRun (by decide) with ⟨heap', hFreed⟩
  exact ⟨_, heap_refines_block_list hFreed⟩

------------------------------------------------------------
-- Safety
------------------------------------------------------------

/- Distinct live payloads lie in disjoint blocks. -/
theorem Consistent.disjoint
    (hWorld : Consistent world blocks) :
    world.live.Pairwise fun left right =>
      left.ptr + left.size ≤ right.ptr ∨
        right.ptr + right.size ≤ left.ptr := by
  have hPlaced :
      (allocated world.heap.first blocks).Pairwise
        fun left right : Nat × Block =>
          left.1 + left.2.bytes ≤ right.1 ∨
            right.1 + right.2.bytes ≤ left.1 :=
    (Tiling.pairwise_placed.sublist
      allocated_sublist_placed).imp Or.inl
  have hLive :=
    (hWorld.live.pairwise_iff fun h => h.symm).mp hPlaced
  refine (List.pairwise_map.mp hLive).imp ?_
  intro left right hApart
  have hLeft := size_add_eight_le left.size
  have hRight := size_add_eight_le right.size
  simp only [Live.entry, Block.bytes_mk] at hApart
  omega

theorem extent_mod (blocks : List Block) :
    extent blocks % 8 = 0 := by
  induction blocks with
  | nil => rfl
  | cons block blocks ih =>
      have hBytes := block.bytes_mod
      simp only [extent, Tiling.extent_cons] at ih ⊢
      omega

/- A live payload is aligned and inside the heap. -/
theorem Consistent.inside
    {payload : Live}
    (hWorld : Consistent world blocks)
    (hAligned : world.heap.memStartBrk % 8 = 0)
    (hLive : payload ∈ world.live) :
    payload.ptr % 8 = 0 ∧
      memHeapLo world.heap ≤ payload.ptr ∧
      payload.ptr + payload.size ≤
        memHeapHi world.heap + 1 := by
  have hFirst :
      world.heap.first = world.heap.memStartBrk + 16 := rfl
  have hBrk := hWorld.represents.memBrk
  have hSize := size_add_eight_le payload.size
  rcases hWorld.live_split hLive with
    ⟨front, back, rfl, hPtr⟩
  have hFront := extent_mod front
  simp only [extent, Tiling.extent_append,
    Tiling.extent_cons, Block.bytes_mk]
    at hBrk hFront hPtr
  unfold memHeapLo memHeapHi
  omega

/-
  What a client may rely on after every run: live payloads
  are aligned, inside the heap, pairwise disjoint, and hold
  what was written into them; and `mm_realloc` keeps the
  common part.
-/
theorem live_payloads_safe
    (hAligned : base % 8 = 0)
    (hRun :
      Transition.Run Step (World.start base mem)
        labels world) :
    (∀ payload ∈ world.live,
      payload.ptr % 8 = 0 ∧
        memHeapLo world.heap ≤ payload.ptr ∧
        payload.ptr + payload.size ≤
          memHeapHi world.heap + 1) ∧
    (world.live.Pairwise fun left right =>
      left.ptr + left.size ≤ right.ptr ∨
        right.ptr + right.size ≤ left.ptr) ∧
    (∀ payload ∈ world.live,
      payload.HeldBy world.heap.mem) ∧
    ∀ payload ∈ world.live,
      ∀ size, 0 < size → size < 2 ^ 31 →
        InnerSucceeds world.heap payload.ptr size →
        ∃ heap ptr,
          mmRealloc world.heap payload.ptr size =
              .ret heap ptr ∧
            ∀ i, i < min payload.size size →
              heap.mem (ptr + i) =
                world.heap.mem (payload.ptr + i) := by
  rcases run_simulated hRun with
    ⟨blocks, -, hWorld, hStart⟩
  rw [← hStart] at hAligned
  refine ⟨fun payload hLive => hWorld.inside hAligned hLive,
    hWorld.disjoint, hWorld.held, ?_⟩
  intro payload hLive size hPositive hSize hInner
  rcases hWorld.realloc hLive hPositive hSize hInner with
    ⟨heap, ptr, blocks', hResizes⟩
  exact ⟨heap, ptr, hResizes.code, hResizes.kept⟩

/- Two payloads, each with a byte written into it. -/
theorem live_payloads_safe_two :
    ∃ world : World,
      world.live =
          [(Live.fresh (1024 + 32) 8).written 3 9,
           (Live.fresh (1024 + 16) 8).written 0 7] ∧
        (world.live.Pairwise fun left right =>
          left.ptr + left.size ≤ right.ptr ∨
            right.ptr + right.size ≤ left.ptr) ∧
        ∀ payload ∈ world.live,
          payload.HeldBy world.heap.mem := by
  rcases @run_two 1024 (fun _ => 0) with ⟨heap, hRun⟩
  rcases
      @run_write_both _ _ _ _ _ _ 3 0 9 7 hRun (by decide)
        (by decide) (by decide) with
    ⟨heap', hWritten⟩
  have hSafe := live_payloads_safe (by decide) hWritten
  exact ⟨_, rfl, hSafe.2.1, hSafe.2.2.1⟩

------------------------------------------------------------
-- Coalescing
------------------------------------------------------------

/- The abstract allocator keeps its free blocks apart. -/
theorem SpecStep.coalesced
    {start : Nat} {blocks' : List Block}
    (hStep : SpecStep start blocks label blocks')
    (hBlocks : Coalesced blocks ∧ blocks ≠ []) :
    Coalesced blocks' ∧ blocks' ≠ [] := by
  rcases label with ⟨call, result⟩
  have hMalloc : ∀ size,
      Coalesced (allocate blocks size).1 ∧
        (allocate blocks size).1 ≠ [] :=
    fun size =>
      ⟨coalesced_allocate hBlocks.1,
        allocate_ne_nil hBlocks.2⟩
  have hRelease : ∀ list offset,
      Coalesced list ∧ list ≠ [] →
        Coalesced (release list offset) ∧
          release list offset ≠ [] :=
    fun list offset hList =>
      ⟨coalesced_release hList.1, release_ne_nil hList.2⟩
  unfold SpecStep at hStep
  cases call with
  | malloc size =>
      cases hStep
      exact hMalloc size
  | free ptr =>
      cases hStep
      exact hRelease _ _ hBlocks
  | realloc ptr size =>
      simp only [serve] at hStep
      split at hStep
      · cases hStep
        exact hMalloc size
      · split at hStep
        · split at hStep
          · cases hStep
            exact hBlocks
          · split at hStep
            · cases hStep
              exact hRelease _ _ (hMalloc size)
            · cases hStep
              exact hBlocks
        · cases hStep
          exact hBlocks
  | write ptr offset byte =>
      cases hStep
      exact hBlocks

/-
  After every run no two neighbours are both free and the
  blocks cover the heap; without a live payload it is one
  free block.
-/
theorem free_blocks_coalesced
    (hRun :
      Transition.Run Step (World.start base mem)
        labels world) :
    ∃ blocks,
      Represents world.heap blocks ∧
        Coalesced blocks ∧
        world.heap.memBrk =
          world.heap.memStartBrk + 16 +
            (blocks.map Block.bytes).sum ∧
        (world.live = [] →
          ∃ size, blocks = [⟨size, false⟩]) := by
  rcases run_simulated hRun with
    ⟨blocks, hSpec, hWorld, -⟩
  have hBlocks : Coalesced blocks ∧ blocks ≠ [] :=
    hSpec.invariant
      (fun blocks => Coalesced blocks ∧ blocks ≠ [])
      (by simp [Coalesced])
      fun _ _ _ hInv hStep => hStep.coalesced hInv
  refine ⟨blocks, hWorld.represents, hBlocks.1,
    hWorld.represents.memBrk, fun hEmpty => ?_⟩
  have hNone : allocated world.heap.first blocks = [] := by
    have hPerm := hWorld.live
    rw [hEmpty] at hPerm
    exact hPerm.eq_nil
  have hLength :=
    length_le_one_of_allocated_eq_nil hBlocks.1 hNone
  match blocks, hBlocks.2, hLength with
  | [block], _, _ =>
      rcases block with ⟨size, alloc⟩
      cases alloc with
      | false => exact ⟨size, rfl⟩
      | true => simp at hNone

/- Two neighbours, both freed, are one free block again. -/
theorem free_blocks_coalesced_two :
    ∃ (world : World) (size : BlockSize),
      Transition.Run Step (World.start 1024 fun _ => 0)
          [(.malloc 8, 1024 + 16), (.malloc 8, 1024 + 32),
           (.free (1024 + 32), null),
           (.free (1024 + 16), null)] world ∧
        Represents world.heap [⟨size, false⟩] := by
  rcases @run_two 1024 (fun _ => 0) with ⟨heap, hRun⟩
  rcases run_free_both hRun (by decide) with ⟨heap', hFreed⟩
  rcases free_blocks_coalesced hFreed with
    ⟨blocks, hRepr, -, -, hOne⟩
  rcases hOne rfl with ⟨size, rfl⟩
  exact ⟨_, size, hFreed, hRepr⟩

end Malloc

end CsappLabs
