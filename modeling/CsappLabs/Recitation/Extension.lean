import CsappLabs.Recitation.Placement

/-
  extend_heap on a represented heap.

  The new block is coalesced with a free block at the end.
  Where the last block is allocated, or there is none, case
  1 of coalesce_block is taken at the very end of the heap.

  Key definitions:
    * `Granted`
    * `appended`
    * `extension`
    * `Extended`

  Key theorems:
    * `extendHeap_refused`
    * `Represents.extendHeap_spec`
-/

------------------------------------------------------------
-- The Answer of mem_sbrk
------------------------------------------------------------

namespace CsappLabs

namespace Recitation

/- mem_sbrk gives `size` bytes. -/
def Granted
    (heap : Heap)
    (size : Nat) :
    Prop :=
  size < 2 ^ 63 ∧
    heap.memBrk + size ≤ heap.memMaxAddr ∧
      heap.osGrants heap.osCalls = true

instance (heap : Heap) (size : Nat) :
    Decidable (Granted heap size) :=
  inferInstanceAs (Decidable (_ ∧ _ ∧ _))

/- The heap as the system sees it after the request. -/
def grown
    (heap : Heap)
    (size : Nat) :
    Heap :=
  { heap with
    osCalls := heap.osCalls + 1
    memBrk := heap.memBrk + size }

theorem memSbrk_granted
    {heap : Heap}
    {size : Nat}
    (hGranted : Granted heap size) :
    memSbrk heap size =
      (grown heap size, some heap.memBrk) := by
  rcases hGranted with ⟨hSign, hMax, hOs⟩
  unfold memSbrk
  rw [if_neg (by omega), if_neg (by omega), if_pos hOs]
  rfl

theorem memSbrk_refused
    {heap : Heap}
    {size : Nat}
    (hRefused : ¬ Granted heap size) :
    ∃ calls,
      memSbrk heap size =
        ({ heap with osCalls := calls }, none) := by
  unfold memSbrk
  split_ifs with hSign hMax hOs
  · exact ⟨heap.osCalls, rfl⟩
  · exact ⟨heap.osCalls, rfl⟩
  · exact absurd ⟨by omega, by omega, hOs⟩ hRefused
  · exact ⟨heap.osCalls + 1, rfl⟩

theorem roundUp_aligned
    {size : Nat}
    (hAligned : size % 16 = 0)
    (hBound : size + 15 < 2 ^ 64) :
    roundUp size dsize = size := by
  simp only [roundUp, u64, dsize, wsize]
  omega

------------------------------------------------------------
-- The New Block
------------------------------------------------------------

/- The new free block before it is coalesced. -/
def appended
    (heap : Heap)
    (size : BlockSize) :
    Heap :=
  put
    (tagBlock (grown heap size.bytes) (heap.memBrk - 8)
      ⟨size, false⟩)
    (heap.memBrk - 8 + size.bytes) 1

theorem appended_rewrites
    {heap : Heap}
    (size : BlockSize)
    (hBrk : 8 ≤ heap.memBrk) :
    Rewrites (grown heap size.bytes) (appended heap size)
      (heap.memBrk - 8) (heap.memBrk + size.bytes) := by
  have hTag :
      Rewrites (grown heap size.bytes)
        (tagBlock (grown heap size.bytes) (heap.memBrk - 8)
          ⟨size, false⟩)
        (heap.memBrk - 8)
        (heap.memBrk - 8 + size.bytes) :=
    tagBlock_rewrites (by
      change heap.memBrk - 8 + size.bytes ≤
        heap.memBrk + size.bytes
      omega)
  have hEpilogue :
      Rewrites
        (tagBlock (grown heap size.bytes) (heap.memBrk - 8)
          ⟨size, false⟩)
        (appended heap size)
        (heap.memBrk - 8 + size.bytes)
        (heap.memBrk - 8 + size.bytes + 8) :=
    put_rewrites (by
      change heap.memBrk - 8 + size.bytes + 8 ≤
        heap.memBrk + size.bytes
      omega) 1
  exact (hTag.mono (Nat.le_refl _) (by omega)).trans
    (hEpilogue.mono (by omega) (by omega))

theorem Represents.appended_represents
    {heap : Heap}
    {blocks : List Block}
    {size : BlockSize}
    (hHeap : Represents heap blocks)
    (hGranted : Granted heap size.bytes) :
    Represents (appended heap size)
      (blocks ++ [⟨size, false⟩]) := by
  rcases hGranted with ⟨_, hMax, _⟩
  have hGt := hHeap.brk_gt
  have hBrk := hHeap.memBrk
  have hMaxLt := hHeap.maxAddr
  have hLeast := size.least
  have hFirst : heap.first = heap.heapLo + 8 := rfl
  have hBytes : Block.bytes ⟨size, false⟩ = size.bytes :=
    rfl
  have hOutside :=
    (appended_rewrites size (by omega :
      8 ≤ heap.memBrk)).mem
  refine
    { heapStart := hHeap.heapStart
      lo := hHeap.lo
      prologue := ?_
      tagged := ?_
      epilogue := ?_
      memBrk := ?_
      bounded := hMax
      maxAddr := hMaxLt }
  · rw [← hHeap.prologue]
    exact get_of_sameOn (hOutside.sameOn (by
      change heap.heapLo + 8 ≤ _ ∨ _ ≤ heap.heapLo
      omega))
  · intro p block hMember
    change (p, block) ∈ placed heap.first _ at hMember
    simp only [placed_append, placed_cons, placed_nil,
      List.mem_append, List.mem_singleton] at hMember
    rcases hMember with hOld | hNew
    · have hBounds := hHeap.bounds hOld
      exact (hHeap.tagged p block hOld).of_sameOn
        (hOutside.sameOn (by omega))
    · cases hNew
      have hAddress :
          heap.first + extent blocks = heap.memBrk - 8 := by
        omega
      rw [hAddress]
      have hTagged :
          Tagged
            (tagBlock (grown heap size.bytes)
              (heap.memBrk - 8) ⟨size, false⟩).mem
            (heap.memBrk - 8) ⟨size, false⟩ :=
        tagBlock_tagged _ (by
          rw [hBytes]
          omega)
      exact hTagged.of_sameOn
        (ByteMemory.writeWord_sameOutside.sameOn (by
          rw [hBytes]
          omega))
  · have hAddress :
        (appended heap size).memBrk - 8 =
          heap.memBrk - 8 + size.bytes := by
      change heap.memBrk + size.bytes - 8 = _
      omega
    rw [hAddress]
    exact get_put _ _ (by decide)
  · change heap.memBrk + size.bytes = heap.heapLo + 16 + _
    rw [extent_append, extent_cons, extent_nil, hBytes]
    omega

/- Memory beyond the old break keeps its old contents. -/
theorem appended_beyond
    (heap : Heap)
    (size : BlockSize)
    (hBrk : 8 ≤ heap.memBrk) :
    (appended heap size).mem.SameOn heap.mem
      heap.memBrk (heap.memBrk + size.bytes - 16) := by
  have hLeast := size.least
  have hBytes : Block.bytes ⟨size, false⟩ = size.bytes :=
    rfl
  have hHeader :
      ((grown heap size.bytes).mem.writeWord
          (heap.memBrk - 8) 8
          (Block.tag ⟨size, false⟩)).SameOn heap.mem
        heap.memBrk (heap.memBrk + size.bytes - 16) :=
    ByteMemory.writeWord_sameOutside.sameOn (by omega)
  refine
    (ByteMemory.writeWord_sameOutside.sameOn ?_).trans
      ((ByteMemory.writeWord_sameOutside.sameOn ?_).trans
        hHeader)
  · omega
  · rw [hBytes]
    omega

/- The new block is there and nothing else changed. -/
theorem Represents.appended_reshapes
    {heap : Heap}
    {blocks : List Block}
    {size : BlockSize}
    (hHeap : Represents heap blocks)
    (hGranted : Granted heap size.bytes) :
    Reshapes heap (appended heap size) blocks
        (blocks ++ [⟨size, false⟩]) ∧
      (appended heap size).overrun = heap.overrun := by
  have hGt := hHeap.brk_gt
  have hRewrites :=
    appended_rewrites size (by omega : 8 ≤ heap.memBrk)
  refine
    ⟨{ represents := hHeap.appended_represents hGranted
       keeps := ?_
       allocated := ?_ }, hRewrites.overrun⟩
  · refine ⟨rfl, ?_⟩
    intro p block hMember
    rw [mem_allocated] at hMember
    have hBounds := hHeap.bounds hMember.1
    exact hRewrites.mem.sameOn (by omega)
  · rw [allocated_append, allocated_cons]
    simp [allocated]

theorem Represents.extendHeap_eq
    {heap : Heap}
    {blocks : List Block}
    {size : BlockSize}
    (version : Version)
    (hHeap : Represents heap blocks)
    (hGranted : Granted heap size.bytes) :
    extendHeap version heap size.bytes =
      coalesceBlock version (appended heap size)
        (heap.memBrk - 8) := by
  have hMax := hGranted.2.1
  have hGt := hHeap.brk_gt
  have hMaxLt := hHeap.maxAddr
  have hLeast := size.least
  have hBytes : Block.bytes ⟨size, false⟩ = size.bytes :=
    rfl
  have hRound : roundUp size.bytes dsize = size.bytes :=
    roundUp_aligned size.aligned (by
      have hSign := hGranted.1
      omega)
  have hHeader :
      payloadToHeader heap.memBrk = heap.memBrk - 8 := by
    unfold payloadToHeader sub64 wsize
    omega
  have hPair :
      writeFooter
          (writeHeader (grown heap size.bytes)
            (heap.memBrk - 8) size.bytes false)
          (heap.memBrk - 8) size.bytes false =
        tagBlock (grown heap size.bytes) (heap.memBrk - 8)
          ⟨size, false⟩ :=
    @writeHeader_writeFooter (grown heap size.bytes)
      (heap.memBrk - 8) ⟨size, false⟩ (by
        rw [hBytes]
        omega)
  have hTagged :
      Tagged
        (tagBlock (grown heap size.bytes) (heap.memBrk - 8)
          ⟨size, false⟩).mem
        (heap.memBrk - 8) ⟨size, false⟩ :=
    tagBlock_tagged _ (by
      rw [hBytes]
      omega)
  have hNext :
      findNext
          (tagBlock (grown heap size.bytes)
            (heap.memBrk - 8) ⟨size, false⟩)
          (heap.memBrk - 8) =
        heap.memBrk - 8 + size.bytes := by
    rw [findNext,
      @getSize_of_get _ _ ⟨size, false⟩ hTagged.header (by
        rw [hBytes]
        omega),
      hBytes, u64, Nat.mod_eq_of_lt (by omega)]
  unfold extendHeap
  simp only [hRound, memSbrk_granted hGranted, hHeader,
    hPair, hNext]
  rfl

theorem extendHeap_refused
    {heap : Heap}
    {size : Nat}
    (version : Version)
    (hAligned : size % 16 = 0)
    (hBound : size + 15 < 2 ^ 64)
    (hRefused : ¬ Granted heap size) :
    ∃ calls,
      extendHeap version heap size =
        ({ heap with osCalls := calls }, null) := by
  rcases memSbrk_refused hRefused with ⟨calls, hSbrk⟩
  refine ⟨calls, ?_⟩
  unfold extendHeap
  simp only [roundUp_aligned hAligned hBound, hSbrk]

------------------------------------------------------------
-- The Block at the End
------------------------------------------------------------

/-
  Where an extension by `size` bytes leaves its free block,
  and with which size.
-/
def extension
    (heap : Heap)
    (size : Nat) :
    Nat × Nat :=
  let epilogue := heap.memBrk - wsize
  if extractAlloc (get heap (findPrevFooter epilogue)) then
    (epilogue, size)
  else
    (findPrev heap epilogue,
      getSize heap (findPrev heap epilogue) + size)

/- What extend_heap leaves: a free block at the end. -/
structure Extended
    (version : Version)
    (heap heap' : Heap)
    (size : Nat)
    (blocks front : List Block)
    (merged : Block) :
    Prop where
  reshapes : Reshapes heap heap' blocks (front ++ [merged])
  seam :
    (blocks = front ∧ extractAlloc (leftTag blocks) = true) ∨
      ∃ last, last.allocated = false ∧
        blocks = front ++ [last]
  free : merged.allocated = false
  size_le : size ≤ merged.bytes
  place :
    extension heap size =
      (heap.first + extent front, merged.bytes)
  last :
    heap.first + extent front + merged.bytes + 8 =
      heap.memBrk + size
  beyond :
    heap'.mem.SameOn heap.mem
      heap.memBrk (heap.memBrk + size - 16)
  payload :
    heap'.mem.SameOn heap.mem
      (heap.first + extent front + 8)
      (heap.first + extent front + 8 + 4)
  overrun :
    heap'.overrun =
      (heap.overrun ||
        decide (version = .mm2 ∧
          extractAlloc (leftTag blocks) = true))

/- The stamp of case 1 at the break. -/
theorem stamp_overrun
    {version : Version}
    {heap : Heap}
    {payload : Nat}
    (hBeyond : heap.memBrk < payload + 4) :
    (stamp version heap payload).overrun =
      (heap.overrun || decide (version = .mm2)) := by
  cases version with
  | mm => simp [stamp]
  | mm2 => simp [stamp, store, hBeyond]

theorem stamp_sameOn
    {version : Version}
    {heap : Heap}
    {payload low high : Nat}
    (hApart : high ≤ payload ∨ payload + 4 ≤ low) :
    (stamp version heap payload).mem.SameOn heap.mem
      low high := by
  cases version with
  | mm => exact ByteMemory.SameOn.refl
  | mm2 =>
      exact ByteMemory.writeWord_sameOutside.sameOn hApart

/- Case 1 at the end of the heap leaves the blocks alone. -/
theorem Represents.stamp_reshapes
    {heap : Heap}
    {front : List Block}
    {block : Block}
    (version : Version)
    (hHeap : Represents heap (front ++ [block])) :
    Reshapes heap
      (stamp version heap
        (heap.first + extent front + block.bytes + 8))
      (front ++ [block]) (front ++ [block]) where
  represents := hHeap.stamped version
  keeps := by
    constructor
    · cases version with
      | mm => rfl
      | mm2 => rfl
    · intro p other hMember
      rw [mem_allocated] at hMember
      have hBounds := bounds_of_placed hMember.1
      rw [extent_append, extent_cons, extent_nil] at hBounds
      exact stamp_sameOn (by omega)
  allocated := rfl

theorem Represents.findPrevFooter_brk
    {heap : Heap}
    {blocks : List Block}
    (hHeap : Represents heap blocks) :
    get heap (findPrevFooter (heap.memBrk - wsize)) =
      leftTag blocks := by
  have hBrk := hHeap.memBrk
  have hLt := hHeap.brk_lt
  have hFirst : heap.first = heap.heapLo + 8 := rfl
  have hAddress :
      findPrevFooter (heap.memBrk - wsize) =
        heap.first + extent blocks - 8 := by
    unfold findPrevFooter sub64 wsize
    omega
  have hSplit : blocks = blocks ++ [] := by
    simp
  rw [hAddress]
  rw [hSplit] at hHeap
  exact hHeap.leftTag_eq

/- No free block at the end: the new block stays alone. -/
theorem Represents.extend_full
    {heap : Heap}
    {blocks : List Block}
    {size : BlockSize}
    (version : Version)
    (hHeap : Represents heap blocks)
    (hGranted : Granted heap size.bytes)
    (hLast : extractAlloc (leftTag blocks) = true) :
    ∃ heap',
      extendHeap version heap size.bytes =
          (heap', heap.first + extent blocks) ∧
        Extended version heap heap' size.bytes
          blocks blocks ⟨size, false⟩ := by
  have hBrk := hHeap.memBrk
  have hGt := hHeap.brk_gt
  have hFirst : heap.first = heap.heapLo + 8 := rfl
  have hAddress :
      heap.first + extent blocks = heap.memBrk - 8 := by
    omega
  have hBytes : Block.bytes ⟨size, false⟩ = size.bytes :=
    rfl
  rcases hHeap.appended_reshapes hGranted with
    ⟨hReshapes, hOverrun⟩
  have hAround := hReshapes.represents.around
  have hAfterFirst : (appended heap size).first =
      heap.first := rfl
  rw [hAfterFirst] at hAround
  have hCode :=
    coalesceBlock_neither version hAround hLast rfl
  have hStamp :=
    hReshapes.represents.stamp_reshapes version
  rw [hAfterFirst] at hStamp
  have hLeast := size.least
  have hBeyond :
      (stamp version (appended heap size)
          (heap.first + extent blocks +
            Block.bytes ⟨size, false⟩ + 8)).mem.SameOn
        heap.mem heap.memBrk
        (heap.memBrk + size.bytes - 16) := by
    refine (stamp_sameOn ?_).trans
      (appended_beyond heap size (by omega))
    rw [hBytes]
    omega
  refine ⟨_, ?_,
    { reshapes := hReshapes.trans hStamp
      seam := .inl ⟨rfl, hLast⟩
      free := rfl
      size_le := Nat.le_refl _
      place := ?_
      last := ?_
      beyond := hBeyond
      payload := hBeyond.mono (by omega) (by omega)
      overrun := ?_ }⟩
  · rw [hHeap.extendHeap_eq version hGranted, ← hAddress]
    exact hCode
  · unfold extension
    simp only [hHeap.findPrevFooter_brk, hLast, if_true,
      hBytes]
    rw [hAddress]
    rfl
  · rw [hBytes]
    omega
  · rw [stamp_overrun (by
      change heap.memBrk + size.bytes < _
      rw [hBytes]
      omega), hOverrun]
    simp [hLast]

/- A free block at the end takes the new block in. -/
theorem Represents.extend_free
    {heap : Heap}
    {front : List Block}
    {last : Block}
    {size : BlockSize}
    (version : Version)
    (hHeap : Represents heap (front ++ [last]))
    (hGranted : Granted heap size.bytes)
    (hFree : last.allocated = false) :
    ∃ heap',
      extendHeap version heap size.bytes =
          (heap', heap.first + extent front) ∧
        Extended version heap heap' size.bytes
          (front ++ [last]) front
          (last.join ⟨size, false⟩) := by
  have hBrk := hHeap.memBrk
  have hGt := hHeap.brk_gt
  have hLt := hHeap.brk_lt
  have hLeast := size.least
  have hLastLeast := last.bytes_least
  have hFirst : heap.first = heap.heapLo + 8 := rfl
  have hBytes : Block.bytes ⟨size, false⟩ = size.bytes :=
    rfl
  have hLastAlloc :
      extractAlloc last.tag = false := by
    rw [last.extractAlloc_tag, hFree]
  rcases hHeap.appended_reshapes hGranted with
    ⟨hReshapes, hOverrun⟩
  have hAfter := hReshapes.represents
  have hAfterFirst : (appended heap size).first =
      heap.first := rfl
  have hSplit :
      front ++ [last] ++ [⟨size, false⟩] =
        front ++ last :: ⟨size, false⟩ :: [] := by
    simp
  rw [hSplit] at hAfter hReshapes
  rcases hAfter.coalesce_prev version hFree rfl rfl with
    ⟨hCode, hJoin, hJoinOverrun⟩
  rw [hAfterFirst] at hCode hJoin hJoinOverrun
  rw [extent_append, extent_cons, extent_nil] at hBrk hCode
  have hAddress :
      heap.first + (extent front + (last.bytes + 0)) =
        heap.memBrk - 8 := by
    omega
  refine ⟨_, ?_,
    { reshapes := hReshapes.trans hJoin
      seam := .inr ⟨last, hFree, rfl⟩
      free := rfl
      size_le := by simp [hBytes]
      place := ?_
      last := ?_
      beyond := ?_
      payload := ?_
      overrun := ?_ }⟩
  · rw [hHeap.extendHeap_eq version hGranted, ← hAddress]
    exact hCode
  · have hPrev :
        findPrev heap (heap.memBrk - wsize) =
          heap.first + extent front := by
      rw [findPrev, hHeap.findPrevFooter_brk,
        leftTag_concat, last.extractSize_tag (by omega)]
      unfold sub64 wsize
      omega
    have hTagged :
        Tagged heap.mem (heap.first + extent front) last :=
      hHeap.tagged _ _ (by simp)
    have hSize :
        getSize heap (heap.first + extent front) =
          last.bytes :=
      getSize_of_get hTagged.header (by omega)
    unfold extension
    simp only [hHeap.findPrevFooter_brk, leftTag_concat,
      hLastAlloc, hPrev, hSize, Block.bytes_join, hBytes]
    simp
  · rw [Block.bytes_join, hBytes]
    omega
  · refine ByteMemory.SameOn.trans ?_
      (appended_beyond heap size (by omega))
    refine
      (ByteMemory.writeWord_sameOutside.sameOn ?_).trans
        (ByteMemory.writeWord_sameOutside.sameOn ?_)
    · rw [Block.bytes_join, hBytes]
      omega
    · unfold wsize
      omega
  · refine ByteMemory.SameOn.trans ?_
      ((appended_rewrites size (by omega :
        8 ≤ heap.memBrk)).mem.sameOn (.inl (by omega)))
    refine
      (ByteMemory.writeWord_sameOutside.sameOn ?_).trans
        (ByteMemory.writeWord_sameOutside.sameOn ?_)
    · rw [Block.bytes_join, hBytes]
      omega
    · unfold wsize
      omega
  · rw [hJoinOverrun, hOverrun, leftTag_concat, hLastAlloc]
    simp

theorem Represents.extendHeap_spec
    {heap : Heap}
    {blocks : List Block}
    {size : BlockSize}
    (version : Version)
    (hHeap : Represents heap blocks)
    (hGranted : Granted heap size.bytes) :
    ∃ heap' front merged,
      extendHeap version heap size.bytes =
          (heap', heap.first + extent front) ∧
        Extended version heap heap' size.bytes
          blocks front merged := by
  by_cases hLast : extractAlloc (leftTag blocks) = true
  · rcases hHeap.extend_full version hGranted hLast with
      ⟨heap', hCode, hExtended⟩
    exact ⟨heap', blocks, _, hCode, hExtended⟩
  · rcases List.eq_nil_or_concat blocks with
      rfl | ⟨front, last, rfl⟩
    · exact absurd rfl hLast
    · rw [List.concat_eq_append] at hHeap hLast ⊢
      have hFree : last.allocated = false := by
        rw [leftTag_concat, last.extractAlloc_tag,
          Bool.not_eq_true] at hLast
        exact hLast
      rcases hHeap.extend_free version hGranted hFree with
        ⟨heap', hCode, hExtended⟩
      exact ⟨heap', front, _, hCode, hExtended⟩

end Recitation

end CsappLabs
