import CsappLabs.Recitation.Extension

/-
  malloc and free on a represented heap.

  Key definitions:
    * `chosen`
    * `Overextends`
    * `Allotted`
    * `Released`

  Key theorems:
    * `Fresh.mmInit_spec`
    * `Represents.malloc_spec`
    * `Represents.free_spec`
-/

------------------------------------------------------------
-- mm_init
------------------------------------------------------------

namespace CsappLabs

namespace Recitation

/- The memory system after mem_init or mem_reset_brk. -/
structure Fresh
    (heap : Heap) :
    Prop where
  memBrk : heap.memBrk = heap.heapLo
  lo : 0 < heap.heapLo
  maxAddr : heap.memMaxAddr < 2 ^ 64

def BlockSize.chunk : BlockSize where
  bytes := chunksize
  aligned := by
    decide
  least := by
    decide

/- The prologue and the epilogue, side by side. -/
def emptyHeap
    (heap : Heap) :
    Heap :=
  { put (put (grown heap 16) heap.memBrk 1)
      (heap.memBrk + 8) 1 with
    heapStart := heap.memBrk + 8 }

theorem Fresh.emptyHeap_represents
    {heap : Heap}
    (hFresh : Fresh heap)
    (hGranted : Granted heap 16) :
    Represents (emptyHeap heap) [] := by
  have hBrk := hFresh.memBrk
  refine
    { heapStart := ?_
      lo := hFresh.lo
      prologue := ?_
      tagged := ?_
      epilogue := ?_
      memBrk := ?_
      bounded := hGranted.2.1
      maxAddr := hFresh.maxAddr }
  · change heap.memBrk + 8 = heap.heapLo + 8
    rw [hBrk]
  · change get (put (put (grown heap 16) heap.memBrk 1)
      (heap.memBrk + 8) 1) heap.heapLo = 1
    rw [get_put_apart _ (by omega), hBrk,
      get_put _ _ (by decide)]
  · intro p block hMember
    exact absurd hMember List.not_mem_nil
  · change get (put (put (grown heap 16) heap.memBrk 1)
      (heap.memBrk + 8) 1) (heap.memBrk + 16 - 8) = 1
    exact get_put _ _ (by decide)
  · change heap.memBrk + 16 = heap.heapLo + 16 + 0
    rw [hBrk]

/- A successful mm_init leaves no block allocated. -/
theorem Fresh.mmInit_spec
    {heap : Heap}
    (version : Version)
    (hFresh : Fresh heap)
    (hInit : (mmInit version heap).2 = true) :
    ∃ blocks,
      Represents (mmInit version heap).1 blocks ∧
        allocated (mmInit version heap).1.first blocks =
          [] := by
  by_cases hGranted : Granted heap 16
  · have hCode :
        mmInit version heap =
          ((extendHeap version (emptyHeap heap)
              BlockSize.chunk.bytes).1,
            decide ((extendHeap version (emptyHeap heap)
              BlockSize.chunk.bytes).2 ≠ null)) := by
      have hSbrk := memSbrk_granted hGranted
      unfold mmInit
      simp only [show 2 * wsize = 16 from rfl, hSbrk]
      rfl
    rw [hCode] at hInit ⊢
    have hEmpty := hFresh.emptyHeap_represents hGranted
    by_cases hMore :
        Granted (emptyHeap heap) BlockSize.chunk.bytes
    · rcases hEmpty.extendHeap_spec version hMore with
        ⟨heap', front, merged, hExtend, hExtended⟩
      have hReshapes := hExtended.reshapes
      rw [hExtend]
      refine ⟨_, hReshapes.represents, ?_⟩
      rw [hReshapes.keeps.first, hReshapes.allocated]
      rfl
    · rcases
          extendHeap_refused version
            BlockSize.chunk.aligned (by decide) hMore with
        ⟨calls, hExtend⟩
      rw [hExtend] at hInit
      simp at hInit
  · rcases memSbrk_refused hGranted with ⟨calls, hSbrk⟩
    have hCode :
        mmInit version heap =
          ({ heap with osCalls := calls }, false) := by
      unfold mmInit
      simp only [show 2 * wsize = 16 from rfl, hSbrk]
    rw [hCode] at hInit
    cases hInit

------------------------------------------------------------
-- malloc
------------------------------------------------------------

/- The block size that malloc computes for a request. -/
def adjusted
    (size : Nat) :
    Nat :=
  roundUp (u64 (size + dsize)) dsize

theorem adjusted_eq
    {size : Nat}
    (hSize : 0 < size)
    (hBound : size + 31 < 2 ^ 64) :
    adjusted size = (BlockSize.ofRequest size hSize).bytes := by
  simp only [adjusted, roundUp, u64, dsize, wsize,
    BlockSize.ofRequest]
  omega

/-
  The block of which a request for `asize` bytes is cut, and
  its size; none where mem_sbrk refuses.
-/
def chosen
    (heap : Heap)
    (asize : Nat) :
    Option (Nat × Nat) :=
  match findFit heap asize with
  | none => none
  | some block =>
      if block ≠ null then
        some (block, getSize heap block)
      else if Granted heap (max asize chunksize) then
        some (extension heap (max asize chunksize))
      else
        none

/-
  The request extends a heap that has no free block at its
  end.
-/
def Overextends
    (heap : Heap)
    (asize : Nat) :
    Prop :=
  findFit heap asize = some null ∧
    Granted heap (max asize chunksize) ∧
      extractAlloc
        (get heap (findPrevFooter (heap.memBrk - wsize))) =
          true

instance (heap : Heap) (asize : Nat) :
    Decidable (Overextends heap asize) :=
  inferInstanceAs (Decidable (_ ∧ _ ∧ _))

/- A free block for a request, found or made. -/
structure Found
    (version : Version)
    (heap heap' : Heap)
    (need : BlockSize)
    (blocks front back : List Block)
    (found : Block) :
    Prop where
  reshapes :
    Reshapes heap heap' blocks (front ++ found :: back)
  origin :
    Overextends heap need.bytes ∨
      ∃ given, given.allocated = false ∧
        blocks = front ++ given :: back ∧
          (back ≠ [] → given = found)
  free : found.allocated = false
  large : need.bytes ≤ found.bytes
  chosen :
    chosen heap need.bytes =
      some (heap.first + extent front, found.bytes)
  word :
    need.bytes + 32 ≤ found.bytes →
      get heap'
          (heap.first + extent front + need.bytes) =
        get heap (heap.first + extent front + need.bytes)
  payload :
    heap'.mem.SameOn heap.mem
      (heap.first + extent front + 8)
      (heap.first + extent front + 8 + 4)
  overrun :
    heap'.overrun =
      (heap.overrun ||
        decide (version = .mm2 ∧
          Overextends heap need.bytes))

theorem Reshapes.refl
    {heap : Heap}
    {blocks : List Block}
    (hHeap : Represents heap blocks) :
    Reshapes heap heap blocks blocks where
  represents := hHeap
  keeps := Keeps.refl heap blocks
  allocated := rfl

/- The extension for a request of `need` bytes. -/
def BlockSize.extend
    (need : BlockSize) :
    BlockSize where
  bytes := max need.bytes chunksize
  aligned := by
    have hNeed := need.aligned
    have hChunk := BlockSize.chunk.aligned
    rcases Nat.le_total need.bytes chunksize with hLe | hLe
    · rw [Nat.max_eq_right hLe]
      exact hChunk
    · rw [Nat.max_eq_left hLe]
      exact hNeed
  least := by
    have hNeed := need.least
    exact hNeed.trans (Nat.le_max_left _ _)

/- find_fit finds a block. -/
theorem Represents.found_fit
    {heap : Heap}
    {blocks front back : List Block}
    {found : Block}
    {need : BlockSize}
    (version : Version)
    (hHeap : Represents heap blocks)
    (hSplit :
      Tiling.firstSplit (fits need.bytes) blocks =
        some (front, found, back)) :
    findFit heap need.bytes =
        some (heap.first + extent front) ∧
      heap.first + extent front ≠ null ∧
      Found version heap heap need blocks front back
        found := by
  rcases Tiling.firstSplit_eq_some_iff.mp hSplit with
    ⟨rfl, hFits, _⟩
  have hFit :
      findFit heap need.bytes =
        some (heap.first + extent front) := by
    rw [hHeap.findFit_eq, hSplit]
    rfl
  have hNonnull := heap.first_ne_null (extent front)
  have hTest :
      found.allocated = false ∧
        need.bytes ≤ found.bytes := by
    simpa [fits] using hFits
  have hNot : ¬ Overextends heap need.bytes := by
    rintro ⟨hNull, _⟩
    rw [hFit] at hNull
    exact hNonnull (Option.some.inj hNull)
  refine ⟨hFit, hNonnull,
    { reshapes := Reshapes.refl hHeap
      origin := .inr ⟨found, hTest.1, rfl, fun _ => rfl⟩
      free := hTest.1
      large := hTest.2
      chosen := ?_
      word := fun _ => rfl
      payload := ByteMemory.SameOn.refl
      overrun := by simp [hNot] }⟩
  unfold Recitation.chosen
  rw [hFit]
  simp only [if_pos hNonnull, hHeap.around.getSize_eq]

/- A free block made by extend_heap serves the request. -/
theorem Extended.found
    {version : Version}
    {heap heap' : Heap}
    {need : BlockSize}
    {blocks front : List Block}
    {merged : Block}
    (hHeap : Represents heap blocks)
    (hFit : findFit heap need.bytes = some null)
    (hNone :
      Tiling.firstSplit (fits need.bytes) blocks = none)
    (hGranted : Granted heap need.extend.bytes)
    (hExtended :
      Extended version heap heap' need.extend.bytes
        blocks front merged) :
    Found version heap heap' need blocks front []
      merged where
  reshapes := hExtended.reshapes
  origin := by
    rcases hExtended.seam with
      ⟨_, hLast⟩ | ⟨last, hLastFree, hBlocks⟩
    · rw [← hHeap.findPrevFooter_brk] at hLast
      exact .inl ⟨hFit, hGranted, hLast⟩
    · exact .inr ⟨last, hLastFree, hBlocks,
        fun hBack => absurd rfl hBack⟩
  free := hExtended.free
  large := by
    have hSize := hExtended.size_le
    exact (Nat.le_max_left _ _).trans hSize
  chosen := by
    unfold Recitation.chosen
    rw [hFit]
    simp only [ne_eq, not_true, if_false]
    change (if Granted heap need.extend.bytes then
      some (extension heap need.extend.bytes) else none) = _
    rw [if_pos hGranted, hExtended.place]
  word := by
    intro hRest
    have hLast := hExtended.last
    have hSize := hExtended.size_le
    have hBrk := hHeap.memBrk
    have hNeed : need.bytes ≤ need.extend.bytes :=
      Nat.le_max_left _ _
    have hFirst : heap.first = heap.heapLo + 8 := rfl
    have hLeast := need.least
    -- The remainder starts in memory beyond the old break:
    -- a free last block is too small for the request.
    have hBeyond :
        heap.memBrk ≤
          heap.first + extent front + need.bytes := by
      rcases hExtended.seam with
        ⟨rfl, _⟩ | ⟨last, hLastFree, rfl⟩
      · omega
      · have hSmall : last.bytes < need.bytes := by
          have hMember : last ∈ front ++ [last] := by
            simp
          have hTest :=
            Tiling.firstSplit_eq_none_iff.mp hNone
              last hMember
          simpa [fits, hLastFree] using hTest
        have hLastMod := last.bytes_mod
        have hNeedMod := need.aligned
        rw [extent_append, extent_cons, extent_nil] at hBrk
        omega
    exact get_of_sameOn
      (hExtended.beyond.mono hBeyond (by omega))
  payload := hExtended.payload
  overrun := by
    rw [hExtended.overrun]
    have hIff :
        extractAlloc (leftTag blocks) = true ↔
          Overextends heap need.bytes := by
      unfold Overextends
      rw [hHeap.findPrevFooter_brk]
      exact ⟨fun hLast => ⟨hFit, hGranted, hLast⟩,
        fun hOver => hOver.2.2⟩
    simp only [hIff]

/- malloc takes the block that find_fit found. -/
theorem mallocFrom_fit
    {heap : Heap}
    {size block : Nat}
    (version : Version)
    (hSize : 0 < size)
    (hFit : findFit heap (adjusted size) = some block)
    (hNonnull : block ≠ null) :
    mallocFrom version heap size =
      some (placeBlock version heap block
        (adjusted size)) := by
  have hRound :
      roundUp (u64 (size + dsize)) dsize = adjusted size :=
    rfl
  unfold mallocFrom
  simp only [if_neg (Nat.ne_of_gt hSize), hRound, hFit,
    if_pos hNonnull]

/- malloc takes the block that extend_heap made. -/
theorem mallocFrom_extend
    {heap heap' : Heap}
    {size block : Nat}
    {version : Version}
    (hSize : 0 < size)
    (hFit : findFit heap (adjusted size) = some null)
    (hExtend :
      extendHeap version heap
          (max (adjusted size) chunksize) =
        (heap', block)) :
    mallocFrom version heap size =
      if block = null then
        some (heap', null)
      else
        some (placeBlock version heap' block
          (adjusted size)) := by
  have hRound :
      roundUp (u64 (size + dsize)) dsize = adjusted size :=
    rfl
  unfold mallocFrom
  simp only [if_neg (Nat.ne_of_gt hSize), hRound, hFit,
    ne_eq, not_true, if_false, hExtend]

theorem Represents.findFit_none
    {heap : Heap}
    {blocks : List Block}
    {asize : Nat}
    (hHeap : Represents heap blocks)
    (hNone :
      Tiling.firstSplit (fits asize) blocks = none) :
    findFit heap asize = some null := by
  rw [hHeap.findFit_eq, hNone]
  rfl

/- The refusal of an extension that malloc asks for. -/
theorem mallocFrom_refused
    {heap : Heap}
    {size : Nat}
    {need : BlockSize}
    (version : Version)
    (hSize : 0 < size)
    (hNeed : adjusted size = need.bytes)
    (hBound : need.bytes + 15 < 2 ^ 64)
    (hFit : findFit heap (adjusted size) = some null)
    (hRefused : ¬ Granted heap need.extend.bytes) :
    ∃ calls,
      mallocFrom version heap size =
        some ({ heap with osCalls := calls }, null) := by
  have hExtendBound :
      need.extend.bytes + 15 < 2 ^ 64 := by
    change max need.bytes chunksize + 15 < 2 ^ 64
    have hChunk : chunksize = 4096 := rfl
    omega
  rcases
      extendHeap_refused version need.extend.aligned
        hExtendBound hRefused with
    ⟨calls, hCode⟩
  refine ⟨calls, ?_⟩
  have hMax :
      max (adjusted size) chunksize =
        need.extend.bytes := by
    rw [hNeed]
    rfl
  rw [← hMax] at hCode
  rw [mallocFrom_extend hSize hFit hCode, if_pos rfl]

/-
  What malloc does before it marks a block: it gives up, or
  it has a free block that is large enough.
-/
theorem Represents.mallocFrom_eq
    {heap : Heap}
    {blocks : List Block}
    {size : Nat}
    (version : Version)
    (hHeap : Represents heap blocks)
    (hSize : 0 < size)
    (hBound : size + 31 < 2 ^ 64) :
    (¬ Overextends heap (adjusted size) ∧
      chosen heap (adjusted size) = none ∧
      ∃ calls,
        mallocFrom version heap size =
          some ({ heap with osCalls := calls }, null)) ∨
      ∃ heap' front found back,
        mallocFrom version heap size =
            some (placeBlock version heap'
              (heap.first + extent front)
              (adjusted size)) ∧
          Found version heap heap'
            (BlockSize.ofRequest size hSize)
            blocks front back found := by
  have hAdjusted := adjusted_eq hSize hBound
  have hNeedBound :
      (BlockSize.ofRequest size hSize).bytes + 15 <
        2 ^ 64 := by
    simp only [BlockSize.ofRequest]
    omega
  generalize BlockSize.ofRequest size hSize = need
    at hAdjusted hNeedBound ⊢
  cases hSplit :
      Tiling.firstSplit (fits need.bytes) blocks with
  | some split =>
      rcases split with ⟨front, found, back⟩
      rcases hHeap.found_fit version hSplit with
        ⟨hFit, hNonnull, hFound⟩
      rw [← hAdjusted] at hFit
      exact .inr ⟨heap, front, found, back,
        mallocFrom_fit version hSize hFit hNonnull, hFound⟩
  | none =>
      have hFit := hHeap.findFit_none hSplit
      by_cases hGranted : Granted heap need.extend.bytes
      · rcases hHeap.extendHeap_spec version hGranted with
          ⟨heap', front, merged, hCode, hExtended⟩
        have hNonnull := heap.first_ne_null (extent front)
        have hMax :
            max (adjusted size) chunksize =
              need.extend.bytes := by
          rw [hAdjusted]
          rfl
        refine .inr ⟨heap', front, merged, [], ?_,
          hExtended.found hHeap hFit hSplit hGranted⟩
        rw [← hMax] at hCode
        rw [← hAdjusted] at hFit
        rw [mallocFrom_extend hSize hFit hCode,
          if_neg hNonnull]
      · rw [← hAdjusted] at hFit
        refine .inl ⟨?_, ?_,
          mallocFrom_refused version hSize hAdjusted
            hNeedBound hFit hGranted⟩
        · intro hOver
          have hOverGranted := hOver.2.1
          rw [hAdjusted] at hOverGranted
          exact hGranted hOverGranted
        · unfold Recitation.chosen
          rw [hFit, hAdjusted]
          simp only [ne_eq, not_true, if_false]
          exact if_neg hGranted

/- One more block is allocated, at the address `p`. -/
structure Allotted
    (heap heap' : Heap)
    (blocks blocks' : List Block)
    (p : Nat)
    (block : Block) :
    Prop where
  represents : Represents heap' blocks'
  keeps : Keeps heap heap' blocks
  fresh : ∀ other, (p, other) ∉ allocated heap.first blocks
  allocated :
    ∀ entry,
      entry ∈ allocated heap.first blocks' ↔
        entry = (p, block) ∨
          entry ∈ allocated heap.first blocks

/- Carving a free block allots one block. -/
theorem Represents.placeBlock_allots
    {version : Version}
    {heap : Heap}
    {front back : List Block}
    {found : Block}
    {need : BlockSize}
    (hHeap : Represents heap (front ++ found :: back))
    (hFree : found.allocated = false)
    (hLarge : need.bytes ≤ found.bytes)
    (hNamed :
      RemainderNamed version heap
        (heap.first + extent front) found.bytes
        need.bytes) :
    ∃ heap' block blocks',
      placeBlock version heap (heap.first + extent front)
          need.bytes =
          (heap', heap.first + extent front + 8) ∧
        heap'.overrun = heap.overrun ∧
        need.bytes ≤ block.bytes ∧
        Allotted heap heap' (front ++ found :: back)
          blocks' (heap.first + extent front) block := by
  rcases hHeap.placeBlock_spec hLarge hNamed with
    ⟨heap', hCode, hAfter, hRewrites, _⟩
  rcases carve_eq_cons found hLarge with
    ⟨block, rest, hCarve, hAlloc, hBlock, hRest⟩
  have hExtent : extent (block :: rest) = found.bytes := by
    rw [← hCarve, extent_carve]
  have hKeeps :
      Keeps heap heap' (front ++ [found] ++ back) := by
    apply Rewrites.keeps
    · simpa using hRewrites
    · simpa using hFree
  refine ⟨heap', block, _, hCode, hRewrites.overrun, hBlock,
    { represents := hAfter
      keeps := by simpa using hKeeps
      fresh := ?_
      allocated := ?_ }⟩
  · intro other hMember
    rw [mem_allocated] at hMember
    have hPlaced :
        (heap.first + extent front, found) ∈
          placed heap.first (front ++ found :: back) := by
      simp
    have hSame := eq_of_placed hMember.1 hPlaced
    rw [hSame, hFree] at hMember
    cases hMember.2
  · intro entry
    have hAfterCarve :
        allocated heap.first
            (front ++ carve found need ++ back) =
          allocated heap.first front ++
            (heap.first + extent front, block) ::
              allocated
                (heap.first + extent front + found.bytes)
                back := by
      rw [allocated_append, allocated_append, hCarve,
        allocated_cons, hAlloc, allocated_eq_nil _ hRest,
        extent_append, hExtent, Nat.add_assoc]
      simp
    have hBefore :
        allocated heap.first (front ++ found :: back) =
          allocated heap.first front ++
            allocated
              (heap.first + extent front + found.bytes)
              back := by
      rw [allocated_append, allocated_cons, hFree]
      rfl
    rw [hAfterCarve, hBefore]
    simp only [List.mem_append, List.mem_cons]
    constructor
    · rintro (hFront | hBlock | hBack)
      · exact .inr (.inl hFront)
      · exact .inl hBlock
      · exact .inr (.inr hBack)
    · rintro (hBlock | hFront | hBack)
      · exact .inr (.inl hBlock)
      · exact .inl hFront
      · exact .inr (.inr hBack)

theorem Reshapes.allotted
    {heap heap' heap'' : Heap}
    {blocks blocks' blocks'' : List Block}
    {p : Nat}
    {block : Block}
    (hReshapes : Reshapes heap heap' blocks blocks')
    (hAllotted :
      Allotted heap' heap'' blocks' blocks'' p block) :
    Allotted heap heap'' blocks blocks'' p block := by
  have hFirst := hReshapes.keeps.first
  have hFresh := hAllotted.fresh
  have hAllocated := hAllotted.allocated
  rw [hFirst, hReshapes.allocated] at hFresh hAllocated
  refine
    { represents := hAllotted.represents
      keeps := ?_
      fresh := hFresh
      allocated := hAllocated }
  refine hReshapes.keeps.trans ?_ hAllotted.keeps
  intro entry hMember
  rw [hReshapes.allocated]
  exact hMember

/- Only the count of the system's answers differs. -/
theorem Represents.refused_reshapes
    {heap : Heap}
    {blocks : List Block}
    (calls : Nat)
    (hHeap : Represents heap blocks) :
    Reshapes heap { heap with osCalls := calls }
      blocks blocks where
  represents :=
    hHeap.of_words rfl rfl rfl rfl rfl
      (fun _ _ _ hTagged => hTagged) rfl
  keeps := ⟨rfl, fun _ _ _ => ByteMemory.SameOn.refl⟩
  allocated := rfl

/-
  The old word where the remainder of the chosen block will
  start names the size of the remainder.
-/
def Splits
    (heap : Heap)
    (size : Nat) :
    Prop :=
  match chosen heap (adjusted size) with
  | none => True
  | some (block, total) =>
      adjusted size + minBlockSize ≤ total →
        extractSize (get heap (block + adjusted size)) =
          total - adjusted size

theorem Found.named
    {version : Version}
    {heap heap' : Heap}
    {need : BlockSize}
    {blocks front back : List Block}
    {found : Block}
    {size : Nat}
    (hFound :
      Found version heap heap' need blocks front back
        found)
    (hAdjusted : adjusted size = need.bytes)
    (hSplits : version = .mm → Splits heap size) :
    RemainderNamed version heap'
      (heap.first + extent front) found.bytes
      need.bytes := by
  intro hVersion hRest
  have hNamed := hSplits hVersion
  unfold Splits at hNamed
  rw [hAdjusted, hFound.chosen] at hNamed
  rw [hFound.word hRest]
  exact hNamed hRest

/- mm_init has been called. -/
theorem Represents.malloc_eq
    {version : Version}
    {heap : Heap}
    {blocks : List Block}
    {size : Nat}
    (hHeap : Represents heap blocks) :
    malloc version heap size =
      mallocFrom version heap size := by
  rw [malloc, if_neg]
  rw [hHeap.heapStart]
  exact heap.first_ne_null 0

/- malloc comes to an end, with NULL or one more block. -/
theorem Represents.malloc_spec
    {version : Version}
    {heap : Heap}
    {blocks : List Block}
    {size : Nat}
    (hHeap : Represents heap blocks)
    (hBound : size + 31 < 2 ^ 64)
    (hSplits : version = .mm → size ≠ 0 → Splits heap size) :
    ∃ heap' ptr,
      malloc version heap size = some (heap', ptr) ∧
        heap'.overrun =
            (heap.overrun ||
              decide (version = .mm2 ∧ size ≠ 0 ∧
                Overextends heap (adjusted size))) ∧
          ((ptr = null ∧
              Reshapes heap heap' blocks blocks) ∨
            ∃ p block blocks',
              ptr = p + 8 ∧
                size + 16 ≤ block.bytes ∧
                Allotted heap heap' blocks blocks'
                  p block) := by
  rw [hHeap.malloc_eq]
  by_cases hZero : size = 0
  · refine ⟨heap, null, ?_, ?_,
      .inl ⟨rfl, Reshapes.refl hHeap⟩⟩
    · rw [mallocFrom, if_pos hZero]
    · simp [hZero]
  · have hSize : 0 < size := Nat.pos_of_ne_zero hZero
    rcases hHeap.mallocFrom_eq version hSize hBound with
      ⟨hNot, _, calls, hCode⟩ |
        ⟨heap', front, found, back, hCode, hFound⟩
    · exact ⟨_, _, hCode, by simp [hNot],
        .inl ⟨rfl, hHeap.refused_reshapes calls⟩⟩
    · have hAdjusted := adjusted_eq hSize hBound
      have hReshapes := hFound.reshapes
      have hFirst := hReshapes.keeps.first
      have hNamed :=
        hFound.named hAdjusted
          (fun hVersion => hSplits hVersion hZero)
      rw [← hFirst] at hNamed
      rcases
          hReshapes.represents.placeBlock_allots
            hFound.free hFound.large hNamed with
        ⟨heap'', block, blocks', hPlace, hOverrun, hLarge,
         hAllotted⟩
      rw [hFirst] at hPlace hAllotted
      rw [hCode, hAdjusted, hPlace]
      refine ⟨_, _, rfl, ?_, .inr
        ⟨_, block, blocks', rfl, ?_,
          hReshapes.allotted hAllotted⟩⟩
      · rw [hOverrun, hFound.overrun]
        simp [hZero]
      · have hRequest :
            size + 16 ≤
              (BlockSize.ofRequest size hSize).bytes := by
          simp only [BlockSize.ofRequest]
          omega
        exact hRequest.trans hLarge

------------------------------------------------------------
-- free
------------------------------------------------------------

/- The block at `p` is no longer allocated. -/
structure Released
    (heap heap' : Heap)
    (blocks blocks' : List Block)
    (p : Nat) :
    Prop where
  represents : Represents heap' blocks'
  heapLo : heap'.heapLo = heap.heapLo
  allocated :
    ∀ entry,
      entry ∈ allocated heap.first blocks' ↔
        entry ∈ allocated heap.first blocks ∧
          entry.1 ≠ p

theorem free_eq
    {heap : Heap}
    {p left right : Nat}
    {block : Block}
    (version : Version)
    (hAround : Around heap p left block right) :
    free version heap (p + 8) =
      (coalesceBlock version (tagBlock heap p block.freed)
        p).1 := by
  have hLimit := hAround.limit
  have hLeast := hAround.least
  have hHeader : payloadToHeader (p + 8) = p := by
    unfold payloadToHeader sub64 wsize
    omega
  have hNonnull := payload_ne_null p
  have hPair :
      writeFooter
          (writeHeader heap p block.bytes false)
          p block.bytes false =
        tagBlock heap p block.freed :=
    @writeHeader_writeFooter heap p block.freed (by
      rw [Block.bytes_freed]
      omega)
  unfold free
  simp only [if_neg hNonnull, hHeader, hAround.getSize_eq,
    hPair]

/- The allocated blocks beside one that is marked free. -/
theorem mem_allocated_freed
    {start : Nat}
    {front back : List Block}
    {block : Block}
    (entry : Nat × Block) :
    entry ∈ allocated start (front ++ block.freed :: back) ↔
      entry ∈ allocated start (front ++ block :: back) ∧
        entry.1 ≠ start + extent front := by
  rcases entry with ⟨p, other⟩
  have hPos := block.bytes_pos
  have hOtherPos := other.bytes_pos
  simp only [mem_allocated, placed_append, placed_cons,
    List.mem_append, List.mem_cons, Block.bytes_freed,
    Prod.mk.injEq]
  constructor
  · rintro ⟨hFront | ⟨_, hHere⟩ | hBack, hAlloc⟩
    · have hBounds := bounds_of_placed hFront
      exact ⟨⟨.inl hFront, hAlloc⟩, by omega⟩
    · rw [hHere] at hAlloc
      cases hAlloc
    · have hBounds := bounds_of_placed hBack
      exact ⟨⟨.inr (.inr hBack), hAlloc⟩, by omega⟩
  · rintro ⟨⟨hFront | ⟨hHere, _⟩ | hBack, hAlloc⟩, hNe⟩
    · exact ⟨.inl hFront, hAlloc⟩
    · exact absurd hHere hNe
    · exact ⟨.inr (.inr hBack), hAlloc⟩

theorem Represents.free_spec
    {heap : Heap}
    {front back : List Block}
    {block : Block}
    (version : Version)
    (hHeap : Represents heap (front ++ block :: back)) :
    ∃ blocks',
      Released heap
          (free version heap
            (heap.first + extent front + 8))
          (front ++ block :: back) blocks'
          (heap.first + extent front) ∧
        (Enclosed front back →
          free version heap
              (heap.first + extent front + 8) =
            stamp version
              (tagBlock heap (heap.first + extent front)
                block.freed)
              (heap.first + extent front + block.bytes +
                8)) ∧
        (¬ Enclosed front back →
          Keeps heap
              (free version heap
                (heap.first + extent front + 8))
              (front ++ block.freed :: back) ∧
            (free version heap
              (heap.first + extent front + 8)).overrun =
              heap.overrun) := by
  have hCode := free_eq version hHeap.around
  have hSplit :
      front ++ block :: back = front ++ [block] ++ back := by
    simp
  have hSplit' :
      front ++ [block.freed] ++ back =
        front ++ block.freed :: back := by
    simp
  rcases
      @Represents.retag heap front [block] back
        (by rwa [← hSplit]) block.freed (by simp) with
    ⟨hMarked, hRewrites⟩
  have hMarkedKeeps :
      Keeps heap
        (tagBlock heap (heap.first + extent front)
          block.freed)
        (front ++ block.freed :: back) := by
    rw [← hSplit']
    apply Rewrites.keeps
    · simpa using hRewrites
    · simp [Block.freed]
  rw [hSplit'] at hMarked
  generalize hOne :
    tagBlock heap (heap.first + extent front)
      block.freed = one
    at hCode hMarked hRewrites hMarkedKeeps ⊢
  have hFirst : one.first = heap.first :=
    hMarkedKeeps.first
  rcases coalesceBlock_spec version hMarked rfl with
    ⟨heap', p, blocks', hCoalesce, hBoth, hElse⟩
  rw [hFirst] at hCoalesce hBoth
  rw [hCoalesce] at hCode
  rw [hCode, Block.bytes_freed] at *
  by_cases hEnclosed : Enclosed front back
  · rcases hBoth hEnclosed with ⟨hStamp, rfl⟩
    have hStamped := hMarked.stamped version
    rw [hFirst, Block.bytes_freed, ← hStamp] at hStamped
    have hLo : heap'.heapLo = heap.heapLo := by
      rw [hStamp, ← hMarkedKeeps.heapLo]
      cases version with
      | mm => rfl
      | mm2 => rfl
    exact ⟨_,
      { represents := hStamped
        heapLo := hLo
        allocated := mem_allocated_freed },
      fun _ => hStamp, fun hNot => absurd hEnclosed hNot⟩
  · rcases hElse hEnclosed with ⟨hReshapes, hOverrun⟩
    have hAllocated := hReshapes.allocated
    rw [hFirst] at hAllocated
    refine ⟨blocks',
      { represents := hReshapes.represents
        heapLo :=
          hReshapes.keeps.heapLo.trans hMarkedKeeps.heapLo
        allocated := ?_ },
      fun hYes => absurd hYes hEnclosed,
      fun _ => ⟨?_, ?_⟩⟩
    · intro entry
      rw [hAllocated]
      exact mem_allocated_freed entry
    · exact hMarkedKeeps.trans (fun _ hMember => hMember)
        hReshapes.keeps
    · rw [hOverrun, hRewrites.overrun]

end Recitation

end CsappLabs
