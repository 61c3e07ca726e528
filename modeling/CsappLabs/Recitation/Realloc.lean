import CsappLabs.Recitation.Package

/-
  realloc and calloc on a represented heap.

  Both get a block from malloc and fill its payload; realloc
  then frees the old block.

  Key definitions:
    * `Fills`
    * `Moved`

  Key theorems:
    * `Represents.filled`
    * `Represents.realloc_spec`
    * `Represents.calloc_spec`
-/

------------------------------------------------------------
-- Filling a Payload
------------------------------------------------------------

namespace CsappLabs

namespace Recitation

variable {version : Version}
variable {heap heap' : Heap}
variable {blocks : List Block}

/- The payload of an allocated block. -/
theorem Represents.payload_eq
    {p : Nat}
    {block : Block}
    (hHeap : Represents heap blocks)
    (hMember : (p, block) ∈ placed heap.first blocks) :
    payloadToHeader (p + 8) = p ∧
      getPayloadSize heap p = block.bytes - 16 := by
  have hBounds := hHeap.bounds hMember
  have hLt := hHeap.brk_lt
  have hLeast := block.bytes_least
  have hTagged := hHeap.tagged p block hMember
  have hSize : getSize heap p = block.bytes :=
    getSize_of_get hTagged.header (by omega)
  constructor
  · unfold payloadToHeader sub64 wsize
    omega
  · rw [getPayloadSize, hSize]
    simp only [sub64, dsize, wsize]
    omega

/- A store inside one payload. -/
structure Fills
    (heap heap' : Heap)
    (low high : Nat) :
    Prop where
  mem : heap'.mem.SameOutside heap.mem low high
  rest :
    heap' =
      { heap with
        mem := heap'.mem
        overrun := heap'.overrun }
  overrun :
    high ≤ heap.memBrk → heap'.overrun = heap.overrun

theorem memcpy_fills
    (heap : Heap)
    (target source count : Nat) :
    Fills heap (memcpy heap target source count)
      target (target + count) where
  mem := ByteMemory.copy_sameOutside
  rest := rfl
  overrun := by
    intro hBelow
    have hNot : ¬ heap.memBrk < target + count := by
      omega
    simp [memcpy, hNot]

theorem memzero_fills
    (heap : Heap)
    (target count : Nat) :
    Fills heap (memzero heap target count)
      target (target + count) where
  mem := by
    intro a hOutside
    simp only [memzero]
    rw [if_neg (by omega)]
  rest := rfl
  overrun := by
    intro hBelow
    have hNot : ¬ heap.memBrk < target + count := by
      omega
    simp [memzero, hNot]

theorem store_fills
    (heap : Heap)
    (p width value : Nat) :
    Fills heap (store heap p width value)
      p (p + width) where
  mem := ByteMemory.writeWord_sameOutside
  rest := rfl
  overrun := by
    intro hBelow
    have hNot : ¬ heap.memBrk < p + width := by
      omega
    simp [store, hNot]

theorem Fills.first
    {low high : Nat}
    (hFills : Fills heap heap' low high) :
    heap'.first = heap.first := by
  rw [hFills.rest]
  rfl

/- Filling a payload leaves the blocks alone. -/
theorem Represents.filled
    {p low high : Nat}
    {block : Block}
    (hHeap : Represents heap blocks)
    (hMember : (p, block) ∈ placed heap.first blocks)
    (hFills : Fills heap heap' low high)
    (hLow : p + 8 ≤ low)
    (hHigh : high ≤ p + block.bytes - 8) :
    Represents heap' blocks ∧
      heap'.overrun = heap.overrun := by
  have hBounds := hHeap.bounds hMember
  have hRest := hFills.rest
  have hScalars :
      heap'.heapStart = heap.heapStart ∧
        heap'.heapLo = heap.heapLo ∧
          heap'.memBrk = heap.memBrk ∧
            heap'.memMaxAddr = heap.memMaxAddr := by
    rw [hRest]
    exact ⟨rfl, rfl, rfl, rfl⟩
  rcases hScalars with ⟨hStart, hLo, hBrk, hMax⟩
  exact ⟨hHeap.of_payload hStart hLo hBrk hMax hMember
      hLow hHigh hFills.mem,
    hFills.overrun (by omega)⟩

/- Filling the new payload keeps the blocks that were there. -/
theorem Allotted.filled
    {heap'' : Heap}
    {blocks' : List Block}
    {q low high : Nat}
    {new : Block}
    (hAllotted : Allotted heap heap' blocks blocks' q new)
    (hFills : Fills heap' heap'' low high)
    (hLow : q + 8 ≤ low)
    (hHigh : high ≤ q + new.bytes - 8) :
    Keeps heap heap'' blocks := by
  have hFirst := hAllotted.keeps.first
  have hNew :
      (q, new) ∈ placed heap.first blocks' :=
    (mem_allocated.mp
      ((hAllotted.allocated _).mpr (.inl rfl))).1
  refine hAllotted.keeps.trans (fun _ hOld => hOld)
    ⟨?_, ?_⟩
  · rw [hFills.rest]
  · intro p block hMember
    rw [hFirst] at hMember
    have hStill :=
      (mem_allocated.mp
        ((hAllotted.allocated _).mpr (.inr hMember))).1
    have hNe : p ≠ q := by
      rintro rfl
      exact hAllotted.fresh block hMember
    have hApart := apart_of_placed hStill hNew hNe
    exact hFills.mem.sameOn (by omega)

------------------------------------------------------------
-- realloc and calloc
------------------------------------------------------------

/- What is copied into the new payload. -/
def copyCount
    (block : Block)
    (size : Nat) :
    Nat :=
  min size (block.bytes - 16)

/- realloc of a live payload, from its inner malloc on. -/
theorem realloc_eq
    {p size newptr : Nat}
    {block : Block}
    (hSize : size ≠ 0)
    (hMalloc :
      malloc version heap size = some (heap', newptr))
    (hNew :
      newptr ≠ null →
        payloadToHeader (p + 8) = p ∧
          getPayloadSize heap' p = block.bytes - 16) :
    realloc version heap (p + 8) size =
      if newptr = null then
        some (heap', null)
      else
        some
          (free version
              (memcpy heap' newptr (p + 8)
                (copyCount block size))
              (p + 8),
            newptr) := by
  have hNonnull := payload_ne_null p
  unfold realloc
  simp only [if_neg hSize, if_neg hNonnull, hMalloc]
  by_cases hNull : newptr = null
  · simp only [if_pos hNull]
  · rcases hNew hNull with ⟨hHeader, hPayload⟩
    have hCount :
        (if size < block.bytes - 16 then size
          else block.bytes - 16) =
          copyCount block size := by
      unfold copyCount
      split_ifs with hLess
      · omega
      · omega
    simp only [if_neg hNull, hHeader, hPayload, hCount]

/- After a copy into the new payload comes the free. -/
structure Moved
    (version : Version)
    (heap heap' heap'' : Heap)
    (blocks blocks' : List Block)
    (p q size : Nat)
    (block new : Block) :
    Prop where
  allotted : Allotted heap heap' blocks blocks' q new
  copied :
    heap'' =
      memcpy heap' (q + 8) (p + 8) (copyCount block size)
  represents : Represents heap'' blocks'
  keeps : Keeps heap heap'' blocks
  first : heap''.first = heap.first
  overrun : heap''.overrun = heap'.overrun
  member : (p, block) ∈ allocated heap.first blocks'

/- realloc of a live payload. -/
theorem Represents.realloc_spec
    {p size : Nat}
    {block : Block}
    (hHeap : Represents heap blocks)
    (hMember : (p, block) ∈ allocated heap.first blocks)
    (hSize : size ≠ 0)
    (hBound : size + 31 < 2 ^ 64)
    (hSplits : version = .mm → Splits heap size) :
    ∃ heap',
      heap'.overrun =
          (heap.overrun ||
            decide (version = .mm2 ∧
              Overextends heap (adjusted size))) ∧
        ((realloc version heap (p + 8) size =
              some (heap', null) ∧
            malloc version heap size =
              some (heap', null) ∧
            Reshapes heap heap' blocks blocks) ∨
          ∃ heap'' q new blocks',
            realloc version heap (p + 8) size =
                some (free version heap'' (p + 8), q + 8) ∧
              malloc version heap size =
                some (heap', q + 8) ∧
              Moved version heap heap' heap'' blocks
                blocks' p q size block new) := by
  rcases
      hHeap.malloc_spec hBound
        (fun hVersion _ => hSplits hVersion) with
    ⟨heap', newptr, hMalloc, hOverrun, hResult⟩
  refine ⟨heap', ?_, ?_⟩
  · rw [hOverrun]
    simp [hSize]
  · rcases hResult with ⟨hNull, hReshapes⟩ |
      ⟨q, new, blocks', rfl, hLarge, hAllotted⟩
    · subst hNull
      refine .inl ⟨?_, hMalloc, hReshapes⟩
      rw [@realloc_eq version heap heap' p size null
        block hSize hMalloc
        (fun hNot => absurd rfl hNot), if_pos rfl]
    · have hFirst := hAllotted.keeps.first
      have hStill :
          (p, block) ∈ allocated heap.first blocks' :=
        (hAllotted.allocated _).mpr (.inr hMember)
      have hThere :
          (p, block) ∈ placed heap'.first blocks' := by
        rw [hFirst]
        exact (mem_allocated.mp hStill).1
      have hNewThere :
          (q, new) ∈ placed heap'.first blocks' := by
        rw [hFirst]
        exact (mem_allocated.mp
          ((hAllotted.allocated _).mpr (.inl rfl))).1
      have hFills :=
        memcpy_fills heap' (q + 8) (p + 8)
          (copyCount block size)
      have hCount : copyCount block size ≤ size :=
        Nat.min_le_left _ _
      have hLeast := new.bytes_least
      rcases
          hAllotted.represents.filled hNewThere hFills
            (Nat.le_refl _) (by omega) with
        ⟨hCopied, hSame⟩
      refine .inr ⟨_, q, new, blocks', ?_, hMalloc,
        { allotted := hAllotted
          copied := rfl
          represents := hCopied
          keeps :=
            hAllotted.filled hFills (Nat.le_refl _)
              (by omega)
          first := hFills.first.trans hFirst
          overrun := hSame
          member := hStill }⟩
      have hNonnull := payload_ne_null q
      rw [realloc_eq hSize hMalloc
        (fun _ => hAllotted.represents.payload_eq hThere),
        if_neg hNonnull]

/- calloc of a product that does not wrap, after malloc. -/
theorem calloc_eq
    {elements size bp : Nat}
    (hElements : elements ≠ 0)
    (hBound : elements * size < 2 ^ 64)
    (hMalloc :
      malloc version heap (elements * size) =
        some (heap', bp)) :
    calloc version heap elements size =
      if bp = null then
        some (heap', null)
      else
        some (memzero heap' bp (elements * size), bp) := by
  have hProduct : u64 (elements * size) = elements * size :=
    Nat.mod_eq_of_lt hBound
  have hQuotient : elements * size / elements = size :=
    Nat.mul_div_cancel_left size
      (Nat.pos_of_ne_zero hElements)
  unfold calloc
  simp only [hProduct, if_neg hElements, hQuotient,
    ne_eq, not_true, if_false, hMalloc]

theorem Represents.calloc_spec
    {elements size : Nat}
    (hHeap : Represents heap blocks)
    (hElements : elements ≠ 0)
    (hBound : elements * size + 31 < 2 ^ 64)
    (hSplits :
      version = .mm → elements * size ≠ 0 →
        Splits heap (elements * size)) :
    ∃ heap' ptr,
      calloc version heap elements size =
          some (heap', ptr) ∧
        heap'.overrun =
            (heap.overrun ||
              decide (version = .mm2 ∧
                elements * size ≠ 0 ∧
                  Overextends heap
                    (adjusted (elements * size)))) ∧
          ((ptr = null ∧
              Reshapes heap heap' blocks blocks) ∨
            ∃ p block blocks',
              ptr = p + 8 ∧
                Represents heap' blocks' ∧
                Keeps heap heap' blocks ∧
                (∀ other,
                  (p, other) ∉
                    allocated heap.first blocks) ∧
                ∀ entry,
                  entry ∈ allocated heap.first blocks' ↔
                    entry = (p, block) ∨
                      entry ∈
                        allocated heap.first blocks) := by
  rcases hHeap.malloc_spec hBound hSplits with
    ⟨heap', ptr, hMalloc, hOverrun, hResult⟩
  rw [calloc_eq hElements (by omega) hMalloc]
  rcases hResult with ⟨rfl, hReshapes⟩ |
    ⟨p, block, blocks', rfl, hLarge, hAllotted⟩
  · exact ⟨heap', null, rfl, hOverrun,
      .inl ⟨rfl, hReshapes⟩⟩
  · have hFirst := hAllotted.keeps.first
    have hThere :
        (p, block) ∈ placed heap'.first blocks' := by
      rw [hFirst]
      exact (mem_allocated.mp
        ((hAllotted.allocated _).mpr (.inl rfl))).1
    have hFills :=
      memzero_fills heap' (p + 8) (elements * size)
    have hLeast := block.bytes_least
    rcases
        hAllotted.represents.filled hThere hFills
          (Nat.le_refl _) (by omega) with
      ⟨hZeroed, hSame⟩
    have hNonnull := payload_ne_null p
    refine ⟨_, p + 8, if_neg hNonnull, ?_,
      .inr ⟨p, block, blocks', rfl, hZeroed,
        hAllotted.filled hFills (Nat.le_refl _) (by omega),
        hAllotted.fresh, hAllotted.allocated⟩⟩
    rw [hSame, hOverrun]

end Recitation

end CsappLabs
