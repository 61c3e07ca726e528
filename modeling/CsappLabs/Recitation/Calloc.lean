import CsappLabs.Recitation.Tiled

/-
  What calloc of mm.c returns, for all operands.

  calloc divides by `elements` to see whether the product
  wraps, and malloc rounds a request up without such a test.
  The division traps where `elements` is zero, and a product
  just below 2^64 comes back with a small block.

  Key definitions:
    * `Walked`, `Exhausted`
    * `CallocServes`, `CallocSound`
    * `CallStep`

  Key theorems:
    * `getSize_placeBlock`
    * `Represents.malloc_size`
    * `Represents.malloc_wrapped`
    * `calloc_serves_iff`
-/

------------------------------------------------------------
-- The Header of the Placed Block
------------------------------------------------------------

namespace CsappLabs

namespace Recitation

variable {heap : Heap}
variable {blocks front back : List Block}
variable {found : Block}
variable {p q size asize value : Nat}

theorem getSize_mod :
    getSize heap p % 16 = 0 := by
  rw [getSize, extractSize_eq (get_lt heap p)]
  omega

/- A footer is two words off from every header. -/
theorem headerToFooter_apart
    (hSame : q % 16 = p % 16) :
    p + 8 ≤ headerToFooter heap q ∨
      headerToFooter heap q + 8 ≤ p := by
  have hMod := @getSize_mod heap q
  have hWord : getSize heap q < 2 ^ 64 := by
    rw [getSize, extractSize_eq (get_lt heap q)]
    have hGet := get_lt heap q
    omega
  unfold headerToFooter headerToPayload u64 sub64 dsize wsize
  omega

theorem getSize_writeFooter
    (hSame : q % 16 = p % 16)
    (alloc : Bool) :
    getSize (writeFooter heap q size alloc) p =
      getSize heap p := by
  unfold getSize writeFooter
  rw [get_put_apart heap (headerToFooter_apart hSame)]

theorem getSize_writeHeader
    (hSize : size % 16 = 0)
    (hWord : size < 2 ^ 64)
    (alloc : Bool) :
    getSize (writeHeader heap p size alloc) p = size := by
  have hBool := Bool.toNat_le alloc
  have hPack : pack size alloc < 2 ^ 64 := by
    rw [pack_eq hSize]
    omega
  rw [getSize, writeHeader, get_put heap p hPack,
    extractSize_eq hPack, pack_eq hSize]
  omega

theorem getSize_writeHeader_apart
    (hApart : p + 8 ≤ q ∨ q + 8 ≤ p)
    (alloc : Bool) :
    getSize (writeHeader heap q size alloc) p =
      getSize heap p := by
  unfold getSize writeHeader
  rw [get_put_apart heap hApart]

/- The size that malloc leaves in the header it marks. -/
def placedSize (total asize : Nat) : Nat :=
  if asize + minBlockSize ≤ total ∧ asize ≠ 0 then asize
  else total

/-
  The tags written behind the header leave it alone, wherever
  the stale footer of the remainder goes.
-/
theorem getSize_splitBlock
    {total : Nat}
    (hTotal : getSize heap p = total)
    (hAsize : asize % 16 = 0)
    (hLimit : p + total < 2 ^ 64)
    (hFits : asize ≤ total) :
    getSize (splitBlock .mm heap p asize) p =
      placedSize total asize := by
  have hTotalMod : total % 16 = 0 := by
    rw [← hTotal]
    exact getSize_mod
  have hMin : minBlockSize = 32 := rfl
  have hSub : sub64 total asize = total - asize := by
    unfold sub64
    omega
  unfold splitBlock placedSize
  simp only [hTotal, hSub]
  by_cases hRest : minBlockSize ≤ total - asize
  · have hFirst :
        getSize
            (writeFooter (writeHeader heap p asize true) p
              asize true) p = asize := by
      rw [getSize_writeFooter rfl,
        getSize_writeHeader hAsize (by omega)]
    have hNext :
        findNext
            (writeFooter (writeHeader heap p asize true) p
              asize true) p = p + asize := by
      rw [findNext, hFirst, u64, Nat.mod_eq_of_lt (by omega)]
    rw [if_pos hRest, hNext]
    by_cases hZero : asize = 0
    · rw [hZero, Nat.add_zero, Nat.sub_zero,
        if_neg (fun hBoth => hBoth.2 rfl),
        getSize_writeHeader hTotalMod (by omega)]
    · rw [getSize_writeHeader_apart (by omega),
        getSize_writeFooter (by omega), hFirst,
        if_pos ⟨by omega, hZero⟩]
  · rw [if_neg hRest, if_neg (by omega), hTotal]

/- The end of malloc, for a size that may be no block size. -/
theorem getSize_placeBlock
    (hHeap : Represents heap (front ++ found :: back))
    (hAsize : asize % 16 = 0)
    (hFits : asize ≤ found.bytes) :
    ∃ heap',
      placeBlock .mm heap (heap.first + extent front) asize =
          (heap', heap.first + extent front + 8) ∧
        getSize heap' (heap.first + extent front) =
          placedSize found.bytes asize := by
  have hAround := hHeap.around
  have hLimit := hAround.limit
  refine ⟨_, hAround.placeBlock_eq .mm asize, ?_⟩
  have hTagged :=
    @tagBlock_taken heap (heap.first + extent front) found
      (by omega)
  apply getSize_splitBlock _ hAsize (by omega) hFits
  exact @getSize_of_get _ _ found.taken hTagged.header (by
    rw [Block.bytes_taken]
    omega)

------------------------------------------------------------
-- malloc
------------------------------------------------------------

/- A block of `total` bytes, large enough for the request. -/
structure Serves
    (heap' : Heap)
    (p total asize : Nat) :
    Prop where
  fits : asize ≤ total
  large : 32 ≤ total
  least : 9 ≤ p
  limit : p + total + 8 < 2 ^ 64
  header : getSize heap' p = placedSize total asize

theorem Represents.serves
    (hHeap : Represents heap (front ++ found :: back))
    (hAsize : asize % 16 = 0)
    (hFits : asize ≤ found.bytes) :
    ∃ heap' p,
      placeBlock .mm heap (heap.first + extent front) asize =
          (heap', p + 8) ∧
        Serves heap' p found.bytes asize := by
  have hAround := hHeap.around
  rcases getSize_placeBlock hHeap hAsize hFits with
    ⟨heap', hPlace, hHeader⟩
  exact ⟨heap', _, hPlace,
    ⟨hFits, found.bytes_least, hAround.least,
      hAround.limit, hHeader⟩⟩

/- Nothing fits, and mem_sbrk does not give `extend` bytes. -/
def Unserved (heap : Heap) (asize extend : Nat) : Prop :=
  findFit heap asize = some null ∧ ¬ Granted heap extend

/- malloc returns NULL for an unserved request only. -/
theorem Represents.malloc_cases
    {extend : BlockSize}
    (hHeap : Represents heap blocks)
    (hSize : 0 < size)
    (hAsize : adjusted size % 16 = 0)
    (hExtend : max (adjusted size) chunksize = extend.bytes)
    (hBound : extend.bytes + 15 < 2 ^ 64) :
    (Unserved heap (adjusted size) extend.bytes ∧
      ∃ calls,
        malloc .mm heap size =
          some ({ heap with osCalls := calls }, null)) ∨
    (¬ Unserved heap (adjusted size) extend.bytes ∧
      ∃ heap' p total,
        malloc .mm heap size = some (heap', p + 8) ∧
          Serves heap' p total (adjusted size)) := by
  rw [hHeap.malloc_eq]
  have hFind := hHeap.findFit_eq (adjusted size)
  cases hSplit :
      Tiling.firstSplit (fits (adjusted size)) blocks with
  | some split =>
      rcases split with ⟨front, found, back⟩
      rcases Tiling.firstSplit_eq_some_iff.mp hSplit with
        ⟨rfl, hFits, _⟩
      have hLarge : adjusted size ≤ found.bytes := by
        simp only [fits, Bool.and_eq_true,
          decide_eq_true_eq] at hFits
        exact hFits.2
      rw [hSplit] at hFind
      change findFit heap (adjusted size) =
        some (heap.first + extent front) at hFind
      have hNonnull := heap.first_ne_null (extent front)
      rcases hHeap.serves hAsize hLarge with
        ⟨heap', p, hPlace, hServes⟩
      refine .inr ⟨?_, heap', p, _, ?_, hServes⟩
      · rintro ⟨hNone, _⟩
        rw [hFind] at hNone
        exact hNonnull (Option.some.inj hNone)
      · rw [mallocFrom_fit .mm hSize hFind hNonnull, hPlace]
  | none =>
      rw [hSplit] at hFind
      change findFit heap (adjusted size) = some null at hFind
      by_cases hGranted : Granted heap extend.bytes
      · rcases hHeap.extendHeap_spec .mm hGranted with
          ⟨heap₁, front, merged, hCode, hExtended⟩
        have hMerged := hExtended.reshapes.represents
        have hSame := hExtended.reshapes.keeps.first
        have hNonnull := heap.first_ne_null (extent front)
        have hSizes := hExtended.size_le
        rcases hMerged.serves hAsize (by omega) with
          ⟨heap', p, hPlace, hServes⟩
        rw [hSame] at hPlace
        rw [← hExtend] at hCode
        refine .inr
          ⟨fun hNone => hNone.2 hGranted,
            heap', p, _, ?_, hServes⟩
        rw [mallocFrom_extend hSize hFind hCode,
          if_neg hNonnull, hPlace]
      · rcases
            extendHeap_refused .mm extend.aligned hBound
              hGranted with
          ⟨calls, hCode⟩
        rw [← hExtend] at hCode
        refine .inl ⟨⟨hFind, hGranted⟩, calls, ?_⟩
        rw [mallocFrom_extend hSize hFind hCode, if_pos rfl]

/- A request whose rounding does not wrap. -/
theorem Represents.malloc_size
    (hHeap : Represents heap blocks)
    (hSize : 0 < size)
    (hBound : size + 31 < 2 ^ 64) :
    ∃ heap' ptr,
      malloc .mm heap size = some (heap', ptr) ∧
        (ptr = null ∨
          ∃ p total,
            ptr = p + 8 ∧ size + 16 ≤ adjusted size ∧
              Serves heap' p total (adjusted size)) := by
  have hAdjusted := adjusted_eq hSize hBound
  have hRound : size + 16 ≤ adjusted size := by
    rw [hAdjusted]
    simp only [BlockSize.ofRequest]
    omega
  have hMod : adjusted size % 16 = 0 := by
    rw [hAdjusted]
    exact (BlockSize.ofRequest size hSize).aligned
  have hExtend :
      max (adjusted size) chunksize =
        (BlockSize.ofRequest size hSize).extend.bytes := by
    rw [hAdjusted]
    rfl
  have hChunk : chunksize = 4096 := rfl
  have hSum : adjusted size + 15 < 2 ^ 64 := by
    rw [hAdjusted]
    simp only [BlockSize.ofRequest]
    omega
  rcases hHeap.malloc_cases hSize hMod hExtend (by omega) with
    ⟨_, calls, hNull⟩ | ⟨_, heap', p, total, hPtr, hServes⟩
  · exact ⟨_, null, hNull, .inl rfl⟩
  · exact ⟨heap', p + 8, hPtr,
      .inr ⟨p, total, rfl, hRound, hServes⟩⟩

/- The addresses that find_fit and the checker walk over. -/
inductive Walked
    (heap : Heap) :
    Nat → Prop where
  | start : Walked heap heap.heapStart
  | next
      {p : Nat} :
      Walked heap p →
      getSize heap p ≠ 0 →
      Walked heap (findNext heap p)

/- No block is free, and mem_sbrk gives no further chunk. -/
def Exhausted (heap : Heap) : Prop :=
  (∀ p, Walked heap p → getAlloc heap p = true) ∧
    ¬ Granted heap chunksize

/- The walk stays on the headers of the blocks. -/
theorem Represents.walked
    (hHeap : Represents heap blocks)
    (hWalked : Walked heap p) :
    ∃ front back,
      blocks = front ++ back ∧
        p = heap.first + extent front := by
  induction hWalked with
  | start =>
      refine ⟨[], blocks, rfl, ?_⟩
      rw [hHeap.heapStart, extent_nil]
      rfl
  | next _ hSize ih =>
      rcases ih with ⟨front, back, rfl, rfl⟩
      cases back with
      | nil =>
          refine absurd ?_ hSize
          rw [getSize, hHeap.rightTag_eq]
          decide
      | cons block back =>
          refine ⟨front ++ [block], back, by simp, ?_⟩
          rw [hHeap.around.findNext_eq, extent_append,
            extent_cons, extent_nil, Nat.add_zero,
            Nat.add_assoc]

/- It meets them all. -/
theorem Represents.walked_append
    {more : List Block}
    (hHeap : Represents heap (front ++ (more ++ back)))
    (hFront : Walked heap (heap.first + extent front)) :
    Walked heap (heap.first + extent (front ++ more)) := by
  induction more generalizing front with
  | nil =>
      rw [List.append_nil]
      exact hFront
  | cons block more ih =>
      have hAround := hHeap.around
      have hPos := block.bytes_pos
      have hNext := hFront.next (by
        rw [hAround.getSize_eq]
        omega)
      have hAddress :
          heap.first + extent (front ++ [block]) =
            heap.first + extent front + block.bytes := by
        rw [extent_append, extent_cons, extent_nil]
        omega
      rw [hAround.findNext_eq, ← hAddress] at hNext
      have hRest := @ih (front ++ [block])
      simp only [List.append_assoc, List.singleton_append]
        at hRest
      exact hRest hHeap hNext

theorem Represents.walked_front
    (hHeap : Represents heap (front ++ back)) :
    Walked heap (heap.first + extent front) := by
  have hStart : Walked heap (heap.first + extent []) :=
    hHeap.heapStart ▸ .start
  exact @Represents.walked_append heap [] back front hHeap
    hStart

/- A heap without a free block, in terms of the walk. -/
theorem Represents.walked_allocated_iff
    (hHeap : Represents heap blocks) :
    (∀ p, Walked heap p → getAlloc heap p = true) ↔
      ∀ block ∈ blocks, block.allocated = true := by
  constructor
  · intro hAll block hMem
    rcases List.append_of_mem hMem with ⟨front, back, rfl⟩
    rw [← hHeap.around.getAlloc_eq]
    exact hAll _ hHeap.walked_front
  · intro hAll p hWalked
    rcases hHeap.walked hWalked with ⟨front, back, rfl, rfl⟩
    cases back with
    | nil =>
        rw [getAlloc, hHeap.rightTag_eq]
        decide
    | cons block back =>
        rw [hHeap.around.getAlloc_eq]
        exact hAll block (by simp)

/- A free block of any size serves a request for no bytes. -/
theorem Represents.unserved_iff
    (hHeap : Represents heap blocks)
    (hAsize : asize ≤ 16) :
    Unserved heap asize chunksize ↔ Exhausted heap := by
  unfold Unserved Exhausted
  rw [hHeap.walked_allocated_iff, hHeap.findFit_eq]
  refine and_congr_left fun _ => ?_
  have hFits (block : Block) :
      fits asize block = ! block.allocated := by
    have hLeast := block.bytes_least
    rw [fits, decide_eq_true (by omega), Bool.and_true]
  have hNone :
      Tiling.firstSplit (fits asize) blocks = none ↔
        ∀ block ∈ blocks, block.allocated = true := by
    rw [Tiling.firstSplit_eq_none_iff]
    simp [hFits]
  rw [← hNone]
  constructor
  · intro hNull
    cases hSplit :
        Tiling.firstSplit (fits asize) blocks with
    | none => rfl
    | some split =>
        rcases split with ⟨front, found, back⟩
        rw [hSplit] at hNull
        exact
          absurd (Option.some.inj hNull)
            (heap.first_ne_null (extent front))
  · intro hSplit
    rw [hSplit]
    rfl

/- A request that wraps is served as one of no bytes. -/
theorem Represents.malloc_wrapped
    (hHeap : Represents heap blocks)
    (hLarge : 2 ^ 64 ≤ size + 31)
    (hWord : size < 2 ^ 64) :
    (adjusted size = 0 ∨ adjusted size = 16) ∧
    ((Exhausted heap ∧
      ∃ calls,
        malloc .mm heap size =
          some ({ heap with osCalls := calls }, null)) ∨
    (¬ Exhausted heap ∧
      ∃ heap' p total,
        malloc .mm heap size = some (heap', p + 8) ∧
          Serves heap' p total (adjusted size))) := by
  have hSmall :
      adjusted size = 0 ∨ adjusted size = 16 := by
    simp only [adjusted, roundUp, u64, dsize, wsize]
    omega
  have hAsize : adjusted size ≤ 16 := by
    omega
  have hChunk : chunksize = 4096 := rfl
  refine ⟨hSmall, ?_⟩
  rw [← hHeap.unserved_iff hAsize]
  exact
    @Represents.malloc_cases heap blocks size BlockSize.chunk
      hHeap (by omega) (by omega)
      (by
        change _ = chunksize
        omega)
      (by decide)

------------------------------------------------------------
-- calloc
------------------------------------------------------------

/- The payload that a returned pointer's header gives it. -/
def payloadAt (heap : Heap) (ptr : Nat) : Nat :=
  getPayloadSize heap (payloadToHeader ptr)

theorem Serves.payloadAt_memzero
    {heap' : Heap}
    {total : Nat}
    (hServes : Serves heap' p total asize)
    (count : Nat) :
    payloadAt (memzero heap' (p + 8) count) (p + 8) =
      sub64 (placedSize total asize) 16 := by
  have hLimit := hServes.limit
  have hHeader : payloadToHeader (p + 8) = p := by
    unfold payloadToHeader sub64 wsize
    omega
  have hSame :
      get (memzero heap' (p + 8) count) p = get heap' p := by
    apply ByteMemory.readWord_of_sameOn
    apply (memzero_fills heap' (p + 8) count).mem.sameOn
    exact .inl (Nat.le_refl _)
  rw [payloadAt, hHeader, getPayloadSize, getSize, hSame]
  exact congrArg (fun n => sub64 n 16) hServes.header

/- Its header counts at least 16 bytes and at most `total`. -/
theorem Serves.placedSize_bounds
    {heap' : Heap}
    {total : Nat}
    (hServes : Serves heap' p total asize)
    (hAsize : asize = 0 ∨ asize = 16) :
    16 ≤ placedSize total asize ∧
      placedSize total asize ≤ total := by
  have hLarge := hServes.large
  have hFits := hServes.fits
  unfold placedSize
  split
  · omega
  · omega

/-
  calloc returns, with NULL or with a block that holds the
  whole product, all of it zero.
-/
def CallocServes
    (heap : Heap)
    (elements size : Nat) :
    Prop :=
  ∃ heap' ptr,
    calloc .mm heap elements size = some (heap', ptr) ∧
      (ptr = null ∨
        elements * size < 2 ^ 64 ∧
          elements * size ≤ payloadAt heap' ptr ∧
            ∀ k, k < elements * size →
              heap'.mem (ptr + k) = 0)

/-
  There is something to divide by, and the product either
  does not wrap in malloc, or wraps in calloc, or finds an
  exhausted heap.
-/
def CallocSound
    (heap : Heap)
    (elements size : Nat) :
    Prop :=
  elements ≠ 0 ∧
    (elements * size + 31 < 2 ^ 64 ∨
      2 ^ 64 ≤ elements * size ∨
        Exhausted heap)

/- The test of calloc finds every product that wraps. -/
theorem wraps_iff
    {elements limit : Nat}
    (hElements : 0 < elements)
    (hLimit : 0 < limit) :
    elements * size % limit / elements ≠ size ↔
      limit ≤ elements * size := by
  constructor
  · intro hNe
    by_contra hLess
    rw [Nat.mod_eq_of_lt (by omega),
      Nat.mul_div_cancel_left size hElements] at hNe
    exact hNe rfl
  · intro hWraps
    have hMod := Nat.mod_lt (elements * size) hLimit
    apply Nat.ne_of_lt
    rw [Nat.div_lt_iff_lt_mul hElements, Nat.mul_comm size]
    exact lt_of_lt_of_le hMod hWraps

theorem calloc_wraps
    {elements : Nat}
    (version : Version)
    (hElements : elements ≠ 0)
    (hWraps : 2 ^ 64 ≤ elements * size) :
    calloc version heap elements size = some (heap, null) := by
  have hTest :=
    (@wraps_iff size elements (2 ^ 64)
      (Nat.pos_of_ne_zero hElements) (by decide)).mpr hWraps
  unfold calloc u64
  simp only
  rw [if_neg hElements, if_pos hTest]

/- Where malloc serves the product, calloc fills it. -/
theorem calloc_served
    {heap' : Heap}
    {elements : Nat}
    (hElements : elements ≠ 0)
    (hBound : elements * size < 2 ^ 64)
    (hMalloc :
      malloc .mm heap (elements * size) =
        some (heap', p + 8)) :
    calloc .mm heap elements size =
      some (memzero heap' (p + 8) (elements * size),
        p + 8) := by
  rw [calloc_eq hElements hBound hMalloc,
    if_neg (payload_ne_null p)]

/- Where malloc returns NULL, so does calloc. -/
theorem calloc_null
    {heap' : Heap}
    {elements : Nat}
    (hElements : elements ≠ 0)
    (hBound : elements * size < 2 ^ 64)
    (hMalloc :
      malloc .mm heap (elements * size) =
        some (heap', null)) :
    calloc .mm heap elements size = some (heap', null) := by
  rw [calloc_eq hElements hBound hMalloc, if_pos rfl]

theorem CallocServes.of_null
    {heap' : Heap}
    {elements : Nat}
    (hCalloc :
      calloc .mm heap elements size = some (heap', null)) :
    CallocServes heap elements size :=
  ⟨heap', null, hCalloc, .inl rfl⟩

/- A product that does not wrap in malloc is served. -/
theorem Represents.calloc_small
    {elements : Nat}
    (hHeap : Represents heap blocks)
    (hElements : elements ≠ 0)
    (hBound : elements * size + 31 < 2 ^ 64) :
    CallocServes heap elements size := by
  by_cases hZero : elements * size = 0
  · have hMalloc :
        malloc .mm heap (elements * size) =
          some (heap, null) := by
      rw [hHeap.malloc_eq, mallocFrom, if_pos hZero]
    exact .of_null (calloc_null hElements (by omega) hMalloc)
  · rcases
        hHeap.malloc_size (Nat.pos_of_ne_zero hZero) hBound
      with ⟨heap', ptr, hMalloc, hResult⟩
    rcases hResult with rfl | ⟨p, total, rfl, hRound, hServes⟩
    · exact
        .of_null (calloc_null hElements (by omega) hMalloc)
    · have hFits := hServes.fits
      have hLimit := hServes.limit
      refine ⟨_, _,
        calloc_served hElements (by omega) hMalloc,
        .inr ⟨by omega, ?_, ?_⟩⟩
      · rw [hServes.payloadAt_memzero]
        unfold placedSize sub64
        split
        · omega
        · omega
      · intro k hK
        simp only [memzero]
        rw [if_pos (by omega)]

/- A product that wraps in malloc needs an exhausted heap. -/
theorem Represents.calloc_wrapped_iff
    {elements : Nat}
    (hHeap : Represents heap blocks)
    (hElements : elements ≠ 0)
    (hLarge : 2 ^ 64 ≤ elements * size + 31)
    (hBound : elements * size < 2 ^ 64) :
    CallocServes heap elements size ↔
      Exhausted heap := by
  rcases hHeap.malloc_wrapped hLarge hBound with
    ⟨hAsize, ⟨hExhausted, calls, hMalloc⟩ |
      ⟨hNot, heap', p, total, hMalloc, hServes⟩⟩
  · exact
      iff_of_true
        (.of_null (calloc_null hElements hBound hMalloc))
        hExhausted
  · refine iff_of_false ?_ hNot
    rintro ⟨heap'', ptr, hCalloc, hResult⟩
    rw [calloc_served hElements hBound hMalloc] at hCalloc
    cases hCalloc
    have hLimit := hServes.limit
    have hLeast := hServes.least
    rcases hResult with hNull | ⟨_, hPayload, _⟩
    · exact payload_ne_null p hNull
    · rw [hServes.payloadAt_memzero] at hPayload
      have hBounds := hServes.placedSize_bounds hAsize
      unfold sub64 at hPayload
      omega

/- calloc in a well-formed heap, for all operands. -/
theorem Represents.calloc_iff
    {elements : Nat}
    (hHeap : Represents heap blocks) :
    CallocServes heap elements size ↔
      CallocSound heap elements size := by
  by_cases hElements : elements = 0
  · refine iff_of_false ?_ (fun hSound => hSound.1 hElements)
    rintro ⟨heap', ptr, hCalloc, _⟩
    unfold calloc at hCalloc
    simp only [if_pos hElements] at hCalloc
    cases hCalloc
  · by_cases hSmall : elements * size + 31 < 2 ^ 64
    · exact
        iff_of_true (hHeap.calloc_small hElements hSmall)
          ⟨hElements, .inl hSmall⟩
    · by_cases hWraps : 2 ^ 64 ≤ elements * size
      · exact
          iff_of_true
            (.of_null (calloc_wraps .mm hElements hWraps))
            ⟨hElements, .inr (.inl hWraps)⟩
      · rw [hHeap.calloc_wrapped_iff hElements (by omega)
          (by omega)]
        unfold CallocSound
        constructor
        · exact fun hNone => ⟨hElements, .inr (.inr hNone)⟩
        · rintro ⟨_, hLess | hMore | hNone⟩
          · exact absurd hLess hSmall
          · exact absurd hMore hWraps
          · exact hNone

------------------------------------------------------------
-- Runs
------------------------------------------------------------

/-
  Steps of a client whose calls split correctly and do not
  wrap, or are products that calloc refuses.
-/
inductive CallStep
    (world : World) :
    Call × Nat → World → Prop where
  | split
      {label : Call × Nat}
      {world' : World} :
      SplittingStep .mm world label world' →
      CallStep world label world'
  | refused
      {elements size ptr : Nat}
      {heap : Heap} :
      CallocSound world.heap elements size →
      2 ^ 64 ≤ elements * size + 31 →
      calloc .mm world.heap elements size =
        some (heap, ptr) →
      CallStep world (.calloc elements size, ptr)
        ⟨heap, gain ptr world.live⟩

/- A refused product changes no block. -/
theorem Represents.calloc_refused
    {elements : Nat}
    (hHeap : Represents heap blocks)
    (hSound : CallocSound heap elements size)
    (hLarge : 2 ^ 64 ≤ elements * size + 31) :
    ∃ calls,
      calloc .mm heap elements size =
        some ({ heap with osCalls := calls }, null) := by
  rcases hSound with ⟨hElements, hCases⟩
  by_cases hWraps : 2 ^ 64 ≤ elements * size
  · exact ⟨heap.osCalls, calloc_wraps .mm hElements hWraps⟩
  · have hExhausted : Exhausted heap := by
      rcases hCases with hLess | hMore | hExhausted
      · omega
      · omega
      · exact hExhausted
    rcases hHeap.malloc_wrapped hLarge (by omega) with
      ⟨_, ⟨_, calls, hMalloc⟩ | ⟨hNot, _⟩⟩
    · exact
        ⟨calls, calloc_null hElements (by omega) hMalloc⟩
    · exact absurd hExhausted hNot

theorem CallStep.consistent
    {world world' : World}
    {label : Call × Nat}
    (hStep : CallStep world label world')
    (hWorld : Consistent world blocks) :
    ∃ blocks', Consistent world' blocks' := by
  cases hStep with
  | split hSplitting =>
      exact
        hSplitting.1.consistent (fun _ => hSplitting.2) hWorld
  | refused hSound hLarge hCalloc =>
      rcases hWorld.heap.calloc_refused hSound hLarge with
        ⟨calls, hCode⟩
      rw [hCode] at hCalloc
      cases hCalloc
      exact ⟨blocks,
        hWorld.reshaped (hWorld.heap.refused_reshapes calls)⟩

/- calloc in every heap of such a run. -/
theorem calloc_serves_iff
    {labels : List (Call × Nat)}
    {world : World}
    (hFresh : Fresh heap)
    (hInit : (mmInit .mm heap).2 = true)
    (hRun :
      Transition.Run CallStep (World.ofInit .mm heap) labels
        world)
    (elements size : Nat) :
    CallocServes world.heap elements size ↔
      CallocSound world.heap elements size := by
  have hConsistent :
      ∃ blocks, Consistent world blocks := by
    apply hRun.invariant
      (fun world => ∃ blocks, Consistent world blocks)
    · exact hFresh.consistent hInit
    · rintro w label w' ⟨blocks, hWorld⟩ hStep
      exact hStep.consistent hWorld
  rcases hConsistent with ⟨blocks, hWorld⟩
  exact hWorld.heap.calloc_iff

/-
  A malloc that splits the first chunk, and a product that
  wraps, do not disturb the next calls.
-/
theorem calloc_serves_iff_after_wrap :
    ∃ labels world,
      labels ≠ [] ∧
        Transition.Run CallStep
          (World.ofInit .mm namedRegion) labels world ∧
          CallocServes world.heap 8 500 ∧
            ¬ CallocServes world.heap 0 8 := by
  rcases namedRegion_splits with ⟨heap, ptr, hSplit⟩
  have hSound : CallocSound heap (2 ^ 63) 4 :=
    ⟨by decide, .inr (.inl (by decide))⟩
  have hRun :
      Transition.Run CallStep
        (World.ofInit .mm namedRegion)
        [(.malloc 16, ptr), (.calloc (2 ^ 63) 4, null)]
        ⟨heap, gain null (gain ptr [])⟩ :=
    .snoc (.snoc .nil (.split hSplit))
      (.refused hSound (by decide)
        (calloc_wraps .mm (by decide) (by decide)))
  have hIff :=
    calloc_serves_iff namedRegion_fresh namedRegion_init
      hRun
  refine ⟨_, _, List.cons_ne_nil _ _, hRun, ?_, ?_⟩
  · rw [hIff 8 500]
    exact ⟨by decide, .inl (by decide)⟩
  · rw [hIff 0 8]
    exact fun hSound => hSound.1 rfl

/-
  Straight after mm_init, calloc(0, 8) divides by zero, and
  calloc(1, 2^64 - 5) clears 2^64 - 5 bytes from the payload
  of a block that has far less.
-/
theorem calloc_fails_after_init :
    ∃ heap,
      Fresh heap ∧
        (mmInit .mm heap).2 = true ∧
          ¬ CallocServes (mmInit .mm heap).1 0 8 ∧
            ¬ CallocServes (mmInit .mm heap).1 1
              (2 ^ 64 - 5) := by
  rcases zeroRegion_fresh.consistent (zeroRegion_init .mm)
    with ⟨blocks, hWorld⟩
  have hHeap :
      Represents (mmInit .mm zeroRegion).1 blocks :=
    hWorld.heap
  have hGranted :
      Granted (mmInit .mm zeroRegion).1 chunksize := by
    decide +kernel
  refine ⟨zeroRegion, zeroRegion_fresh, zeroRegion_init .mm,
    ?_, ?_⟩
  · rw [hHeap.calloc_iff]
    exact fun hSound => hSound.1 rfl
  · rw [hHeap.calloc_wrapped_iff (by decide) (by decide)
      (by decide)]
    exact fun hExhausted => hExhausted.2 hGranted

end Recitation

end CsappLabs
