import CsappLabs.Recitation.Coalesce

/-
  find_fit and split_block on a represented heap.

  In mm.c split_block stores the footer of the remainder
  before its header, and so where the old word at the
  remainder says; in mm-2.c the header comes first.

  Key definitions:
    * `fits`
    * `carve`
    * `RemainderNamed`

  Key theorems:
    * `Represents.findFit_eq`
    * `Represents.placeBlock_spec`
-/

------------------------------------------------------------
-- First Fit
------------------------------------------------------------

namespace CsappLabs

namespace Recitation

/- The test of find_fit. -/
def fits
    (asize : Nat)
    (block : Block) :
    Bool :=
  ! block.allocated && decide (asize ≤ block.bytes)

/- The address find_fit gives back for its first fit. -/
def fitAddress
    (start : Nat) :
    Option (List Block × Block × List Block) → Nat
  | none => null
  | some (front, _, _) => start + extent front

/- The loop from the end of `front` on. -/
theorem Represents.findFitFrom_eq
    {heap : Heap}
    {front back : List Block}
    {fuel : Nat}
    (hHeap : Represents heap (front ++ back))
    (asize : Nat)
    (hFuel : back.length < fuel) :
    findFitFrom heap asize fuel
        (heap.first + extent front) =
      some (fitAddress (heap.first + extent front)
        (Tiling.firstSplit (fits asize) back)) := by
  induction back generalizing front fuel with
  | nil =>
      cases fuel with
      | zero => exact absurd hFuel (by simp)
      | succ fuel =>
          have hRight := hHeap.rightTag_eq
          have hSize :
              getSize heap (heap.first + extent front) = 0 := by
            rw [getSize, hRight]
            decide
          rw [findFitFrom, if_pos hSize]
          rfl
  | cons block back ih =>
      cases fuel with
      | zero => exact absurd hFuel (by simp)
      | succ fuel =>
          have hAround := hHeap.around
          have hPos := block.bytes_pos
          have hNonzero :
              getSize heap (heap.first + extent front) ≠
                0 := by
            rw [hAround.getSize_eq]
            omega
          rw [findFitFrom, if_neg hNonzero,
            hAround.getSize_eq, hAround.getAlloc_eq,
            hAround.findNext_eq, Tiling.firstSplit]
          by_cases hFits : fits asize block = true
          · have hTest :
                block.allocated = false ∧
                  asize ≤ block.bytes := by
              simpa [fits] using hFits
            rw [if_pos hTest, if_pos hFits, fitAddress,
              extent_nil, Nat.add_zero]
          · have hTest :
                ¬ (block.allocated = false ∧
                  asize ≤ block.bytes) := by
              simpa [fits] using hFits
            rw [if_neg hTest, if_neg hFits]
            have hSplit :
                front ++ block :: back =
                  (front ++ [block]) ++ back := by
              simp
            rw [hSplit] at hHeap
            have hRest := ih hHeap
              (Nat.lt_of_succ_lt_succ hFuel)
            have hAddress :
                heap.first + extent (front ++ [block]) =
                  heap.first + extent front +
                    block.bytes := by
              rw [extent_append, extent_cons, extent_nil]
              omega
            rw [hAddress] at hRest
            rw [hRest]
            cases Tiling.firstSplit (fits asize) back with
            | none => rfl
            | some found =>
                rcases found with ⟨before, fit, after⟩
                simp [fitAddress, Nat.add_assoc]

/- find_fit ends, at the first free block large enough. -/
theorem Represents.findFit_eq
    {heap : Heap}
    {blocks : List Block}
    (hHeap : Represents heap blocks)
    (asize : Nat) :
    findFit heap asize =
      some (fitAddress heap.first
        (Tiling.firstSplit (fits asize) blocks)) := by
  have hBrk := hHeap.memBrk
  have hCount :
      blocks.length ≤ extent blocks :=
    Tiling.count_le_extent Block.bytes_pos blocks
  have hFrom :=
    @Represents.findFitFrom_eq heap [] blocks heap.memBrk
      hHeap asize (by omega)
  rw [extent_nil, Nat.add_zero] at hFrom
  rw [findFit, hHeap.heapStart]
  exact hFrom

------------------------------------------------------------
-- Splitting a Block
------------------------------------------------------------

theorem put_comm
    (heap : Heap)
    {p q : Nat}
    (hApart : p + 8 ≤ q ∨ q + 8 ≤ p)
    (left right : Nat) :
    put (put heap p left) q right =
      put (put heap q right) p left := by
  have hMem :
      (heap.mem.writeWord p 8 left).writeWord q 8 right =
        (heap.mem.writeWord q 8 right).writeWord
          p 8 left := by
    funext a
    unfold ByteMemory.writeWord
    split_ifs with hRight hLeft
    · omega
    · rfl
    · rfl
    · rfl
  have hOverrun :
      (heap.overrun || decide (heap.memBrk < p + 8) ||
          decide (heap.memBrk < q + 8)) =
        (heap.overrun || decide (heap.memBrk < q + 8) ||
          decide (heap.memBrk < p + 8)) :=
    Bool.or_right_comm _ _ _
  calc
    put (put heap p left) q right =
        { heap with
            mem :=
              (heap.mem.writeWord p 8 left).writeWord
                q 8 right
            overrun :=
              heap.overrun ||
                  decide (heap.memBrk < p + 8) ||
                decide (heap.memBrk < q + 8) } := rfl
    _ = { heap with
            mem :=
              (heap.mem.writeWord q 8 right).writeWord
                p 8 left
            overrun :=
              heap.overrun ||
                  decide (heap.memBrk < q + 8) ||
                decide (heap.memBrk < p + 8) } := by
        rw [hMem, hOverrun]
    _ = put (put heap q right) p left := rfl

/-
  The two stores the other way round: the footer goes where
  the old header says.
-/
theorem writeFooter_writeHeader
    (heap : Heap)
    {p : Nat}
    {block : Block}
    (hLimit : p + block.bytes < 2 ^ 64)
    (hOld : getSize heap p = block.bytes) :
    writeHeader
        (writeFooter heap p block.bytes block.allocated)
        p block.bytes block.allocated =
      tagBlock heap p block := by
  have hLeast := block.bytes_least
  have hFooter :
      headerToFooter heap p = p + block.bytes - 8 := by
    simp only [headerToFooter, hOld, headerToPayload, u64,
      sub64, dsize, wsize]
    omega
  rw [writeFooter, hFooter]
  exact put_comm heap (by omega) block.tag block.tag

/- With another size in the header the footer is missed. -/
theorem writeFooter_misplaced
    (heap : Heap)
    {p : Nat}
    {block : Block}
    (hLimit : p + block.bytes < 2 ^ 64)
    (hOld : getSize heap p ≠ block.bytes) :
    get
        (writeHeader
          (writeFooter heap p block.bytes block.allocated)
          p block.bytes block.allocated) p = block.tag ∧
      get
          (writeHeader
            (writeFooter heap p block.bytes block.allocated)
            p block.bytes block.allocated)
          (p + block.bytes - 8) =
        get heap (p + block.bytes - 8) := by
  have hLeast := block.bytes_least
  have hMod := block.bytes_mod
  have hWord : get heap p < 2 ^ 64 :=
    ByteMemory.readWord_lt
  rw [getSize, extractSize_eq hWord] at hOld
  have hApart :
      p + block.bytes - 8 + 8 ≤ headerToFooter heap p ∨
        headerToFooter heap p + 8 ≤ p + block.bytes - 8 := by
    simp only [headerToFooter, getSize,
      extractSize_eq hWord, headerToPayload, u64, sub64,
      dsize, wsize]
    omega
  constructor
  · change get (put _ p block.tag) p = block.tag
    exact get_put _ _ (block.tag_lt (by omega))
  · change get (put (put heap _ block.tag) p block.tag) _ = _
    rw [get_put_apart _ (by omega), get_put_apart _ hApart]

/- What becomes of a block of which `need` is asked. -/
def carve
    (found : Block)
    (need : BlockSize) :
    List Block :=
  if hRest : need.bytes + 32 ≤ found.bytes then
    [⟨need, true⟩, ⟨found.size.minus need hRest, false⟩]
  else
    [⟨found.size, true⟩]

/- The block that serves the request comes first. -/
theorem carve_eq_cons
    (found : Block)
    {need : BlockSize}
    (hNeed : need.bytes ≤ found.bytes) :
    ∃ block rest,
      carve found need = block :: rest ∧
        block.allocated = true ∧
        need.bytes ≤ block.bytes ∧
        ∀ other ∈ rest, other.allocated = false := by
  unfold carve
  split_ifs with hRest
  · exact ⟨_, _, rfl, rfl, Nat.le_refl _, by simp⟩
  · exact ⟨_, _, rfl, rfl, hNeed, by simp⟩

theorem extent_carve
    (found : Block)
    (need : BlockSize) :
    extent (carve found need) = found.bytes := by
  unfold carve
  split_ifs with hRest
  · have hMinus :
        Block.bytes ⟨found.size.minus need hRest, false⟩ =
          found.bytes - need.bytes := rfl
    have hBytes : Block.bytes ⟨need, true⟩ = need.bytes :=
      rfl
    simp only [extent_cons, extent_nil, hMinus, hBytes]
    omega
  · simp [Block.bytes]

/- The word at the remainder names the remainder's size. -/
def RemainderNamed
    (version : Version)
    (heap : Heap)
    (p total asize : Nat) :
    Prop :=
  version = .mm →
    asize + minBlockSize ≤ total →
      extractSize (get heap (p + asize)) = total - asize

/-
  The stores of split_block when the block is large enough:
  the two tags of the first part, then those of the rest.
-/
theorem splitBlock_stores
    {heap : Heap}
    {p : Nat}
    {found rest : Block}
    {need : BlockSize}
    (hLimit : p + found.bytes < 2 ^ 64)
    (hSize : getSize heap p = found.bytes)
    (hRest : need.bytes + 32 ≤ found.bytes)
    (hBytes : found.bytes - need.bytes = rest.bytes)
    (hFree : rest.allocated = false) :
    splitBlock .mm heap p need.bytes =
        writeHeader
          (writeFooter (tagBlock heap p ⟨need, true⟩)
            (p + need.bytes) rest.bytes rest.allocated)
          (p + need.bytes) rest.bytes rest.allocated ∧
      splitBlock .mm2 heap p need.bytes =
        writeFooter
          (writeHeader (tagBlock heap p ⟨need, true⟩)
            (p + need.bytes) rest.bytes rest.allocated)
          (p + need.bytes) rest.bytes rest.allocated := by
  have hLeast := need.least
  have hSub :
      sub64 found.bytes need.bytes = rest.bytes := by
    rw [← hBytes]
    unfold sub64
    omega
  have hMin : minBlockSize ≤ rest.bytes := by
    change 32 ≤ _
    omega
  have hFirst :
      writeFooter
          (writeHeader heap p need.bytes true)
          p need.bytes true =
        tagBlock heap p ⟨need, true⟩ :=
    @writeHeader_writeFooter heap p ⟨need, true⟩ (by
      change p + need.bytes < 2 ^ 64
      omega)
  have hTagged :
      Tagged (tagBlock heap p ⟨need, true⟩).mem p
        ⟨need, true⟩ :=
    tagBlock_tagged heap (by
      change need.bytes < 2 ^ 64
      omega)
  have hNeedSize :
      getSize (tagBlock heap p ⟨need, true⟩) p =
        need.bytes :=
    getSize_of_get hTagged.header (by
      change need.bytes < 2 ^ 64
      omega)
  have hNext :
      findNext (tagBlock heap p ⟨need, true⟩) p =
        p + need.bytes := by
    rw [findNext, hNeedSize, u64,
      Nat.mod_eq_of_lt (by omega)]
  unfold splitBlock
  simp only [hSize, hSub, hMin, if_true, hFirst, hNext,
    hFree, and_self]

/- The first tags do not touch what lies behind them. -/
theorem get_tagBlock_behind
    (heap : Heap)
    {p q : Nat}
    {block : Block}
    (hBehind : p + block.bytes ≤ q) :
    get (tagBlock heap p block) q = get heap q := by
  have hLeast := block.bytes_least
  rw [tagBlock, get_put_apart _ (by omega),
    get_put_apart _ (by omega)]

theorem get_tagBlock_need
    {heap : Heap}
    {p : Nat}
    {need : BlockSize} :
    get (tagBlock heap p ⟨need, true⟩) (p + need.bytes) =
      get heap (p + need.bytes) :=
  get_tagBlock_behind heap (Nat.le_refl _)

/- A block that is too small for two stays whole. -/
theorem splitBlock_whole
    (version : Version)
    {heap : Heap}
    {p need : Nat}
    {found : Block}
    (hSize : getSize heap p = found.bytes)
    (hNeed : need ≤ found.bytes)
    (hRest : ¬ need + 32 ≤ found.bytes) :
    splitBlock version heap p need = heap := by
  have hSub :
      ¬ minBlockSize ≤ sub64 found.bytes need := by
    change ¬ 32 ≤ sub64 found.bytes need
    unfold sub64
    omega
  unfold splitBlock
  simp only [hSize, hSub, if_false]

/- Two tags side by side, as split_block leaves them. -/
theorem splitBlock_eq
    {version : Version}
    {heap : Heap}
    {p : Nat}
    {found : Block}
    {need : BlockSize}
    (hLimit : p + found.bytes < 2 ^ 64)
    (hSize : getSize heap p = found.bytes)
    (hRest : need.bytes + 32 ≤ found.bytes)
    (hNamed :
      RemainderNamed version heap p found.bytes
        need.bytes) :
    splitBlock version heap p need.bytes =
      tagBlock (tagBlock heap p ⟨need, true⟩)
        (p + need.bytes)
        ⟨found.size.minus need hRest, false⟩ := by
  generalize hRestBlock :
    (⟨found.size.minus need hRest, false⟩ : Block) = rest
  have hBytes :
      found.bytes - need.bytes = rest.bytes := by
    rw [← hRestBlock]
    rfl
  have hFree : rest.allocated = false := by
    rw [← hRestBlock]
  have hBelow :
      p + need.bytes + rest.bytes < 2 ^ 64 := by
    omega
  rcases splitBlock_stores hLimit hSize hRest hBytes hFree with
    ⟨hMm, hMm2⟩
  cases version with
  | mm =>
      have hOld :
          getSize (tagBlock heap p ⟨need, true⟩)
              (p + need.bytes) = rest.bytes := by
        rw [getSize, get_tagBlock_need, ← hBytes]
        exact hNamed rfl hRest
      rw [hMm]
      exact writeFooter_writeHeader _ hBelow hOld
  | mm2 =>
      rw [hMm2]
      exact writeHeader_writeFooter _ hBelow

/-
  Where the old word names another size, mm.c leaves the
  remainder with the footer of the whole block.
-/
theorem splitBlock_unnamed
    {heap : Heap}
    {p : Nat}
    {found : Block}
    {need : BlockSize}
    (hLimit : p + found.bytes < 2 ^ 64)
    (hTagged : Tagged heap.mem p found)
    (hRest : need.bytes + 32 ≤ found.bytes)
    (hNot :
      ¬ RemainderNamed .mm heap p found.bytes
        need.bytes) :
    get (splitBlock .mm heap p need.bytes)
          (p + need.bytes) =
        Block.tag ⟨found.size.minus need hRest, false⟩ ∧
      get (splitBlock .mm heap p need.bytes)
          (p + found.bytes - 8) = found.tag := by
  generalize hRestBlock :
    (⟨found.size.minus need hRest, false⟩ : Block) = rest
  have hBytes :
      found.bytes - need.bytes = rest.bytes := by
    rw [← hRestBlock]
    rfl
  have hFree : rest.allocated = false := by
    rw [← hRestBlock]
  have hOld :
      getSize (tagBlock heap p ⟨need, true⟩)
          (p + need.bytes) ≠ rest.bytes := by
    rw [getSize, get_tagBlock_need, ← hBytes]
    exact fun hEq => hNot fun _ _ => hEq
  have hSize : getSize heap p = found.bytes :=
    getSize_of_get hTagged.header (by omega)
  have hEnd :
      p + need.bytes + rest.bytes - 8 =
        p + found.bytes - 8 := by
    omega
  rcases
      writeFooter_misplaced
        (tagBlock heap p ⟨need, true⟩) (by omega) hOld with
    ⟨hHeader, hFooter⟩
  rcases splitBlock_stores hLimit hSize hRest hBytes hFree with
    ⟨hCode, _⟩
  rw [hCode]
  refine ⟨hHeader, ?_⟩
  rw [← hEnd, hFooter, hEnd,
    get_tagBlock_behind heap (by
      change p + need.bytes ≤ _
      omega)]
  exact hTagged.footer

/- One block retagged as two. -/
theorem Represents.tag_two
    {heap : Heap}
    {front back : List Block}
    {whole left right : Block}
    (hHeap : Represents heap (front ++ [whole] ++ back))
    (hBytes : left.bytes + right.bytes = whole.bytes) :
    Represents
        (tagBlock
          (tagBlock heap (heap.first + extent front) left)
          (heap.first + extent front + left.bytes) right)
        (front ++ [left, right] ++ back) ∧
      Rewrites heap
        (tagBlock
          (tagBlock heap (heap.first + extent front) left)
          (heap.first + extent front + left.bytes) right)
        (heap.first + extent front)
        (heap.first + extent front + whole.bytes) := by
  have hBrk := hHeap.memBrk
  have hLt := hHeap.brk_lt
  have hFirst : heap.first = heap.heapLo + 8 := rfl
  simp only [extent_append, extent_cons, extent_nil] at hBrk
  generalize hAddress : heap.first + extent front = p
  generalize hOne : tagBlock heap p left = one
  generalize hTwo :
    tagBlock one (p + left.bytes) right = two
  have hLeft : Rewrites heap one p (p + left.bytes) := by
    rw [← hOne]
    exact tagBlock_rewrites (by omega)
  have hOneBrk : one.memBrk = heap.memBrk := by
    rw [← hOne]
    rfl
  have hRight :
      Rewrites one two (p + left.bytes)
        (p + left.bytes + right.bytes) := by
    rw [← hTwo]
    exact tagBlock_rewrites (by
      rw [hOneBrk]
      omega)
  have hBoth : Rewrites heap two p (p + whole.bytes) :=
    (hLeft.mono (by omega) (by omega)).trans
      (hRight.mono (by omega) (by omega))
  refine ⟨hHeap.rewrite ?_ ?_ ?_, hBoth⟩
  · simp [hBytes]
  · rw [hAddress]
    intro q block hMember
    simp only [placed_cons, placed_nil, List.mem_cons,
      Prod.mk.injEq, List.not_mem_nil, or_false] at hMember
    rcases hMember with ⟨rfl, rfl⟩ | ⟨rfl, rfl⟩
    · have hTagged : Tagged one.mem q block := by
        rw [← hOne]
        exact tagBlock_tagged _ (by omega)
      exact hTagged.of_sameOn
        (hRight.mem.sameOn (by omega))
    · rw [← hTwo]
      exact tagBlock_tagged _ (by omega)
  · rw [hAddress]
    simpa using hBoth

/- The block that malloc marks before it splits it. -/
def Block.taken
    (block : Block) :
    Block :=
  { block with allocated := true }

@[simp] theorem Block.bytes_taken
    (block : Block) :
    block.taken.bytes = block.bytes := rfl

theorem Around.placeBlock_eq
    {heap : Heap}
    {p left right : Nat}
    {found : Block}
    (version : Version)
    (asize : Nat)
    (hAround : Around heap p left found right) :
    placeBlock version heap p asize =
      (splitBlock version (tagBlock heap p found.taken)
          p asize,
        p + 8) := by
  have hLimit := hAround.limit
  have hMark :
      writeFooter
          (writeHeader heap p found.bytes true)
          p found.bytes true =
        tagBlock heap p found.taken :=
    @writeHeader_writeFooter heap p found.taken (by
      rw [Block.bytes_taken]
      omega)
  unfold placeBlock
  simp only [hAround.getSize_eq, hMark,
    hAround.payload_eq]

/- The tags of the whole block keep the word in question. -/
theorem remainderNamed_marked
    {version : Version}
    {heap : Heap}
    {p : Nat}
    {found : Block}
    {need : BlockSize} :
    RemainderNamed version (tagBlock heap p found.taken) p
        found.bytes need.bytes ↔
      RemainderNamed version heap p found.bytes
        need.bytes := by
  have hLeast := need.least
  unfold RemainderNamed
  refine forall_congr' fun _ => forall_congr' fun hMin => ?_
  change need.bytes + 32 ≤ _ at hMin
  rw [tagBlock, Block.bytes_taken,
    get_put_apart _ (by omega), get_put_apart _ (by omega)]

theorem tagBlock_taken
    (heap : Heap)
    {p : Nat}
    {found : Block}
    (hLimit : p + found.bytes < 2 ^ 64) :
    Tagged (tagBlock heap p found.taken).mem p
      found.taken :=
  tagBlock_tagged heap (by
    rw [Block.bytes_taken]
    omega)

/- The tags of a block lie around its payload. -/
theorem tagBlock_payload
    (heap : Heap)
    (p : Nat)
    (block : Block) :
    (tagBlock heap p block).mem.SameOn heap.mem
      (p + 8) (p + 8 + 4) := by
  have hLeast := block.bytes_least
  have hHeader :
      (put heap p block.tag).mem.SameOn heap.mem
        (p + 8) (p + 8 + 4) :=
    ByteMemory.writeWord_sameOutside.sameOn (by
      change _ ≤ p ∨ p + 8 ≤ p + 8
      omega)
  have hFooter :
      (tagBlock heap p block).mem.SameOn
        (put heap p block.tag).mem (p + 8) (p + 8 + 4) :=
    ByteMemory.writeWord_sameOutside.sameOn
      (.inl (by omega))
  exact hFooter.trans hHeader

/- split_block leaves the payload of what it cuts alone. -/
theorem splitted_payload
    {heap : Heap}
    {p : Nat}
    {need : BlockSize}
    {rest : Block}
    (hBrk : p + need.bytes + rest.bytes ≤ heap.memBrk) :
    (tagBlock (tagBlock heap p ⟨need, true⟩)
        (p + need.bytes) rest).mem.SameOn heap.mem
      (p + 8) (p + 8 + 4) := by
  have hLeast := need.least
  have hFirst := tagBlock_payload heap p ⟨need, true⟩
  have hBrk' :
      p + need.bytes + rest.bytes ≤
        (tagBlock heap p ⟨need, true⟩).memBrk := hBrk
  refine ByteMemory.SameOn.trans ?_ hFirst
  refine (tagBlock_rewrites hBrk').mem.sameOn (.inl ?_)
  omega

/- The end of malloc on a free block that is large enough. -/
theorem Represents.placeBlock_spec
    {version : Version}
    {heap : Heap}
    {front back : List Block}
    {found : Block}
    {need : BlockSize}
    (hHeap : Represents heap (front ++ found :: back))
    (hNeed : need.bytes ≤ found.bytes)
    (hNamed :
      RemainderNamed version heap
        (heap.first + extent front) found.bytes
        need.bytes) :
    ∃ heap',
      placeBlock version heap (heap.first + extent front)
          need.bytes =
          (heap', heap.first + extent front + 8) ∧
        Represents heap'
          (front ++ carve found need ++ back) ∧
        Rewrites heap heap'
          (heap.first + extent front)
          (heap.first + extent front + found.bytes) ∧
        heap'.mem.SameOn heap.mem
          (heap.first + extent front + 8)
          (heap.first + extent front + 8 + 4) := by
  have hAround := hHeap.around
  have hLimit := hAround.limit
  have hLeast := need.least
  have hFoundLeast := found.bytes_least
  have hSplit :
      front ++ found :: back = front ++ [found] ++ back := by
    simp
  have hHere :
      (heap.first + extent front, found) ∈
        placed heap.first (front ++ [found] ++ back) := by
    simp
  rw [hSplit] at hHeap
  rcases
      @Represents.retag heap front [found] back hHeap
        found.taken (by simp) with
    ⟨hWhole, hMarked⟩
  rw [extent_cons, extent_nil, Nat.add_zero] at hMarked
  have hBounds := hHeap.bounds hHere
  have hKept :=
    tagBlock_payload heap (heap.first + extent front)
      found.taken
  rw [hAround.placeBlock_eq]
  have hTagged :=
    @tagBlock_taken heap (heap.first + extent front) found
      (by omega)
  have hSize :
      getSize
          (tagBlock heap (heap.first + extent front)
            found.taken)
          (heap.first + extent front) = found.bytes :=
    @getSize_of_get _ _ found.taken hTagged.header (by
      rw [Block.bytes_taken]
      omega)
  by_cases hRest : need.bytes + 32 ≤ found.bytes
  · rcases
        @Represents.tag_two _ front back found.taken
          ⟨need, true⟩
          ⟨found.size.minus need hRest, false⟩ hWhole (by
            change need.bytes + (found.bytes - need.bytes) =
              found.bytes
            omega) with
      ⟨hTwo, hSplitted⟩
    have hCarve :
        carve found need =
          [⟨need, true⟩,
            ⟨found.size.minus need hRest, false⟩] := by
      rw [carve, dif_pos hRest]
    rw [splitBlock_eq (by omega) hSize hRest
      (remainderNamed_marked.mpr hNamed), hCarve]
    refine ⟨_, rfl, hTwo, hMarked.trans hSplitted, ?_⟩
    refine (splitted_payload ?_).trans hKept
    change heap.first + extent front + need.bytes +
      (found.bytes - need.bytes) ≤ heap.memBrk
    omega
  · have hCode :=
      splitBlock_whole version hSize hNeed hRest
    have hCarve :
        carve found need = [found.taken] := by
      rw [carve, dif_neg hRest]
      rfl
    rw [hCode, hCarve]
    exact ⟨_, rfl, hWhole, hMarked, hKept⟩

/-
  Otherwise the tags at the remainder are those of no block,
  so the condition on the old word cannot be dropped.
-/
theorem Represents.placeBlock_untagged
    {heap : Heap}
    {front back : List Block}
    {found : Block}
    {need : BlockSize}
    (hHeap : Represents heap (front ++ found :: back))
    (hRest : need.bytes + 32 ≤ found.bytes)
    (hNot :
      ¬ RemainderNamed .mm heap
        (heap.first + extent front) found.bytes
        need.bytes)
    (rest : Block) :
    ¬ Tagged
      (placeBlock .mm heap (heap.first + extent front)
        need.bytes).1.mem
      (heap.first + extent front + need.bytes) rest := by
  have hAround := hHeap.around
  have hLimit := hAround.limit
  rw [hAround.placeBlock_eq]
  intro hTagged
  rcases
      @splitBlock_unnamed _ _ found.taken need
        (by rw [Block.bytes_taken]; omega)
        (tagBlock_taken heap (by omega)) hRest
        (mt remainderNamed_marked.mp hNot) with
    ⟨hHeader, hFooter⟩
  have hTag :
      rest.tag = found.bytes - need.bytes + 0 :=
    (hTagged.header.symm.trans hHeader).trans
      (Block.tag_eq _)
  have hMod := rest.bytes_mod
  have hFoundMod := found.bytes_mod
  have hNeedMod := need.aligned
  have hWhole : found.taken.tag = found.bytes + 1 :=
    Block.tag_eq _
  have hBytes : rest.bytes = found.bytes - need.bytes := by
    have hBool := Bool.toNat_le rest.allocated
    rw [rest.tag_eq] at hTag
    omega
  have hEnd :
      heap.first + extent front + need.bytes + rest.bytes =
        heap.first + extent front + found.taken.bytes := by
    rw [Block.bytes_taken]
    omega
  have hLast := hTagged.footer
  rw [hEnd] at hLast
  have hSame := hLast.symm.trans hFooter
  rw [hTag, hWhole] at hSame
  omega

end Recitation

end CsappLabs
