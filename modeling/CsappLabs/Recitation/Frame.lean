import CsappLabs.Recitation.Client

/-
  What the calls of mm-2.c leave alone.

  A block that is freed, or made by an extension, between
  two neighbours that are not free gets case 1 of
  coalesce_block, and that stores an int at the payload of
  the next block: into a live payload, or at the break when
  the next block is the epilogue.

  Key definitions:
    * `CaseOne`, `IsLast`, `Stamped`
    * `MoveSpares`
    * `Cut`

  Key theorems:
    * `Represents.free_harmless_iff`
    * `Represents.malloc_cuts`
    * `Represents.moveSpares_iff`
-/

------------------------------------------------------------
-- Case 1 of coalesce_block
------------------------------------------------------------

namespace CsappLabs

namespace Recitation

/- Freeing the block at `block` meets no free neighbour. -/
def CaseOne
    (heap : Heap)
    (block : Nat) :
    Prop :=
  extractAlloc (get heap (findPrevFooter block)) = true ∧
    getAlloc heap (findNext heap block) = true

/- The next block is the epilogue. -/
def IsLast
    (heap : Heap)
    (block : Nat) :
    Prop :=
  findNext heap block = heap.memBrk - wsize

/- The int that case 1 stores is there already. -/
def Stamped
    (heap : Heap)
    (block : Nat) :
    Prop :=
  heap.mem.readWord
    (headerToPayload (findNext heap block)) 4 = 0x15213

instance (heap : Heap) (block : Nat) :
    Decidable (CaseOne heap block) :=
  inferInstanceAs (Decidable (_ ∧ _))

instance (heap : Heap) (block : Nat) :
    Decidable (IsLast heap block) :=
  inferInstanceAs (Decidable (_ = _))

instance (heap : Heap) (block : Nat) :
    Decidable (Stamped heap block) :=
  inferInstanceAs (Decidable (_ = _))

section Free

variable {heap : Heap}
variable {front back : List Block}
variable {block : Block}

theorem Represents.caseOne_iff
    (hHeap : Represents heap (front ++ block :: back)) :
    CaseOne heap (heap.first + extent front) ↔
      Enclosed front back := by
  have hAround := hHeap.around
  unfold CaseOne Enclosed
  rw [hAround.findPrevFooter_eq, hAround.leftWord,
    hAround.findNext_eq, getAlloc, hAround.rightWord]

theorem Represents.isLast_iff
    (hHeap : Represents heap (front ++ block :: back)) :
    IsLast heap (heap.first + extent front) ↔
      back = [] := by
  have hBrk := hHeap.memBrk
  have hFirst : heap.first = heap.heapLo + 8 := rfl
  unfold IsLast
  rw [hHeap.around.findNext_eq]
  simp only [extent_append, extent_cons] at hBrk
  unfold wsize
  cases back with
  | nil =>
      rw [extent_nil] at hBrk
      simp only [iff_true]
      omega
  | cons next back =>
      have hLeast := next.bytes_least
      rw [extent_cons] at hBrk
      simp only [reduceCtorEq, iff_false]
      omega

/- The epilogue is never free. -/
theorem Represents.caseOne_of_isLast
    (hHeap : Represents heap (front ++ block :: back))
    (hLast : IsLast heap (heap.first + extent front))
    (hLeft : extractAlloc (leftTag front) = true) :
    CaseOne heap (heap.first + extent front) := by
  rw [hHeap.isLast_iff] at hLast
  rw [hHeap.caseOne_iff, hLast]
  exact ⟨hLeft, rfl⟩

/- Every allocated block but the one at `p` is as before. -/
def OthersKept
    (heap heap' : Heap)
    (blocks : List Block)
    (p : Nat) :
    Prop :=
  ∀ q other,
    (q, other) ∈ allocated heap.first blocks →
      q ≠ p →
        heap'.mem.SameOn heap.mem
          (q + 8) (q + other.bytes - 8)

/- Marking a block free keeps the others. -/
theorem Represents.tagBlock_othersKept
    (hHeap : Represents heap (front ++ block :: back)) :
    OthersKept heap
      (tagBlock heap (heap.first + extent front)
        block.freed)
      (front ++ block :: back)
      (heap.first + extent front) := by
  intro q other hMember hNe
  have hPlaced := (mem_allocated.mp hMember).1
  have hHere :
      (heap.first + extent front, block) ∈
        placed heap.first (front ++ block :: back) := by
    simp
  have hBounds := hHeap.bounds hHere
  have hApart := apart_of_placed hPlaced hHere hNe
  have hRewrites :=
    @tagBlock_rewrites heap (heap.first + extent front)
      block.freed (by
        rw [Block.bytes_freed]
        omega)
  rw [Block.bytes_freed] at hRewrites
  exact hRewrites.mem.sameOn (by omega)

/- The stamp of case 1, at the block that comes next. -/
theorem stamped_othersKept_iff
    {one : Heap}
    {next : Block}
    (hNext : next.allocated = true)
    (hOne :
      OthersKept heap one (front ++ block :: next :: back)
        (heap.first + extent front)) :
    OthersKept heap
        (stamp .mm2 one
          (heap.first + extent front + block.bytes + 8))
        (front ++ block :: next :: back)
        (heap.first + extent front) ↔
      heap.mem.readWord
        (heap.first + extent front + block.bytes + 8) 4 =
          0x15213 := by
  have hNextHere :
      (heap.first + extent front + block.bytes, next) ∈
        allocated heap.first
          (front ++ block :: next :: back) := by
    rw [mem_allocated]
    exact ⟨by simp, hNext⟩
  have hPos := block.bytes_pos
  have hLeast := next.bytes_least
  have hWritten :
      (stamp .mm2 one
          (heap.first + extent front + block.bytes +
            8)).mem.readWord
        (heap.first + extent front + block.bytes + 8) 4 =
          0x15213 :=
    ByteMemory.readWord_writeWord
  constructor
  · intro hKept
    have hSame :=
      hKept _ _ hNextHere (by omega)
    rw [← hWritten]
    exact (ByteMemory.readWord_of_sameOn
      (hSame.mono (Nat.le_refl _) (by omega))).symm
  · intro hWord q other hMember hNe
    have hOutside :
        (stamp .mm2 one
            (heap.first + extent front + block.bytes +
              8)).mem.SameOutside one.mem
          (heap.first + extent front + block.bytes + 8)
          (heap.first + extent front + block.bytes + 8 +
            4) :=
      ByteMemory.writeWord_sameOutside
    have hBefore := hOne q other hMember hNe
    by_cases hHere :
        q = heap.first + extent front + block.bytes
    · rw [← hWord] at hWritten
      have hSame :=
        ByteMemory.sameOn_of_readWord hWritten
      intro a hLow hHigh
      by_cases hInside :
          a < heap.first + extent front + block.bytes +
            8 + 4
      · exact hSame a (by omega) hInside
      · exact (hOutside a (by omega)).trans
          (hBefore a hLow hHigh)
    · have hPlaced := (mem_allocated.mp hMember).1
      have hNextPlaced := (mem_allocated.mp hNextHere).1
      have hApart :=
        apart_of_placed hPlaced hNextPlaced hHere
      exact (hOutside.sameOn (by omega)).trans hBefore

/- Case 1 is the only one that stores into a payload. -/
theorem Represents.free_othersKept_iff
    (hHeap : Represents heap (front ++ block :: back)) :
    OthersKept heap
        (free .mm2 heap (heap.first + extent front + 8))
        (front ++ block :: back)
        (heap.first + extent front) ↔
      (CaseOne heap (heap.first + extent front) →
        IsLast heap (heap.first + extent front) ∨
          Stamped heap (heap.first + extent front)) := by
  rcases hHeap.free_spec .mm2 with ⟨blocks', _, hBoth, hElse⟩
  rw [hHeap.caseOne_iff, hHeap.isLast_iff]
  by_cases hEnclosed : Enclosed front back
  · have hMarked := hHeap.tagBlock_othersKept
    have hAround := hHeap.around
    have hLimit := hAround.limit
    have hPayload :
        headerToPayload
            (findNext heap (heap.first + extent front)) =
          heap.first + extent front + block.bytes + 8 := by
      rw [hAround.findNext_eq]
      unfold headerToPayload u64 wsize
      omega
    rw [hBoth hEnclosed]
    simp only [Stamped, hPayload, hEnclosed, true_imp_iff]
    cases back with
    | nil =>
        simp only [true_or, iff_true]
        intro q other hMember hNe
        have hBounds :=
          bounds_of_placed (mem_allocated.mp hMember).1
        rw [extent_append, extent_cons, extent_nil]
          at hBounds
        exact (stamp_sameOn (by omega)).trans
          (hMarked q other hMember hNe)
    | cons next back =>
        have hNext : next.allocated = true := by
          have hRight := hEnclosed.2
          rwa [rightTag_cons, next.extractAlloc_tag]
            at hRight
        rw [stamped_othersKept_iff hNext hMarked]
        simp
  · have hKeeps := (hElse hEnclosed).1
    simp only [hEnclosed, false_imp_iff, iff_true]
    intro q other hMember hNe
    have hBytes := hKeeps.bytes q other
      ((mem_allocated_freed _).mpr ⟨hMember, hNe⟩)
    exact hBytes.mono (by omega) (by omega)

/- A free that writes at the break. -/
def FreesAtBreak
    (heap : Heap)
    (block : Nat) :
    Prop :=
  extractAlloc (get heap (findPrevFooter block)) = true ∧
    IsLast heap block

theorem Represents.freesAtBreak_iff
    (hHeap : Represents heap (front ++ block :: back)) :
    FreesAtBreak heap (heap.first + extent front) ↔
      extractAlloc (leftTag front) = true ∧ back = [] := by
  have hAround := hHeap.around
  unfold FreesAtBreak
  rw [hHeap.isLast_iff, hAround.findPrevFooter_eq,
    hAround.leftWord]

theorem Represents.free_overrun_iff
    (hHeap : Represents heap (front ++ block :: back))
    (hClear : heap.overrun = false) :
    (free .mm2 heap
        (heap.first + extent front + 8)).overrun = false ↔
      ¬ FreesAtBreak heap (heap.first + extent front) := by
  rw [hHeap.freesAtBreak_iff]
  rcases hHeap.free_spec .mm2 with ⟨blocks', _, hBoth, hElse⟩
  by_cases hEnclosed : Enclosed front back
  · have hBrk := hHeap.memBrk
    have hFirst : heap.first = heap.heapLo + 8 := rfl
    have hOne :=
      @tagBlock_rewrites heap (heap.first + extent front)
        block.freed (by
          rw [Block.bytes_freed]
          simp only [extent_append, extent_cons] at hBrk
          omega)
    have hOneClear := hOne.overrun
    have hOneBrk :
        (tagBlock heap (heap.first + extent front)
          block.freed).memBrk = heap.memBrk := rfl
    rw [hBoth hEnclosed]
    simp only [hEnclosed.1, true_and]
    simp only [extent_append, extent_cons] at hBrk
    cases back with
    | nil =>
        rw [extent_nil] at hBrk
        rw [stamp_overrun (by
          rw [hOneBrk]
          omega)]
        simp
    | cons next back =>
        have hLeast := next.bytes_least
        rw [extent_cons] at hBrk
        have hNot :
            ¬ heap.memBrk <
              heap.first + extent front + block.bytes +
                8 + 4 := by
          omega
        simp [stamp, store, hOneClear, hOneBrk, hNot,
          hClear]
  · rw [(hElse hEnclosed).2, hClear]
    simp only [true_iff]
    rintro ⟨hLeft, rfl⟩
    exact hEnclosed ⟨hLeft, rfl⟩

/-
  free of a live payload is harmless unless it meets case 1
  and the int is not in the next payload already.
-/
theorem Represents.free_harmless_iff
    (hHeap : Represents heap (front ++ block :: back))
    (hClear : heap.overrun = false) :
    (OthersKept heap
          (free .mm2 heap (heap.first + extent front + 8))
          (front ++ block :: back)
          (heap.first + extent front) ∧
        (free .mm2 heap
          (heap.first + extent front + 8)).overrun =
            false) ↔
      (CaseOne heap (heap.first + extent front) →
        ¬ IsLast heap (heap.first + extent front) ∧
          Stamped heap (heap.first + extent front)) := by
  rw [hHeap.free_othersKept_iff,
    hHeap.free_overrun_iff hClear]
  constructor
  · rintro ⟨hStamped, hInside⟩ hCase
    have hNotLast :
        ¬ IsLast heap (heap.first + extent front) :=
      fun hLast => hInside ⟨hCase.1, hLast⟩
    exact ⟨hNotLast,
      (hStamped hCase).resolve_left hNotLast⟩
  · intro hSpared
    refine ⟨fun hCase => .inr (hSpared hCase).2, ?_⟩
    rintro ⟨hLeft, hLast⟩
    have hAround := hHeap.around
    have hCase :
        CaseOne heap (heap.first + extent front) := by
      rw [hAround.findPrevFooter_eq, hAround.leftWord]
        at hLeft
      exact hHeap.caseOne_of_isLast hLast hLeft
    exact (hSpared hCase).1 hLast

end Free

------------------------------------------------------------
-- free After a malloc
------------------------------------------------------------

/-
  malloc cuts `asize` bytes of the `total` bytes at `cut`:
  the left neighbour is taken, or becomes so because it is
  cut and nothing remains of it.
-/
def LeftTaken
    (heap : Heap)
    (block cut total asize : Nat) :
    Prop :=
  extractAlloc (get heap (findPrevFooter block)) = true ∨
    (findPrev heap block = cut ∧
      total < asize + minBlockSize)

/- The right neighbour is taken, or becomes so. -/
def RightTaken
    (heap : Heap)
    (block cut : Nat) :
    Prop :=
  getAlloc heap (findNext heap block) = true ∨
    findNext heap block = cut

/- What realloc copies into the new payload. -/
def copySize
    (heap : Heap)
    (block size : Nat) :
    Nat :=
  if size < getPayloadSize heap block then
    size
  else
    getPayloadSize heap block

theorem copySize_eq
    {heap : Heap}
    {p size : Nat}
    {block : Block}
    (hPayload : getPayloadSize heap p = block.bytes - 16) :
    copySize heap p size = copyCount block size := by
  unfold copySize copyCount
  rw [hPayload]
  split_ifs with hLess
  · omega
  · omega

/- The int that case 1 stores is there after the copy. -/
def CopyStamped
    (heap : Heap)
    (block cut size : Nat) :
    Prop :=
  (heap.mem.copy (headerToPayload cut)
      (headerToPayload block)
      (copySize heap block size)).readWord
    (headerToPayload cut) 4 = 0x15213

/-
  What realloc's free will find, told before its malloc: no
  case 1, or a next block that has the int already.  The
  next block may be the one that malloc cuts.
-/
def MoveSpares
    (heap : Heap)
    (block size : Nat) :
    Prop :=
  ∀ cut total,
    chosen heap (adjusted size) = some (cut, total) →
      LeftTaken heap block cut total (adjusted size) →
        RightTaken heap block cut →
          if findNext heap block = cut then
            CopyStamped heap block cut size
          else
            ¬ IsLast heap block ∧ Stamped heap block

/- What a malloc makes of the free block `given`. -/
structure Cut
    (heap heap' : Heap)
    (need : BlockSize)
    (front back : List Block)
    (given found : Block) :
    Prop where
  represents :
    Represents heap' (front ++ carve found need ++ back)
  free : given.allocated = false
  large : need.bytes ≤ found.bytes
  same : back ≠ [] → given = found
  chosen :
    chosen heap need.bytes =
      some (heap.first + extent front, found.bytes)
  payload :
    heap'.mem.SameOn heap.mem
      (heap.first + extent front + 8)
      (heap.first + extent front + 8 + 4)

/- malloc gives up, or cuts what it returns of a block. -/
theorem Represents.malloc_cuts
    {heap heap' : Heap}
    {blocks : List Block}
    {size ptr : Nat}
    (hHeap : Represents heap blocks)
    (hSize : 0 < size)
    (hBound : size + 31 < 2 ^ 64)
    (hSpares : ¬ Overextends heap (adjusted size))
    (hMalloc :
      malloc .mm2 heap size = some (heap', ptr)) :
    (ptr = null ∧ chosen heap (adjusted size) = none) ∨
      ∃ front given found back,
        blocks = front ++ given :: back ∧
          ptr = heap.first + extent front + 8 ∧
            Cut heap heap' (BlockSize.ofRequest size hSize)
              front back given found := by
  have hAdjusted := adjusted_eq hSize hBound
  rw [hHeap.malloc_eq] at hMalloc
  rcases hHeap.mallocFrom_eq .mm2 hSize hBound with
    ⟨_, hNone, calls, hCode⟩ |
      ⟨one, front, found, back, hCode, hFound⟩
  · rw [hCode] at hMalloc
    cases hMalloc
    exact .inl ⟨rfl, hNone⟩
  · have hReshapes := hFound.reshapes
    have hFirst := hReshapes.keeps.first
    rcases
        @Represents.placeBlock_spec .mm2 one front back
          found _ hReshapes.represents hFound.large
          (fun hVersion => by cases hVersion) with
      ⟨two, hPlace, hAfter, _, hPayload⟩
    rw [hFirst] at hPlace hPayload
    rw [hCode, hAdjusted, hPlace] at hMalloc
    cases hMalloc
    rcases hFound.origin with
      hOver | ⟨given, hFree, hBlocks, hSame⟩
    · rw [← hAdjusted] at hOver
      exact absurd hOver hSpares
    · exact .inr ⟨front, given, found, back, hBlocks, rfl,
        { represents := hAfter
          free := hFree
          large := hFound.large
          same := hSame
          chosen := hFound.chosen
          payload := hPayload.trans hFound.payload }⟩

/- The copy stays inside the block that malloc cut. -/
theorem Cut.filled
    {heap heap' : Heap}
    {need : BlockSize}
    {front back : List Block}
    {given found : Block}
    {source count : Nat}
    (hCut : Cut heap heap' need front back given found)
    (hFirst : heap'.first = heap.first)
    (hCount : count + 16 ≤ need.bytes) :
    Represents
      (memcpy heap' (heap.first + extent front + 8) source
        count)
      (front ++ carve found need ++ back) := by
  rcases carve_eq_cons found hCut.large with
    ⟨first, rest, hCarve, _, hLarge, _⟩
  have hHere :
      (heap.first + extent front, first) ∈
        placed heap'.first
          (front ++ carve found need ++ back) := by
    rw [hFirst, hCarve]
    simp
  have hFills :=
    memcpy_fills heap' (heap.first + extent front + 8)
      source count
  exact (hCut.represents.filled hHere hFills
    (Nat.le_refl _) (by omega)).1

section Before

variable {heap heap' : Heap}
variable {front back before between after : List Block}
variable {block found given : Block}
variable {need : BlockSize}
variable {p total asize : Nat}

/- The left neighbour is not cut if the cut is behind. -/
theorem Represents.leftTaken_before
    (hHeap : Represents heap (front ++ block :: back))
    {cut : Nat}
    (hBehind : heap.first + extent front < cut) :
    LeftTaken heap (heap.first + extent front) cut total
        asize ↔
      extractAlloc (leftTag front) = true := by
  have hAround := hHeap.around
  have hLimit := hAround.limit
  unfold LeftTaken
  rw [hAround.findPrevFooter_eq, hAround.leftWord]
  constructor
  · rintro (hLeft | ⟨hPrev, _⟩)
    · exact hLeft
    · rcases List.eq_nil_or_concat front with
        rfl | ⟨front, last, rfl⟩
      · rfl
      · rw [List.concat_eq_append] at *
        have hPlace :
            heap.first + extent (front ++ [last]) =
              heap.first + extent front + last.bytes := by
          rw [extent_append, extent_cons, extent_nil]
          omega
        rw [hAround.findPrev_eq, leftTag_concat,
          last.extractSize_tag (by omega)] at hPrev
        unfold sub64 at hPrev
        omega
  · exact fun hLeft => .inl hLeft

/- The carved blocks end in the remainder, if there is one. -/
theorem leftTag_carve
    (front : List Block)
    {need : BlockSize} :
    extractAlloc (leftTag (front ++ carve found need)) =
      decide (found.bytes < need.bytes + minBlockSize) := by
  have hMin : minBlockSize = 32 := rfl
  unfold carve
  split_ifs with hRest
  · have hSplit :
        front ++
            [⟨need, true⟩,
              ⟨found.size.minus need hRest, false⟩] =
          (front ++ [⟨need, true⟩]) ++
            [⟨found.size.minus need hRest, false⟩] := by
      simp
    rw [hSplit, leftTag_concat, Block.extractAlloc_tag]
    symm
    rw [decide_eq_false_iff_not]
    omega
  · rw [leftTag_concat, Block.extractAlloc_tag]
    symm
    rw [decide_eq_true_iff]
    omega

/- The block is right behind the one that malloc cuts. -/
theorem Represents.left_carve_next
    (hHeap :
      Represents heap (front ++ [found] ++ block :: back))
    (hFree : found.allocated = false)
    (hAddress :
      heap.first + extent (front ++ [found]) = p) :
    extractAlloc (leftTag (front ++ carve found need)) =
        true ↔
      LeftTaken heap p (heap.first + extent front)
        found.bytes need.bytes := by
  have hAround := hHeap.around
  have hLimit := hAround.limit
  have hLeft :
      extractAlloc (leftTag (front ++ [found])) = false := by
    rw [leftTag_concat, found.extractAlloc_tag, hFree]
  rw [hAddress] at hAround hLimit
  rw [extent_append, extent_cons, extent_nil, Nat.add_zero]
    at hAddress
  have hPrev :
      findPrev heap p = heap.first + extent front := by
    rw [hAround.findPrev_eq, leftTag_concat,
      found.extractSize_tag (by omega)]
    unfold sub64
    omega
  unfold LeftTaken
  rw [hAround.findPrevFooter_eq, hAround.leftWord,
    leftTag_carve, hPrev, hLeft, decide_eq_true_iff]
  simp

/- Other blocks are between it and the one malloc cuts. -/
theorem Represents.left_carve_later
    {prev : Block}
    (hHeap :
      Represents heap
        (front ++ found :: (between ++ [prev]) ++
          block :: back))
    (hAddress :
      heap.first +
        extent (front ++ found :: (between ++ [prev])) = p) :
    extractAlloc
        (leftTag
          (front ++ carve found need ++ (between ++ [prev]))) =
          true ↔
      LeftTaken heap p (heap.first + extent front)
        found.bytes need.bytes := by
  have hAround := hHeap.around
  have hLimit := hAround.limit
  have hSame :
      leftTag
          (front ++ carve found need ++ (between ++ [prev])) =
        prev.tag := by
    rw [← List.append_assoc, leftTag_concat]
  have hSame' :
      leftTag (front ++ found :: (between ++ [prev])) =
        prev.tag := by
    have hMove :
        front ++ found :: (between ++ [prev]) =
          (front ++ found :: between) ++ [prev] := by
      simp
    rw [hMove, leftTag_concat]
  rw [hAddress] at hAround hLimit
  rw [extent_append, extent_cons, extent_append, extent_cons,
    extent_nil] at hAddress
  have hPos := found.bytes_pos
  have hNe :
      findPrev heap p ≠ heap.first + extent front := by
    rw [hAround.findPrev_eq, hSame',
      prev.extractSize_tag (by omega)]
    unfold sub64
    omega
  unfold LeftTaken
  rw [hAround.findPrevFooter_eq, hAround.leftWord, hSame,
    hSame']
  simp [hNe]

/- Case 1 for a block in front of the one that is cut. -/
theorem caseOne_before
    (hHeap :
      Represents heap
        (before ++ block :: (between ++ given :: back)))
    (hAfter :
      Represents heap'
        (before ++ block ::
          (between ++ (carve found need ++ back))))
    (hFirst : heap'.first = heap.first)
    (hLarge : need.bytes ≤ found.bytes) :
    CaseOne heap' (heap.first + extent before) ↔
      LeftTaken heap (heap.first + extent before)
          (heap.first + extent before + block.bytes +
            extent between)
          total asize ∧
        RightTaken heap (heap.first + extent before)
          (heap.first + extent before + block.bytes +
            extent between) := by
  have hPos := block.bytes_pos
  have hAround := hHeap.around
  have hCase := hAfter.caseOne_iff
  rw [hFirst] at hCase
  rw [hCase, hHeap.leftTaken_before (by omega)]
  unfold Enclosed RightTaken
  rw [and_congr_right_iff]
  intro _
  rw [hAround.findNext_eq, getAlloc, hAround.rightWord]
  cases between with
  | nil =>
      rcases carve_eq_cons found hLarge with
        ⟨first, rest, hCarve, hAlloc, _⟩
      rw [hCarve]
      simp [first.extractAlloc_tag, hAlloc]
  | cons next between =>
      have hNextPos := next.bytes_pos
      rw [extent_cons]
      simp
      omega

/- Case 1 for a block behind the one that is cut. -/
theorem caseOne_behind
    (hHeap :
      Represents heap
        (front ++ found :: (between ++ block :: after)))
    (hAfter :
      Represents heap'
        (front ++ carve found need ++
          (between ++ block :: after)))
    (hFirst : heap'.first = heap.first)
    (hFree : found.allocated = false)
    (hAddress :
      heap.first + extent (front ++ found :: between) = p) :
    CaseOne heap' p ↔
      LeftTaken heap p (heap.first + extent front)
          found.bytes need.bytes ∧
        RightTaken heap p (heap.first + extent front) := by
  have hPos := block.bytes_pos
  have hSplit :
      front ++ found :: (between ++ block :: after) =
        (front ++ found :: between) ++ block :: after := by
    simp
  have hSplit' :
      front ++ carve found need ++
          (between ++ block :: after) =
        (front ++ carve found need ++ between) ++
          block :: after := by
    simp
  rw [hSplit] at hHeap
  rw [hSplit'] at hAfter
  have hPlace' :
      heap'.first +
          extent (front ++ carve found need ++ between) =
        p := by
    rw [hFirst, ← hAddress, extent_append, extent_append,
      extent_append, extent_carve, extent_cons]
    omega
  have hAround := hHeap.around
  have hCase := hAfter.caseOne_iff
  have hBehind :
      heap.first + extent front < p + block.bytes := by
    rw [← hAddress, extent_append]
    omega
  rw [hAddress] at hAround
  rw [hPlace'] at hCase
  rw [hCase]
  unfold Enclosed RightTaken
  rw [hAround.findNext_eq, getAlloc, hAround.rightWord]
  have hNext :
      ¬ p + block.bytes = heap.first + extent front := by
    omega
  simp only [hNext, or_false]
  rw [and_congr_left_iff]
  intro _
  rcases List.eq_nil_or_concat between with
    rfl | ⟨between, prev, rfl⟩
  · rw [List.append_nil]
    exact hHeap.left_carve_next hFree hAddress
  · rw [List.concat_eq_append] at *
    exact hHeap.left_carve_later hAddress

end Before

section Move

variable {heap heap' heap'' : Heap}
variable {front front' back back' : List Block}
variable {block found given : Block}
variable {need : BlockSize}
variable {p size : Nat}

/- The stamp is looked for behind the same block. -/
theorem spares_congr
    (hHeap : Represents heap (front ++ block :: back))
    (hHeap' : Represents heap' (front' ++ block :: back'))
    (hKeeps :
      Keeps heap heap' (front ++ block :: back))
    (hAddress : heap.first + extent front = p)
    (hAddress' : heap'.first + extent front' = p)
    (hHead : back'.head? = back.head?)
    (hRight : extractAlloc (rightTag back) = true) :
    ¬ IsLast heap' p ∧ Stamped heap' p ↔
      ¬ IsLast heap p ∧ Stamped heap p := by
  have hLast := hHeap.isLast_iff
  have hLast' := hHeap'.isLast_iff
  have hAround := hHeap.around
  have hAround' := hHeap'.around
  rw [hAddress] at hLast hAround
  rw [hAddress'] at hLast' hAround'
  have hLimit := hAround.limit
  rw [hLast, hLast']
  cases back with
  | nil =>
      have hNil : back' = [] := List.head?_eq_none_iff.mp hHead
      simp [hNil]
  | cons next back =>
      rcases back' with _ | ⟨next', back'⟩
      · cases hHead
      · rw [rightTag_cons, next.extractAlloc_tag] at hRight
        have hNext :
            (p + block.bytes, next) ∈
              allocated heap.first
                (front ++ block :: next :: back) := by
          rw [mem_allocated, ← hAddress]
          exact ⟨by simp, hRight⟩
        have hLeast := next.bytes_least
        have hSame :
            heap'.mem.SameOn heap.mem
              (p + block.bytes + 8)
              (p + block.bytes + 8 + 4) :=
          (hKeeps.bytes _ _ hNext).mono (by omega) (by omega)
        have hPayload :
            headerToPayload (p + block.bytes) =
              p + block.bytes + 8 := by
          unfold headerToPayload u64 wsize
          omega
        unfold Stamped
        rw [hAround.findNext_eq, hAround'.findNext_eq,
          hPayload, ByteMemory.readWord_of_sameOn hSame]
        simp

/- The next block is the one that is cut: the copy decides. -/
theorem copyStamped_iff
    (hHeap : Represents heap (front ++ block :: back))
    (hHeap' : Represents heap'' (front ++ block :: back'))
    (hKeeps : Keeps heap heap' (front ++ block :: back))
    (hFirst : heap''.first = heap.first)
    (hAlloc : block.allocated = true)
    (hAddress : heap.first + extent front = p)
    (hPayload :
      heap'.mem.SameOn heap.mem
        (p + block.bytes + 8) (p + block.bytes + 8 + 4))
    (hCopied :
      heap''.mem =
        heap'.mem.copy (p + block.bytes + 8) (p + 8)
          (copyCount block size)) :
    Stamped heap'' p ↔
      CopyStamped heap p (p + block.bytes) size := by
  have hAround := hHeap'.around
  have hPlaced :
      (p, block) ∈
        placed heap.first (front ++ block :: back) := by
    rw [← hAddress]
    simp
  have hBytes :=
    hKeeps.bytes p block (mem_allocated.mpr ⟨hPlaced, hAlloc⟩)
  rw [hFirst, hAddress] at hAround
  have hLimit := hAround.limit
  have hLeast := block.bytes_least
  have hTarget :
      headerToPayload (p + block.bytes) =
        p + block.bytes + 8 := by
    unfold headerToPayload u64 wsize
    omega
  have hCount : copySize heap p size = copyCount block size :=
    copySize_eq (hHeap.payload_eq hPlaced).2
  have hSame :
      heap''.mem.SameOn
        (heap.mem.copy (p + block.bytes + 8) (p + 8)
          (copyCount block size))
        (p + block.bytes + 8) (p + block.bytes + 8 + 4) := by
    rw [hCopied]
    intro a hLow hHigh
    have hMin : copyCount block size ≤ block.bytes - 16 :=
      Nat.min_le_right _ _
    unfold ByteMemory.copy
    split_ifs with hInside
    · exact hBytes _ (by omega) (by omega)
    · exact hPayload a hLow hHigh
  unfold Stamped CopyStamped
  rw [hAround.findNext_eq, hTarget, hAround.payload_eq,
    hCount, ByteMemory.readWord_of_sameOn hSame]

/- One block is cut, so there is one thing to look at. -/
theorem Cut.moveSpares_iff
    (hCut : Cut heap heap' need front back given found)
    (hNeed : adjusted size = need.bytes) :
    MoveSpares heap p size ↔
      (LeftTaken heap p (heap.first + extent front)
          found.bytes need.bytes →
        RightTaken heap p (heap.first + extent front) →
          if findNext heap p =
              heap.first + extent front then
            CopyStamped heap p
              (heap.first + extent front) size
          else
            ¬ IsLast heap p ∧ Stamped heap p) := by
  unfold MoveSpares
  rw [hNeed, hCut.chosen]
  constructor
  · intro hSpares
    exact hSpares _ _ rfl
  · rintro hSpares cut total hEq
    cases hEq
    exact hSpares

/- The block is in front of the one that is cut. -/
theorem Cut.spares_before
    {before between : List Block}
    (hCut :
      Cut heap heap' need (before ++ block :: between) back
        given found)
    (hHeap :
      Represents heap
        (before ++ block :: (between ++ given :: back)))
    (hAlloc : block.allocated = true)
    (hMalloc :
      Keeps heap heap'
        (before ++ block :: (between ++ given :: back)))
    (hAfter :
      Represents heap''
        (before ++ block ::
          (between ++ (carve found need ++ back))))
    (hKeeps :
      Keeps heap heap''
        (before ++ block :: (between ++ given :: back)))
    (hCopied :
      heap''.mem =
        heap'.mem.copy
          (heap.first + extent (before ++ block :: between) +
            8)
          (heap.first + extent before + 8)
          (copyCount block size))
    (hNeed : adjusted size = need.bytes) :
    (CaseOne heap'' (heap.first + extent before) →
        ¬ IsLast heap'' (heap.first + extent before) ∧
          Stamped heap'' (heap.first + extent before)) ↔
      MoveSpares heap (heap.first + extent before) size := by
  have hFirst := hKeeps.first
  have hPos := block.bytes_pos
  have hCutAt :
      heap.first + extent (before ++ block :: between) =
        heap.first + extent before + block.bytes +
          extent between := by
    rw [extent_append, extent_cons]
    omega
  have hPayload := hCut.payload
  have hAround := hHeap.around
  rw [hCut.moveSpares_iff hNeed]
  rw [hCutAt] at hPayload hCopied ⊢
  rw [caseOne_before hHeap hAfter hFirst hCut.large, and_imp]
  refine imp_congr_right fun _ =>
    imp_congr_right fun hRight => ?_
  rw [hAround.findNext_eq]
  have hNotLast :
      ¬ IsLast heap'' (heap.first + extent before) := by
    rcases carve_eq_cons found hCut.large with
      ⟨first, rest, hCarve, _⟩
    have hLast := hAfter.isLast_iff
    rw [hFirst] at hLast
    rw [hLast, hCarve]
    simp
  cases between with
  | nil =>
      simp only [extent_nil, Nat.add_zero, if_true,
        List.nil_append]
        at hHeap hAfter hMalloc hPayload hCopied ⊢
      rw [copyStamped_iff hHeap hAfter hMalloc hFirst
        hAlloc rfl hPayload hCopied]
      exact and_iff_right hNotLast
  | cons next between =>
      have hNextPos := next.bytes_pos
      have hNe :
          ¬ heap.first + extent before + block.bytes =
            heap.first + extent before + block.bytes +
              extent (next :: between) := by
        rw [extent_cons]
        omega
      have hTaken :
          extractAlloc next.tag = true := by
        unfold RightTaken at hRight
        rw [hAround.findNext_eq, getAlloc,
          hAround.rightWord] at hRight
        exact hRight.resolve_right hNe
      rw [if_neg hNe]
      exact spares_congr hHeap hAfter hKeeps rfl
        (by rw [hFirst]) rfl hTaken

/- The block is behind the one that is cut. -/
theorem Cut.spares_behind
    {between after : List Block}
    (hCut :
      Cut heap heap' need front (between ++ block :: after)
        found found)
    (hHeap :
      Represents heap
        (front ++ found :: (between ++ block :: after)))
    (hAfter :
      Represents heap''
        (front ++ carve found need ++
          (between ++ block :: after)))
    (hKeeps :
      Keeps heap heap''
        (front ++ found :: (between ++ block :: after)))
    (hPlace :
      heap.first + extent (front ++ found :: between) = p)
    (hNeed : adjusted size = need.bytes) :
    (CaseOne heap'' p →
        ¬ IsLast heap'' p ∧ Stamped heap'' p) ↔
      MoveSpares heap p size := by
  have hFirst := hKeeps.first
  have hPlace' :
      heap''.first +
          extent (front ++ carve found need ++ between) =
        p := by
    rw [hFirst, ← hPlace, extent_append, extent_append,
      extent_append, extent_carve, extent_cons]
    omega
  rw [hCut.moveSpares_iff hNeed,
    caseOne_behind hHeap hAfter hFirst hCut.free hPlace,
    and_imp]
  have hSplit :
      front ++ found :: (between ++ block :: after) =
        (front ++ found :: between) ++ block :: after := by
    simp
  have hSplit' :
      front ++ carve found need ++
          (between ++ block :: after) =
        (front ++ carve found need ++ between) ++
          block :: after := by
    simp
  rw [hSplit] at hHeap hKeeps
  rw [hSplit'] at hAfter
  have hAround := hHeap.around
  rw [hPlace] at hAround
  have hNe :
      ¬ findNext heap p = heap.first + extent front := by
    rw [hAround.findNext_eq, ← hPlace, extent_append]
    have hPos := block.bytes_pos
    omega
  rw [if_neg hNe]
  refine imp_congr_right fun _ =>
    imp_congr_right fun hRight => ?_
  unfold RightTaken at hRight
  have hTaken := hRight.resolve_right hNe
  rw [hAround.findNext_eq, getAlloc, hAround.rightWord]
    at hTaken
  exact spares_congr hHeap hAfter hKeeps hPlace hPlace' rfl
    hTaken

/- What the free inside realloc finds, told before. -/
theorem Represents.moveSpares_iff
    (hHeap : Represents heap (front ++ given :: back))
    (hMember :
      (p, block) ∈
        allocated heap.first (front ++ given :: back))
    (hCut : Cut heap heap' need front back given found)
    (hMalloc : Keeps heap heap' (front ++ given :: back))
    (hAfter :
      Represents heap'' (front ++ carve found need ++ back))
    (hKeeps : Keeps heap heap'' (front ++ given :: back))
    (hCopied :
      heap''.mem =
        heap'.mem.copy (heap.first + extent front + 8) (p + 8)
          (copyCount block size))
    (hNeed : adjusted size = need.bytes) :
    (CaseOne heap'' p →
        ¬ IsLast heap'' p ∧ Stamped heap'' p) ↔
      MoveSpares heap p size := by
  rcases mem_allocated.mp hMember with ⟨hPlaced, hAlloc⟩
  rw [placed_append, placed_cons, List.mem_append,
    List.mem_cons] at hPlaced
  rcases hPlaced with hFront | hHere | hBack
  · rcases placed_split hFront with
      ⟨before, between, rfl, rfl⟩
    simp only [List.append_assoc, List.cons_append]
      at hHeap hAfter hMalloc hKeeps
    exact hCut.spares_before hHeap hAlloc hMalloc hAfter
      hKeeps hCopied hNeed
  · cases hHere
    rw [hCut.free] at hAlloc
    cases hAlloc
  · rcases placed_split hBack with
      ⟨between, after, rfl, hAddress⟩
    have hSame := hCut.same (by simp)
    subst hSame
    have hPlace :
        heap.first + extent (front ++ given :: between) =
          p := by
      rw [hAddress, extent_append, extent_cons]
      omega
    exact hCut.spares_behind hHeap hAfter hKeeps hPlace
      hNeed

end Move

end Recitation

end CsappLabs
