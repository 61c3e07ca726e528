import CsappLabs.Malloc.Operations

/-
  The heap checker of `checkhelper.c`.

  On a heap image whose headers lead from the first block to
  the break, every scan of the checker ends, and its verdict
  is known from the words of the blocks. A footer that does
  not match its header is found, but only reported: the
  checker then displays the heap, one block for each line it
  reads, and returns 1 as for a valid heap.

  Key definitions include:
    * `freeScan`, `footerScan`, `displayHeap`
    * `isValidHeap`, `mmChecker`
    * `Chain`
    * `ValidHeap`

  Key theorems include:
    * `freeScan_spec`
    * `footerScan_spec`
    * `isValidHeap_rejects`, `isValidHeap_accepts`,
      `isValidHeap_differs`, `isValidHeap_displays`
    * `checker_agrees_iff`
    * `Represents.checker_passes`
-/

------------------------------------------------------------
-- The Checker
------------------------------------------------------------

namespace CsappLabs

namespace Malloc

/-
  The loop over continuous free blocks: `false` where two of
  them are adjacent. It has no value where the walk leaves
  the heap.
-/
def freeScan (heap : Heap) :
    Nat → Nat → Bool → Option Bool
| 0, _, _ => none
| fuel + 1, heaPtr, freeBefore =>
    if heaPtr = heap.finalBrk then
      some true
    else if isAlloc heap (hdrp heaPtr) = 0 then
      if freeBefore then
        some false
      else
        freeScan heap fuel (nextBlkp heap heaPtr) true
    else
      freeScan heap fuel (nextBlkp heap heaPtr) false

/- The variables of the overlap loop. -/
structure Scan where
  beforeHeader : Bool
  length : Int
  alength : Int
  isalloc : Nat

/- The end of a turn: the words passed are counted. -/
def Scan.advance (scan : Scan) : Scan :=
  { scan with alength := scan.alength + wsize }

/-
  One turn of the overlap loop, with no value where it sets
  `error` and breaks. The `int` length is compared with the
  footer as an unsigned word.
-/
def scanWord (heap : Heap) (heaPtr : Nat) (scan : Scan) :
    Option Scan :=
  if scan.beforeHeader then
    some
      (Scan.advance
        { beforeHeader := false
          length := asInt (getSize heap heaPtr)
          alength := 0
          isalloc := isAlloc heap heaPtr })
  else if scan.alength < scan.length - wsize then
    some scan.advance
  else if scan.alength = scan.length - wsize then
    if (getSize heap heaPtr : Int) ≠
        scan.length % 2 ^ 32 then
      none
    else if isAlloc heap heaPtr ≠ scan.isalloc then
      none
    else
      some { scan with beforeHeader := true }.advance
  else
    some scan.advance

/-
  The overlap loop, as the value of `error` it leaves. It has
  no value where the walk leaves the heap.
-/
def footerScan (heap : Heap) :
    Nat → Nat → Scan → Option Bool
| 0, _, _ => none
| fuel + 1, heaPtr, scan =>
    if heaPtr = heap.finalBrk then
      some false
    else
      match scanWord heap heaPtr scan with
      | none => some true
      | some scan =>
          footerScan heap fuel (heaPtr + wsize) scan

/-
  The loop of `displayHeap`, as the input it leaves unread.
  At the end of the input `getchar` keeps failing and the
  loop never ends.
-/
def displayFrom (heap : Heap) :
    List Char → Nat → Option (List Char)
| [], ptr =>
    if ptr < heap.finalBrk then none else some []
| c :: input, ptr =>
    if ptr < heap.finalBrk then
      if c = '\n' then
        if getSize heap ptr = 0 then
          some input
        else
          displayFrom heap input (ptr + getSize heap ptr)
      else
        displayFrom heap input ptr
    else
      some (c :: input)

/- `displayHeap`, reading `input`. -/
def displayHeap (heap : Heap) (input : List Char) :
    Option (List Char) :=
  displayFrom heap input
    (hdrp (nextBlkp heap heap.heapListp))

/-
  `isValidHeap`, with no value where it never returns. Every
  turn of its loops passes at least one byte, so a scan that
  ends takes fewer turns than the break.
-/
def isValidHeap (heap : Heap) (input : List Char) :
    Option Nat :=
  let heaPtr := heap.heapListp
  if getSize heap (hdrp heaPtr) ≠ 8 ∨
      isAlloc heap (hdrp heaPtr) ≠ 1 then
    some 0
  else if getSize heap heaPtr ≠ 8 ∨
      isAlloc heap heaPtr ≠ 1 then
    some 0
  else if getSize heap (hdrp heap.finalBrk) ≠ 0 ∨
      isAlloc heap (hdrp heap.finalBrk) = 0 then
    some 0
  else
    match freeScan heap (heap.finalBrk + 1) heaPtr false with
    | none => none
    | some false => some 0
    | some true =>
        match
          footerScan heap (heap.finalBrk + 1)
            (nextBlkp heap heap.heapListp - wsize)
            ⟨true, 0, 0, 0⟩ with
        | none => none
        | some false => some 1
        | some true =>
            (displayHeap heap input).map fun _ => 1

/- `mm_checker`. -/
def mmChecker (heap : Heap) (input : List Char) :
    Option Nat :=
  isValidHeap heap input

------------------------------------------------------------
-- Heap Images
------------------------------------------------------------

/-
  Following header sizes from `bp` visits these blocks and
  reaches `brk` exactly.
-/
inductive Chain (heap : Heap) (brk : Nat) :
    Nat → List Nat → Prop where
| done : Chain heap brk brk []
| step {bp : Nat} {rest : List Nat} :
    bp ≠ brk →
    Chain heap brk (nextBlkp heap bp) rest →
    Chain heap brk bp (bp :: rest)

/-
  The words of the blocks lie in the memory of `memlib.c`,
  which is `MAX_HEAP` bytes long.
-/
structure InMemory (heap : Heap) : Prop where
  low : heap.memStartBrk + dsize ≤ heap.heapListp
  high : heap.finalBrk ≤ heap.memStartBrk + maxHeap

/- The prologue and the epilogue words are as set up. -/
structure Bracketed (heap : Heap) : Prop where
  headerSize : getSize heap (hdrp heap.heapListp) = 8
  headerAlloc : isAlloc heap (hdrp heap.heapListp) = 1
  footerSize : getSize heap heap.heapListp = 8
  footerAlloc : isAlloc heap heap.heapListp = 1
  epilogueSize : getSize heap (hdrp heap.finalBrk) = 0
  epilogueAlloc : isAlloc heap (hdrp heap.finalBrk) ≠ 0

/- The block at `bp` is free, by its header. -/
def Free (heap : Heap) (bp : Nat) : Prop :=
  isAlloc heap (hdrp bp) = 0

/- No two consecutive blocks are both free. -/
def Separated (heap : Heap) (bps : List Nat) : Prop :=
  bps.IsChain fun left right =>
    ¬(Free heap left ∧ Free heap right)

/- The footer of a block agrees with its header. -/
structure Agrees (heap : Heap) (bp : Nat) : Prop where
  size :
    getSize heap (ftrp heap bp) = getSize heap (hdrp bp)
  alloc :
    isAlloc heap (ftrp heap bp) = isAlloc heap (hdrp bp)

instance {heap : Heap} {bp : Nat} :
    Decidable (Agrees heap bp) :=
  decidable_of_iff
    (getSize heap (ftrp heap bp) = getSize heap (hdrp bp) ∧
      isAlloc heap (ftrp heap bp) = isAlloc heap (hdrp bp))
    ⟨fun hBoth => ⟨hBoth.1, hBoth.2⟩,
      fun hAgrees => ⟨hAgrees.size, hAgrees.alloc⟩⟩

/- What the checker is meant to check. -/
structure ValidHeap (heap : Heap) (bps : List Nat) :
    Prop where
  bracketed : Bracketed heap
  separated : Separated heap bps
  agrees : ∀ bp ∈ bps, Agrees heap bp

namespace Chain

variable {heap : Heap} {brk bp : Nat} {bps bps' : List Nat}

theorem eq_of_nil (hChain : Chain heap brk bp []) :
    bp = brk := by
  cases hChain
  rfl

theorem of_cons
    {head : Nat} {rest : List Nat}
    (hChain : Chain heap brk bp (head :: rest)) :
    bp = head ∧ Chain heap brk (nextBlkp heap bp) rest := by
  cases hChain with
  | step _ hRest => exact ⟨rfl, hRest⟩

/- The headers determine the blocks. -/
theorem unique
    (hChain : Chain heap brk bp bps)
    (hOther : Chain heap brk bp bps') :
    bps = bps' := by
  induction hChain generalizing bps' with
  | done =>
      cases hOther with
      | done => rfl
      | step hNe _ => exact absurd rfl hNe
  | step hNe _ ih =>
      cases hOther with
      | done => exact absurd rfl hNe
      | step _ hRest => rw [ih hRest]

/- A block of size 0 would be visited for ever. -/
theorem size_pos
    {rest : List Nat}
    (hChain : Chain heap brk bp (bp :: rest)) :
    0 < getSize heap (hdrp bp) := by
  by_contra hZero
  have hStays : nextBlkp heap bp = bp := by
    unfold nextBlkp
    omega
  cases hChain with
  | step hNe hRest =>
      have hSame := (Chain.step hNe hRest).unique
        (hStays ▸ hRest : Chain heap brk bp rest)
      exact absurd hSame (List.cons_ne_self bp rest)

/- Sizes are multiples of 8, so blocks are that far apart. -/
theorem eight_le_size
    {rest : List Nat}
    (hChain : Chain heap brk bp (bp :: rest)) :
    8 ≤ getSize heap (hdrp bp) := by
  have hPos := hChain.size_pos
  rw [getSize_eq] at hPos ⊢
  omega

theorem length_le
    (hChain : Chain heap brk bp bps) :
    bp + 8 * bps.length ≤ brk := by
  induction hChain with
  | done => simp
  | step hNe hRest ih =>
      have hSize := (Chain.step hNe hRest).eight_le_size
      unfold nextBlkp at ih
      rw [List.length_cons]
      omega

end Chain

variable {heap : Heap} {bp : Nat} {bps : List Nat}
variable {input : List Char} {scan : Scan}

------------------------------------------------------------
-- Continuous Free Blocks
------------------------------------------------------------

/-
  The scan ends at the break, and passes exactly where no
  free block follows another, the one before the first
  included.
-/
theorem freeScan_spec
    {freeBefore : Bool} {fuel : Nat}
    (hChain : Chain heap heap.finalBrk bp bps)
    (hFuel : bps.length < fuel) :
    ∃ verdict,
      freeScan heap fuel bp freeBefore = some verdict ∧
        (verdict = true ↔
          Separated heap bps ∧
            (freeBefore = true →
              ∀ next ∈ bps.head?, ¬Free heap next)) := by
  induction bps generalizing bp freeBefore fuel with
  | nil =>
      rcases Nat.exists_eq_add_one_of_ne_zero
        (Nat.ne_zero_of_lt hFuel) with ⟨fuel, rfl⟩
      cases hChain
      exact ⟨true, by simp [freeScan],
        by simp [Separated]⟩
  | cons head rest ih =>
      rcases Nat.exists_eq_add_one_of_ne_zero
        (Nat.ne_zero_of_lt hFuel) with ⟨fuel, rfl⟩
      have hLength : rest.length < fuel :=
        Nat.lt_of_succ_lt_succ hFuel
      cases hChain with
      | step hNe hRest =>
          rw [freeScan, if_neg hNe]
          by_cases hFree : isAlloc heap (hdrp head) = 0
          · rw [if_pos hFree]
            cases freeBefore with
            | true =>
                refine ⟨false, rfl, ?_⟩
                simp [Free, hFree]
            | false =>
                rcases @ih _ true fuel hRest hLength
                  with ⟨verdict, hCode, hVerdict⟩
                refine ⟨verdict, by simpa using hCode, ?_⟩
                rw [hVerdict]
                simp [Separated, List.isChain_cons, Free,
                  hFree, and_comm]
          · rw [if_neg hFree]
            rcases @ih _ false fuel hRest hLength
              with ⟨verdict, hCode, hVerdict⟩
            refine ⟨verdict, hCode, ?_⟩
            rw [hVerdict]
            simp [Separated, List.isChain_cons, Free, hFree]

------------------------------------------------------------
-- Footers
------------------------------------------------------------

/- A turn of the loop before the break. -/
theorem footerScan_some
    {next : Scan} {heaPtr fuel : Nat}
    (hBelow : heaPtr < heap.finalBrk)
    (hWord : scanWord heap heaPtr scan = some next) :
    footerScan heap (fuel + 1) heaPtr scan =
      footerScan heap fuel (heaPtr + wsize) next := by
  rw [footerScan, if_neg (Nat.ne_of_lt hBelow), hWord]

theorem footerScan_none
    {heaPtr fuel : Nat}
    (hBelow : heaPtr < heap.finalBrk)
    (hWord : scanWord heap heaPtr scan = none) :
    footerScan heap (fuel + 1) heaPtr scan = some true := by
  rw [footerScan, if_neg (Nat.ne_of_lt hBelow), hWord]

/- The words between the header and the footer. -/
theorem footerScan_body
    {length : Int} {isalloc words heaPtr fuel : Nat}
    (hBelow : heaPtr + 4 * words ≤ heap.finalBrk) :
    footerScan heap (fuel + words) heaPtr
        ⟨false, length, length - 4 - 4 * words, isalloc⟩ =
      footerScan heap fuel (heaPtr + 4 * words)
        ⟨false, length, length - 4, isalloc⟩ := by
  induction words generalizing heaPtr with
  | zero => simp
  | succ words ih =>
      have hWord :
          scanWord heap heaPtr
              ⟨false, length,
                length - 4 - 4 * (words + 1 : Nat),
                isalloc⟩ =
            some
              ⟨false, length, length - 4 - 4 * words,
                isalloc⟩ := by
        have hInside :
            length - 4 - 4 * ((words : Int) + 1) <
              length - 4 := by omega
        simp [scanWord, Scan.advance, wsize, hInside]
        omega
      rw [← Nat.add_assoc, footerScan_some (by omega) hWord,
        wsize, ih (by omega)]
      congr 1
      omega

/- The turn at the footer of a block. -/
theorem scanWord_footer
    {size isalloc heaPtr : Nat}
    (hSize : size < 2 ^ 31) :
    scanWord heap heaPtr
        ⟨false, size, (size : Int) - 4, isalloc⟩ =
      if getSize heap heaPtr = size ∧
          isAlloc heap heaPtr = isalloc then
        some ⟨true, size, size, isalloc⟩
      else
        none := by
  have hMod : (size : Int) % 2 ^ 32 = size := by omega
  by_cases hAgrees : getSize heap heaPtr = size
  · by_cases hAlloc : isAlloc heap heaPtr = isalloc
    · simp [scanWord, Scan.advance, wsize, hAgrees, hAlloc]
      omega
    · simp [scanWord, wsize, hAgrees, hAlloc]
  · have hOther : (getSize heap heaPtr : Int) ≠ size := by
      exact_mod_cast hAgrees
    rw [if_neg (fun hBoth => hAgrees hBoth.1), scanWord]
    rw [if_neg (by simp), if_neg (by simp [wsize]),
      if_pos (by simp [wsize]), hMod, if_pos hOther]

/-
  The loop over one block, from its header on: it breaks at
  the footer, or goes on with the header of the next block.
-/
theorem footerScan_block
    {fuel : Nat}
    (hBefore : scan.beforeHeader = true)
    (hLow : 4 ≤ bp)
    (hSize : 8 ≤ getSize heap (hdrp bp))
    (hInt : getSize heap (hdrp bp) < 2 ^ 31)
    (hBelow : nextBlkp heap bp ≤ heap.finalBrk) :
    footerScan heap
        (fuel + getSize heap (hdrp bp) / 4) (hdrp bp)
        scan =
      if Agrees heap bp then
        footerScan heap fuel (hdrp (nextBlkp heap bp))
          ⟨true, getSize heap (hdrp bp),
            getSize heap (hdrp bp),
            isAlloc heap (hdrp bp)⟩
      else
        some true := by
  rcases hWords : getSize heap (hdrp bp) / 4 with
    _ | _ | words
  · omega
  · omega
  have hLength :
      getSize heap (hdrp bp) = 4 * (words + 2) := by
    have hMod := @getSize_eq heap (hdrp bp)
    omega
  unfold nextBlkp at hBelow
  have hHeader :
      scanWord heap (hdrp bp) scan =
        some
          ⟨false, getSize heap (hdrp bp),
            (getSize heap (hdrp bp) : Int) - 4 - 4 * words,
            isAlloc heap (hdrp bp)⟩ := by
    rw [scanWord, if_pos hBefore, Scan.advance,
      asInt_of_lt hInt]
    congr 2
    rw [hLength]
    unfold wsize
    push_cast
    ring
  have hFooter :
      hdrp bp + wsize + 4 * words = ftrp heap bp := by
    unfold ftrp hdrp wsize dsize at *
    omega
  have hNext :
      ftrp heap bp + wsize = hdrp (nextBlkp heap bp) := by
    unfold ftrp nextBlkp hdrp wsize dsize at *
    omega
  have hInside : ftrp heap bp < heap.finalBrk := by
    unfold ftrp hdrp dsize at *
    omega
  rw [show fuel + (words + 1 + 1) = fuel + 1 + words + 1 by
      omega,
    footerScan_some (by unfold hdrp; omega) hHeader,
    footerScan_body (by omega), hFooter]
  have hTurn :=
    @scanWord_footer heap _ (isAlloc heap (hdrp bp))
      (ftrp heap bp) hInt
  by_cases hAgrees : Agrees heap bp
  · rw [if_pos ⟨hAgrees.size, hAgrees.alloc⟩] at hTurn
    rw [if_pos hAgrees, footerScan_some hInside hTurn,
      hNext]
  · rw [if_neg fun hBoth =>
      hAgrees ⟨hBoth.1, hBoth.2⟩] at hTurn
    rw [if_neg hAgrees, footerScan_none hInside hTurn]

/-
  The loop ends, and leaves `error` set exactly where a
  footer disagrees with its header.
-/
theorem footerScan_spec
    {fuel : Nat}
    (hChain : Chain heap heap.finalBrk bp bps)
    (hBefore : scan.beforeHeader = true)
    (hLow : 4 ≤ bp)
    (hInt : heap.finalBrk < bp + 2 ^ 31) :
    ∃ error,
      footerScan heap
          (fuel + (heap.finalBrk - bp) / 4 + 2) (hdrp bp)
          scan = some error ∧
        (error = false ↔ ∀ next ∈ bps, Agrees heap next) := by
  induction bps generalizing bp scan fuel with
  | nil =>
      cases hChain
      -- the last turn reads the epilogue as a header
      refine ⟨false, ?_, by simp⟩
      have hBelow :
          hdrp heap.finalBrk < heap.finalBrk := by
        unfold hdrp wsize
        omega
      have hEnd :
          hdrp heap.finalBrk + wsize = heap.finalBrk := by
        unfold hdrp wsize
        omega
      rw [Nat.sub_self, footerScan_some hBelow
        (by rw [scanWord, if_pos hBefore]), hEnd,
        footerScan, if_pos rfl]
  | cons head rest ih =>
      have hMod := @getSize_eq heap (hdrp head)
      cases hChain with
      | step hNe hRest =>
          have hSize := (Chain.step hNe hRest).eight_le_size
          have hReach := hRest.length_le
          have hNext :
              nextBlkp heap head =
                head + getSize heap (hdrp head) := rfl
          have hFuel :
              fuel + (heap.finalBrk - head) / 4 + 2 =
                fuel +
                    (heap.finalBrk - nextBlkp heap head) / 4 +
                    2 +
                  getSize heap (hdrp head) / 4 := by
            omega
          rw [hFuel, footerScan_block hBefore hLow hSize
            (by omega) (by omega)]
          by_cases hAgrees : Agrees heap head
          · rw [if_pos hAgrees]
            rcases @ih _
                ⟨true, getSize heap (hdrp head),
                  getSize heap (hdrp head),
                  isAlloc heap (hdrp head)⟩
                fuel hRest rfl (by omega) (by omega) with
              ⟨error, hCode, hError⟩
            refine ⟨error, hCode, ?_⟩
            simp [hError, hAgrees]
          · rw [if_neg hAgrees]
            exact ⟨true, rfl, by simp [hAgrees]⟩

------------------------------------------------------------
-- The Display
------------------------------------------------------------

/-
  The display ends exactly where the input has a line for
  every block and one more for the epilogue.
-/
theorem displayFrom_returns_iff
    (hChain : Chain heap heap.finalBrk bp bps)
    (hEpilogue : getSize heap (hdrp heap.finalBrk) = 0)
    (hLow : 4 ≤ bp) :
    (∃ unread, displayFrom heap input (hdrp bp) =
        some unread) ↔
      bps.length + 1 ≤ input.count '\n' := by
  induction input generalizing bp bps with
  | nil =>
      have hReach := hChain.length_le
      have hBelow : hdrp bp < heap.finalBrk := by
        unfold hdrp wsize
        omega
      simp [displayFrom, hBelow]
  | cons c input ih =>
      have hReach := hChain.length_le
      have hBelow : hdrp bp < heap.finalBrk := by
        unfold hdrp wsize
        omega
      rw [displayFrom, if_pos hBelow]
      by_cases hLine : c = '\n'
      · rw [if_pos hLine, hLine, List.count_cons_self]
        cases hChain with
        | done =>
            rw [if_pos hEpilogue]
            simp
        | step hNe hRest =>
            have hSize := (Chain.step hNe hRest).size_pos
            have hNext :
                hdrp bp + getSize heap (hdrp bp) =
                  hdrp (nextBlkp heap bp) := by
              unfold nextBlkp
              unfold hdrp wsize at *
              omega
            rw [if_neg (by omega), hNext,
              ih hRest (by unfold nextBlkp; omega),
              List.length_cons, Nat.add_le_add_iff_right]
      · rw [if_neg hLine, ih hChain hLow,
          List.count_cons_of_ne hLine]

------------------------------------------------------------
-- The Verdict
------------------------------------------------------------

/- A heap without its prologue or epilogue is rejected. -/
theorem isValidHeap_not_bracketed
    (hBracketed : ¬Bracketed heap) :
    isValidHeap heap input = some 0 := by
  rw [isValidHeap]
  split_ifs with hHeader hFooter hEpilogue
  · rfl
  · rfl
  · rfl
  · push Not at hHeader hFooter hEpilogue
    exact absurd
      ⟨hHeader.1, hHeader.2, hFooter.1, hFooter.2,
        hEpilogue.1, hEpilogue.2⟩
      hBracketed

/- Otherwise the two scans decide. -/
theorem isValidHeap_bracketed
    (hBracketed : Bracketed heap) :
    isValidHeap heap input =
      (freeScan heap (heap.finalBrk + 1) heap.heapListp
        false).bind fun coalesced =>
          if coalesced then
            (footerScan heap (heap.finalBrk + 1)
              (hdrp (nextBlkp heap heap.heapListp))
              ⟨true, 0, 0, 0⟩).bind fun error =>
                if error then
                  (displayHeap heap input).map fun _ => 1
                else
                  some 1
          else
            some 0 := by
  have hHeader := hBracketed.headerSize
  have hAlloc := hBracketed.headerAlloc
  have hFooter := hBracketed.footerSize
  have hFooterAlloc := hBracketed.footerAlloc
  have hEpilogue := hBracketed.epilogueSize
  have hEpilogueAlloc := hBracketed.epilogueAlloc
  rw [isValidHeap, if_neg (by simp [hHeader, hAlloc]),
    if_neg (by simp [hFooter, hFooterAlloc]),
    if_neg (by simp [hEpilogue, hEpilogueAlloc])]
  rcases freeScan heap (heap.finalBrk + 1) heap.heapListp
    false with _ | _ | _
  · rfl
  · rfl
  · simp only [Option.bind_some, if_true, hdrp]
    rcases footerScan heap (heap.finalBrk + 1)
      (nextBlkp heap heap.heapListp - wsize)
      ⟨true, 0, 0, 0⟩ with _ | _ | _ <;> rfl

/- The prologue is the first block of a bracketed heap. -/
theorem Chain.prologue
    (hChain : Chain heap heap.finalBrk heap.heapListp bps)
    (hBracketed : Bracketed heap) :
    ∃ rest,
      bps = heap.heapListp :: rest ∧
        Chain heap heap.finalBrk
          (nextBlkp heap heap.heapListp) rest := by
  cases bps with
  | nil =>
      have hHeader := hBracketed.headerSize
      rw [hChain.eq_of_nil, hBracketed.epilogueSize]
        at hHeader
      cases hHeader
  | cons head rest =>
      rcases hChain.of_cons with ⟨hHead, hRest⟩
      exact ⟨rest, by rw [hHead], hRest⟩

/- The prologue footer is one of the checked words. -/
theorem Bracketed.agrees
    (hBracketed : Bracketed heap) :
    Agrees heap heap.heapListp := by
  have hFooter :
      ftrp heap heap.heapListp = heap.heapListp := by
    rw [ftrp, hBracketed.headerSize]
    rfl
  constructor
  · rw [hFooter, hBracketed.footerSize,
      hBracketed.headerSize]
  · rw [hFooter, hBracketed.footerAlloc,
      hBracketed.headerAlloc]

/-
  On a bracketed heap image both scans end, and the verdict
  is that of the block list.
-/
theorem isValidHeap_scans
    (hInside : InMemory heap)
    (hChain : Chain heap heap.finalBrk heap.heapListp bps)
    (hBracketed : Bracketed heap) :
    ∃ coalesced error,
      (coalesced = true ↔ Separated heap bps) ∧
        (error = false ↔ ∀ bp ∈ bps, Agrees heap bp) ∧
        isValidHeap heap input =
          if coalesced then
            if error then
              (displayHeap heap input).map fun _ => 1
            else
              some 1
          else
            some 0 := by
  have hReach := hChain.length_le
  have hLow := hInside.low
  have hHigh := hInside.high
  have hMax : maxHeap = 20971520 := by decide
  unfold dsize at hLow
  rcases @freeScan_spec heap _ _ false _ hChain
      (show bps.length < heap.finalBrk + 1 by omega) with
    ⟨coalesced, hFree, hCoalesced⟩
  rcases hChain.prologue hBracketed with
    ⟨rest, rfl, hRest⟩
  have hNext :
      nextBlkp heap heap.heapListp = heap.heapListp + 8 := by
    rw [nextBlkp, hBracketed.headerSize]
  have hEnd := hRest.length_le
  rcases Nat.exists_eq_add_of_le
      (show (heap.finalBrk -
          nextBlkp heap heap.heapListp) / 4 + 2 ≤
        heap.finalBrk + 1 by omega) with ⟨fuel, hFuel⟩
  rcases @footerScan_spec heap _ _ ⟨true, 0, 0, 0⟩ fuel
      hRest rfl (by omega) (by omega) with
    ⟨error, hFooters, hError⟩
  refine ⟨coalesced, error, ?_, ?_, ?_⟩
  · rw [hCoalesced]
    simp
  · rw [hError]
    simp [hBracketed.agrees]
  · rw [isValidHeap_bracketed hBracketed, hFree, hFuel,
      Nat.add_comm _ fuel, ← Nat.add_assoc, hFooters]
    rfl

/-
  The verdict on a heap image with a wrong sentinel or two
  adjacent free blocks.
-/
theorem isValidHeap_rejects
    (hInside : InMemory heap)
    (hChain : Chain heap heap.finalBrk heap.heapListp bps)
    (hNot : ¬(Bracketed heap ∧ Separated heap bps)) :
    isValidHeap heap input = some 0 := by
  by_cases hBracketed : Bracketed heap
  · rcases @isValidHeap_scans heap bps input hInside hChain
        hBracketed with
      ⟨coalesced, error, hCoalesced, -, hCode⟩
    have hAdjacent : ¬coalesced = true := fun hTrue =>
      hNot ⟨hBracketed, hCoalesced.mp hTrue⟩
    rw [hCode, if_neg hAdjacent]
  · exact isValidHeap_not_bracketed hBracketed

/- The verdict on a valid heap. -/
theorem isValidHeap_accepts
    (hInside : InMemory heap)
    (hChain : Chain heap heap.finalBrk heap.heapListp bps)
    (hValid : ValidHeap heap bps) :
    isValidHeap heap input = some 1 := by
  rcases @isValidHeap_scans heap bps input hInside hChain
      hValid.bracketed with
    ⟨coalesced, error, hCoalesced, hError, hCode⟩
  rw [hCode, if_pos (hCoalesced.mpr hValid.separated),
    hError.mpr hValid.agrees]
  rfl

/-
  Where only a footer is wrong, the checker displays the heap
  and falls through to the verdict of a valid one.
-/
theorem isValidHeap_differs
    (hInside : InMemory heap)
    (hChain : Chain heap heap.finalBrk heap.heapListp bps)
    (hBracketed : Bracketed heap)
    (hSeparated : Separated heap bps)
    (hDiffers : ∃ bp ∈ bps, ¬Agrees heap bp) :
    isValidHeap heap input =
      (displayHeap heap input).map fun _ => 1 := by
  rcases @isValidHeap_scans heap bps input hInside hChain
      hBracketed with
    ⟨coalesced, error, hCoalesced, hError, hCode⟩
  have hTrue : error = true := by
    rw [← Bool.not_eq_false, hError]
    push Not
    exact hDiffers
  rw [hCode, if_pos (hCoalesced.mpr hSeparated),
    if_pos hTrue]

/- It returns if the input lasts. -/
theorem isValidHeap_displays
    (hInside : InMemory heap)
    (hChain : Chain heap heap.finalBrk heap.heapListp bps)
    (hBracketed : Bracketed heap)
    (hSeparated : Separated heap bps)
    (hDiffers : ∃ bp ∈ bps, ¬Agrees heap bp) :
    isValidHeap heap input = some 1 ↔
      bps.length ≤ input.count '\n' := by
  rw [isValidHeap_differs hInside hChain hBracketed
    hSeparated hDiffers]
  rcases hChain.prologue hBracketed with
    ⟨rest, rfl, hRest⟩
  have hLow := hInside.low
  have hNext :
      4 ≤ nextBlkp heap heap.heapListp := by
    unfold nextBlkp
    unfold dsize at hLow
    omega
  rw [Option.map_eq_some_iff, List.length_cons,
    ← displayFrom_returns_iff hRest
      hBracketed.epilogueSize hNext]
  simp [displayHeap]

/-
  For every heap image whose headers lead from the first
  block to the break, `mm_checker` returns, and tells the
  valid heaps from the others, unless just a footer is wrong:
  then it returns 1 or never returns.
-/
theorem checker_agrees_iff
    (hInside : InMemory heap)
    (hChain : Chain heap heap.finalBrk heap.heapListp bps) :
    (∃ verdict, mmChecker heap input = some verdict ∧
        (verdict = 1 ↔ ValidHeap heap bps)) ↔
      ¬(Bracketed heap ∧ Separated heap bps ∧
        ∃ bp ∈ bps, ¬Agrees heap bp) := by
  unfold mmChecker
  constructor
  · rintro ⟨verdict, hReturns, hVerdict⟩
      ⟨hBracketed, hSeparated, hDiffers⟩
    rw [isValidHeap_differs hInside hChain hBracketed
      hSeparated hDiffers, Option.map_eq_some_iff] at hReturns
    rcases hReturns with ⟨_, _, hOne⟩
    rcases hDiffers with ⟨bp, hMember, hNot⟩
    exact hNot ((hVerdict.mp hOne.symm).agrees bp hMember)
  · intro hNot
    by_cases hFront : Bracketed heap ∧ Separated heap bps
    · have hAgrees : ∀ bp ∈ bps, Agrees heap bp := by
        intro bp hMember
        by_contra hDiffers
        exact hNot
          ⟨hFront.1, hFront.2, bp, hMember, hDiffers⟩
      have hValid : ValidHeap heap bps :=
        ⟨hFront.1, hFront.2, hAgrees⟩
      exact
        ⟨1, isValidHeap_accepts hInside hChain hValid,
          iff_of_true rfl hValid⟩
    · have hInvalid : ¬ValidHeap heap bps := fun hValid =>
        hFront ⟨hValid.bracketed, hValid.separated⟩
      exact
        ⟨0, isValidHeap_rejects hInside hChain hFront,
          iff_of_false (by decide) hInvalid⟩

/-
  A heap of one allocated block of 16 bytes whose footer word
  is `word`.
-/
def oneBlockHeap (word : UInt8) : Heap where
  mem := fun address =>
    if address = 1028 ∨ address = 1032 then 9
    else if address = 1036 then 17
    else if address = 1048 then word
    else if address = 1052 then 1
    else 0
  memStartBrk := 1024
  memBrk := 1056
  memMaxAddr := 1024 + maxHeap
  heapListp := 1032
  startBrk := 1024
  finalBrk := 1056

theorem inMemory_oneBlockHeap (word : UInt8) :
    InMemory (oneBlockHeap word) :=
  ⟨show 1024 + 8 ≤ 1032 by decide,
    show 1056 ≤ 1024 + maxHeap by decide⟩

theorem chain_oneBlockHeap (word : UInt8) :
    Chain (oneBlockHeap word) 1056 1032 [1032, 1040] := by
  have hFirst :
      nextBlkp (oneBlockHeap word) 1032 = 1040 := by
    simp [nextBlkp, getSize, get, hdrp, wsize, oneBlockHeap,
      ByteMemory.readWord]
  have hSecond :
      nextBlkp (oneBlockHeap word) 1040 = 1056 := by
    simp [nextBlkp, getSize, get, hdrp, wsize, oneBlockHeap,
      ByteMemory.readWord]
  refine Chain.step (by decide) ?_
  rw [hFirst]
  refine Chain.step (by decide) ?_
  rw [hSecond]
  exact Chain.done

/- The heap whose footer is right, without any input. -/
theorem checker_agrees_iff_oneBlockHeap :
    (∃ verdict,
        mmChecker (oneBlockHeap 17) [] = some verdict ∧
          (verdict = 1 ↔
            ValidHeap (oneBlockHeap 17) [1032, 1040])) ↔
      ¬(Bracketed (oneBlockHeap 17) ∧
        Separated (oneBlockHeap 17) [1032, 1040] ∧
        ∃ bp ∈ [1032, 1040],
          ¬Agrees (oneBlockHeap 17) bp) :=
  checker_agrees_iff (inMemory_oneBlockHeap 17)
    (chain_oneBlockHeap 17)

/-
  A zero footer is found and displayed, and the checker
  returns 1.
-/
theorem checker_accepts_zero_footer :
    InMemory (oneBlockHeap 0) ∧
      Chain (oneBlockHeap 0) 1056 1032 [1032, 1040] ∧
      mmChecker (oneBlockHeap 0) ['\n', '\n'] = some 1 ∧
      ¬ValidHeap (oneBlockHeap 0) [1032, 1040] := by
  refine ⟨inMemory_oneBlockHeap 0, chain_oneBlockHeap 0,
    by decide +kernel, ?_⟩
  intro hValid
  have hAgrees := hValid.agrees 1040 (by decide)
  exact absurd hAgrees (by decide)

------------------------------------------------------------
-- The Allocator's Own Heaps
------------------------------------------------------------

section Represented

variable {blocks front back : List Block} {block : Block}

/- The footer of a tagged block agrees with its header. -/
theorem Tagged.agrees
    (hTagged : Tagged heap.mem bp block) :
    Agrees heap bp := by
  have hHeader : get heap (hdrp bp) = block.tag :=
    hTagged.header
  have hFooter : get heap (ftrp heap bp) = block.tag := by
    rw [ftrp, getSize_of_tag hHeader]
    exact hTagged.footer
  constructor
  · rw [getSize_of_tag hHeader, getSize_of_tag hFooter]
  · rw [isAlloc_of_tag hHeader, isAlloc_of_tag hFooter]

theorem Tagged.free_iff
    (hTagged : Tagged heap.mem bp block) :
    Free heap bp ↔ block.allocated = false := by
  have hHeader : get heap (hdrp bp) = block.tag :=
    hTagged.header
  unfold Free
  rw [isAlloc_of_tag hHeader]
  cases block.allocated <;> simp

namespace Represents

/- The blocks of a represented heap are reached in order. -/
theorem chain_placed
    (hHeap : Represents heap (front ++ back)) :
    Chain heap heap.finalBrk (heap.first + extent front)
      ((placed (heap.first + extent front) back).map
        Prod.fst) := by
  induction back generalizing front with
  | nil =>
      have hEnd :
          heap.first + extent front = heap.finalBrk := by
        rw [hHeap.finalBrk, hHeap.memBrk, List.append_nil]
      rw [hEnd]
      exact Chain.done
  | cons block back ih =>
      have hTagged :=
        hHeap.tagged (heap.first + extent front) block
          (by simp)
      have hNext :
          nextBlkp heap (heap.first + extent front) =
            heap.first + extent (front ++ [block]) := by
        rw [nextBlkp_of_header hTagged.header]
        simp [extent, Nat.add_assoc]
      have hStart :
          heap.first + extent front + block.bytes =
            heap.first + extent (front ++ [block]) := by
        simp [extent, Nat.add_assoc]
      have hBelow :
          heap.first + extent front ≠ heap.finalBrk := by
        have hBytes := block.bytes_pos
        rw [hHeap.finalBrk, hHeap.memBrk]
        simp only [extent, Tiling.extent_append,
          Tiling.extent_cons]
        omega
      refine Chain.step hBelow ?_
      rw [hNext, hStart]
      exact ih (by simpa using hHeap)

/- The prologue leads to the first block. -/
theorem nextBlkp_heapListp
    (hHeap : Represents heap blocks) :
    nextBlkp heap heap.heapListp = heap.first := by
  have hTagged := hHeap.prologue
  rw [← hHeap.heapListp] at hTagged
  rw [nextBlkp_of_header hTagged.header, hHeap.heapListp]
  rfl

theorem chain
    (hHeap : Represents heap blocks) :
    Chain heap heap.finalBrk heap.heapListp
      (heap.heapListp ::
        (placed heap.first blocks).map Prod.fst) := by
  have hBlocks : Represents heap ([] ++ blocks) := hHeap
  refine Chain.step ?_ ?_
  · rw [hHeap.heapListp, hHeap.finalBrk, hHeap.memBrk,
      Heap.first]
    omega
  · rw [hHeap.nextBlkp_heapListp]
    exact hBlocks.chain_placed

theorem inMemory
    (hHeap : Represents heap blocks) :
    InMemory heap := by
  constructor
  · rw [hHeap.heapListp]
    rfl
  · rw [hHeap.finalBrk, ← hHeap.memMaxAddr]
    exact hHeap.bounded

theorem bracketed
    (hHeap : Represents heap blocks) :
    Bracketed heap := by
  have hTagged := hHeap.prologue
  rw [← hHeap.heapListp] at hTagged
  have hHeader : get heap (hdrp heap.heapListp) = 9 :=
    hTagged.header
  have hFooter : get heap heap.heapListp = 9 :=
    hTagged.footer
  have hEpilogue : get heap (hdrp heap.finalBrk) = 1 := by
    rw [hHeap.finalBrk]
    exact hHeap.epilogue
  constructor <;>
    simp [getSize, isAlloc, hHeader, hFooter, hEpilogue]

theorem separated
    (hHeap : Represents heap blocks)
    (hCoalesced : Coalesced blocks) :
    Separated heap
      (heap.heapListp ::
        (placed heap.first blocks).map Prod.fst) := by
  have hPrologue : ¬Free heap heap.heapListp := by
    unfold Free
    rw [hHeap.bracketed.headerAlloc]
    decide
  have hPlaced :
      (placed heap.first blocks).IsChain fun left right =>
        left.2.allocated = true ∨
          right.2.allocated = true := by
    have hSnd :
        Coalesced
          ((placed heap.first blocks).map Prod.snd) := by
      rw [Tiling.map_snd_placed]
      exact hCoalesced
    exact (List.isChain_map Prod.snd).mp hSnd
  rw [Separated, List.isChain_cons, List.isChain_map]
  refine ⟨fun _ _ hBoth => hPrologue hBoth.1,
    hPlaced.imp_of_mem_imp ?_⟩
  rintro ⟨p, left⟩ ⟨q, right⟩ hLeft hRight hTaken
    ⟨hLeftFree, hRightFree⟩
  rw [(hHeap.tagged p left hLeft).free_iff] at hLeftFree
  rw [(hHeap.tagged q right hRight).free_iff] at hRightFree
  simp [hLeftFree, hRightFree] at hTaken

theorem validHeap
    (hHeap : Represents heap blocks)
    (hCoalesced : Coalesced blocks) :
    ValidHeap heap
      (heap.heapListp ::
        (placed heap.first blocks).map Prod.fst) := by
  refine ⟨hHeap.bracketed, hHeap.separated hCoalesced, ?_⟩
  intro bp hMember
  rcases List.mem_cons.mp hMember with rfl | hPlaced
  · exact hHeap.bracketed.agrees
  · rcases List.mem_map.mp hPlaced with
      ⟨⟨_, block⟩, hBlock, rfl⟩
    exact (hHeap.tagged _ block hBlock).agrees

/-
  The checker passes every heap the allocator leaves with its
  free blocks coalesced, whatever the input.
-/
theorem checker_passes
    (hHeap : Represents heap blocks)
    (hCoalesced : Coalesced blocks) :
    mmChecker heap input = some 1 :=
  isValidHeap_accepts hHeap.inMemory hHeap.chain
    (hHeap.validHeap hCoalesced)

end Represents

end Represented

end Malloc

end CsappLabs
