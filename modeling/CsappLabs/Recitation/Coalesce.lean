import CsappLabs.Recitation.Blocks

/-
  coalesce_block on a represented heap.

  A free block is joined with its free neighbours.  With
  both neighbours allocated mm.c leaves the heap alone and
  mm-2.c stores an int into the next block: `stamp`.

  Key definitions:
    * `Around`
    * `stamp`
    * `Reshapes`
    * `Enclosed`

  Key theorems:
    * `Represents.coalesce_prev`
    * `coalesceBlock_spec`
-/

------------------------------------------------------------
-- The Neighbourhood of a Block
------------------------------------------------------------

namespace CsappLabs

namespace Recitation

/- The word in front of the block after `front`. -/
def leftTag
    (front : List Block) :
    Nat :=
  match front.getLast? with
  | none => 1
  | some block => block.tag

/- The word behind the block before `back`. -/
def rightTag
    (back : List Block) :
    Nat :=
  match back with
  | [] => 1
  | block :: _ => block.tag

@[simp] theorem leftTag_nil :
    leftTag [] = 1 := rfl

@[simp] theorem leftTag_concat
    (front : List Block)
    (block : Block) :
    leftTag (front ++ [block]) = block.tag := by
  simp [leftTag]

@[simp] theorem rightTag_nil :
    rightTag [] = 1 := rfl

@[simp] theorem rightTag_cons
    (block : Block)
    (back : List Block) :
    rightTag (block :: back) = block.tag := rfl

/- The words that coalesce_block reads around a block. -/
structure Around
    (heap : Heap)
    (p left : Nat)
    (block : Block)
    (right : Nat) :
    Prop where
  least : 9 ≤ p
  limit : p + block.bytes + 8 < 2 ^ 64
  header : get heap p = block.tag
  leftWord : get heap (p - 8) = left
  rightWord : get heap (p + block.bytes) = right

/- The word in front of a block is the tag on its left. -/
theorem Represents.leftTag_eq
    {heap : Heap}
    {front back : List Block}
    (hHeap : Represents heap (front ++ back)) :
    get heap (heap.first + extent front - 8) =
      leftTag front := by
  have hFirst : heap.first = heap.heapLo + 8 := rfl
  rcases List.eq_nil_or_concat front with
    rfl | ⟨before, last, rfl⟩
  · have hAddress :
        heap.first + extent [] - 8 = heap.heapLo := by
      rw [extent_nil]
      omega
    rw [hAddress]
    exact hHeap.prologue
  · rw [List.concat_eq_append] at hHeap ⊢
    have hLast :
        Tagged heap.mem
          (heap.first + extent before) last :=
      hHeap.tagged _ _ (by simp)
    have hAddress :
        heap.first + extent (before ++ [last]) - 8 =
          heap.first + extent before + last.bytes - 8 := by
      rw [extent_append, extent_cons, extent_nil]
      omega
    rw [hAddress, leftTag_concat]
    exact hLast.footer

/- The word behind a block is the tag on its right. -/
theorem Represents.rightTag_eq
    {heap : Heap}
    {front back : List Block}
    (hHeap : Represents heap (front ++ back)) :
    get heap (heap.first + extent front) =
      rightTag back := by
  have hFirst : heap.first = heap.heapLo + 8 := rfl
  have hBrk := hHeap.memBrk
  cases back with
  | nil =>
      have hAddress :
          heap.first + extent front = heap.memBrk - 8 := by
        rw [List.append_nil] at hBrk
        omega
      rw [hAddress]
      exact hHeap.epilogue
  | cons next back =>
      have hNext :
          Tagged heap.mem
            (heap.first + extent front) next :=
        hHeap.tagged _ _ (by simp)
      exact hNext.header

theorem Represents.around
    {heap : Heap}
    {front back : List Block}
    {block : Block}
    (hHeap : Represents heap (front ++ block :: back)) :
    Around heap (heap.first + extent front)
      (leftTag front) block (rightTag back) := by
  have hLo := hHeap.lo
  have hLt := hHeap.brk_lt
  have hBrk := hHeap.memBrk
  have hFirst : heap.first = heap.heapLo + 8 := rfl
  have hTagged :
      Tagged heap.mem (heap.first + extent front) block :=
    hHeap.tagged _ _ (by simp)
  simp only [extent_append, extent_cons] at hBrk
  have hRight :
      get heap (heap.first + extent (front ++ [block])) =
        rightTag back := by
    have hSplit :
        front ++ block :: back =
          (front ++ [block]) ++ back := by
      simp
    rw [hSplit] at hHeap
    exact hHeap.rightTag_eq
  rw [extent_append, extent_cons, extent_nil, Nat.add_zero,
    ← Nat.add_assoc] at hRight
  exact ⟨by omega, by omega, hTagged.header,
    hHeap.leftTag_eq, hRight⟩

namespace Around

variable {heap : Heap} {p left right : Nat} {block : Block}

theorem getSize_eq
    (hAround : Around heap p left block right) :
    getSize heap p = block.bytes := by
  have hLimit := hAround.limit
  rw [getSize, hAround.header,
    block.extractSize_tag (by omega)]

theorem getAlloc_eq
    (hAround : Around heap p left block right) :
    getAlloc heap p = block.allocated := by
  rw [getAlloc, hAround.header, block.extractAlloc_tag]

theorem findNext_eq
    (hAround : Around heap p left block right) :
    findNext heap p = p + block.bytes := by
  have hLimit := hAround.limit
  rw [findNext, hAround.getSize_eq, u64,
    Nat.mod_eq_of_lt (by omega)]

theorem findPrevFooter_eq
    (hAround : Around heap p left block right) :
    findPrevFooter p = p - 8 := by
  have hLeast := hAround.least
  have hLimit := hAround.limit
  unfold findPrevFooter sub64 wsize
  omega

theorem findPrev_eq
    (hAround : Around heap p left block right) :
    findPrev heap p = sub64 p (extractSize left) := by
  rw [findPrev, hAround.findPrevFooter_eq,
    hAround.leftWord]

theorem payload_eq
    (hAround : Around heap p left block right) :
    headerToPayload p = p + 8 := by
  have hLimit := hAround.limit
  unfold headerToPayload u64 wsize
  omega

end Around

/- A header at a known place. -/
theorem getSize_of_get
    {heap : Heap}
    {p : Nat}
    {block : Block}
    (hGet : get heap p = block.tag)
    (hBytes : block.bytes < 2 ^ 64) :
    getSize heap p = block.bytes := by
  rw [getSize, hGet, block.extractSize_tag hBytes]

------------------------------------------------------------
-- The Four Cases
------------------------------------------------------------

/- What case 1 stores at the payload of the next block. -/
def stamp
    (version : Version)
    (heap : Heap)
    (payload : Nat) :
    Heap :=
  match version with
  | .mm => heap
  | .mm2 => store heap payload 4 0x15213

section Cases

variable {heap : Heap} {p left right : Nat}
variable {block prev next : Block}
variable (version : Version)

theorem coalesceBlock_neither
    (hAround : Around heap p left block right)
    (hLeft : extractAlloc left = true)
    (hRight : extractAlloc right = true) :
    coalesceBlock version heap p =
      (stamp version heap (p + block.bytes + 8), p) := by
  have hLimit := hAround.limit
  have hPayload :
      headerToPayload (p + block.bytes) =
        p + block.bytes + 8 := by
    unfold headerToPayload u64 wsize
    omega
  unfold coalesceBlock
  simp only [hAround.getSize_eq, hAround.findNext_eq,
    hAround.findPrevFooter_eq, hAround.leftWord, hLeft,
    getAlloc, hAround.rightWord, hRight, hPayload]
  cases version with
  | mm => rfl
  | mm2 => rfl

theorem coalesceBlock_next
    (hAround : Around heap p left block next.tag)
    (hLeft : extractAlloc left = true)
    (hNext : next.allocated = false)
    (hLimit : p + (block.bytes + next.bytes) < 2 ^ 64) :
    coalesceBlock version heap p =
      (tagBlock heap p (block.join next), p) := by
  have hRight : extractAlloc next.tag = false := by
    rw [next.extractAlloc_tag, hNext]
  have hNextSize :
      getSize heap (p + block.bytes) = next.bytes :=
    getSize_of_get hAround.rightWord (by omega)
  have hSize :
      u64 (block.bytes + next.bytes) =
        (block.join next).bytes := by
    unfold u64
    rw [Nat.mod_eq_of_lt (by omega)]
    rfl
  have hPair :=
    @writeHeader_writeFooter heap p (block.join next)
      hLimit
  unfold coalesceBlock
  simp only [hAround.getSize_eq, hAround.findNext_eq,
    hAround.findPrevFooter_eq, hAround.leftWord, hLeft,
    getAlloc, hAround.rightWord, hRight, hNextSize, hSize]
  simp
  exact hPair

theorem coalesceBlock_prev
    (hAround : Around heap p prev.tag block right)
    (hPrev : prev.allocated = false)
    (hRight : extractAlloc right = true)
    (hLow : prev.bytes ≤ p)
    (hHeader : get heap (p - prev.bytes) = prev.tag) :
    coalesceBlock version heap p =
      (tagBlock heap (p - prev.bytes) (prev.join block),
        p - prev.bytes) := by
  have hLimit := hAround.limit
  have hLeft : extractAlloc prev.tag = false := by
    rw [prev.extractAlloc_tag, hPrev]
  have hPrevAddress :
      findPrev heap p = p - prev.bytes := by
    rw [hAround.findPrev_eq,
      prev.extractSize_tag (by omega)]
    unfold sub64
    omega
  have hPrevSize :
      getSize heap (p - prev.bytes) = prev.bytes :=
    getSize_of_get hHeader (by omega)
  have hSize :
      u64 (block.bytes + prev.bytes) =
        (prev.join block).bytes := by
    unfold u64
    rw [Nat.mod_eq_of_lt (by omega), Nat.add_comm]
    rfl
  have hPair :=
    @writeHeader_writeFooter heap (p - prev.bytes)
      (prev.join block)
      (by
        rw [Block.bytes_join]
        omega)
  unfold coalesceBlock
  simp only [hAround.getSize_eq, hAround.findNext_eq,
    hAround.findPrevFooter_eq, hAround.leftWord, hLeft,
    getAlloc, hAround.rightWord, hRight, hPrevAddress,
    hPrevSize, hSize]
  simp
  exact hPair

theorem coalesceBlock_both
    (hAround : Around heap p prev.tag block next.tag)
    (hPrev : prev.allocated = false)
    (hNext : next.allocated = false)
    (hLow : prev.bytes ≤ p)
    (hHeader : get heap (p - prev.bytes) = prev.tag)
    (hLimit : p + (block.bytes + next.bytes) < 2 ^ 64) :
    coalesceBlock version heap p =
      (tagBlock heap (p - prev.bytes)
          (prev.join (block.join next)),
        p - prev.bytes) := by
  have hLeft : extractAlloc prev.tag = false := by
    rw [prev.extractAlloc_tag, hPrev]
  have hRight : extractAlloc next.tag = false := by
    rw [next.extractAlloc_tag, hNext]
  have hPrevAddress :
      findPrev heap p = p - prev.bytes := by
    rw [hAround.findPrev_eq,
      prev.extractSize_tag (by omega)]
    unfold sub64
    omega
  have hPrevSize :
      getSize heap (p - prev.bytes) = prev.bytes :=
    getSize_of_get hHeader (by omega)
  have hNextSize :
      getSize heap (p + block.bytes) = next.bytes :=
    getSize_of_get hAround.rightWord (by omega)
  have hSize :
      u64 (block.bytes + u64 (next.bytes + prev.bytes)) =
        (prev.join (block.join next)).bytes := by
    rw [Block.bytes_join, Block.bytes_join]
    unfold u64
    omega
  have hPair :=
    @writeHeader_writeFooter heap (p - prev.bytes)
      (prev.join (block.join next))
      (by
        rw [Block.bytes_join, Block.bytes_join]
        omega)
  unfold coalesceBlock
  simp only [hAround.getSize_eq, hAround.findNext_eq,
    hAround.findPrevFooter_eq, hAround.leftWord, hLeft,
    getAlloc, hAround.rightWord, hRight, hPrevAddress,
    hPrevSize, hNextSize, hSize]
  simp
  exact hPair

end Cases

------------------------------------------------------------
-- Coalescing on Block Lists
------------------------------------------------------------

/-
  The blocks are laid out anew while the allocated ones stay
  where they are.
-/
structure Reshapes
    (heap heap' : Heap)
    (blocks blocks' : List Block) :
    Prop where
  represents : Represents heap' blocks'
  keeps : Keeps heap heap' blocks
  allocated :
    allocated heap.first blocks' =
      allocated heap.first blocks

theorem Reshapes.trans
    {heap heap' heap'' : Heap}
    {blocks blocks' blocks'' : List Block}
    (hFirst : Reshapes heap heap' blocks blocks')
    (hSecond : Reshapes heap' heap'' blocks' blocks'') :
    Reshapes heap heap'' blocks blocks'' where
  represents := hSecond.represents
  keeps := by
    refine hFirst.keeps.trans ?_ hSecond.keeps
    intro entry hMember
    rw [hFirst.allocated]
    exact hMember
  allocated := by
    have hLater := hSecond.allocated
    rw [hFirst.keeps.first] at hLater
    exact hLater.trans hFirst.allocated

theorem allocated_eq_nil
    (start : Nat)
    {blocks : List Block}
    (hFree : ∀ block ∈ blocks, block.allocated = false) :
    allocated start blocks = [] := by
  rw [List.eq_nil_iff_forall_not_mem]
  rintro ⟨p, block⟩ hMember
  rw [mem_allocated] at hMember
  rcases placed_split hMember.1 with ⟨before, after, hSplit, _⟩
  have hAlloc := hMember.2
  rw [hFree block (by rw [hSplit]; simp)] at hAlloc
  cases hAlloc

/- Free blocks of an interval become one free block. -/
theorem Represents.join
    {heap : Heap}
    {front middle back : List Block}
    {joined : Block}
    (hHeap : Represents heap (front ++ middle ++ back))
    (hMiddle : ∀ block ∈ middle, block.allocated = false)
    (hJoined : joined.allocated = false)
    (hBytes : joined.bytes = extent middle) :
    Reshapes heap
        (tagBlock heap (heap.first + extent front) joined)
        (front ++ middle ++ back)
        (front ++ joined :: back) ∧
      (tagBlock heap (heap.first + extent front)
        joined).overrun = heap.overrun := by
  rcases hHeap.retag hBytes with ⟨hAfter, hRewrites⟩
  refine
    ⟨{ represents := by simpa using hAfter
       keeps := hRewrites.keeps hMiddle
       allocated := ?_ }, hRewrites.overrun⟩
  rw [allocated_append, allocated_append, allocated_append,
    allocated_cons, hJoined, allocated_eq_nil _ hMiddle,
    hBytes, extent_append, Nat.add_assoc]
  simp

/- The stamp of case 1 changes no tag. -/
theorem Represents.stamped
    {heap : Heap}
    {front back : List Block}
    {block : Block}
    (version : Version)
    (hHeap : Represents heap (front ++ block :: back)) :
    Represents
      (stamp version heap
        (heap.first + extent front + block.bytes + 8))
      (front ++ block :: back) := by
  have hBrk := hHeap.memBrk
  have hFirst : heap.first = heap.heapLo + 8 := rfl
  have hOutside :
      ByteMemory.SameOutside
        (heap.mem.writeWord
          (heap.first + extent front + block.bytes + 8)
          4 0x15213)
        heap.mem
        (heap.first + extent front + block.bytes + 8)
        (heap.first + extent front + block.bytes + 8 + 4) :=
    ByteMemory.writeWord_sameOutside
  cases version with
  | mm => exact hHeap
  | mm2 =>
      cases back with
      | nil =>
          simp only [extent_append, extent_cons,
            extent_nil] at hBrk
          exact hHeap.of_beyond rfl rfl rfl rfl
            (by omega) hOutside
      | cons next back =>
          have hLeast := next.bytes_least
          have hMember :
              (heap.first + extent front + block.bytes,
                  next) ∈
                placed heap.first
                  (front ++ block :: next :: back) := by
            simp
          exact hHeap.of_payload rfl rfl rfl rfl hMember
            (by omega) (by omega) hOutside

/- An address in front of a list of blocks. -/
theorem extent_concat_sub
    (start : Nat)
    (before : List Block)
    (last : Block) :
    start + extent (before ++ [last]) - last.bytes =
      start + extent before := by
  rw [extent_append, extent_cons, extent_nil]
  omega

/- The header of the block in front of another one. -/
theorem Represents.header_before
    {heap : Heap}
    {before back : List Block}
    {prev : Block}
    (hHeap : Represents heap (before ++ prev :: back)) :
    get heap
        (heap.first + extent (before ++ [prev]) -
          prev.bytes) = prev.tag ∧
      prev.bytes ≤
        heap.first + extent (before ++ [prev]) := by
  have hTagged :
      Tagged heap.mem (heap.first + extent before) prev :=
    hHeap.tagged _ _ (by simp)
  constructor
  · rw [extent_concat_sub]
    exact hTagged.header
  · rw [extent_append, extent_cons]
    omega

/- The left neighbour is free and the right one is not. -/
theorem Represents.coalesce_prev
    (version : Version)
    {heap : Heap}
    {before back : List Block}
    {prev block : Block}
    (hHeap :
      Represents heap (before ++ prev :: block :: back))
    (hPrev : prev.allocated = false)
    (hFree : block.allocated = false)
    (hRight : extractAlloc (rightTag back) = true) :
    coalesceBlock version heap
        (heap.first + extent (before ++ [prev])) =
        (tagBlock heap (heap.first + extent before)
            (prev.join block),
          heap.first + extent before) ∧
      Reshapes heap
          (tagBlock heap (heap.first + extent before)
            (prev.join block))
          (before ++ prev :: block :: back)
          (before ++ prev.join block :: back) ∧
        (tagBlock heap (heap.first + extent before)
          (prev.join block)).overrun = heap.overrun := by
  have hSplit :
      before ++ prev :: block :: back =
        (before ++ [prev]) ++ block :: back := by
    simp
  have hSplit' :
      before ++ prev :: block :: back =
        before ++ [prev, block] ++ back := by
    simp
  rcases hHeap.header_before with ⟨hHeader, hLow⟩
  rw [hSplit] at hHeap
  have hAround := hHeap.around
  rw [leftTag_concat] at hAround
  have hCode :=
    coalesceBlock_prev version hAround hPrev hRight
      hLow hHeader
  rw [extent_concat_sub] at hCode
  refine ⟨hCode, ?_⟩
  rw [← hSplit, hSplit'] at hHeap
  rw [hSplit']
  exact hHeap.join (by simp [hFree, hPrev]) rfl (by simp)

/- The right neighbour is free and the left one is not. -/
theorem Represents.coalesce_next
    (version : Version)
    {heap : Heap}
    {front back : List Block}
    {block next : Block}
    (hHeap :
      Represents heap (front ++ block :: next :: back))
    (hFree : block.allocated = false)
    (hNext : next.allocated = false)
    (hLeft : extractAlloc (leftTag front) = true) :
    coalesceBlock version heap
        (heap.first + extent front) =
        (tagBlock heap (heap.first + extent front)
            (block.join next),
          heap.first + extent front) ∧
      Reshapes heap
          (tagBlock heap (heap.first + extent front)
            (block.join next))
          (front ++ block :: next :: back)
          (front ++ block.join next :: back) ∧
        (tagBlock heap (heap.first + extent front)
          (block.join next)).overrun = heap.overrun := by
  have hAround := hHeap.around
  have hBrk := hHeap.memBrk
  have hLt := hHeap.brk_lt
  have hFirst : heap.first = heap.heapLo + 8 := rfl
  simp only [extent_append, extent_cons] at hBrk
  have hSplit :
      front ++ block :: next :: back =
        front ++ [block, next] ++ back := by
    simp
  refine ⟨coalesceBlock_next version hAround hLeft hNext
    (by omega), ?_⟩
  rw [hSplit] at hHeap ⊢
  exact hHeap.join (by simp [hFree, hNext]) rfl (by simp)

/- Both neighbours are free. -/
theorem Represents.coalesce_both
    (version : Version)
    {heap : Heap}
    {before back : List Block}
    {prev block next : Block}
    (hHeap :
      Represents heap
        (before ++ prev :: block :: next :: back))
    (hPrev : prev.allocated = false)
    (hFree : block.allocated = false)
    (hNext : next.allocated = false) :
    coalesceBlock version heap
        (heap.first + extent (before ++ [prev])) =
        (tagBlock heap (heap.first + extent before)
            (prev.join (block.join next)),
          heap.first + extent before) ∧
      Reshapes heap
          (tagBlock heap (heap.first + extent before)
            (prev.join (block.join next)))
          (before ++ prev :: block :: next :: back)
          (before ++ prev.join (block.join next) :: back) ∧
        (tagBlock heap (heap.first + extent before)
            (prev.join (block.join next))).overrun =
          heap.overrun := by
  have hBrk := hHeap.memBrk
  have hLt := hHeap.brk_lt
  have hFirst : heap.first = heap.heapLo + 8 := rfl
  simp only [extent_append, extent_cons] at hBrk
  have hSplit :
      before ++ prev :: block :: next :: back =
        (before ++ [prev]) ++ block :: next :: back := by
    simp
  have hSplit' :
      before ++ prev :: block :: next :: back =
        before ++ [prev, block, next] ++ back := by
    simp
  have hLimit :
      heap.first + extent (before ++ [prev]) +
          (block.bytes + next.bytes) < 2 ^ 64 := by
    rw [extent_append, extent_cons, extent_nil]
    omega
  rcases hHeap.header_before with ⟨hHeader, hLow⟩
  rw [hSplit] at hHeap
  have hAround := hHeap.around
  rw [leftTag_concat] at hAround
  have hCode :=
    coalesceBlock_both version hAround hPrev hNext hLow
      hHeader hLimit
  rw [extent_concat_sub] at hCode
  refine ⟨hCode, ?_⟩
  rw [← hSplit, hSplit'] at hHeap
  rw [hSplit']
  exact hHeap.join (by simp [hFree, hPrev, hNext]) rfl
    (by simp)

/- Case 1: neither neighbour is free. -/
def Enclosed
    (front back : List Block) :
    Prop :=
  extractAlloc (leftTag front) = true ∧
    extractAlloc (rightTag back) = true

theorem coalesceBlock_spec
    (version : Version)
    {heap : Heap}
    {front back : List Block}
    {block : Block}
    (hHeap : Represents heap (front ++ block :: back))
    (hFree : block.allocated = false) :
    ∃ heap' p blocks',
      coalesceBlock version heap
          (heap.first + extent front) = (heap', p) ∧
        (Enclosed front back →
          heap' =
              stamp version heap
                (heap.first + extent front + block.bytes +
                  8) ∧
            blocks' = front ++ block :: back) ∧
        (¬ Enclosed front back →
          Reshapes heap heap' (front ++ block :: back)
              blocks' ∧
            heap'.overrun = heap.overrun) := by
  by_cases hLeft : extractAlloc (leftTag front) = true
  · by_cases hRight : extractAlloc (rightTag back) = true
    · have hBoth : Enclosed front back := ⟨hLeft, hRight⟩
      exact ⟨_, _, _,
        coalesceBlock_neither version hHeap.around hLeft
          hRight,
        fun _ => ⟨rfl, rfl⟩,
        fun hNot => absurd hBoth hNot⟩
    · have hNotBoth : ¬ Enclosed front back :=
        fun hBoth => hRight hBoth.2
      cases back with
      | nil => exact absurd rfl hRight
      | cons next back =>
          have hNext : next.allocated = false := by
            rw [rightTag_cons, next.extractAlloc_tag,
              Bool.not_eq_true] at hRight
            exact hRight
          rcases
              hHeap.coalesce_next version hFree hNext hLeft with
            ⟨hCode, hJoin⟩
          exact ⟨_, _, _, hCode,
            fun hBoth => absurd hBoth hNotBoth,
            fun _ => hJoin⟩
  · have hNotBoth : ¬ Enclosed front back :=
      fun hBoth => hLeft hBoth.1
    rcases List.eq_nil_or_concat front with
      rfl | ⟨before, prev, rfl⟩
    · exact absurd rfl hLeft
    · rw [List.concat_eq_append] at hHeap hLeft hNotBoth ⊢
      have hPrev : prev.allocated = false := by
        rw [leftTag_concat, prev.extractAlloc_tag,
          Bool.not_eq_true] at hLeft
        exact hLeft
      have hSplit :
          before ++ [prev] ++ block :: back =
            before ++ prev :: block :: back := by
        simp
      rw [hSplit] at hHeap ⊢
      by_cases hRight :
          extractAlloc (rightTag back) = true
      · rcases
            hHeap.coalesce_prev version hPrev hFree hRight with
          ⟨hCode, hJoin⟩
        exact ⟨_, _, _, hCode,
          fun hBoth => absurd hBoth hNotBoth,
          fun _ => hJoin⟩
      · cases back with
        | nil => exact absurd rfl hRight
        | cons next back =>
            have hNext : next.allocated = false := by
              rw [rightTag_cons, next.extractAlloc_tag,
                Bool.not_eq_true] at hRight
              exact hRight
            rcases
                hHeap.coalesce_both version hPrev hFree hNext with
              ⟨hCode, hJoin⟩
            exact ⟨_, _, _, hCode,
              fun hBoth => absurd hBoth hNotBoth,
              fun _ => hJoin⟩

end Recitation

end CsappLabs
