import CsappLabs.Lib.Tiling
import CsappLabs.Malloc.Macros
import Mathlib.Data.List.Chain

/-
  The abstract allocator: a list of sized blocks.

  This module says what the allocator is for. A heap is a
  list of blocks, free or allocated, in address order.
  Allocation carves the first free block that is large
  enough, or the last one after extending the heap; release
  frees a block and joins it with its free neighbours.

  Key definitions include:
    * `Block`, `Block.carve`
    * `coalesceAt`, `extendBlocks`
    * `allocate`, `release`, `Coalesced`

  Key theorems include:
    * `allocated_allocate`, `allocated_release`
    * `coalesced_allocate`, `coalesced_release`
-/

------------------------------------------------------------
-- Blocks
------------------------------------------------------------

namespace CsappLabs

namespace Malloc

/- A positive multiple of the double word. -/
structure BlockSize where
  bytes : Nat
  aligned : bytes % 8 = 0
  positive : 0 < bytes
deriving DecidableEq

namespace BlockSize

theorem ext
    {left right : BlockSize}
    (hBytes : left.bytes = right.bytes) :
    left = right := by
  rcases left with ⟨bytes, _, _⟩
  cases hBytes
  rfl

def plus (left right : BlockSize) : BlockSize where
  bytes := left.bytes + right.bytes
  aligned := by
    have hLeft := left.aligned
    have hRight := right.aligned
    omega
  positive := by
    have hLeft := left.positive
    omega

def minus
    (left right : BlockSize)
    (hLt : right.bytes < left.bytes) : BlockSize where
  bytes := left.bytes - right.bytes
  aligned := by
    have hLeft := left.aligned
    have hRight := right.aligned
    omega
  positive := by omega

/- The larger of two sizes. -/
def larger (left right : BlockSize) : BlockSize :=
  if left.bytes < right.bytes then right else left

/- The size of the block that serves a request. -/
def ofRequest (request : Nat) : BlockSize where
  bytes := max 16 (8 * ((request + 8 + 7) / 8))
  aligned := by omega
  positive := by omega

/- The least extension of the heap. -/
def chunk : BlockSize := ⟨4096, by decide, by decide⟩

theorem eight_le_bytes (size : BlockSize) :
    8 ≤ size.bytes := by
  have hAligned := size.aligned
  have hPositive := size.positive
  omega

@[simp] theorem bytes_plus (left right : BlockSize) :
    (left.plus right).bytes = left.bytes + right.bytes :=
  rfl

@[simp] theorem bytes_minus
    (left right : BlockSize)
    (hLt : right.bytes < left.bytes) :
    (left.minus right hLt).bytes =
      left.bytes - right.bytes :=
  rfl

@[simp] theorem bytes_larger (left right : BlockSize) :
    (left.larger right).bytes =
      max left.bytes right.bytes := by
  unfold larger
  split <;> omega

@[simp] theorem bytes_ofRequest (request : Nat) :
    (ofRequest request).bytes =
      max 16 (8 * ((request + 8 + 7) / 8)) :=
  rfl

@[simp] theorem bytes_chunk : chunk.bytes = 4096 := rfl

end BlockSize

/- A block of eight bytes. -/
def eight : BlockSize := ⟨8, rfl, Nat.succ_pos 7⟩

/- A block of the heap. -/
structure Block where
  size : BlockSize
  allocated : Bool
deriving DecidableEq

namespace Block

/- The size of a block in bytes, both tags included. -/
def bytes (block : Block) : Nat :=
  block.size.bytes

/- The block after it is released. -/
def freed (block : Block) : Block :=
  { block with allocated := false }

/- Two neighbours as one free block. -/
def join (left right : Block) : Block where
  size := left.size.plus right.size
  allocated := false

/-
  Allocate the front of a block; what remains, if anything,
  stays behind it as a free block.
-/
def carve (block : Block) (asize : BlockSize) :
    List Block :=
  ⟨asize, true⟩ ::
    if hLt : asize.bytes < block.size.bytes then
      [⟨block.size.minus asize hLt, false⟩]
    else
      []

theorem bytes_pos (block : Block) : 0 < block.bytes :=
  block.size.positive

theorem eight_le_bytes (block : Block) :
    8 ≤ block.bytes :=
  block.size.eight_le_bytes

theorem bytes_mod (block : Block) : block.bytes % 8 = 0 :=
  block.size.aligned

@[simp] theorem bytes_mk (size : BlockSize) (alloc : Bool) :
    (Block.mk size alloc).bytes = size.bytes := rfl

@[simp] theorem bytes_freed (block : Block) :
    block.freed.bytes = block.bytes := rfl

@[simp] theorem allocated_freed (block : Block) :
    block.freed.allocated = false := rfl

@[simp] theorem bytes_join (left right : Block) :
    (left.join right).bytes = left.bytes + right.bytes :=
  rfl

@[simp] theorem allocated_join (left right : Block) :
    (left.join right).allocated = false := rfl

end Block

/- The number of bytes a list of blocks covers. -/
abbrev extent (blocks : List Block) : Nat :=
  Tiling.extent Block.bytes blocks

/- Blocks with the payload addresses they start at. -/
abbrev placed (start : Nat) (blocks : List Block) :
    List (Nat × Block) :=
  Tiling.placed Block.bytes start blocks

/- The allocated blocks with their payload addresses. -/
def allocated (start : Nat) (blocks : List Block) :
    List (Nat × Block) :=
  (placed start blocks).filter fun entry =>
    entry.2.allocated

------------------------------------------------------------
-- Operations
------------------------------------------------------------

/- Join a free block with the block after it, if free. -/
def joinRight (block : Block) : List Block → List Block
| [] => [block]
| next :: back =>
    if next.allocated then
      block :: next :: back
    else
      block.join next :: back

/- Join the first of `rest` with the block before it. -/
def joinLeft : List Block → List Block → List Block
| [], rest => rest
| [last], rest =>
    match rest with
    | [] => [last]
    | block :: back =>
        if last.allocated then
          last :: block :: back
        else
          last.join block :: back
| head :: next :: front, rest =>
    head :: joinLeft (next :: front) rest

/- Merge a free block with its free neighbours. -/
def coalesceAt
    (front : List Block)
    (block : Block)
    (back : List Block) :
    List Block :=
  joinLeft front (joinRight block back)

/- The blocks in front of a merge, without a free last one. -/
def keptFront (front : List Block) : List Block :=
  match front.getLast? with
  | some last =>
      if last.allocated then front else front.dropLast
  | none => []

/-
  Append `size` free bytes, merged with a trailing free
  block: the blocks before the last one, and the last one.
-/
def extendBlocks (size : BlockSize) (blocks : List Block) :
    List Block × Block :=
  match blocks.getLast? with
  | some last =>
      if last.allocated then
        (keptFront blocks, ⟨size, false⟩)
      else
        (keptFront blocks, last.join ⟨size, false⟩)
  | none => (keptFront blocks, ⟨size, false⟩)

/- A free block of at least `asize` bytes. -/
def fits (asize : BlockSize) (block : Block) : Bool :=
  !block.allocated && decide (asize.bytes ≤ block.bytes)

/-
  The heap may not grow by this size: it is a negative
  `int`, or the heap would pass `MAX_HEAP`. The 16 bytes are
  the padding, the prologue and the epilogue.
-/
def Refused (blocks : List Block) (size : BlockSize) :
    Prop :=
  2 ^ 31 ≤ size.bytes ∨
    maxHeap < 16 + extent blocks + size.bytes

instance (blocks : List Block) (size : BlockSize) :
    Decidable (Refused blocks size) := by
  unfold Refused
  infer_instance

/- The extension made when no block fits. -/
def extension (request : Nat) : BlockSize :=
  (BlockSize.ofRequest request).larger BlockSize.chunk

/-
  Serve a request. The value is the offset of the new block,
  or nothing where the heap may not grow.
-/
def allocate (blocks : List Block) (request : Nat) :
    List Block × Option Nat :=
  let asize := BlockSize.ofRequest request
  match Tiling.firstSplit (fits asize) blocks with
  | some (front, block, back) =>
      (front ++ block.carve asize ++ back,
        some (extent front))
  | none =>
      if Refused blocks (extension request) then
        (blocks, none)
      else
        let (front, tail) :=
          extendBlocks (extension request) blocks
        (front ++ tail.carve asize, some (extent front))

/- The address of an offset, null where there is none. -/
def address (start : Nat) : Option Nat → Nat
| some offset => start + offset
| none => null

/- Release the block at an offset. -/
def release (blocks : List Block) (offset : Nat) :
    List Block :=
  match Tiling.locate Block.bytes offset blocks with
  | some (front, block, back) =>
      coalesceAt front block.freed back
  | none => blocks

/- No two consecutive blocks are both free. -/
def Coalesced (blocks : List Block) : Prop :=
  blocks.IsChain fun left right =>
    left.allocated = true ∨ right.allocated = true

------------------------------------------------------------
-- Allocated Blocks
------------------------------------------------------------

variable {start request : Nat} {asize size : BlockSize}
variable {block last : Block}
variable {blocks front back : List Block}

@[simp] theorem allocated_nil :
    allocated start [] = [] := rfl

@[simp] theorem allocated_cons :
    allocated start (block :: back) =
      if block.allocated then
        (start, block) ::
          allocated (start + block.bytes) back
      else
        allocated (start + block.bytes) back := by
  cases hAlloc : block.allocated <;>
    simp [allocated, placed, hAlloc]

@[simp] theorem allocated_append :
    allocated start (front ++ back) =
      allocated start front ++
        allocated (start + extent front) back := by
  simp [allocated, placed, extent]

theorem mem_allocated_iff {p : Nat} :
    (p, block) ∈ allocated start blocks ↔
      (p, block) ∈ placed start blocks ∧
        block.allocated = true := by
  simp [allocated]

theorem allocated_sublist_placed :
    (allocated start blocks).Sublist
      (placed start blocks) :=
  List.filter_sublist

theorem nodup_allocated :
    ((allocated start blocks).map Prod.fst).Nodup :=
  (Tiling.nodup_placed Block.bytes_pos).sublist
    (allocated_sublist_placed.map Prod.fst)

/-
  Taking one entry out of a list with distinct addresses is
  filtering its address out.
-/
theorem filter_perm_of_perm_cons
    {p : Nat} {entries rest : List (Nat × Block)}
    (hPerm : entries.Perm ((p, block) :: rest))
    (hNodup : (entries.map Prod.fst).Nodup) :
    (entries.filter fun entry => entry.1 ≠ p).Perm rest := by
  have hCons :
      (((p, block) :: rest).map Prod.fst).Nodup :=
    (hPerm.map Prod.fst).nodup_iff.mp hNodup
  rw [List.map_cons, List.nodup_cons] at hCons
  refine (hPerm.filter _).trans ?_
  rw [List.filter_cons_of_neg (by simp),
    List.filter_eq_self.mpr]
  intro entry hEntry
  have hNe : entry.1 ≠ p := fun hEq =>
    hCons.1 (List.mem_map.mpr ⟨entry, hEntry, hEq⟩)
  simpa using hNe

------------------------------------------------------------
-- Carving
------------------------------------------------------------

theorem extent_carve
    (hLe : asize.bytes ≤ block.bytes) :
    extent (block.carve asize) = block.bytes := by
  have hBytes : block.size.bytes = block.bytes := rfl
  unfold Block.carve
  by_cases hLt : asize.bytes < block.size.bytes
  · simp [hLt]
    omega
  · simp [hLt]
    omega

theorem allocated_carve :
    allocated start (block.carve asize) =
      [(start, ⟨asize, true⟩)] := by
  unfold Block.carve
  by_cases hLt : asize.bytes < block.size.bytes <;> simp [hLt]

/- Carving a free block leaves no two free neighbours. -/
theorem coalesced_carve
    (hFree : block.allocated = false)
    (hCoalesced : Coalesced (front ++ block :: back)) :
    Coalesced (front ++ block.carve asize ++ back) := by
  unfold Coalesced at hCoalesced ⊢
  rw [List.isChain_append, List.isChain_cons]
    at hCoalesced
  rcases hCoalesced with ⟨hFront, ⟨hHead, hBack⟩, -⟩
  have hTail :
      (block.carve asize ++ back).IsChain
        (fun left right =>
          left.allocated = true ∨
            right.allocated = true) := by
    unfold Block.carve
    by_cases hLt : asize.bytes < block.size.bytes
    · simp only [hLt, ↓reduceDIte, List.cons_append,
        List.nil_append, List.isChain_cons_cons, true_or,
        true_and]
      exact hBack.cons fun next hNext => by
        simpa [hFree] using hHead next hNext
    · simp only [hLt, ↓reduceDIte, List.cons_append,
        List.nil_append]
      exact hBack.cons fun next hNext => Or.inl rfl
  rw [List.append_assoc]
  refine hFront.append hTail ?_
  intro left _ right hRight
  unfold Block.carve at hRight
  simp only [List.cons_append, List.head?_cons,
    Option.mem_some_iff] at hRight
  rw [← hRight]
  exact Or.inr rfl

------------------------------------------------------------
-- Coalescing
------------------------------------------------------------

@[simp] theorem joinLeft_nil :
    joinLeft [] blocks = blocks := rfl

theorem joinLeft_concat :
    joinLeft (front ++ [last]) (block :: back) =
      if last.allocated then
        front ++ last :: block :: back
      else
        front ++ last.join block :: back := by
  induction front with
  | nil => rfl
  | cons head front ih =>
      cases front with
      | nil =>
          simp only [List.nil_append, List.cons_append,
            joinLeft] at ih ⊢
          split <;> rfl
      | cons next front =>
          simp only [List.cons_append, joinLeft] at ih ⊢
          rw [ih]
          split <;> rfl

theorem joinRight_nil :
    joinRight block [] = [block] := rfl

theorem joinRight_cons {next : Block} :
    joinRight block (next :: back) =
      if next.allocated then
        block :: next :: back
      else
        block.join next :: back := rfl

/-
  A merged list starts with the merged block, which is free
  and covers at least the block it grew from.
-/
theorem joinRight_eq_cons
    (hFree : block.allocated = false) :
    ∃ merged rest,
      joinRight block back = merged :: rest ∧
        merged.allocated = false ∧
        block.bytes ≤ merged.bytes ∧
        merged.bytes + extent rest =
          block.bytes + extent back ∧
        (∀ start, allocated (start + merged.bytes) rest =
          allocated (start + block.bytes) back) ∧
        (Coalesced back →
          Coalesced rest ∧
            ∀ next ∈ rest.head?,
              next.allocated = true) := by
  cases back with
  | nil =>
      exact ⟨block, [], rfl, hFree, by omega, rfl,
        fun _ => rfl, fun h => ⟨h, by simp⟩⟩
  | cons next back =>
      rw [joinRight_cons]
      cases hNext : next.allocated with
      | true =>
          refine ⟨block, next :: back, rfl, hFree,
            by omega, rfl, fun _ => rfl, fun h => ⟨h, ?_⟩⟩
          simp [hNext]
      | false =>
          refine ⟨block.join next, back, rfl, rfl, by simp,
            ?_, ?_, ?_⟩
          · simp [extent]
            omega
          · intro start
            simp [hNext, Nat.add_assoc]
          · intro hCoalesced
            unfold Coalesced at hCoalesced ⊢
            rw [List.isChain_cons] at hCoalesced
            refine ⟨hCoalesced.2, fun other hOther => ?_⟩
            simpa [hNext] using hCoalesced.1 other hOther

theorem extent_coalesceAt
    (hFree : block.allocated = false) :
    extent (coalesceAt front block back) =
      extent front + block.bytes + extent back := by
  rcases @joinRight_eq_cons block back hFree with
    ⟨merged, rest, hEq, -, -, hExtent, -⟩
  rw [coalesceAt, hEq]
  rcases List.eq_nil_or_concat' front with
    rfl | ⟨front, last, rfl⟩
  · simp [extent] at hExtent ⊢
    omega
  · rw [joinLeft_concat]
    split <;> simp [extent] at hExtent ⊢ <;> omega

/- Coalescing does not move or resize an allocated block. -/
theorem allocated_coalesceAt
    (hFree : block.allocated = false) :
    allocated start (coalesceAt front block back) =
      allocated start (front ++ block :: back) := by
  rcases @joinRight_eq_cons block back hFree with
    ⟨merged, rest, hEq, hMerged, -, -, hAllocated, -⟩
  rw [coalesceAt, hEq]
  rcases List.eq_nil_or_concat' front with
    rfl | ⟨front, last, rfl⟩
  · simp [hMerged, hFree, hAllocated]
  · rw [joinLeft_concat]
    cases hLast : last.allocated with
    | true =>
        simp [hMerged, hFree, hLast, hAllocated]
    | false =>
        have hMoved :=
          hAllocated (start + (extent front + last.bytes))
        simp only [Nat.add_assoc] at hMoved
        simp [hFree, hLast, Nat.add_assoc, hMoved]

/- Coalescing restores the invariant on both sides. -/
theorem coalesced_coalesceAt
    (hFree : block.allocated = false)
    (hFront : Coalesced front)
    (hBack : Coalesced back) :
    Coalesced (coalesceAt front block back) := by
  rcases @joinRight_eq_cons block back hFree with
    ⟨merged, rest, hEq, hMerged, -, -, -, hRest⟩
  rcases hRest hBack with ⟨hRest, hNext⟩
  have hCons :
      ∀ head : Block, head.allocated = false →
        Coalesced (head :: rest) := by
    intro head _
    exact List.IsChain.cons hRest
      fun next hMem => Or.inr (hNext next hMem)
  rw [coalesceAt, hEq]
  rcases List.eq_nil_or_concat' front with
    rfl | ⟨front, last, rfl⟩
  · exact hCons merged hMerged
  · rw [joinLeft_concat]
    cases hLast : last.allocated with
    | true =>
        have hMiddle : Coalesced (front ++ [last]) := hFront
        have hJoined :
            Coalesced
              ((front ++ [last]) ++ merged :: rest) := by
          refine List.IsChain.append hMiddle
            (hCons merged hMerged) ?_
          intro left hLeft right _
          simp only [List.getLast?_append,
            List.getLast?_singleton, Option.some_or,
            Option.mem_some_iff] at hLeft
          rw [← hLeft]
          exact Or.inl hLast
        simpa using hJoined
    | false =>
        unfold Coalesced at hFront
        rw [List.isChain_append] at hFront
        refine List.IsChain.append hFront.1
          (hCons (last.join merged) rfl) ?_
        intro left hLeft right _
        have hPair := hFront.2.2 left hLeft last (by simp)
        simp only [hLast, Bool.false_eq_true, or_false]
          at hPair
        exact Or.inl hPair

------------------------------------------------------------
-- Extension
------------------------------------------------------------

@[simp] theorem keptFront_nil : keptFront [] = [] := rfl

@[simp] theorem keptFront_concat :
    keptFront (front ++ [last]) =
      if last.allocated then front ++ [last] else front := by
  simp [keptFront]

theorem extendBlocks_concat :
    extendBlocks size (front ++ [last]) =
      if last.allocated then
        (front ++ [last], ⟨size, false⟩)
      else
        (front, last.join ⟨size, false⟩) := by
  unfold extendBlocks
  cases hLast : last.allocated <;> simp [hLast]

theorem extendBlocks_front :
    (extendBlocks size blocks).1 = keptFront blocks := by
  unfold extendBlocks
  split
  · split <;> rfl
  · rfl

/- Extending is coalescing a new free block at the end. -/
theorem extendBlocks_eq_coalesceAt :
    (extendBlocks size blocks).1 ++
        [(extendBlocks size blocks).2] =
      coalesceAt blocks ⟨size, false⟩ [] := by
  unfold coalesceAt
  rw [joinRight_nil]
  rcases List.eq_nil_or_concat' blocks with
    rfl | ⟨front, last, rfl⟩
  · rfl
  · rw [joinLeft_concat, extendBlocks_concat]
    split <;> simp

/- The last block after an extension is free and large. -/
theorem extendBlocks_tail :
    (extendBlocks size blocks).2.allocated = false ∧
      size.bytes ≤ (extendBlocks size blocks).2.bytes := by
  unfold extendBlocks
  split
  · split <;> simp
  · simp

------------------------------------------------------------
-- The Three Ways To Serve A Request
------------------------------------------------------------

theorem allocate_fit
    (hSplit :
      Tiling.firstSplit
          (fits (BlockSize.ofRequest request)) blocks =
        some (front, block, back)) :
    allocate blocks request =
      (front ++ block.carve (BlockSize.ofRequest request) ++
          back,
        some (extent front)) := by
  simp only [allocate, hSplit]

theorem allocate_refused
    (hSplit :
      Tiling.firstSplit
          (fits (BlockSize.ofRequest request)) blocks =
        none)
    (hRefused : Refused blocks (extension request)) :
    allocate blocks request = (blocks, none) := by
  simp only [allocate, hSplit, hRefused, ↓reduceIte]

theorem allocate_extend
    (hSplit :
      Tiling.firstSplit
          (fits (BlockSize.ofRequest request)) blocks =
        none)
    (hAllowed : ¬ Refused blocks (extension request)) :
    allocate blocks request =
      ((extendBlocks (extension request) blocks).1 ++
          (extendBlocks (extension request) blocks).2.carve
            (BlockSize.ofRequest request),
        some
          (extent
            (extendBlocks (extension request)
              blocks).1)) := by
  simp only [allocate, hSplit, hAllowed, ↓reduceIte]

------------------------------------------------------------
-- Whole Operations
------------------------------------------------------------

theorem allocate_none
    (hNone : (allocate blocks request).2 = none) :
    (allocate blocks request).1 = blocks := by
  cases hSplit :
      Tiling.firstSplit
        (fits (BlockSize.ofRequest request)) blocks with
  | some split =>
      rcases split with ⟨front, block, back⟩
      rw [allocate_fit hSplit] at hNone
      cases hNone
  | none =>
      by_cases hRefused : Refused blocks (extension request)
      · rw [allocate_refused hSplit hRefused]
      · rw [allocate_extend hSplit hRefused] at hNone
        cases hNone

/- Allocation adds one allocated block and moves none. -/
theorem allocated_allocate
    {offset : Nat}
    (hSome : (allocate blocks request).2 = some offset) :
    (allocated start (allocate blocks request).1).Perm
      ((start + offset,
          ⟨BlockSize.ofRequest request, true⟩) ::
        allocated start blocks) := by
  cases hSplit :
      Tiling.firstSplit
        (fits (BlockSize.ofRequest request)) blocks with
  | some split =>
      rcases split with ⟨front, block, back⟩
      rw [allocate_fit hSplit] at hSome ⊢
      cases hSome
      rcases Tiling.firstSplit_eq_some_iff.mp hSplit with
        ⟨rfl, hFits, -⟩
      simp only [fits, Bool.and_eq_true, Bool.not_eq_true',
        decide_eq_true_eq] at hFits
      simp only [allocated_append, allocated_carve,
        allocated_cons, hFits.1, extent_carve hFits.2,
        Nat.add_assoc, List.append_assoc,
        Bool.false_eq_true, ↓reduceIte,
        List.singleton_append]
      exact List.perm_middle
  | none =>
      by_cases hRefused : Refused blocks (extension request)
      · rw [allocate_refused hSplit hRefused] at hSome
        cases hSome
      · rw [allocate_extend hSplit hRefused] at hSome ⊢
        cases hSome
        have hOld :
            allocated start
                ((extendBlocks (extension request) blocks).1
                  ++ [(extendBlocks (extension request)
                    blocks).2]) =
              allocated start blocks := by
          rw [extendBlocks_eq_coalesceAt,
            allocated_coalesceAt rfl]
          simp
        simp only [allocated_append, allocated_cons,
          extendBlocks_tail.1, allocated_nil,
          Bool.false_eq_true, ↓reduceIte, List.append_nil]
          at hOld
        rw [allocated_append, allocated_carve, ← hOld]
        exact List.perm_append_singleton _ _

/- The new block's address was in no allocated block. -/
theorem allocate_fresh
    {offset p : Nat}
    (hSome : (allocate blocks request).2 = some offset)
    (hMember : (p, block) ∈ allocated start blocks) :
    p ≠ start + offset := by
  have hNodup :=
    ((@allocated_allocate start _ _ _ hSome).map
      Prod.fst).nodup_iff.mp nodup_allocated
  rw [List.map_cons, List.nodup_cons] at hNodup
  intro hEq
  exact hNodup.1 (List.mem_map.mpr ⟨_, hMember, hEq⟩)

theorem coalesced_allocate
    (hCoalesced : Coalesced blocks) :
    Coalesced (allocate blocks request).1 := by
  cases hSplit :
      Tiling.firstSplit
        (fits (BlockSize.ofRequest request)) blocks with
  | some split =>
      rcases split with ⟨front, block, back⟩
      rw [allocate_fit hSplit]
      rcases Tiling.firstSplit_eq_some_iff.mp hSplit with
        ⟨rfl, hFits, -⟩
      simp only [fits, Bool.and_eq_true, Bool.not_eq_true',
        decide_eq_true_eq] at hFits
      exact coalesced_carve hFits.1 hCoalesced
  | none =>
      by_cases hRefused : Refused blocks (extension request)
      · rw [allocate_refused hSplit hRefused]
        exact hCoalesced
      · rw [allocate_extend hSplit hRefused]
        have hEmpty : Coalesced [] := List.isChain_nil
        have hExtended :
            Coalesced
              ((extendBlocks (extension request) blocks).1 ++
                [(extendBlocks (extension request)
                  blocks).2]) := by
          rw [extendBlocks_eq_coalesceAt]
          exact coalesced_coalesceAt rfl hCoalesced hEmpty
        simpa using
          coalesced_carve extendBlocks_tail.1 hExtended

theorem allocate_ne_nil
    (hBlocks : blocks ≠ []) :
    (allocate blocks request).1 ≠ [] := by
  cases hOffset : (allocate blocks request).2 with
  | none =>
      rw [allocate_none hOffset]
      exact hBlocks
  | some offset =>
      intro hNil
      have hPerm := @allocated_allocate 0 _ _ _ hOffset
      rw [hNil, allocated_nil] at hPerm
      exact List.cons_ne_nil _ _ hPerm.nil_eq.symm

/- Release names its block by the bytes in front of it. -/
theorem release_eq :
    release (front ++ block :: back) (extent front) =
      coalesceAt front block.freed back := by
  have hLocate :
      Tiling.locate Block.bytes (extent front)
          (front ++ block :: back) =
        some (front, block, back) :=
    (Tiling.locate_eq_some_iff Block.bytes_pos).mpr
      ⟨rfl, rfl⟩
  unfold release
  rw [hLocate]

/- Release takes away one allocated block and moves none. -/
theorem allocated_release
    (hAllocated : block.allocated = true) :
    (allocated start (front ++ block :: back)).Perm
      ((start + extent front, block) ::
        allocated start
          (release (front ++ block :: back)
            (extent front))) := by
  rw [release_eq, allocated_coalesceAt rfl]
  simp only [allocated_append, allocated_cons, hAllocated,
    Block.allocated_freed, Block.bytes_freed,
    Bool.false_eq_true, ↓reduceIte]
  exact List.perm_middle

/- The same, for a block known by its address. -/
theorem allocated_release_of_mem
    {offset : Nat}
    (hMember :
      (start + offset, block) ∈ allocated start blocks) :
    (allocated start blocks).Perm
      ((start + offset, block) ::
        allocated start (release blocks offset)) := by
  rcases mem_allocated_iff.mp hMember with
    ⟨hPlaced, hAllocated⟩
  rcases Tiling.mem_placed_iff.mp hPlaced with
    ⟨front, back, rfl, hOffset⟩
  have hExtent : offset = extent front := by
    unfold extent
    omega
  rw [hExtent]
  exact allocated_release hAllocated

/- Moving a block replaces its entry by the new one. -/
theorem allocated_move
    {offset target : Nat}
    (hSome : (allocate blocks request).2 = some target)
    (hMember :
      (start + offset, block) ∈ allocated start blocks) :
    (allocated start
        (release (allocate blocks request).1 offset)).Perm
      ((start + target,
          ⟨BlockSize.ofRequest request, true⟩) ::
        allocated start (release blocks offset)) := by
  have hNew := @allocated_allocate start _ _ _ hSome
  have hStays := hNew.mem_iff.mpr
    (List.mem_cons_of_mem _ hMember)
  have hBoth :=
    (allocated_release_of_mem hStays).symm.trans
      (hNew.trans
        ((allocated_release_of_mem hMember).cons _))
  exact (hBoth.trans (List.Perm.swap _ _ _)).cons_inv

/- What is allocated beside a block stays without it. -/
theorem mem_allocated_freed_iff
    {entry : Nat × Block}
    (hAllocated : block.allocated = true) :
    entry ∈ allocated start (front ++ block.freed :: back) ↔
      entry ∈ allocated start (front ++ block :: back) ∧
        entry.1 ≠ start + extent front := by
  have hPerm :=
    @allocated_release start _ front back hAllocated
  rw [release_eq, allocated_coalesceAt rfl] at hPerm
  have hFilter :=
    filter_perm_of_perm_cons hPerm nodup_allocated
  rw [← hFilter.mem_iff, List.mem_filter]
  simp

theorem coalesced_release
    {offset : Nat}
    (hCoalesced : Coalesced blocks) :
    Coalesced (release blocks offset) := by
  unfold release
  cases hLocate : Tiling.locate Block.bytes offset blocks with
  | none => exact hCoalesced
  | some split =>
      rcases split with ⟨front, block, back⟩
      rcases (Tiling.locate_eq_some_iff Block.bytes_pos).mp
          hLocate with
        ⟨rfl, -⟩
      unfold Coalesced at hCoalesced
      rw [List.isChain_append, List.isChain_cons]
        at hCoalesced
      exact coalesced_coalesceAt rfl hCoalesced.1
        hCoalesced.2.1.2

theorem release_ne_nil
    {offset : Nat}
    (hBlocks : blocks ≠ []) :
    release blocks offset ≠ [] := by
  unfold release
  cases hLocate : Tiling.locate Block.bytes offset blocks with
  | none => exact hBlocks
  | some split =>
      rcases split with ⟨front, block, back⟩
      intro hNil
      have hExtent :
          extent (coalesceAt front block.freed back) =
            extent front + block.freed.bytes +
              extent back :=
        extent_coalesceAt rfl
      have hBytes := block.freed.bytes_pos
      rw [show coalesceAt front block.freed back = []
        from hNil] at hExtent
      simp only [extent, Tiling.extent_nil] at hExtent
      omega

/- A coalesced heap without allocated blocks is one block. -/
theorem length_le_one_of_allocated_eq_nil
    (hCoalesced : Coalesced blocks)
    (hNone : allocated start blocks = []) :
    blocks.length ≤ 1 := by
  cases blocks with
  | nil => simp
  | cons first rest =>
      cases rest with
      | nil => simp
      | cons second rest =>
          unfold Coalesced at hCoalesced
          rw [List.isChain_cons_cons] at hCoalesced
          rcases hCoalesced.1 with hFirst | hSecond
          · simp [hFirst] at hNone
          · cases hFirst : first.allocated <;>
              simp [hFirst, hSecond] at hNone

end Malloc

end CsappLabs
