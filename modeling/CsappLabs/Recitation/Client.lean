import CsappLabs.Lib.Transition
import CsappLabs.Recitation.Realloc

/-
  Clients of the recitation allocator.

  A client calls the package with sizes whose arithmetic does
  not wrap, frees and reallocates what it holds, and writes
  into the payloads it holds.  Both versions of the file keep
  the blocks of the heap in step with the live payloads,
  mm.c as long as split_block finds the footer it wants.

  Key definitions:
    * `World`, `Call`, `Step`
    * `Consistent`

  Key theorems:
    * `Step.consistent`
    * `Fresh.consistent`
-/

------------------------------------------------------------
-- Worlds
------------------------------------------------------------

namespace CsappLabs

namespace Recitation

/- The allocator's heap and the payloads its client holds. -/
structure World where
  heap : Heap
  live : List Nat

/- The world that mm_init leaves. -/
def World.ofInit
    (version : Version)
    (heap : Heap) :
    World where
  heap := (mmInit version heap).1
  live := []

inductive Call where
  | malloc (size : Nat)
  | free (bp : Nat)
  | realloc (ptr size : Nat)
  | calloc (elements size : Nat)
  | write (ptr offset : Nat) (byte : UInt8)

namespace Call

/- The bytes a call asks malloc for. -/
def request : Call → Nat
  | malloc size => size
  | free _ => 0
  | realloc _ size => size
  | calloc elements size => elements * size
  | write _ _ _ => 0

/- No size computed for the call wraps. -/
def Unwrapped
    (call : Call) :
    Prop :=
  call.request + 31 < 2 ^ 64

/- What split_block of mm.c needs of the heap. -/
def Splits
    (heap : Heap)
    (call : Call) :
    Prop :=
  call.request ≠ 0 → Recitation.Splits heap call.request

end Call

/- The live payloads other than `bp`. -/
def without
    (live : List Nat)
    (bp : Nat) :
    List Nat :=
  live.filter fun other => other ≠ bp

/- The live payloads with the one a call returned. -/
def gain
    (ptr : Nat)
    (live : List Nat) :
    List Nat :=
  if ptr = null then
    live
  else
    ptr :: live

/-
  One step of a client, labelled with the call and the value
  it returns.
-/
inductive Step
    (version : Version) :
    World → Call × Nat → World → Prop where
  | malloc
      {world : World}
      {size ptr : Nat}
      {heap : Heap} :
      (Call.malloc size).Unwrapped →
      Recitation.malloc version world.heap size =
        some (heap, ptr) →
      Step version world (.malloc size, ptr)
        ⟨heap, gain ptr world.live⟩
  | free
      {world : World}
      {bp : Nat} :
      bp = null ∨ bp ∈ world.live →
      Step version world (.free bp, null)
        ⟨Recitation.free version world.heap bp,
          without world.live bp⟩
  | realloc
      {world : World}
      {ptr size newptr : Nat}
      {heap : Heap} :
      ptr = null ∨ ptr ∈ world.live →
      (Call.realloc ptr size).Unwrapped →
      Recitation.realloc version world.heap ptr size =
        some (heap, newptr) →
      Step version world (.realloc ptr size, newptr)
        ⟨heap,
          if size ≠ 0 ∧ newptr = null then
            world.live
          else
            gain newptr (without world.live ptr)⟩
  | calloc
      {world : World}
      {elements size ptr : Nat}
      {heap : Heap} :
      (Call.calloc elements size).Unwrapped →
      Recitation.calloc version world.heap elements size =
        some (heap, ptr) →
      Step version world (.calloc elements size, ptr)
        ⟨heap, gain ptr world.live⟩
  | write
      {world : World}
      {ptr offset : Nat}
      {byte : UInt8} :
      ptr ∈ world.live →
      offset <
        getPayloadSize world.heap (payloadToHeader ptr) →
      Step version world (.write ptr offset byte, null)
        { world with
          heap :=
            store world.heap (ptr + offset) 1 byte.toNat }

------------------------------------------------------------
-- The Invariant
------------------------------------------------------------

/- Every payload has a header in front of it. -/
def Holds
    (live : List Nat)
    (entries : List (Nat × Block)) :
    Prop :=
  ∀ ptr,
    ptr ∈ live ↔
      ∃ p block, ptr = p + 8 ∧ (p, block) ∈ entries

/- The allocated blocks are the live payloads. -/
structure Consistent
    (world : World)
    (blocks : List Block) :
    Prop where
  heap : Represents world.heap blocks
  live :
    Holds world.live (allocated world.heap.first blocks)

section Live

variable {live : List Nat}
variable {entries entries' : List (Nat × Block)}
variable {p : Nat} {block : Block}

theorem mem_gain
    {ptr other : Nat} :
    other ∈ gain ptr live ↔
      (ptr ≠ null ∧ other = ptr) ∨ other ∈ live := by
  unfold gain
  split_ifs with hNull
  · simp [hNull]
  · simp [hNull]

theorem Holds.gain
    (hHolds : Holds live entries)
    (hEntries :
      ∀ entry,
        entry ∈ entries' ↔
          entry = (p, block) ∨ entry ∈ entries) :
    Holds (Recitation.gain (p + 8) live) entries' := by
  intro ptr
  have hNonnull := payload_ne_null p
  rw [mem_gain, hHolds ptr]
  constructor
  · rintro (⟨_, rfl⟩ | ⟨q, other, rfl, hMember⟩)
    · exact ⟨p, block, rfl, (hEntries _).mpr (.inl rfl)⟩
    · exact ⟨q, other, rfl,
        (hEntries _).mpr (.inr hMember)⟩
  · rintro ⟨q, other, rfl, hMember⟩
    rcases (hEntries _).mp hMember with hNew | hOld
    · cases hNew
      exact .inl ⟨hNonnull, rfl⟩
    · exact .inr ⟨q, other, rfl, hOld⟩

theorem Holds.without
    (hHolds : Holds live entries)
    (hEntries :
      ∀ entry,
        entry ∈ entries' ↔ entry ∈ entries ∧ entry.1 ≠ p) :
    Holds (Recitation.without live (p + 8)) entries' := by
  intro ptr
  rw [Recitation.without, List.mem_filter, hHolds ptr,
    decide_eq_true_iff]
  constructor
  · rintro ⟨⟨q, other, rfl, hMember⟩, hNe⟩
    exact ⟨q, other, rfl,
      (hEntries _).mpr ⟨hMember, fun hEq => hNe (by
        change q = p at hEq
        rw [hEq])⟩⟩
  · rintro ⟨q, other, rfl, hMember⟩
    rcases (hEntries _).mp hMember with ⟨hOld, hNe⟩
    refine ⟨⟨q, other, rfl, hOld⟩, fun hEq => hNe ?_⟩
    change q = p
    omega

theorem Holds.without_null
    (hHolds : Holds live entries) :
    Recitation.without live null = live := by
  rw [Recitation.without, List.filter_eq_self]
  intro ptr hMember
  rcases (hHolds ptr).mp hMember with ⟨q, other, rfl, _⟩
  rw [decide_eq_true_iff]
  exact payload_ne_null q

end Live

section Steps

variable {version : Version}
variable {world : World}
variable {heap : Heap}
variable {blocks : List Block}

theorem Consistent.reshaped
    (hWorld : Consistent world blocks)
    {blocks' : List Block}
    (hReshapes :
      Reshapes world.heap heap blocks blocks') :
    Consistent ⟨heap, world.live⟩ blocks' where
  heap := hReshapes.represents
  live := by
    have hFirst := hReshapes.keeps.first
    change Holds world.live (allocated heap.first blocks')
    rw [hFirst, hReshapes.allocated]
    exact hWorld.live

/- The block behind a live payload. -/
theorem Consistent.block_of_live
    (hWorld : Consistent world blocks)
    {bp : Nat}
    (hLive : bp ∈ world.live) :
    ∃ front block back,
      blocks = front ++ block :: back ∧
        block.allocated = true ∧
          bp = world.heap.first + extent front + 8 := by
  rcases (hWorld.live bp).mp hLive with ⟨p, block, rfl, hMember⟩
  rcases mem_allocated.mp hMember with ⟨hPlaced, hAlloc⟩
  rcases placed_split hPlaced with ⟨front, back, hSplit, rfl⟩
  exact ⟨front, block, back, hSplit, hAlloc, rfl⟩

/- The invariant after a call that allots a payload. -/
theorem Consistent.allotted
    (hWorld : Consistent world blocks)
    {blocks' : List Block}
    {p : Nat}
    {block : Block}
    (hHeap : Represents heap blocks')
    (hFirst : heap.first = world.heap.first)
    (hAllocated :
      ∀ entry,
        entry ∈ allocated world.heap.first blocks' ↔
          entry = (p, block) ∨
            entry ∈ allocated world.heap.first blocks) :
    Consistent ⟨heap, gain (p + 8) world.live⟩ blocks' where
  heap := hHeap
  live := by
    change Holds (gain (p + 8) world.live)
      (allocated heap.first blocks')
    rw [hFirst]
    exact hWorld.live.gain hAllocated

/- The invariant after a call that releases a payload. -/
theorem Consistent.released
    (hWorld : Consistent world blocks)
    {blocks' : List Block}
    {p : Nat}
    (hReleased :
      Released world.heap heap blocks blocks' p) :
    Consistent ⟨heap, without world.live (p + 8)⟩
      blocks' where
  heap := hReleased.represents
  live := by
    have hFirst : heap.first = world.heap.first := by
      rw [Heap.first, Heap.first, hReleased.heapLo]
    change Holds (without world.live (p + 8))
      (allocated heap.first blocks')
    rw [hFirst]
    exact hWorld.live.without hReleased.allocated

theorem Consistent.malloc
    (hWorld : Consistent world blocks)
    {size ptr : Nat}
    (hBound : size + 31 < 2 ^ 64)
    (hSplits :
      version = .mm → size ≠ 0 →
        Recitation.Splits world.heap size)
    (hMalloc :
      Recitation.malloc version world.heap size =
        some (heap, ptr)) :
    ∃ blocks',
      Consistent ⟨heap, gain ptr world.live⟩ blocks' := by
  rcases hWorld.heap.malloc_spec hBound hSplits with
    ⟨heap', ptr', hCode, _, hResult⟩
  rw [hCode] at hMalloc
  cases hMalloc
  rcases hResult with ⟨rfl, hReshapes⟩ |
    ⟨p, block, blocks', rfl, _, hAllotted⟩
  · exact ⟨blocks, hWorld.reshaped hReshapes⟩
  · exact ⟨blocks',
      hWorld.allotted hAllotted.represents
        hAllotted.keeps.first hAllotted.allocated⟩

theorem Consistent.free
    (hWorld : Consistent world blocks)
    {bp : Nat}
    (hLive : bp = null ∨ bp ∈ world.live) :
    ∃ blocks',
      Consistent
        ⟨Recitation.free version world.heap bp,
          without world.live bp⟩ blocks' := by
  rcases hLive with rfl | hLive
  · refine ⟨blocks, hWorld.heap, ?_⟩
    change Holds (without world.live null) _
    rw [hWorld.live.without_null]
    exact hWorld.live
  · rcases hWorld.block_of_live hLive with
      ⟨front, block, back, rfl, _, rfl⟩
    rcases hWorld.heap.free_spec version with
      ⟨blocks', hReleased, _⟩
    exact ⟨blocks', hWorld.released hReleased⟩

theorem Consistent.realloc
    (hWorld : Consistent world blocks)
    {ptr size newptr : Nat}
    (hLive : ptr = null ∨ ptr ∈ world.live)
    (hBound : size + 31 < 2 ^ 64)
    (hSplits :
      version = .mm → size ≠ 0 →
        Recitation.Splits world.heap size)
    (hRealloc :
      Recitation.realloc version world.heap ptr size =
        some (heap, newptr)) :
    ∃ blocks',
      Consistent
        ⟨heap,
          if size ≠ 0 ∧ newptr = null then
            world.live
          else
            gain newptr (without world.live ptr)⟩
        blocks' := by
  by_cases hSize : size = 0
  · have hCode :
        Recitation.realloc version world.heap ptr size =
          some (Recitation.free version world.heap ptr,
            null) := by
      unfold Recitation.realloc
      simp only [if_pos hSize]
    rw [hCode] at hRealloc
    cases hRealloc
    rw [if_neg (fun hBoth => hBoth.1 hSize)]
    exact hWorld.free hLive
  · have hLiveAfter :
        (if size ≠ 0 ∧ newptr = null then world.live
          else gain newptr (without world.live ptr)) =
          if newptr = null then world.live
          else newptr :: without world.live ptr := by
      unfold gain
      by_cases hNull : newptr = null
      · rw [if_pos ⟨hSize, hNull⟩, if_pos hNull]
      · rw [if_neg (fun hBoth => hNull hBoth.2),
          if_neg hNull, if_neg hNull]
    rw [hLiveAfter]
    rcases hLive with rfl | hLive
    · have hCode :
          Recitation.realloc version world.heap null size =
            Recitation.malloc version world.heap size := by
        unfold Recitation.realloc
        simp only [if_neg hSize, if_true]
      rw [hCode] at hRealloc
      rw [hWorld.live.without_null]
      exact hWorld.malloc hBound hSplits hRealloc
    · rcases (hWorld.live ptr).mp hLive with
        ⟨p, block, rfl, hMember⟩
      rcases
          hWorld.heap.realloc_spec hMember hSize hBound
            (fun hVersion => hSplits hVersion hSize) with
        ⟨heap', _, hResult⟩
      rcases hResult with ⟨hCode, _, hReshapes⟩ |
        ⟨heap'', q, new, blocks', hCode, _, hMoved⟩
      · rw [hCode] at hRealloc
        cases hRealloc
        exact ⟨blocks, hWorld.reshaped hReshapes⟩
      · rw [hCode] at hRealloc
        cases hRealloc
        have hNonnull := payload_ne_null q
        have hMiddle :
            Consistent
              ⟨heap'', gain (q + 8) world.live⟩
              blocks' :=
          hWorld.allotted hMoved.represents hMoved.first
            hMoved.allotted.allocated
        have hStill : p + 8 ∈ gain (q + 8) world.live :=
          mem_gain.mpr (.inr hLive)
        rcases
            @Consistent.free version _ blocks' hMiddle
              (p + 8) (.inr hStill) with
          ⟨after, hAfter⟩
        have hApart : q + 8 ≠ p + 8 := by
          intro hEq
          have hSame : q = p := by
            omega
          rw [hSame] at hMoved
          exact hMoved.allotted.fresh block hMember
        have hList :
            without (gain (q + 8) world.live) (p + 8) =
              (q + 8) :: without world.live (p + 8) := by
          rw [gain, if_neg hNonnull, without,
            List.filter_cons_of_pos (by simpa using hApart)]
          rfl
        rw [hList] at hAfter
        rw [if_neg hNonnull]
        exact ⟨after, hAfter⟩

theorem Consistent.calloc
    (hWorld : Consistent world blocks)
    {elements size ptr : Nat}
    (hBound : elements * size + 31 < 2 ^ 64)
    (hSplits :
      version = .mm → elements * size ≠ 0 →
        Recitation.Splits world.heap (elements * size))
    (hCalloc :
      Recitation.calloc version world.heap elements size =
        some (heap, ptr)) :
    ∃ blocks',
      Consistent ⟨heap, gain ptr world.live⟩ blocks' := by
  have hElements : elements ≠ 0 := by
    intro hZero
    unfold Recitation.calloc at hCalloc
    simp only [if_pos hZero] at hCalloc
    cases hCalloc
  rcases hWorld.heap.calloc_spec hElements hBound hSplits with
    ⟨heap', ptr', hCode, _, hResult⟩
  rw [hCode] at hCalloc
  cases hCalloc
  rcases hResult with ⟨rfl, hReshapes⟩ |
    ⟨p, block, blocks', rfl, hAfter, hKeeps, _, hAllocated⟩
  · exact ⟨blocks, hWorld.reshaped hReshapes⟩
  · exact ⟨blocks',
      hWorld.allotted hAfter hKeeps.first hAllocated⟩

theorem Consistent.write
    (hWorld : Consistent world blocks)
    {ptr offset : Nat}
    (hLive : ptr ∈ world.live)
    (hOffset :
      offset <
        getPayloadSize world.heap (payloadToHeader ptr))
    (value : Nat) :
    Consistent
      { world with
        heap := store world.heap (ptr + offset) 1 value }
      blocks := by
  rcases (hWorld.live ptr).mp hLive with ⟨p, block, rfl, hMember⟩
  have hPlaced := (mem_allocated.mp hMember).1
  rcases hWorld.heap.payload_eq hPlaced with ⟨hHeader, hPayload⟩
  rw [hHeader, hPayload] at hOffset
  have hFilled :=
    hWorld.heap.filled hPlaced
      (store_fills world.heap (p + 8 + offset) 1 value)
      (by omega) (by omega)
  exact ⟨hFilled.1, hWorld.live⟩

/- Every step keeps blocks and live payloads together. -/
theorem Step.consistent
    {label : Call × Nat}
    {world' : World}
    (hStep : Step version world label world')
    (hSplits :
      version = .mm → label.1.Splits world.heap)
    (hWorld : Consistent world blocks) :
    ∃ blocks', Consistent world' blocks' := by
  cases hStep with
  | malloc hUnwrapped hMalloc =>
      exact hWorld.malloc hUnwrapped hSplits hMalloc
  | free hLive => exact hWorld.free hLive
  | realloc hLive hUnwrapped hRealloc =>
      exact hWorld.realloc hLive hUnwrapped hSplits
        hRealloc
  | calloc hUnwrapped hCalloc =>
      exact hWorld.calloc hUnwrapped hSplits hCalloc
  | write hLive hOffset =>
      exact ⟨blocks, hWorld.write hLive hOffset _⟩

end Steps

/- mm_init leaves no payload live. -/
theorem Fresh.consistent
    {version : Version}
    {heap : Heap}
    (hFresh : Fresh heap)
    (hInit : (mmInit version heap).2 = true) :
    ∃ blocks,
      Consistent (World.ofInit version heap) blocks := by
  rcases hFresh.mmInit_spec version hInit with
    ⟨blocks, hHeap, hNone⟩
  refine ⟨blocks, hHeap, ?_⟩
  intro ptr
  change ptr ∈ ([] : List Nat) ↔
    ∃ p block, ptr = p + 8 ∧
      (p, block) ∈
        allocated (mmInit version heap).1.first blocks
  rw [hNone]
  simp

end Recitation

end CsappLabs
