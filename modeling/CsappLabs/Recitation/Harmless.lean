import CsappLabs.Recitation.Frame
import CsappLabs.Recitation.Tiled

/-
  Which calls of mm-2.c are harmless.

  A call is harmless when it stores nothing at or beyond the
  break, and each malloc and each free that it makes leaves
  every other live payload as it was.  In every state that a
  client reaches from mm_init this is decided by the state
  before the call.

  Key definitions:
    * `Call.Harmless`
    * `Call.Spares`

  Key theorems:
    * `harmless_iff_spares`
    * `first_free_writes_at_break`
-/

------------------------------------------------------------
-- Harmless Calls
------------------------------------------------------------

namespace CsappLabs

namespace Recitation

/- The payloads other than `bp` hold the same bytes. -/
def PayloadsKept
    (world : World)
    (bp : Nat)
    (heap : Heap) :
    Prop :=
  ∀ ptr ∈ world.live,
    ptr ≠ bp →
      heap.mem.SameOn world.heap.mem ptr
        (ptr +
          getPayloadSize world.heap (payloadToHeader ptr))

/- The heap inside realloc, right before its free. -/
def copied
    (heap : Heap)
    (newptr ptr size : Nat) :
    Heap :=
  memcpy heap newptr ptr
    (copySize heap (payloadToHeader ptr) size)

/-
  realloc's malloc spares every live payload, and its free
  spares those and the new one, which holds the copy.
-/
def MoveKeeps
    (world : World)
    (heap : Heap)
    (ptr size : Nat) :
    Prop :=
  ∀ heap' newptr,
    malloc .mm2 world.heap size = some (heap', newptr) →
      PayloadsKept world null heap' ∧
        (newptr ≠ null →
          PayloadsKept
            ⟨copied heap' newptr ptr size,
              gain newptr world.live⟩
            ptr heap)

namespace Call

/- `heap` is the heap after the call. -/
def Harmless
    (world : World)
    (heap : Heap) :
    Call → Prop
  | malloc _ =>
      PayloadsKept world null heap ∧ heap.overrun = false
  | free bp =>
      PayloadsKept world bp heap ∧ heap.overrun = false
  | realloc ptr size =>
      (if size = 0 ∨ ptr = null then
          PayloadsKept world ptr heap
        else
          MoveKeeps world heap ptr size) ∧
        heap.overrun = false
  | calloc _ _ =>
      PayloadsKept world null heap ∧ heap.overrun = false
  | write _ _ _ => heap.overrun = false

end Call

/- The request does not extend a heap whose end is taken. -/
def MallocSpares
    (heap : Heap)
    (size : Nat) :
    Prop :=
  size ≠ 0 → ¬ Overextends heap (adjusted size)

def FreeSpares
    (heap : Heap)
    (bp : Nat) :
    Prop :=
  bp ≠ null →
    CaseOne heap (payloadToHeader bp) →
      ¬ IsLast heap (payloadToHeader bp) ∧
        Stamped heap (payloadToHeader bp)

def ReallocSpares
    (heap : Heap)
    (ptr size : Nat) :
    Prop :=
  if size = 0 then
    FreeSpares heap ptr
  else
    MallocSpares heap size ∧
      (ptr ≠ null →
        MoveSpares heap (payloadToHeader ptr) size)

namespace Call

/- The condition on the heap before the call. -/
def Spares
    (heap : Heap) :
    Call → Prop
  | malloc size => MallocSpares heap size
  | free bp => FreeSpares heap bp
  | realloc ptr size => ReallocSpares heap ptr size
  | calloc elements size =>
      MallocSpares heap (elements * size)
  | write _ _ _ => True

end Call

/- The world, with no store at the break on record. -/
def World.cleared
    (world : World) :
    World :=
  { world with
    heap := { world.heap with overrun := false } }

theorem Consistent.cleared
    {world : World}
    {blocks : List Block}
    (hWorld : Consistent world blocks) :
    Consistent world.cleared blocks where
  heap :=
    hWorld.heap.of_words rfl rfl rfl rfl rfl
      (fun _ _ _ hTagged => hTagged) rfl
  live := hWorld.live

------------------------------------------------------------
-- One Call
------------------------------------------------------------

section Calls

variable {world : World}
variable {heap : Heap}
variable {blocks : List Block}

/- Live payloads and allocated blocks keep their bytes alike. -/
theorem Consistent.payloadsKept_iff
    (hWorld : Consistent world blocks)
    (p : Nat) :
    PayloadsKept world (p + 8) heap ↔
      OthersKept world.heap heap blocks p := by
  constructor
  · intro hKept q other hMember hNe
    have hLive : q + 8 ∈ world.live :=
      (hWorld.live _).mpr ⟨q, other, rfl, hMember⟩
    have hPlaced := (mem_allocated.mp hMember).1
    rcases hWorld.heap.payload_eq hPlaced with
      ⟨hHeader, hPayload⟩
    have hLeast := other.bytes_least
    have hBytes := hKept _ hLive (by omega)
    rw [hHeader, hPayload] at hBytes
    exact hBytes.mono (by omega) (by omega)
  · intro hKept ptr hLive hNe
    rcases (hWorld.live ptr).mp hLive with
      ⟨q, other, rfl, hMember⟩
    have hPlaced := (mem_allocated.mp hMember).1
    rcases hWorld.heap.payload_eq hPlaced with
      ⟨hHeader, hPayload⟩
    have hLeast := other.bytes_least
    rw [hHeader, hPayload]
    exact (hKept q other hMember (by omega)).mono
      (Nat.le_refl _) (by omega)

theorem Consistent.payloadsKept
    (hWorld : Consistent world blocks)
    (hKeeps : Keeps world.heap heap blocks)
    (bp : Nat) :
    PayloadsKept world bp heap := by
  intro ptr hLive _
  rcases (hWorld.live ptr).mp hLive with ⟨q, other, rfl, hMember⟩
  have hPlaced := (mem_allocated.mp hMember).1
  rcases hWorld.heap.payload_eq hPlaced with ⟨hHeader, hPayload⟩
  have hLeast := other.bytes_least
  rw [hHeader, hPayload]
  exact (hKeeps.bytes q other hMember).mono
    (by omega) (by omega)

/- What the record says after an inner malloc. -/
theorem overrun_eq_false_iff
    {size : Nat}
    (hClear : world.heap.overrun = false)
    (hOverrun :
      heap.overrun =
        (world.heap.overrun ||
          decide (Version.mm2 = .mm2 ∧ size ≠ 0 ∧
            Overextends world.heap (adjusted size)))) :
    heap.overrun = false ↔
      MallocSpares world.heap size := by
  rw [hOverrun, hClear]
  simp [MallocSpares]

theorem Consistent.malloc_harmless_iff
    {size ptr : Nat}
    (hWorld : Consistent world blocks)
    (hClear : world.heap.overrun = false)
    (hBound : size + 31 < 2 ^ 64)
    (hMalloc :
      Recitation.malloc .mm2 world.heap size =
        some (heap, ptr)) :
    (PayloadsKept world null heap ∧
        heap.overrun = false) ↔
      MallocSpares world.heap size := by
  rcases
      @Represents.malloc_spec .mm2 world.heap blocks size
        hWorld.heap hBound
        (fun hVersion => by cases hVersion) with
    ⟨heap', ptr', hCode, hOverrun, hResult⟩
  rw [hCode] at hMalloc
  cases hMalloc
  have hKeeps : Keeps world.heap heap blocks := by
    rcases hResult with ⟨_, hReshapes⟩ |
      ⟨_, _, _, _, _, hAllotted⟩
    · exact hReshapes.keeps
    · exact hAllotted.keeps
  rw [overrun_eq_false_iff hClear hOverrun]
  exact and_iff_right (hWorld.payloadsKept hKeeps null)

theorem Consistent.free_harmless_iff
    {bp : Nat}
    (hWorld : Consistent world blocks)
    (hClear : world.heap.overrun = false)
    (hLive : bp = null ∨ bp ∈ world.live) :
    (PayloadsKept world bp
          (Recitation.free .mm2 world.heap bp) ∧
        (Recitation.free .mm2 world.heap bp).overrun =
          false) ↔
      FreeSpares world.heap bp := by
  rcases hLive with rfl | hLive
  · have hCode :
        Recitation.free .mm2 world.heap null =
          world.heap := by
      rw [Recitation.free, if_pos rfl]
    rw [hCode]
    have hKept :=
      hWorld.payloadsKept (Keeps.refl world.heap blocks)
        null
    simp [FreeSpares, hKept, hClear]
  · rcases hWorld.block_of_live hLive with
      ⟨front, block, back, rfl, _, rfl⟩
    have hNonnull :=
      payload_ne_null (world.heap.first + extent front)
    have hPlaced :
        (world.heap.first + extent front, block) ∈
          placed world.heap.first
            (front ++ block :: back) := by
      simp
    have hHeader :=
      (hWorld.heap.payload_eq hPlaced).1
    rw [hWorld.payloadsKept_iff,
      hWorld.heap.free_harmless_iff hClear]
    unfold FreeSpares
    rw [hHeader]
    exact ⟨fun hSpared _ => hSpared,
      fun hSpared => hSpared hNonnull⟩

/- A store at the break stays on record. -/
theorem Represents.free_overrun_mono
    {p : Nat}
    {block : Block}
    (hHeap : Represents heap blocks)
    (hMember : (p, block) ∈ placed heap.first blocks)
    (hOver : heap.overrun = true) :
    (Recitation.free .mm2 heap (p + 8)).overrun =
      true := by
  rcases placed_split hMember with ⟨front, back, rfl, rfl⟩
  have hBounds := hHeap.bounds hMember
  rcases hHeap.free_spec .mm2 with ⟨_, _, hBoth, hElse⟩
  by_cases hEnclosed : Enclosed front back
  · have hOne :=
      (@tagBlock_rewrites heap (heap.first + extent front)
        block.freed (by
          rw [Block.bytes_freed]
          omega)).overrun
    rw [hBoth hEnclosed]
    simp [stamp, store, hOne, hOver]
  · rw [(hElse hEnclosed).2, hOver]

/- free inside realloc, from the heap after the copy. -/
theorem Consistent.moved_harmless_iff
    {heap' heap'' : Heap}
    {blocks' : List Block}
    {p q size : Nat}
    {block new : Block}
    (hWorld : Consistent world blocks)
    (hClear : heap''.overrun = false)
    (hMember :
      (p, block) ∈ allocated world.heap.first blocks)
    (hSize : 0 < size)
    (hBound : size + 31 < 2 ^ 64)
    (hSpares :
      ¬ Overextends world.heap (adjusted size))
    (hMalloc :
      Recitation.malloc .mm2 world.heap size =
        some (heap', q + 8))
    (hMoved :
      Moved .mm2 world.heap heap' heap'' blocks blocks'
        p q size block new) :
    (PayloadsKept ⟨heap'', gain (q + 8) world.live⟩ (p + 8)
          (Recitation.free .mm2 heap'' (p + 8)) ∧
        (Recitation.free .mm2 heap'' (p + 8)).overrun =
          false) ↔
      MoveSpares world.heap p size := by
  have hMiddle :
      Consistent ⟨heap'', gain (q + 8) world.live⟩
        blocks' :=
    hWorld.allotted hMoved.represents hMoved.first
      hMoved.allotted.allocated
  have hStill : p + 8 ∈ gain (q + 8) world.live :=
    mem_gain.mpr (.inr
      ((hWorld.live _).mpr ⟨p, block, rfl, hMember⟩))
  have hThere :
      (p, block) ∈ placed heap''.first blocks' := by
    rw [hMoved.first]
    exact (mem_allocated.mp hMoved.member).1
  have hHeader :=
    (hMoved.represents.payload_eq hThere).1
  have hNonnull := payload_ne_null p
  have hFree :
      FreeSpares heap'' (p + 8) ↔
        (CaseOne heap'' p →
          ¬ IsLast heap'' p ∧ Stamped heap'' p) := by
    unfold FreeSpares
    rw [hHeader]
    exact ⟨fun hSpared => hSpared hNonnull,
      fun hSpared _ => hSpared⟩
  rw [hMiddle.free_harmless_iff hClear (.inr hStill),
    hFree]
  rcases
      hWorld.heap.malloc_cuts hSize hBound hSpares hMalloc
      with ⟨hNull, _⟩ |
    ⟨front, given, found, back, rfl, hPtr, hCut⟩
  · exact absurd hNull (payload_ne_null q)
  · have hCopied := hMoved.copied
    have hCount :
        copyCount block size + 16 ≤
          (BlockSize.ofRequest size hSize).bytes := by
      have hMin : copyCount block size ≤ size :=
        Nat.min_le_left _ _
      simp only [BlockSize.ofRequest]
      omega
    rw [hPtr] at hCopied
    have hAfter :=
      @Cut.filled _ _ _ _ _ _ _ (p + 8) _ hCut
        hMoved.allotted.keeps.first hCount
    rw [← hCopied] at hAfter
    exact hWorld.heap.moveSpares_iff hMember hCut
      hMoved.allotted.keeps hAfter hMoved.keeps
      (by rw [hCopied]; rfl) (adjusted_eq hSize hBound)

/- Once malloc has moved it, what is left is its free. -/
theorem Consistent.moveKeeps_iff
    {heap' heap'' last : Heap}
    {blocks' : List Block}
    {p q size : Nat}
    {block new : Block}
    (hWorld : Consistent world blocks)
    (hMalloc :
      Recitation.malloc .mm2 world.heap size =
        some (heap', q + 8))
    (hMoved :
      Moved .mm2 world.heap heap' heap'' blocks blocks'
        p q size block new) :
    MoveKeeps world last (p + 8) size ↔
      PayloadsKept ⟨heap'', gain (q + 8) world.live⟩ (p + 8)
        last := by
  have hNonnull := payload_ne_null q
  have hThere :
      (p, block) ∈ placed heap'.first blocks' := by
    rw [hMoved.allotted.keeps.first]
    exact (mem_allocated.mp hMoved.member).1
  have hCopied :
      copied heap' (q + 8) (p + 8) size = heap'' := by
    rcases hMoved.allotted.represents.payload_eq hThere with
      ⟨hHeader, hPayload⟩
    rw [hMoved.copied]
    unfold copied
    rw [hHeader, copySize_eq hPayload]
  constructor
  · intro hMove
    have hLater := (hMove _ _ hMalloc).2 hNonnull
    rwa [hCopied] at hLater
  · intro hKept one ptr hOne
    rw [hMalloc] at hOne
    cases hOne
    rw [hCopied]
    exact ⟨hWorld.payloadsKept hMoved.allotted.keeps null,
      fun _ => hKept⟩

/- realloc of a live payload to a size that is not zero. -/
theorem Consistent.move_harmless_iff
    {p size newptr : Nat}
    {block : Block}
    (hWorld : Consistent world blocks)
    (hClear : world.heap.overrun = false)
    (hMember :
      (p, block) ∈ allocated world.heap.first blocks)
    (hSize : size ≠ 0)
    (hBound : size + 31 < 2 ^ 64)
    (hRealloc :
      Recitation.realloc .mm2 world.heap (p + 8) size =
        some (heap, newptr)) :
    (MoveKeeps world heap (p + 8) size ∧
        heap.overrun = false) ↔
      MallocSpares world.heap size ∧
        MoveSpares world.heap p size := by
  have hPos : 0 < size := Nat.pos_of_ne_zero hSize
  rcases
      @Represents.realloc_spec .mm2 world.heap blocks p size
        block hWorld.heap hMember hSize hBound
        (fun hVersion => by cases hVersion) with
    ⟨heap', hOverrun, hResult⟩
  have hMallocClear :
      heap'.overrun = false ↔
        MallocSpares world.heap size := by
    rw [hOverrun, hClear]
    simp [MallocSpares, hSize]
  rcases hResult with ⟨hCode, hMalloc, hReshapes⟩ |
    ⟨heap'', q, new, blocks', hCode, hMalloc, hMoved⟩
  · rw [hCode] at hRealloc
    cases hRealloc
    have hKeeps : MoveKeeps world heap (p + 8) size := by
      intro one ptr hOne
      rw [hMalloc] at hOne
      cases hOne
      exact ⟨hWorld.payloadsKept hReshapes.keeps null,
        fun hNot => absurd rfl hNot⟩
    rw [hMallocClear]
    refine ⟨fun hBoth => ⟨hBoth.2, ?_⟩,
      fun hBoth => ⟨hKeeps, hBoth.1⟩⟩
    rcases
        hWorld.heap.malloc_cuts hPos hBound
          (hBoth.2 hSize) hMalloc with
      ⟨_, hNone⟩ | ⟨front, _, _, _, _, hPtr, _⟩
    · intro cut total hChosen
      rw [hNone] at hChosen
      cases hChosen
    · exact absurd hPtr.symm (payload_ne_null _)
  · rw [hCode] at hRealloc
    cases hRealloc
    rw [hWorld.moveKeeps_iff hMalloc hMoved]
    cases hOver : heap''.overrun with
    | true =>
        have hHere := (mem_allocated.mp hMoved.member).1
        rw [← hMoved.first] at hHere
        rw [hMoved.represents.free_overrun_mono hHere
          hOver]
        have hNot : ¬ MallocSpares world.heap size := by
          rw [← hMallocClear, ← hMoved.overrun, hOver]
          simp
        simp [hNot]
    | false =>
        have hSpares : MallocSpares world.heap size := by
          rw [← hMallocClear, ← hMoved.overrun, hOver]
        rw [hWorld.moved_harmless_iff hOver hMember hPos
          hBound (hSpares hSize) hMalloc hMoved]
        exact (and_iff_right hSpares).symm

theorem Consistent.realloc_harmless_iff
    {ptr size newptr : Nat}
    (hWorld : Consistent world blocks)
    (hClear : world.heap.overrun = false)
    (hLive : ptr = null ∨ ptr ∈ world.live)
    (hBound : size + 31 < 2 ^ 64)
    (hRealloc :
      Recitation.realloc .mm2 world.heap ptr size =
        some (heap, newptr)) :
    ((if size = 0 ∨ ptr = null then
          PayloadsKept world ptr heap
        else
          MoveKeeps world heap ptr size) ∧
        heap.overrun = false) ↔
      ReallocSpares world.heap ptr size := by
  unfold ReallocSpares
  by_cases hSize : size = 0
  · have hCode :
        Recitation.realloc .mm2 world.heap ptr size =
          some (Recitation.free .mm2 world.heap ptr,
            null) := by
      unfold Recitation.realloc
      simp only [if_pos hSize]
    rw [hCode] at hRealloc
    cases hRealloc
    rw [if_pos hSize, if_pos (.inl hSize)]
    exact hWorld.free_harmless_iff hClear hLive
  · rw [if_neg hSize]
    rcases hLive with rfl | hLive
    · have hCode :
          Recitation.realloc .mm2 world.heap null size =
            Recitation.malloc .mm2 world.heap size := by
        unfold Recitation.realloc
        simp only [if_neg hSize, if_true]
      rw [hCode] at hRealloc
      rw [if_pos (.inr rfl),
        hWorld.malloc_harmless_iff hClear hBound hRealloc]
      simp
    · rcases (hWorld.live ptr).mp hLive with
        ⟨p, block, rfl, hMember⟩
      have hNonnull := payload_ne_null p
      have hPlaced := (mem_allocated.mp hMember).1
      rw [(hWorld.heap.payload_eq hPlaced).1,
        if_neg (by simp [hSize, hNonnull]),
        hWorld.move_harmless_iff hClear hMember hSize
          hBound hRealloc]
      simp [hNonnull]

theorem Consistent.calloc_harmless_iff
    {elements size ptr : Nat}
    (hWorld : Consistent world blocks)
    (hClear : world.heap.overrun = false)
    (hBound : elements * size + 31 < 2 ^ 64)
    (hCalloc :
      Recitation.calloc .mm2 world.heap elements size =
        some (heap, ptr)) :
    (PayloadsKept world null heap ∧
        heap.overrun = false) ↔
      MallocSpares world.heap (elements * size) := by
  have hElements : elements ≠ 0 := by
    intro hZero
    unfold Recitation.calloc at hCalloc
    simp only [if_pos hZero] at hCalloc
    cases hCalloc
  rcases
      @Represents.calloc_spec .mm2 world.heap blocks elements
        size hWorld.heap hElements hBound
        (fun hVersion => by cases hVersion) with
    ⟨heap', ptr', hCode, hOverrun, hResult⟩
  rw [hCode] at hCalloc
  cases hCalloc
  have hKeeps : Keeps world.heap heap blocks := by
    rcases hResult with ⟨_, hReshapes⟩ |
      ⟨_, _, _, _, _, hKeeps, _⟩
    · exact hReshapes.keeps
    · exact hKeeps
  rw [overrun_eq_false_iff hClear hOverrun]
  exact and_iff_right (hWorld.payloadsKept hKeeps null)

/- A client's own store stays inside its payload. -/
theorem Consistent.write_overrun
    {ptr offset : Nat}
    (hWorld : Consistent world blocks)
    (hClear : world.heap.overrun = false)
    (hLive : ptr ∈ world.live)
    (hOffset :
      offset <
        getPayloadSize world.heap (payloadToHeader ptr))
    (value : Nat) :
    (store world.heap (ptr + offset) 1 value).overrun =
      false := by
  rcases (hWorld.live ptr).mp hLive with ⟨p, block, rfl, hMember⟩
  have hPlaced := (mem_allocated.mp hMember).1
  have hBounds := hWorld.heap.bounds hPlaced
  rcases hWorld.heap.payload_eq hPlaced with ⟨hHeader, hPayload⟩
  rw [hHeader, hPayload] at hOffset
  rw [← hClear]
  exact (store_fills world.heap (p + 8 + offset) 1
    value).overrun (by omega)

/- What one call does is decided by the heap before it. -/
theorem Step.harmless_iff
    {label : Call × Nat}
    {world' : World}
    (hStep : Step .mm2 world label world')
    (hWorld : Consistent world blocks)
    (hClear : world.heap.overrun = false) :
    label.1.Harmless world world'.heap ↔
      label.1.Spares world.heap := by
  cases hStep with
  | malloc hUnwrapped hMalloc =>
      exact hWorld.malloc_harmless_iff hClear hUnwrapped
        hMalloc
  | free hLive =>
      exact hWorld.free_harmless_iff hClear hLive
  | realloc hLive hUnwrapped hRealloc =>
      exact hWorld.realloc_harmless_iff hClear hLive
        hUnwrapped hRealloc
  | calloc hUnwrapped hCalloc =>
      exact hWorld.calloc_harmless_iff hClear hUnwrapped
        hCalloc
  | write hLive hOffset =>
      have hInside :=
        hWorld.write_overrun hClear hLive hOffset
      simp [Call.Harmless, Call.Spares, hInside]

end Calls

------------------------------------------------------------
-- Every Reachable State
------------------------------------------------------------

theorem harmless_iff_spares
    {heap : Heap}
    {labels : List (Call × Nat)}
    {world world' : World}
    {label : Call × Nat}
    (hFresh : Fresh heap)
    (hInit : (mmInit .mm2 heap).2 = true)
    (hRun :
      Transition.Run (Step .mm2) (World.ofInit .mm2 heap)
        labels world)
    (hStep : Step .mm2 world.cleared label world') :
    label.1.Harmless world.cleared world'.heap ↔
      label.1.Spares world.cleared.heap := by
  have hConsistent :
      ∃ blocks, Consistent world blocks := by
    apply hRun.invariant
      (fun world => ∃ blocks, Consistent world blocks)
    · exact hFresh.consistent hInit
    · rintro w l w' ⟨blocks, hWorld⟩ hNext
      exact hNext.consistent
        (fun hVersion => by cases hVersion) hWorld
  rcases hConsistent with ⟨blocks, hWorld⟩
  exact hStep.harmless_iff hWorld.cleared rfl

instance (heap : Heap) (bp : Nat) :
    Decidable (FreeSpares heap bp) :=
  inferInstanceAs (Decidable (_ → _ → _ ∧ _))

/- The world after a client's store of one byte. -/
def World.stored
    (world : World)
    (ptr offset : Nat)
    (byte : UInt8) :
    World :=
  { world with
    heap := store world.heap (ptr + offset) 1 byte.toNat }

/- The first two bytes of the int 0x15213. -/
def World.marked
    (world : World)
    (ptr : Nat) :
    World :=
  (world.stored ptr 0 0x13).stored ptr 1 0x52

/-
  Two payloads side by side, and the int 0x15213 written at
  the start of the second: freeing the first is harmless.
-/
theorem harmless_iff_spares_stamped :
    ∃ labels world ptr world',
      Transition.Run (Step .mm2)
          (World.ofInit .mm2 zeroRegion) labels world ∧
        CaseOne world.heap (payloadToHeader ptr) ∧
          Step .mm2 world.cleared (.free ptr, null) world' ∧
            (Call.free ptr).Harmless world.cleared
              world'.heap := by
  have hSome : (firstMalloc .mm2 16).isSome = true := by
    decide +kernel
  rcases Option.isSome_iff_exists.mp hSome with
    ⟨⟨one, p⟩, hOne⟩
  have hSome' :
      ((firstMalloc .mm2 16).bind fun result =>
        malloc .mm2 result.1 16).isSome = true := by
    decide +kernel
  rw [hOne, Option.bind_some] at hSome'
  rcases Option.isSome_iff_exists.mp hSome' with
    ⟨⟨two, q⟩, hTwo⟩
  have hFacts :
      (firstMalloc .mm2 16).all (fun first =>
        (malloc .mm2 first.1 16).all fun second =>
          let world : World := ⟨second.1, [second.2, first.2]⟩
          let marked := world.marked second.2
          let stamped := marked.stored second.2 2 0x01
          let header := payloadToHeader second.2
          decide
            (first.2 ≠ null ∧ second.2 ≠ null ∧
              0 < getPayloadSize world.heap header ∧
              1 < getPayloadSize
                (world.stored second.2 0 0x13).heap header ∧
              2 < getPayloadSize marked.heap header ∧
              CaseOne stamped.heap
                (payloadToHeader first.2) ∧
              FreeSpares stamped.cleared.heap first.2)) =
        true := by
    decide +kernel
  rw [hOne, Option.all_some, hTwo, Option.all_some]
    at hFacts
  dsimp only at hFacts
  rw [decide_eq_true_iff] at hFacts
  rcases hFacts with
    ⟨hP, hQ, hFirst, hSecond, hThird, hCase, hSpares⟩
  have hUnwrapped : (Call.malloc 16).Unwrapped := by
    unfold Call.Unwrapped
    decide
  have hTwice :
      Transition.Run (Step .mm2)
        (World.ofInit .mm2 zeroRegion)
        [(.malloc 16, p), (.malloc 16, q)]
        ⟨two, gain q (gain p [])⟩ :=
    .snoc (.snoc .nil (.malloc hUnwrapped hOne))
      (.malloc hUnwrapped hTwo)
  rw [gain, if_neg hQ, gain, if_neg hP] at hTwice
  have hLast :
      Step .mm2 (World.marked ⟨two, [q, p]⟩ q)
        (.write q 2 0x01, null)
        ((World.marked ⟨two, [q, p]⟩ q).stored q 2 0x01) :=
    .write List.mem_cons_self hThird
  have hRun :=
    Transition.Run.snoc
      (.snoc
        (.snoc hTwice (.write List.mem_cons_self hFirst))
        (.write List.mem_cons_self hSecond))
      hLast
  have hLive : p ∈ [q, p] := by
    simp
  have hStep :=
    @Step.free .mm2
      (World.cleared
        ((World.marked ⟨two, [q, p]⟩ q).stored q 2 0x01))
      p (.inr hLive)
  refine ⟨_, _, p, _, hRun, hCase, hStep, ?_⟩
  rw [harmless_iff_spares zeroRegion_fresh
    (zeroRegion_init .mm2) hRun hStep]
  exact hSpares

/-
  malloc(4080) takes the whole heap; freeing it finds the
  prologue and the epilogue beside it, and stores at the
  break.
-/
theorem first_free_writes_at_break :
    ∃ heap labels world label world',
      Fresh heap ∧
        (mmInit .mm2 heap).2 = true ∧
          Transition.Run (Step .mm2)
              (World.ofInit .mm2 heap) labels world ∧
            Step .mm2 world.cleared label world' ∧
              ¬ label.1.Harmless world.cleared
                world'.heap := by
  have hSome : (firstMalloc .mm2 4080).isSome = true := by
    decide +kernel
  rcases Option.isSome_iff_exists.mp hSome with
    ⟨⟨heap, ptr⟩, hMalloc⟩
  have hBroken :
      (firstMalloc .mm2 4080).all (fun result =>
        decide
          (result.2 ≠ null ∧
            (free .mm2 { result.1 with overrun := false }
              result.2).overrun = true)) = true := by
    decide +kernel
  rw [hMalloc, Option.all_some, decide_eq_true_iff]
    at hBroken
  have hUnwrapped : (Call.malloc 4080).Unwrapped := by
    unfold Call.Unwrapped
    decide
  have hLive : ptr ∈ gain ptr [] :=
    mem_gain.mpr (.inl ⟨hBroken.1, rfl⟩)
  refine ⟨zeroRegion, [(.malloc 4080, ptr)],
    ⟨heap, gain ptr []⟩, (.free ptr, null), _,
    zeroRegion_fresh, zeroRegion_init .mm2,
    .snoc .nil (.malloc hUnwrapped hMalloc),
    .free (.inr hLive), ?_⟩
  rintro ⟨_, hClear⟩
  have hOver := hBroken.2
  change (free .mm2 { heap with overrun := false }
    ptr).overrun = false at hClear
  rw [hOver] at hClear
  cases hClear

end Recitation

end CsappLabs
