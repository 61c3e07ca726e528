import CsappLabs.Malloc.Client
import CsappLabs.Mdriver.MmPackage
import CsappLabs.Mdriver.NoFalseAlarm

/-
  mm.c meets the specification of its driver.

  A client of the driver's specification is a client of mm.c
  whose live payloads hold the bytes that memory holds.  As
  long as the block list grants its requests, each of them is
  served.  So eval_mm_valid accepts mm.c on every trace that
  the heap has room for.

  Key definitions include:
    * `Tracks`
    * `granted`, `demand`

  Key theorems include:
    * `Tracks.serve_denied`, `Tracks.step`
    * `mm_meets`
    * `evalMmValid_accepts_mm`
-/

------------------------------------------------------------
-- Clients of mm.c
------------------------------------------------------------

namespace CsappLabs

namespace Mdriver

open Malloc hiding World Step
open Transition (Run)

/- A payload of the client with the bytes it holds. -/
def Payload.held (mem : ByteMemory) (payload : Payload) :
    Live where
  ptr := payload.address
  size := payload.size
  contents := fun i =>
    if i < payload.size then
      some (mem (payload.address + i))
    else
      none

/- The heap and the live payloads of a client. -/
def Client.process (client : Client Statics) :
    Malloc.World where
  heap := client.world.heap
  live := client.live.map (Payload.held client.world.mem)

/-
  The client's heap represents the block list, its live
  payloads are the allocated blocks, and the ids in use have
  payloads of their own.
-/
structure Tracks
    (client : Client Statics)
    (blocks : List Block)
    (ids : List Nat) :
    Prop where
  consistent : Consistent client.process blocks
  aligned : client.world.memlib.memStartBrk % 8 = 0
  owned : ∀ id ∈ ids, client.table id ∈ client.live
  distinct :
    ∀ id ∈ ids, ∀ other ∈ ids,
      id ≠ other → client.table id ≠ client.table other

variable {client : Client Statics}
variable {blocks blocks' : List Block}
variable {ids : List Nat}
variable {heap : Heap}
variable {live : List Live}
variable {payloads : List Payload}
variable {payload : Payload}
variable {index : Nat}

/- What a live payload is, apart from its bytes. -/
def liveRange (live : Live) : Nat × Nat :=
  (live.ptr, live.size)

theorem liveRange_held
    (mem : ByteMemory) :
    (payloads.map (Payload.held mem)).map liveRange =
      payloads.map fun payload =>
        (payload.address, payload.size) := by
  rw [List.map_map]
  rfl

/- The bytes that memory holds are held by it. -/
theorem heldBy_held
    (mem : ByteMemory) :
    (payload.held mem).HeldBy mem := by
  intro offset byte hByte
  simp only [Payload.held] at hByte ⊢
  split at hByte
  · rename_i hOffset
    cases hByte
    exact ⟨hOffset, rfl⟩
  · cases hByte

/- Only the addresses and sizes of payloads matter. -/
theorem consistent_rehold
    (hWorld : Consistent ⟨heap, live⟩ blocks)
    (hRanges :
      live.map liveRange =
        payloads.map fun payload =>
          (payload.address, payload.size)) :
    Consistent
      ⟨heap, payloads.map (Payload.held heap.mem)⟩
      blocks where
  represents := hWorld.represents
  live := by
    have hEntries :
        ∀ list : List Live,
          list.map Live.entry =
            (list.map liveRange).map fun range =>
              (range.1, ⟨BlockSize.ofRequest range.2, true⟩) :=
      fun list => (List.map_map).symm ▸ rfl
    have hLive := hWorld.live
    rw [hEntries, hRanges] at hLive
    rw [hEntries, liveRange_held]
    exact hLive
  held := by
    intro other hOther
    rcases List.mem_map.mp hOther with ⟨payload, _, rfl⟩
    exact heldBy_held heap.mem

/- Payloads that are still held keep their bytes. -/
theorem untouched_of_held
    {before after : ByteMemory}
    (hHeld :
      ∀ payload ∈ payloads,
        (payload.held before).HeldBy after) :
    Untouched before after payloads := by
  intro payload hMember a hLow hHigh
  have hByte :=
    hHeld payload hMember (a - payload.address) (before a)
  simp only [Payload.held] at hByte
  rw [if_pos (by omega),
    show payload.address + (a - payload.address) = a by
      omega] at hByte
  exact (hByte rfl).2

/- A payload of a consistent process, as the driver wants it. -/
theorem placed_of_consistent
    {memlib : Memlib}
    {mem : ByteMemory}
    (hWorld :
      Consistent
        ⟨heap, (payload :: payloads).map (Payload.held mem)⟩
        blocks)
    (hAligned : heap.memStartBrk % 8 = 0)
    (hStart : memlib.memStartBrk = heap.memStartBrk)
    (hBrk : memlib.memBrk = heap.memBrk) :
    Placed memlib payloads payload := by
  have hLive :
      payload.held mem ∈
        (payload :: payloads).map (Payload.held mem) := by
    simp
  have hInside := hWorld.inside hAligned hLive
  have hApart := hWorld.disjoint
  rw [List.map_cons, List.pairwise_cons] at hApart
  refine
    { nonnull := hWorld.ptr_ne_null hLive
      aligned := hInside.1
      above := ?_
      below := ?_
      apart := ?_ }
  · unfold memHeapLo
    rw [hStart]
    exact hInside.2.1
  · unfold memHeapHi
    rw [hBrk]
    exact hInside.2.2
  · intro other hOther
    exact hApart.1 _ (List.mem_map_of_mem hOther)

/- No two live payloads have one address. -/
theorem nodup_addresses
    {mem : ByteMemory}
    (hWorld :
      Consistent ⟨heap, payloads.map (Payload.held mem)⟩
        blocks) :
    (payloads.map Payload.address).Nodup := by
  have hNodup :=
    (hWorld.live.map Prod.fst).nodup_iff.mp nodup_allocated
  rw [List.map_map, List.map_map] at hNodup
  exact hNodup

/- Taking a payload away takes its address away. -/
theorem map_erase
    (mem : ByteMemory)
    (hNodup : (payloads.map Payload.address).Nodup)
    (hMember : payload ∈ payloads) :
    (payloads.erase payload).map (Payload.held mem) =
      without (payloads.map (Payload.held mem))
        payload.address := by
  rw [hNodup.of_map.erase_eq_filter, without, List.filter_map]
  congr 1
  apply List.filter_congr
  intro other hOther
  by_cases hEq : other = payload
  · simp [hEq, Payload.held]
  · have hNe : other.address ≠ payload.address := fun hSame =>
      hEq (List.inj_on_of_nodup_map hNodup hOther hMember
        hSame)
    simp [hEq, hNe, Payload.held]

------------------------------------------------------------
-- Calls
------------------------------------------------------------

section Calls

variable {size : UInt32}
variable {offset : Nat}

/- A call that puts a payload under an id. -/
theorem Tracks.store
    {first : Live}
    {others : List Payload}
    (hTracks : Tracks client blocks ids)
    (hGrows : Grows client.world.heap heap)
    (hWorld :
      Consistent
        ⟨heap,
          first ::
            others.map (Payload.held client.world.mem)⟩
        blocks')
    (hFirst :
      liveRange first = (payload.address, payload.size))
    (hOthers :
      ∀ id ∈ ids, id ≠ index → client.table id ∈ others) :
    Placed (client.world.withHeap heap hGrows).memlib others
        payload ∧
      Untouched client.world.mem heap.mem others ∧
        Tracks
          (client.store (client.world.withHeap heap hGrows)
            others index payload)
          blocks' (index :: ids) := by
  have hRanges :
      (first ::
            others.map
              (Payload.held client.world.mem)).map liveRange =
        (payload :: others).map fun payload =>
          (payload.address, payload.size) := by
    rw [List.map_cons, List.map_cons, hFirst,
      liveRange_held]
  have hHeld := consistent_rehold hWorld hRanges
  have hAligned : heap.memStartBrk % 8 = 0 := by
    rw [hGrows.start]
    exact hTracks.aligned
  have hFresh : payload ∉ others := by
    have hNodup := nodup_addresses hHeld
    rw [List.map_cons, List.nodup_cons] at hNodup
    exact fun hMember =>
      hNodup.1 (List.mem_map_of_mem hMember)
  refine ⟨?_, ?_, ?_⟩
  · exact
      placed_of_consistent hHeld hAligned hGrows.start.symm
        rfl
  · exact untouched_of_held fun other hOther =>
      hWorld.held _
        (List.mem_cons_of_mem _ (List.mem_map_of_mem hOther))
  · refine
      { consistent := ?_
        aligned := hTracks.aligned
        owned := ?_
        distinct := ?_ }
    · unfold Client.process Client.store
      rw [heap_withHeap]
      exact hHeld
    · intro id hId
      unfold Client.store
      simp only
      by_cases hEq : id = index
      · rw [hEq, Function.update_self]
        exact List.mem_cons_self
      · rw [Function.update_of_ne hEq]
        exact List.mem_cons_of_mem _
          (hOthers id (by simpa [hEq] using hId) hEq)
    · intro id hId other hOther hDiffer
      unfold Client.store
      simp only
      by_cases hEq : id = index
      · have hNe : other ≠ index := hEq ▸ hDiffer.symm
        rw [hEq, Function.update_self,
          Function.update_of_ne hNe]
        intro hSame
        exact hFresh (hSame ▸
          hOthers other (by simpa [hNe] using hOther) hNe)
      · rw [Function.update_of_ne hEq]
        by_cases hSame : other = index
        · rw [hSame, Function.update_self]
          intro hSamePayload
          exact hFresh (hSamePayload ▸
            hOthers id (by simpa [hEq] using hId) hEq)
        · rw [Function.update_of_ne hSame]
          exact hTracks.distinct id
            (by simpa [hEq] using hId) other
            (by simpa [hSame] using hOther) hDiffer

/- The addresses of the payloads of all ids. -/
def Client.addresses (client : Client Statics) (id : Nat) :
    Nat :=
  (client.table id).address

/- The addresses after a request that stores a payload. -/
theorem addresses_store
    {world : World Statics}
    {others : List Payload} :
    (client.store world others index payload).addresses =
      Function.update client.addresses index
        payload.address := by
  funext id
  unfold Client.addresses Client.store
  simp only
  by_cases hEq : id = index
  · rw [hEq, Function.update_self, Function.update_self]
  · rw [Function.update_of_ne hEq, Function.update_of_ne hEq]

/- A call that returns. -/
theorem settle_ret
    {world : World Statics}
    {outcome : Outcome Nat}
    {p : Nat}
    (hCode : outcome = .ret heap p)
    (hOutcome : Grows world.heap outcome.heap) :
    ∃ hGrows : Grows world.heap heap,
      (world.withHeap outcome.heap hOutcome,
          outcomeValue outcome) =
        (world.withHeap heap hGrows, p) := by
  subst hCode
  exact ⟨hOutcome, rfl⟩

/- mm_init with its result. -/
theorem settle_init
    {world : World Statics}
    {result : Heap × Int}
    {code : Int}
    (hCode : result = (heap, code))
    (hResult : Grows world.heap result.1) :
    ∃ hGrows : Grows world.heap heap,
      (world.withHeap result.1 hResult, result.2) =
        (world.withHeap heap hGrows, code) := by
  subst hCode
  exact ⟨hResult, rfl⟩

/- mm_malloc -/
theorem Tracks.alloc
    (hTracks : Tracks client blocks ids)
    (hSize : 0 < asInt size.toNat)
    (hGrant : (allocate blocks size.toNat).2 ≠ none) :
    Served mmPackage client (.alloc index size) ∧
      Tracks (client.after mmPackage (.alloc index size))
          (allocate blocks size.toNat).1 (index :: ids) ∧
        (client.after mmPackage
            (.alloc index size)).addresses =
          Function.update client.addresses index
            (address client.world.heap.first
              (allocate blocks size.toNat).2) := by
  rcases (asInt_pos_iff size.toNat_lt).mp hSize with
    ⟨hPositive, hInt⟩
  rcases Option.ne_none_iff_exists'.mp hGrant with
    ⟨offset, hOffset⟩
  rcases hTracks.consistent.malloc hPositive hInt with
    ⟨heap, hCode, _, hWorld⟩
  rw [hOffset, address] at hCode hWorld
  rw [if_neg first_ne_null] at hWorld
  rw [hOffset, address]
  change mmMalloc client.world.heap size.toNat =
    .ret heap (client.world.heap.first + offset) at hCode
  rcases
      settle_ret hCode
        (@mmMalloc_grows client.world.heap size.toNat) with
    ⟨hGrows, hCall⟩
  change mmPackage.mmMalloc client.world size.toNat = _
    at hCall
  have hStored :=
    @Tracks.store _ _ _ _ _
      ⟨client.world.heap.first + offset, size.toNat⟩ index _
      client.live hTracks hGrows hWorld rfl
      (fun id hId _ => hTracks.owned id hId)
  unfold Served Client.after
  simp only [hCall]
  exact
    ⟨⟨hStored.1, hStored.2.1⟩, hStored.2.2, addresses_store⟩

/- mm_realloc -/
theorem Tracks.realloc
    (hTracks : Tracks client blocks ids)
    (hIndex : index ∈ ids)
    (hSize : 0 < asInt size.toNat)
    (hGrant :
      BlockSize.ofRequest (client.table index).size =
          BlockSize.ofRequest size.toNat ∨
        (allocate blocks size.toNat).2 ≠ none) :
    Served mmPackage client (.realloc index size) ∧
      ∃ blocks' ptr,
        Tracks (client.after mmPackage (.realloc index size))
            blocks' (index :: ids) ∧
          serve client.world.heap.first blocks
                (.realloc (client.addresses index)
                  size.toNat) =
              (blocks', ptr) ∧
            (client.after mmPackage
                (.realloc index size)).addresses =
              Function.update client.addresses index
                ptr := by
  rcases (asInt_pos_iff size.toNat_lt).mp hSize with
    ⟨hPositive, hInt⟩
  have hOwned := hTracks.owned index hIndex
  have hLive :
      (client.table index).held client.world.mem ∈
        client.process.live :=
    List.mem_map_of_mem hOwned
  have hResizes :
      ∃ heap ptr blocks',
        Consistent.Resizes client.process blocks
          ((client.table index).held client.world.mem)
          size.toNat heap ptr blocks' := by
    by_cases hSame :
        BlockSize.ofRequest (client.table index).size =
          BlockSize.ofRequest size.toNat
    · exact ⟨_, _, _,
        hTracks.consistent.realloc_same hLive hPositive hInt
          hSame⟩
    · rcases hGrant with hSame' | hSome
      · exact absurd hSame' hSame
      · rcases Option.ne_none_iff_exists'.mp hSome with
          ⟨offset, hOffset⟩
        rcases
            hTracks.consistent.realloc_move hLive hPositive
              hInt hSame hOffset with
          ⟨heap, hResizes⟩
        exact ⟨heap, _, _, hResizes⟩
  rcases hResizes with ⟨heap, ptr, blocks', hResizes⟩
  have hCode := hResizes.code
  change mmRealloc client.world.heap
    (client.table index).address size.toNat = .ret heap ptr
    at hCode
  rcases
      settle_ret hCode
        (@mmRealloc_grows client.world.heap
          (client.table index).address size.toNat) with
    ⟨hGrows, hCall⟩
  change mmPackage.mmRealloc client.world
    (client.table index).address size.toNat = _ at hCall
  have hWorld := hResizes.consistent
  have hErased :=
    map_erase client.world.mem
      (nodup_addresses hTracks.consistent) hOwned
  change Consistent
    ⟨heap, _ :: without
      (client.live.map (Payload.held client.world.mem))
      (client.table index).address⟩ blocks' at hWorld
  rw [← hErased] at hWorld
  have hStored :=
    @Tracks.store _ _ _ _ _ ⟨ptr, size.toNat⟩ index _
      (client.others index) hTracks hGrows hWorld rfl
      (fun id hId hNe =>
        (List.mem_erase_of_ne
          (hTracks.distinct id hId index hIndex hNe)).mpr
          (hTracks.owned id hId))
  unfold Served Client.after
  simp only [hCall]
  exact
    ⟨⟨hStored.1, hStored.2.1, hResizes.kept⟩, blocks', ptr,
      hStored.2.2, hResizes.served, addresses_store⟩

/- mm_free -/
theorem Tracks.free
    (hTracks : Tracks client blocks ids)
    (hIndex : index ∈ ids) :
    Served mmPackage client (.free index) ∧
      Tracks (client.after mmPackage (.free index))
        (release blocks
          ((client.table index).address -
            client.world.heap.first))
        (ids.filter (· ≠ index)) := by
  have hOwned := hTracks.owned index hIndex
  have hLive :
      (client.table index).held client.world.mem ∈
        client.process.live :=
    List.mem_map_of_mem hOwned
  rcases hTracks.consistent.free hLive with ⟨_, hWorld⟩
  have hErased :=
    map_erase client.world.mem
      (nodup_addresses hTracks.consistent) hOwned
  change Consistent
    ⟨mmFree client.world.heap (client.table index).address,
      without
        (client.live.map (Payload.held client.world.mem))
        (client.table index).address⟩ _ at hWorld
  rw [← hErased] at hWorld
  have hHeld := consistent_rehold hWorld (liveRange_held _)
  refine ⟨?_, ?_⟩
  · exact untouched_of_held fun other hOther =>
      hWorld.held _ (List.mem_map_of_mem hOther)
  · refine
      { consistent := ?_
        aligned := hTracks.aligned
        owned := ?_
        distinct := ?_ }
    · have hHeap :=
        @heap_withHeap _ client.world
          (mmFree_grows (client.table index).address)
      unfold Client.process Client.after
      simp only
      rw [show (mmPackage.mmFree client.world
          (client.table index).address).heap = _ from hHeap]
      exact hHeld
    · intro id hId
      simp only [List.mem_filter, decide_eq_true_eq] at hId
      exact
        (List.mem_erase_of_ne
          (hTracks.distinct id hId.1 index hIndex
            hId.2)).mpr
          (hTracks.owned id hId.1)
    · intro id hId other hOther
      exact hTracks.distinct id (List.mem_of_mem_filter hId)
        other (List.mem_of_mem_filter hOther)

/- A client writes into a live payload. -/
theorem Tracks.write
    {mem : ByteMemory}
    (hTracks : Tracks client blocks ids)
    (hLive : payload ∈ client.live)
    (hSame :
      mem.SameOutside client.world.mem payload.address
        (payload.address + payload.size)) :
    Tracks { client with world := client.world.withMem mem }
      blocks ids where
  consistent := by
    have hWorld := hTracks.consistent
    have hSize := Consistent.size_add_eight_le payload.size
    have hEntry :
        (payload.held client.world.mem).entry ∈
          placed client.world.heap.first blocks :=
      (mem_allocated_iff.mp
        (hWorld.live.mem_iff.mpr
          (List.mem_map_of_mem
            (List.mem_map_of_mem hLive)))).1
    have hRepr :=
      hWorld.represents.payload hEntry
        (hSame.mono (Nat.le_refl _) (by
          simp only [Payload.held, Block.bytes_mk]
          omega))
    have hRanges :
        client.process.live.map Live.entry =
          (client.live.map (Payload.held mem)).map
            Live.entry := by
      unfold Client.process
      rw [List.map_map, List.map_map]
      rfl
    refine ⟨hRepr, ?_, ?_⟩
    · have hLiveBlocks := hWorld.live
      rw [hRanges] at hLiveBlocks
      exact hLiveBlocks
    · intro other hOther
      rcases List.mem_map.mp hOther with ⟨payload, _, rfl⟩
      exact heldBy_held mem
  aligned := hTracks.aligned
  owned := hTracks.owned
  distinct := hTracks.distinct

end Calls

------------------------------------------------------------
-- Room
------------------------------------------------------------

/- The call of mm.c for a request, by the payload addresses. -/
def callOf (table : Nat → Nat) : Request → Call
  | .alloc _ size => .malloc size.toNat
  | .realloc index size => .realloc (table index) size.toNat
  | .free index => .free (table index)

/- The block list grants every request of a trace. -/
def granted (start : Nat) :
    List Block → (Nat → Nat) → List Request → Bool
  | _, _, [] => true
  | blocks, table, .alloc index size :: ops =>
      let served :=
        serve start blocks (callOf table (.alloc index size))
      served.2 ≠ null &&
        granted start served.1
          (Function.update table index served.2) ops
  | blocks, table, .realloc index size :: ops =>
      let served :=
        serve start blocks (callOf table (.realloc index size))
      served.2 ≠ null &&
        granted start served.1
          (Function.update table index served.2) ops
  | blocks, table, .free index :: ops =>
      granted start
        (serve start blocks (callOf table (.free index))).1
        table ops

/- The bytes that the heap may grow by. -/
def demand : List Request → Nat
  | [] => 0
  | .alloc _ size :: ops =>
      (extension size.toNat).bytes + demand ops
  | .realloc _ size :: ops =>
      (extension size.toNat).bytes + demand ops
  | .free _ :: ops => demand ops

/- The heap has room for the rest of a trace. -/
def HasRoom
    (start : Nat)
    (blocks : List Block)
    (table : Nat → Nat)
    (ops : List Request) :
    Prop :=
  granted start blocks table ops = true ∨
    16 + extent blocks + demand ops ≤ maxHeap

section Room

variable {start request : Nat}

theorem extent_allocate_le :
    extent (allocate blocks request).1 ≤
      extent blocks + (extension request).bytes := by
  cases hSplit :
      Tiling.firstSplit
        (fits (BlockSize.ofRequest request)) blocks with
  | some split =>
      rcases split with ⟨front, block, back⟩
      rw [allocate_fit hSplit]
      rcases Tiling.firstSplit_eq_some_iff.mp hSplit with
        ⟨rfl, hFits, -⟩
      simp only [fits, Bool.and_eq_true, Bool.not_eq_true',
        decide_eq_true_eq] at hFits
      have hCarve := extent_carve hFits.2
      simp only [extent, Tiling.extent_append,
        Tiling.extent_cons] at hCarve ⊢
      omega
  | none =>
      by_cases hRefused : Refused blocks (extension request)
      · rw [allocate_refused hSplit hRefused]
        exact Nat.le_add_right _ _
      · rw [allocate_extend hSplit hRefused]
        have hTail :=
          (@extendBlocks_tail (extension request) blocks).2
        have hLarge :
            (BlockSize.ofRequest request).bytes ≤
              (extension request).bytes := by
          rw [extension, BlockSize.bytes_larger]
          exact Nat.le_max_left _ _
        have hCarve :=
          extent_carve (Nat.le_trans hLarge hTail)
        have hWhole :=
          congrArg extent
            (@extendBlocks_eq_coalesceAt (extension request)
              blocks)
        rw [extent_coalesceAt rfl] at hWhole
        simp only [extent, Tiling.extent_append,
          Tiling.extent_cons, Tiling.extent_nil,
          Block.bytes_mk] at hCarve hWhole ⊢
        omega

theorem extent_release
    (offset : Nat) :
    extent (release blocks offset) = extent blocks := by
  unfold release
  cases hLocate :
      Tiling.locate Block.bytes offset blocks with
  | none => rfl
  | some split =>
      rcases split with ⟨front, block, back⟩
      rcases
          (Tiling.locate_eq_some_iff Block.bytes_pos).mp
            hLocate with
        ⟨rfl, _⟩
      simp only
      rw [extent_coalesceAt rfl]
      simp [extent, Nat.add_assoc]

/- A request makes the heap larger by its demand at most. -/
theorem extent_serve_realloc_le
    (p : Nat) :
    extent (serve start blocks (.realloc p request)).1 ≤
      extent blocks + (extension request).bytes := by
  have hGrown := @extent_allocate_le blocks request
  simp only [serve]
  split
  · exact hGrown
  · split
    · split
      · exact Nat.le_add_right _ _
      · split
        · rw [extent_release]
          exact hGrown
        · exact Nat.le_add_right _ _
    · exact Nat.le_add_right _ _

/- Where the heap may grow by its demand, it is granted. -/
theorem allocate_of_room
    (hRoom :
      16 + extent blocks + (extension request).bytes ≤
        maxHeap) :
    (allocate blocks request).2 ≠ none := by
  have hMax : maxHeap = 20971520 := by decide
  have hAllowed : ¬ Refused blocks (extension request) := by
    unfold Refused
    omega
  cases hSplit :
      Tiling.firstSplit
        (fits (BlockSize.ofRequest request)) blocks with
  | some split =>
      rcases split with ⟨front, block, back⟩
      rw [allocate_fit hSplit]
      exact Option.some_ne_none _
  | none =>
      rw [allocate_extend hSplit hAllowed]
      exact Option.some_ne_none _

end Room

------------------------------------------------------------
-- Every Request is Served
------------------------------------------------------------

section Meets

variable {start : Nat}
variable {ids' : List Nat}
variable {op : Request}
variable {ops : List Request}
variable {size : UInt32}

theorem Tracks.subset
    (hTracks : Tracks client blocks ids)
    (hSubset : ∀ id ∈ ids', id ∈ ids) :
    Tracks client blocks ids' where
  consistent := hTracks.consistent
  aligned := hTracks.aligned
  owned id hId := hTracks.owned id (hSubset id hId)
  distinct id hId other hOther :=
    hTracks.distinct id (hSubset id hId) other
      (hSubset other hOther)

/- Calls do not move the start of the heap. -/
theorem first_after :
    (client.after mmPackage op).world.heap.first =
      client.world.heap.first := by
  cases op with
  | alloc index size => rfl
  | realloc index size => rfl
  | free index => rfl

/- A realloc that the block list does not grant. -/
theorem Tracks.serve_denied
    (hTracks : Tracks client blocks ids)
    (hIndex : index ∈ ids)
    (hDiffer :
      BlockSize.ofRequest (client.table index).size ≠
        BlockSize.ofRequest size.toNat)
    (hNone : (allocate blocks size.toNat).2 = none) :
    (serve client.world.heap.first blocks
      (.realloc (client.table index).address
        size.toNat)).2 = null := by
  have hLive :
      (client.table index).held client.world.mem ∈
        client.process.live :=
    List.mem_map_of_mem (hTracks.owned index hIndex)
  have hNull := hTracks.consistent.ptr_ne_null hLive
  rcases hTracks.consistent.live_split hLive with
    ⟨front, back, rfl, hPtr⟩
  have hLocate :=
    @Consistent.locate_live client.process _ front back
      ⟨BlockSize.ofRequest (client.table index).size, true⟩
      hPtr
  change Tiling.locate Block.bytes
    ((client.table index).address - client.world.heap.first)
    _ = _ at hLocate
  change (client.table index).address ≠ null at hNull
  simp only [Payload.held] at hNone ⊢
  simp only [serve]
  rw [if_neg hNull, hLocate]
  simp only
  rw [if_neg hDiffer, hNone]

/-
  A request for which there is room is served, and there is
  room for the rest of the trace.
-/
theorem Tracks.step
    (hTracks : Tracks client blocks ids)
    (hLegal : Legal ids (op :: ops))
    (hRoom :
      HasRoom client.world.heap.first blocks
        client.addresses (op :: ops)) :
    Served mmPackage client op ∧
      ∃ blocks' ids',
        Tracks (client.after mmPackage op) blocks' ids' ∧
          Legal ids' ops ∧
            HasRoom client.world.heap.first blocks'
              (client.after mmPackage op).addresses ops := by
  cases op with
  | alloc index size =>
      rcases hLegal with ⟨hSize, hRest⟩
      have hGrant :
          (allocate blocks size.toNat).2 ≠ none := by
        rcases hRoom with hGranted | hBytes
        · intro hNone
          simp [granted, callOf, serve, hNone, address,
            null] at hGranted
        · rw [demand] at hBytes
          exact allocate_of_room (by omega)
      rcases
          @Tracks.alloc client blocks ids index size hTracks
            hSize hGrant with
        ⟨hServed, hNext, hAddresses⟩
      refine ⟨hServed, _, _, hNext, hRest, ?_⟩
      rcases hRoom with hGranted | hBytes
      · left
        rw [granted, Bool.and_eq_true] at hGranted
        rw [hAddresses]
        exact hGranted.2
      · right
        have hGrown := @extent_allocate_le blocks size.toNat
        rw [demand] at hBytes
        omega
  | realloc index size =>
      rcases hLegal with ⟨hIndex, hSize, hRest⟩
      have hGrant :
          BlockSize.ofRequest (client.table index).size =
              BlockSize.ofRequest size.toNat ∨
            (allocate blocks size.toNat).2 ≠ none := by
        rcases hRoom with hGranted | hBytes
        · by_contra hDenied
          rw [not_or, not_not] at hDenied
          have hNull :=
            hTracks.serve_denied hIndex hDenied.1 hDenied.2
          rw [granted, Bool.and_eq_true,
            decide_eq_true_eq] at hGranted
          exact hGranted.1 hNull
        · right
          rw [demand] at hBytes
          exact allocate_of_room (by omega)
      rcases hTracks.realloc hIndex hSize hGrant with
        ⟨hServed, blocks', ptr, hNext, hServe, hAddresses⟩
      refine
        ⟨hServed, blocks', ids,
          hNext.subset fun id hId =>
            List.mem_cons_of_mem _ hId,
          hRest, ?_⟩
      rcases hRoom with hGranted | hBytes
      · left
        have hCall :
            serve client.world.heap.first blocks
                (callOf client.addresses
                  (.realloc index size)) =
              (blocks', ptr) :=
          hServe
        rw [granted, hCall, Bool.and_eq_true] at hGranted
        rw [hAddresses]
        exact hGranted.2
      · right
        have hGrown :=
          @extent_serve_realloc_le blocks
            client.world.heap.first size.toNat
            (client.addresses index)
        rw [hServe] at hGrown
        simp only at hGrown
        rw [demand] at hBytes
        omega
  | free index =>
      rcases hLegal with ⟨hIndex, hRest⟩
      rcases hTracks.free hIndex with ⟨hServed, hNext⟩
      refine ⟨hServed, _, _, hNext, hRest, ?_⟩
      rcases hRoom with hGranted | hBytes
      · exact .inl hGranted
      · right
        rw [extent_release]
        exact hBytes

/- A client of mm.c that has room for its trace. -/
def Proceeds
    (state : Client Statics × List Request) :
    Prop :=
  ∃ blocks ids,
    Tracks state.1 blocks ids ∧
      Legal ids state.2 ∧
        HasRoom state.1.world.heap.first blocks
          state.1.addresses state.2

theorem Proceeds.step
    {state state' : Client Statics × List Request}
    {label : Option Request}
    (hProceeds : Proceeds state)
    (hStep : ClientStep mmPackage state label state') :
    Proceeds state' := by
  rcases hProceeds with
    ⟨blocks, ids, hTracks, hLegal, hRoom⟩
  cases hStep with
  | request =>
      rcases hTracks.step hLegal hRoom with
        ⟨_, blocks', ids', hNext, hRest, hLeft⟩
      refine ⟨blocks', ids', hNext, hRest, ?_⟩
      rw [first_after]
      exact hLeft
  | write hLive hSame =>
      exact
        ⟨blocks, ids, hTracks.write hLive hSame, hLegal,
          hRoom⟩

/- A client straight after mm_init. -/
theorem proceeds_start
    {world : World Statics}
    (hEmpty :
      world.memlib.memBrk = world.memlib.memStartBrk)
    (hAligned : world.memlib.memStartBrk % 8 = 0)
    (hLegal : Legal [] ops)
    (hRoom :
      HasRoom world.heap.first
        [⟨BlockSize.chunk, false⟩] (fun _ => null) ops) :
    0 ≤ (mmPackage.mmInit world).2 ∧
      Proceeds (Client.start mmPackage world, ops) := by
  rcases mmInit_empty hEmpty (heap_memMaxAddr world) with
    ⟨heap, hCode, hStart, hRepr⟩
  rcases settle_init hCode mmInit_grows with
    ⟨hGrows, hCall⟩
  change mmPackage.mmInit world = _ at hCall
  have hHeap := heap_withHeap hGrows
  have hFirst :
      (world.withHeap heap hGrows).heap.first =
        world.heap.first := by
    rw [hHeap, Heap.first, Heap.first, hStart]
  unfold Client.start
  rw [hCall]
  refine
    ⟨le_refl _, [⟨BlockSize.chunk, false⟩], [], ?_, hLegal,
      ?_⟩
  · refine
      { consistent := ?_
        aligned := hAligned
        owned := by simp
        distinct := by simp }
    unfold Client.process
    simp only
    rw [hHeap]
    refine ⟨hRepr, ?_, by simp⟩
    exact List.Perm.of_eq (by simp)
  · simp only
    rw [hFirst]
    exact hRoom

/- mm.c meets the specification where the heap has room. -/
theorem mm_meets
    {world : World Statics}
    (hEmpty :
      world.memlib.memBrk = world.memlib.memStartBrk)
    (hAligned : world.memlib.memStartBrk % 8 = 0)
    (hLegal : Legal [] ops)
    (hRoom :
      HasRoom world.heap.first
        [⟨BlockSize.chunk, false⟩] (fun _ => null) ops) :
    MeetsSpec mmPackage world ops := by
  have hStart := proceeds_start hEmpty hAligned hLegal hRoom
  refine ⟨hStart.1, ?_⟩
  intro labels client op ops hRun
  have hProceeds : Proceeds (client, op :: ops) :=
    hRun.invariant Proceeds hStart.2
      fun _ _ _ hHere hStep => hHere.step hStep
  rcases hProceeds with
    ⟨blocks, ids, hTracks, hLegal, hRoom⟩
  exact (hTracks.step hLegal hRoom).1

/-
  eval_mm_valid accepts mm.c on a trace that the heap has room
  for, if and only if the trace reallocates no id whose low
  byte is a negative char.
-/
theorem evalMmValid_accepts_mm
    {driver : Driver Statics}
    (trace : List Request)
    (hAligned : driver.world.memlib.memStartBrk % 8 = 0)
    (hLegal : Legal [] trace)
    (hRoom :
      HasRoom (driver.world.memlib.memStartBrk + 16)
        [⟨BlockSize.chunk, false⟩] (fun _ => null) trace) :
    (∃ driver',
        evalMmValid mmPackage driver trace = .ok driver') ↔
      ∀ index size,
        Request.realloc index size ∈ trace →
          index % 256 < 128 := by
  have hMeets :
      MeetsSpec mmPackage (resetDriver driver).world trace :=
    mm_meets rfl hAligned hLegal hRoom
  have hInit :
      ¬ (mmPackage.mmInit (resetDriver driver).world).2 < 0 :=
    not_lt.mpr hMeets.init
  have hStart :
      InStep driver.blocks driver.blockSizes
        (Client.start mmPackage (resetDriver driver).world)
        [] :=
    ⟨⟨.nil, by simp [Client.start]⟩,
      ⟨by simp, by simp, by simp⟩⟩
  unfold evalMmValid
  rw [if_neg hInit]
  exact hStart.evalOps_ok_iff hMeets.serves hLegal

/- The driver with mm.c before its first trace. -/
def mmDriver : Driver Statics where
  world := ⟨zeroMemlib, ⟨0, 0, 0⟩⟩
  ranges := []
  blocks := fun _ => 0
  blockSizes := fun _ => 0

/- Two blocks, one of which grows and moves. -/
def moveTrace : List Request :=
  [.alloc 0 40, .alloc 1 24, .realloc 0 5000, .free 1]

theorem evalMmValid_accepts_mm_moving :
    ∃ driver',
      evalMmValid mmPackage mmDriver moveTrace =
        .ok driver' := by
  have hLegal : Legal [] moveTrace :=
    ⟨by decide, by decide, by decide, by decide, by decide,
      trivial⟩
  rw [evalMmValid_accepts_mm moveTrace (by decide) hLegal
    (.inr (by decide))]
  intro index size hMember
  simp only [moveTrace, List.mem_cons, reduceCtorEq,
    Request.realloc.injEq, List.not_mem_nil, or_false,
    false_or] at hMember
  omega

end Meets

end Mdriver

end CsappLabs
