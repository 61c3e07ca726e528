import CsappLabs.Recitation.Client

/-
  The walk over the heap of mm.c.

  Whoever follows find_next from heap_start meets blocks with
  equal tags and ends at the epilogue, in every run in which
  split_block finds the footer of each remainder.  It looks
  for the footer through the old word at the remainder, and
  that word may say anything.

  Key definitions:
    * `WellTiled`

  Key theorems:
    * `blocks_tile_heap`
    * `stale_word_untiles_heap`
-/

------------------------------------------------------------
-- Walking the Heap
------------------------------------------------------------

namespace CsappLabs

namespace Recitation

/- From `p` on the heap is tiled by well-formed blocks. -/
inductive WellTiled
    (heap : Heap) :
    Nat → Prop where
  | epilogue :
      get heap (heap.memBrk - wsize) = pack 0 true →
      WellTiled heap (heap.memBrk - wsize)
  | block
      {p : Nat} :
      getSize heap p % 16 = 0 →
      minBlockSize ≤ getSize heap p →
      get heap (headerToFooter heap p) = get heap p →
      findNext heap p = p + getSize heap p →
      WellTiled heap (findNext heap p) →
      WellTiled heap p

/- The blocks of a represented heap tile it. -/
theorem Represents.wellTiled_from
    {heap : Heap}
    {front back : List Block}
    (hHeap : Represents heap (front ++ back)) :
    WellTiled heap (heap.first + extent front) := by
  induction back generalizing front with
  | nil =>
      have hBrk := hHeap.memBrk
      have hFirst : heap.first = heap.heapLo + 8 := rfl
      have hAddress :
          heap.first + extent front =
            heap.memBrk - wsize := by
        rw [List.append_nil] at hBrk
        unfold wsize
        omega
      rw [hAddress]
      exact .epilogue hHeap.epilogue
  | cons block back ih =>
      have hAround := hHeap.around
      have hLimit := hAround.limit
      have hLeast := block.bytes_least
      have hTagged :
          Tagged heap.mem (heap.first + extent front)
            block :=
        hHeap.tagged _ _ (by simp)
      have hSplit :
          front ++ block :: back =
            (front ++ [block]) ++ back := by
        simp
      rw [hSplit] at hHeap
      have hRest := ih hHeap
      rw [extent_append, extent_cons, extent_nil,
        Nat.add_zero, ← Nat.add_assoc] at hRest
      have hFooter :
          headerToFooter heap (heap.first + extent front) =
            heap.first + extent front + block.bytes - 8 := by
        simp only [headerToFooter, hAround.getSize_eq,
          hAround.payload_eq, sub64, dsize, wsize]
        omega
      refine .block ?_ ?_ ?_ ?_ ?_
      · rw [hAround.getSize_eq]
        exact block.bytes_mod
      · rw [hAround.getSize_eq]
        exact hLeast
      · rw [hFooter, hAround.header]
        exact hTagged.footer
      · rw [hAround.findNext_eq, hAround.getSize_eq]
      · rw [hAround.findNext_eq]
        exact hRest

theorem Represents.wellTiled
    {heap : Heap}
    {blocks : List Block}
    (hHeap : Represents heap blocks) :
    WellTiled heap heap.heapStart := by
  rw [hHeap.heapStart]
  exact @Represents.wellTiled_from heap [] blocks hHeap

/- Runs of a client whose every malloc splits correctly. -/
def SplittingStep
    (version : Version)
    (world : World)
    (label : Call × Nat)
    (world' : World) :
    Prop :=
  Step version world label world' ∧
    label.1.Splits world.heap

theorem blocks_tile_heap
    {heap : Heap}
    {labels : List (Call × Nat)}
    {world : World}
    (hFresh : Fresh heap)
    (hInit : (mmInit .mm heap).2 = true)
    (hRun :
      Transition.Run (SplittingStep .mm)
        (World.ofInit .mm heap) labels world) :
    WellTiled world.heap world.heap.heapStart := by
  have hConsistent :
      ∃ blocks, Consistent world blocks := by
    apply hRun.invariant
      (fun world => ∃ blocks, Consistent world blocks)
    · exact hFresh.consistent hInit
    · rintro w label w' ⟨blocks, hWorld⟩
        ⟨hStep, hSplits⟩
      exact hStep.consistent (fun _ => hSplits) hWorld
  rcases hConsistent with ⟨blocks, hWorld⟩
  exact hWorld.heap.wellTiled

/- The tags of a block that is not the epilogue agree. -/
theorem WellTiled.footer_eq
    {heap : Heap}
    {p : Nat}
    (hTiled : WellTiled heap p)
    (hNe : p ≠ heap.memBrk - wsize) :
    get heap (headerToFooter heap p) = get heap p := by
  cases hTiled with
  | epilogue => exact absurd rfl hNe
  | block _ _ hFooter _ _ => exact hFooter

------------------------------------------------------------
-- A Stale Word
------------------------------------------------------------

/- A region of zero bytes of which none is in use. -/
def zeroRegion : Heap where
  mem := fun _ => 0
  heapLo := 4096
  memBrk := 4096
  memMaxAddr := 1048576
  osGrants := fun _ => true
  osCalls := 0
  heapStart := null
  overrun := false

theorem zeroRegion_fresh :
    Fresh zeroRegion where
  memBrk := rfl
  lo := by
    decide
  maxAddr := by
    decide

theorem zeroRegion_init
    (version : Version) :
    (mmInit version zeroRegion).2 = true := by
  cases version with
  | mm => decide +kernel
  | mm2 => decide +kernel

/- The first call of a client, straight after mm_init. -/
def firstMalloc
    (version : Version)
    (size : Nat) :
    Option (Heap × Nat) :=
  malloc version (mmInit version zeroRegion).1 size

/-
  The same region, but the word at 4136 names what malloc(16)
  leaves of the first chunk.
-/
def namedRegion : Heap :=
  { zeroRegion with
    mem := zeroRegion.mem.writeWord 4136 8 4064 }

theorem namedRegion_fresh :
    Fresh namedRegion where
  memBrk := rfl
  lo := by
    decide
  maxAddr := by
    decide

theorem namedRegion_init :
    (mmInit .mm namedRegion).2 = true := by
  decide +kernel

/- malloc(16) splits the first chunk correctly there. -/
theorem namedRegion_splits :
    ∃ heap ptr,
      SplittingStep .mm (World.ofInit .mm namedRegion)
        (.malloc 16, ptr) ⟨heap, gain ptr []⟩ := by
  have hSome :
      (malloc .mm (mmInit .mm namedRegion).1 16).isSome =
        true := by
    decide +kernel
  rcases Option.isSome_iff_exists.mp hSome with
    ⟨⟨heap, ptr⟩, hMalloc⟩
  have hChosen :
      chosen (mmInit .mm namedRegion).1 (adjusted 16) =
        some (4104, 4096) := by
    decide +kernel
  have hWord :
      extractSize
          (get (mmInit .mm namedRegion).1
            (4104 + adjusted 16)) =
        4096 - adjusted 16 := by
    decide +kernel
  have hSplits :
      (Call.malloc 16).Splits
        (World.ofInit .mm namedRegion).heap := by
    intro _
    change Splits (mmInit .mm namedRegion).1 16
    unfold Splits
    rw [hChosen]
    exact fun _ => hWord
  have hUnwrapped : (Call.malloc 16).Unwrapped := by
    unfold Call.Unwrapped
    decide
  exact ⟨heap, ptr, .malloc hUnwrapped hMalloc, hSplits⟩

/- A run whose malloc splits the first chunk. -/
theorem blocks_tile_heap_split :
    ∃ labels world,
      labels ≠ [] ∧
        Transition.Run (SplittingStep .mm)
          (World.ofInit .mm namedRegion) labels world ∧
          WellTiled world.heap world.heap.heapStart := by
  rcases namedRegion_splits with ⟨heap, ptr, hStep⟩
  have hRun :
      Transition.Run (SplittingStep .mm)
        (World.ofInit .mm namedRegion)
        [(.malloc 16, ptr)] ⟨heap, gain ptr []⟩ :=
    .snoc .nil hStep
  exact ⟨_, _, List.cons_ne_nil _ _, hRun,
    blocks_tile_heap namedRegion_fresh namedRegion_init
      hRun⟩

/-
  malloc(16) on zeroed memory: the old word at the remainder
  is 0, and its footer lands on the footer of the block in
  front of it.
-/
theorem stale_word_untiles_heap :
    ∃ heap labels world,
      Fresh heap ∧
        (mmInit .mm heap).2 = true ∧
          Transition.Run (Step .mm) (World.ofInit .mm heap)
            labels world ∧
            ¬ WellTiled world.heap world.heap.heapStart := by
  have hSome : (firstMalloc .mm 16).isSome = true := by
    decide +kernel
  rcases Option.isSome_iff_exists.mp hSome with
    ⟨⟨heap, ptr⟩, hMalloc⟩
  have hBroken :
      (firstMalloc .mm 16).all (fun result =>
        decide
          (result.1.heapStart ≠ result.1.memBrk - wsize ∧
            get result.1
                (headerToFooter result.1
                  result.1.heapStart) ≠
              get result.1 result.1.heapStart)) = true := by
    decide +kernel
  rw [hMalloc, Option.all_some, decide_eq_true_iff]
    at hBroken
  have hUnwrapped : (Call.malloc 16).Unwrapped := by
    unfold Call.Unwrapped
    decide
  refine ⟨zeroRegion, [(.malloc 16, ptr)],
    ⟨heap, gain ptr []⟩, zeroRegion_fresh,
    zeroRegion_init .mm,
    .snoc .nil (.malloc hUnwrapped hMalloc), ?_⟩
  intro hTiled
  exact hBroken.2 (hTiled.footer_eq hBroken.1)

end Recitation

end CsappLabs
