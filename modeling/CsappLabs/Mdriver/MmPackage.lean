import CsappLabs.Malloc.Operations
import CsappLabs.Mdriver.EvalMmValid

/-
  mm.c as a package of the malloc driver.

  The simulated memory is memlib's and the three static
  variables are the package's own.  No function of mm.c moves
  the ends of the memory, and the break only goes up, so what
  a call leaves is a memory of memlib again.

  Key definitions include:
    * `Statics`, `World.heap`
    * `Grows`
    * `mmPackage`

  Key theorems include:
    * `mmMalloc_grows`, `mmRealloc_grows`
    * `mmFree_grows`, `mmInit_grows`
-/

------------------------------------------------------------
-- The Break
------------------------------------------------------------

namespace CsappLabs

namespace Mdriver

open Malloc

/- The static variables of mm.c. -/
structure Statics where
  heapListp : Nat
  startBrk : Nat
  finalBrk : Nat

/- The process as mm.c sees it. -/
def World.heap (world : World Statics) : Heap where
  mem := world.memlib.mem
  memStartBrk := world.memlib.memStartBrk
  memBrk := world.memlib.memBrk
  memMaxAddr := world.memlib.memStartBrk + maxHeap
  heapListp := world.own.heapListp
  startBrk := world.own.startBrk
  finalBrk := world.own.finalBrk

theorem heap_memMaxAddr
    (world : World Statics) :
    world.heap.memMaxAddr =
      world.heap.memStartBrk + maxHeap := by
  rw [World.heap]

/- The ends stay, and the break goes up at most to the end. -/
structure Grows (heap heap' : Heap) : Prop where
  start : heap'.memStartBrk = heap.memStartBrk
  maxAddr : heap'.memMaxAddr = heap.memMaxAddr
  up : heap.memBrk ≤ heap'.memBrk
  bounded :
    heap.memBrk ≤ heap.memMaxAddr →
      heap'.memBrk ≤ heap.memMaxAddr

namespace Grows

variable {heap heap' heap'' : Heap}

theorem of_eq
    (hStart : heap'.memStartBrk = heap.memStartBrk)
    (hMaxAddr : heap'.memMaxAddr = heap.memMaxAddr)
    (hBrk : heap'.memBrk = heap.memBrk) :
    Grows heap heap' where
  start := hStart
  maxAddr := hMaxAddr
  up := Nat.le_of_eq hBrk.symm
  bounded hBelow := hBrk.symm ▸ hBelow

theorem refl : Grows heap heap := of_eq rfl rfl rfl

theorem trans
    (hFirst : Grows heap heap')
    (hSecond : Grows heap' heap'') :
    Grows heap heap'' where
  start := hSecond.start.trans hFirst.start
  maxAddr := hSecond.maxAddr.trans hFirst.maxAddr
  up := Nat.le_trans hFirst.up hSecond.up
  bounded hBelow := by
    have hMiddle := hFirst.bounded hBelow
    rw [← hFirst.maxAddr] at hMiddle ⊢
    exact hSecond.bounded hMiddle

end Grows

------------------------------------------------------------
-- The Functions of mm.c
------------------------------------------------------------

variable {heap heap' : Heap}

theorem put_grows
    {p value : Nat}
    (hGrows : Grows heap heap') :
    Grows heap (put heap' p value) :=
  hGrows.trans (.of_eq rfl rfl rfl)

theorem memcpy_grows
    {target source count : Nat}
    (hGrows : Grows heap heap') :
    Grows heap (memcpy heap' target source count) :=
  hGrows.trans (.of_eq rfl rfl rfl)

theorem coalesce_grows (bp : Nat) :
    Grows heap (coalesce heap bp).1 := by
  unfold coalesce
  simp only
  split_ifs
  · exact .refl
  · exact .refl
  · exact put_grows (put_grows .refl)
  · exact put_grows (put_grows .refl)
  · exact put_grows (put_grows .refl)

theorem memSbrk_grows
    {incr : Int}
    {old : Nat}
    (hSbrk : memSbrk heap incr = some (heap', old)) :
    Grows heap heap' := by
  unfold memSbrk at hSbrk
  split at hSbrk
  · cases hSbrk
  · cases hSbrk
    refine ⟨rfl, rfl, Nat.le_add_right _ _, fun _ => ?_⟩
    change heap.memBrk + incr.toNat ≤ heap.memMaxAddr
    omega

theorem extendHeap_grows (words : Nat) :
    Grows heap (extendHeap heap words).1 := by
  unfold extendHeap
  simp only
  generalize
    (if words % 2 ≠ 0 then u32 (u32 (words + 1) * wsize)
      else u32 (words * wsize)) = size
  cases hSbrk : memSbrk heap (asInt size) with
  | none => exact .refl
  | some result =>
      rcases result with ⟨middle, bp⟩
      have hMiddle := memSbrk_grows hSbrk
      refine Grows.trans ?_ (coalesce_grows bp)
      refine put_grows (put_grows (put_grows ?_))
      exact hMiddle.trans (.of_eq rfl rfl rfl)

theorem place_grows (bp asize : Nat) :
    Grows heap (place heap bp asize).heap := by
  unfold place
  simp only
  split_ifs
  · exact put_grows (put_grows (put_grows (put_grows .refl)))
  · exact put_grows (put_grows .refl)
  · exact put_grows (put_grows (put_grows (put_grows .refl)))
  · exact put_grows (put_grows .refl)

/- A call and then another. -/
theorem andThen_grows
    {α β : Type}
    {outcome : Outcome α}
    {next : Heap → α → Outcome β}
    (hFirst : Grows heap outcome.heap)
    (hNext : ∀ middle a, Grows middle (next middle a).heap) :
    Grows heap (outcome.andThen next).heap := by
  cases outcome with
  | ret middle a => exact hFirst.trans (hNext middle a)
  | exit middle code => exact hFirst
  | lost middle => exact hFirst

theorem ite_grows
    {α : Type}
    {p : Prop}
    [Decidable p]
    {first second : Outcome α}
    (hThen : Grows heap first.heap)
    (hElse : Grows heap second.heap) :
    Grows heap (if p then first else second).heap := by
  split_ifs
  · exact hThen
  · exact hElse

theorem mmMalloc_grows (size : Nat) :
    Grows heap (mmMalloc heap size).heap := by
  unfold mmMalloc
  simp only
  refine ite_grows .refl ?_
  cases findFit heap (adjustSize size) with
  | none => exact .refl
  | some bp =>
      refine ite_grows ?_ (ite_grows ?_ ?_)
      · exact andThen_grows (place_grows _ _)
          fun _ _ => .refl
      · exact extendHeap_grows _
      · exact andThen_grows
          ((extendHeap_grows _).trans (place_grows _ _))
          fun _ _ => .refl

theorem mmFree_grows (bp : Nat) :
    Grows heap (mmFree heap bp) := by
  unfold mmFree
  simp only
  split_ifs
  · exact .refl
  · exact (put_grows (put_grows .refl)).trans
      (coalesce_grows bp)

theorem reallocInPlace_grows
    (oldptr asize oldSize copySize : Nat) :
    Grows heap
      (reallocInPlace heap oldptr asize oldSize
        copySize).heap := by
  have hFour :
      ∀ a b c d v w x y,
        Grows heap
          (put (put (put (put heap a v) b w) c x) d y) :=
    fun _ _ _ _ _ _ _ _ =>
      put_grows (put_grows (put_grows (put_grows .refl)))
  have hTwo :
      ∀ a b v w, Grows heap (put (put heap a v) b w) :=
    fun _ _ _ _ => put_grows (put_grows .refl)
  unfold reallocInPlace
  refine ite_grows ?_ (ite_grows ?_ .refl)
  · refine ite_grows .refl (ite_grows ?_ (ite_grows ?_ .refl))
    · refine ite_grows ?_ (hTwo _ _ _ _)
      exact (hFour _ _ _ _ _ _ _ _).trans (coalesce_grows _)
    · refine ite_grows ?_ (hTwo _ _ _ _)
      refine memcpy_grows ?_
      exact (hFour _ _ _ _ _ _ _ _).trans (coalesce_grows _)
  · exact (hFour _ _ _ _ _ _ _ _).trans (coalesce_grows _)

theorem mmRealloc_grows (ptr size : Nat) :
    Grows heap (mmRealloc heap ptr size).heap := by
  unfold mmRealloc
  refine ite_grows (mmMalloc_grows size)
    (ite_grows (mmFree_grows ptr) (ite_grows .refl ?_))
  refine andThen_grows (mmMalloc_grows size)
    fun middle newptr => ?_
  refine ite_grows (reallocInPlace_grows _ _ _ _) ?_
  exact (memcpy_grows .refl).trans (mmFree_grows ptr)

theorem storeEmptyHeap_grows (listp : Nat) :
    Grows heap (storeEmptyHeap heap listp) :=
  .of_eq rfl rfl rfl

theorem fst_of_eq
    {α β : Type}
    {pair : α × β}
    {a : α}
    {b : β}
    (hPair : pair = (a, b)) :
    pair.1 = a := by
  rw [hPair]

theorem mmInit_grows :
    Grows heap (mmInit heap).1 := by
  cases hSbrk : memSbrk heap (asInt (4 * wsize)) with
  | none =>
      unfold mmInit
      rw [hSbrk]
      exact .of_eq rfl rfl rfl
  | some result =>
      rcases result with ⟨middle, listp⟩
      have hMiddle := memSbrk_grows hSbrk
      have hStored :=
        hMiddle.trans (storeEmptyHeap_grows listp)
      rw [fst_of_eq (mmInit_of_memSbrk hSbrk)]
      exact hStored.trans (extendHeap_grows _)

------------------------------------------------------------
-- The Package
------------------------------------------------------------

/- The world that a call leaves. -/
def World.withHeap
    (world : World Statics)
    (heap : Heap)
    (hGrows : Grows world.heap heap) :
    World Statics where
  memlib :=
    { mem := heap.mem
      memStartBrk := world.memlib.memStartBrk
      memBrk := heap.memBrk
      nonnull := world.memlib.nonnull
      grown := Nat.le_trans world.memlib.grown hGrows.up
      bounded := hGrows.bounded world.memlib.bounded
      addressable := world.memlib.addressable }
  own :=
    { heapListp := heap.heapListp
      startBrk := heap.startBrk
      finalBrk := heap.finalBrk }

/-
  The value of a call.  A call that exits or never ends has
  none; NULL stands for it, which the driver does not accept.
-/
def outcomeValue : Outcome Nat → Nat
  | .ret _ p => p
  | .exit _ _ => null
  | .lost _ => null

/- mm_init, mm_malloc, mm_realloc and mm_free of mm.c. -/
def mmPackage : Package Statics where
  mmInit world :=
    (world.withHeap (mmInit world.heap).1 mmInit_grows,
      (mmInit world.heap).2)
  mmMalloc world size :=
    (world.withHeap (mmMalloc world.heap size).heap
        (mmMalloc_grows size),
      outcomeValue (mmMalloc world.heap size))
  mmRealloc world ptr size :=
    (world.withHeap (mmRealloc world.heap ptr size).heap
        (mmRealloc_grows ptr size),
      outcomeValue (mmRealloc world.heap ptr size))
  mmFree world ptr :=
    world.withHeap (mmFree world.heap ptr)
      (mmFree_grows ptr)

/- The heap of such a world is the one that the call left. -/
theorem heap_withHeap
    {world : World Statics}
    (hGrows : Grows world.heap heap) :
    (world.withHeap heap hGrows).heap = heap := by
  have hStart := hGrows.start
  have hMaxAddr := hGrows.maxAddr
  cases heap
  simp only [World.heap, World.withHeap] at hStart hMaxAddr ⊢
  rw [hStart, hMaxAddr]

end Mdriver

end CsappLabs
