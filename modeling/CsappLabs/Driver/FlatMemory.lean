import Mathlib.Order.Interval.Finset.Nat
import CsappLabs.Lib.Transition
import CsappLabs.Driver.Transfer

/-
  The emulated memory against a flat one.

  A flat memory has one byte for each address.  Every run of
  calls on the page table is a run of the same calls, with
  the same results, on a flat memory, and a call fails only
  when the pool has no page left for its addresses.

  Key definitions:
    * `MemCall`, `MemStep`
    * `Flat`, `FlatStep`
    * `Represents`

  Key theorems:
    * `Represents.step`
    * `sparse_memory_is_flat`
-/

------------------------------------------------------------
-- Calls
------------------------------------------------------------

namespace CsappLabs

namespace Driver

open Splay (Stop ok_bind)
open Transition (Run)

/- The calls that a client makes to its memory. -/
inductive MemCall where
| write (addr val len : Nat)
| memset (dst : Nat) (c : Int) (n : Nat)
| memcpy (dst src n : Nat)
| read (addr len : Nat)
| sbrk (incr : Int) (granted : Bool)
| resetBrk

/- (void *) -1 -/
def badAddress : Nat := 2 ^ 64 - 1

namespace MemCall

/- A call, with what it returns, or 0 for nothing. -/
def run (memory : Memory) :
    MemCall → Except Stop (Memory × Nat)
| write addr val len => do
    let memory ← memWrite memory addr val len
    return (memory, 0)
| memset dst c n => do
    let memory ← memMemset memory dst c n
    return (memory, dst)
| memcpy dst src n => do
    let memory ← memMemcpy memory dst src n
    return (memory, dst)
| read addr len => memRead memory addr len
| sbrk incr granted =>
    .ok ((memSbrk memory incr granted).getD
      (memory, badAddress))
| resetBrk => .ok (memResetBrk memory, 0)

/-
  Accesses are to one up to eight bytes of the heap, fills
  and copies to any number, and a copy does not overlap.
-/
def Fits (memBrk : Nat) : MemCall → Prop
| write addr _ len =>
    1 ≤ len ∧ len ≤ 8 ∧ InHeap memBrk addr len
| memset dst _ n => InHeap memBrk dst n
| memcpy dst src n =>
    InHeap memBrk dst n ∧ InHeap memBrk src n ∧
      (src + n ≤ dst ∨ dst + n ≤ src)
| read addr len =>
    1 ≤ len ∧ len ≤ 8 ∧ InHeap memBrk addr len
| sbrk _ _ => True
| resetBrk => True

end MemCall

/- The pages that some addresses lie in. -/
def pagesOf (addr len : Nat) : Finset Nat :=
  (Finset.Ico addr (addr + len)).image pageId

/- The pages that a call accesses. -/
def MemCall.accessed : MemCall → Finset Nat
| write addr _ len => pagesOf addr len
| memset dst _ n => pagesOf dst n
| memcpy dst src n => pagesOf dst n ∪ pagesOf src n
| read addr len => pagesOf addr len
| sbrk _ _ => ∅
| resetBrk => ∅

/- The block of each page in use, as get_mem finds it. -/
def Memory.pages
    (memory : Memory)
    (id : Nat) :
    Option Nat :=
  (chainLoop memory id (memory.numPages + 1)
    (memory.pageTable (id % memory.numBuckets))).toOption.join

/- The byte at an address, where its page is in use. -/
def Memory.byte
    (memory : Memory)
    (addr : Nat) :
    Option UInt8 :=
  contents memory memory.pages addr

/- The pool has too few pages for those that are missing. -/
def Exhausted (memory : Memory) (ids : Finset Nat) : Prop :=
  memory.numFreePages <
    (ids.filter fun id => memory.pages id = none).card

/- A call that returns, with its result. -/
def MemStep
    (memory : Memory)
    (event : MemCall × Nat)
    (memory' : Memory) :
    Prop :=
  event.1.Fits memory.memBrk ∧
    event.1.run memory = .ok (memory', event.2)

------------------------------------------------------------
-- Flat Memory
------------------------------------------------------------

/-
  A break, and the byte last written to each address, with no
  byte where none was written since the last reset.
-/
structure Flat where
  memBrk : Nat
  bytes : Nat → Option UInt8

namespace Flat

/- An empty heap. -/
def empty : Flat where
  memBrk := sparseHeapStart
  bytes := fun _ => none

/- A store of bytes to some addresses and no others. -/
def store
    (flat : Flat)
    (addr len : Nat)
    (byte : Nat → UInt8) :
    Flat :=
  { flat with
    bytes := fun a =>
      if addr ≤ a ∧ a < addr + len then some (byte a)
      else flat.bytes a }

/- All these addresses were written to. -/
def Written (flat : Flat) (addr len : Nat) : Prop :=
  ∀ a, addr ≤ a → a < addr + len → (flat.bytes a).isSome

/- The little-endian value of the bytes at some addresses. -/
def word (flat : Flat) (addr len : Nat) : Nat :=
  ByteMemory.readWord
    (fun a => (flat.bytes a).getD 0) addr len

end Flat

/-
  The calls on flat memory.  What a read returns where
  nothing was written, and what a copy takes from there, is
  left open.
-/
inductive FlatStep : Flat → MemCall × Nat → Flat → Prop
| write {flat : Flat} {addr val len : Nat} :
    FlatStep flat (.write addr val len, 0)
      (flat.store addr len (valueBytes addr val))
| memset {flat : Flat} {dst n : Nat} {c : Int} :
    FlatStep flat (.memset dst c n, dst)
      (flat.store dst n fun _ => UInt8.ofNat (c % 256).toNat)
| memcpy {flat : Flat} {dst src n : Nat}
    {copied : Nat → UInt8} :
    (∀ i b, i < n → flat.bytes (src + i) = some b →
      copied (dst + i) = b) →
    FlatStep flat (.memcpy dst src n, dst)
      (flat.store dst n copied)
| read {flat : Flat} {addr len value : Nat} :
    (flat.Written addr len → value = flat.word addr len) →
    FlatStep flat (.read addr len, value) flat
| sbrk {flat : Flat} {incr : Int} {granted : Bool} :
    0 ≤ incr →
    flat.memBrk + incr ≤ sparseHeapStart + maxSparseHeap →
    FlatStep flat (.sbrk incr granted, flat.memBrk)
      { flat with memBrk := flat.memBrk + incr.toNat }
| sbrkFails {flat : Flat} {incr : Int} {granted : Bool} :
    incr < 0 ∨
      sparseHeapStart + maxSparseHeap < flat.memBrk + incr →
    FlatStep flat (.sbrk incr granted, badAddress) flat
| resetBrk {flat : Flat} :
    FlatStep flat (.resetBrk, 0) Flat.empty

/- The pages in use have what was written. -/
structure Represents
    (memory : Memory)
    (flat : Flat) :
    Prop where
  paged : Paged memory memory.pages
  memBrk : memory.memBrk = flat.memBrk
  memMaxAddr :
    memory.memMaxAddr = sparseHeapStart + maxSparseHeap
  bytes :
    ∀ a b, flat.bytes a = some b →
      sparseHeapStart ≤ a ∧ memory.byte a = some b

------------------------------------------------------------
-- Steps
------------------------------------------------------------

variable {memory memory' : Memory}
variable {pages pages' : Nat → Option Nat}
variable {flat : Flat} {call : MemCall}
variable {addr dst src len n value : Nat}
variable {byte : Nat → UInt8}

theorem Paged.pages_eq (hPaged : Paged memory pages) :
    memory.pages = pages := by
  funext id
  unfold Memory.pages
  rw [hPaged.search]
  rfl

theorem covers_pagesOf : Covers (pagesOf addr len) addr len :=
  fun _ hLow hHigh =>
    Finset.mem_image_of_mem _
      (Finset.mem_Ico.mpr ⟨hLow, hHigh⟩)

theorem Covers.union_left
    {ids other : Finset Nat}
    (hCovers : Covers ids addr len) :
    Covers (ids ∪ other) addr len :=
  fun a hLow hHigh =>
    Finset.mem_union_left _ (hCovers a hLow hHigh)

theorem Covers.union_right
    {ids other : Finset Nat}
    (hCovers : Covers ids addr len) :
    Covers (other ∪ ids) addr len :=
  fun a hLow hHigh =>
    Finset.mem_union_right _ (hCovers a hLow hHigh)

/- The map of the pages is the one of the table. -/
theorem Represents.of_paged
    (hPaged : Paged memory pages)
    (hBreak : memory.memBrk = flat.memBrk)
    (hLimit :
      memory.memMaxAddr = sparseHeapStart + maxSparseHeap)
    (hBytes :
      ∀ a b, flat.bytes a = some b →
        sparseHeapStart ≤ a ∧
          contents memory pages a = some b) :
    Represents memory flat := by
  rcases hPaged.pages_eq with rfl
  exact ⟨hPaged, hBreak, hLimit, hBytes⟩

/- A store on both sides. -/
theorem Represents.store
    (hRep : Represents memory flat)
    (hStores :
      Stores memory memory.pages memory' pages' addr len
        byte)
    (hHeap : sparseHeapStart ≤ addr) :
    Represents memory' (flat.store addr len byte) := by
  refine .of_paged hStores.paged
    (hStores.memBrk.trans hRep.memBrk)
    (hStores.memMaxAddr.trans hRep.memMaxAddr) ?_
  intro a b hByte
  unfold Flat.store at hByte
  dsimp only at hByte
  by_cases hInside : addr ≤ a ∧ a < addr + len
  · rw [if_pos hInside] at hByte
    rw [hStores.inside a hInside.1 hInside.2, hByte]
    exact ⟨by omega, rfl⟩
  · rw [if_neg hInside] at hByte
    rcases hRep.bytes a b hByte with ⟨hLow, hOld⟩
    exact ⟨hLow,
      hStores.outside a b hLow (by omega) hOld⟩

/- Opening pages on one side only. -/
theorem Represents.extends
    (hRep : Represents memory flat)
    (hExtends :
      Extends memory memory.pages memory' pages') :
    Represents memory' flat := by
  refine .of_paged hExtends.paged
    (hExtends.memBrk.trans hRep.memBrk)
    (hExtends.memMaxAddr.trans hRep.memMaxAddr) ?_
  intro a b hByte
  rcases hRep.bytes a b hByte with ⟨hLow, hOld⟩
  exact ⟨hLow, hExtends.contents hOld⟩

/- The bytes that were written are the bytes of the pages. -/
theorem Represents.bytesOf
    {a : Nat} {b : UInt8}
    (hRep : Represents memory flat)
    (hByte : flat.bytes a = some b) :
    bytesOf memory memory.pages a = b := by
  unfold Driver.bytesOf
  rw [show contents memory memory.pages a = some b from
    (hRep.bytes a b hByte).2]
  rfl

theorem Represents.word
    (hRep : Represents memory flat)
    (hWritten : flat.Written addr len) :
    (Driver.bytesOf memory memory.pages).readWord addr len =
      flat.word addr len := by
  apply ByteMemory.readWord_congr
  intro i hi
  rcases
      Option.isSome_iff_exists.mp
        (hWritten (addr + i) (by omega) (by omega)) with
    ⟨b, hByte⟩
  rw [hRep.bytesOf hByte, hByte, Option.getD_some]

/- A call that returns has no other value than this. -/
theorem returned
    {result : Except Stop Memory} {last : Memory × Nat}
    (hRun :
      (result >>= fun memory' => .ok (memory', value)) =
        .ok last) :
    result = .ok last.1 ∧ last.2 = value := by
  cases result with
  | error stop => cases hRun
  | ok memory' =>
      rw [ok_bind] at hRun
      cases hRun
      exact ⟨rfl, rfl⟩

/- The break is no part of the table. -/
theorem Paged.withBreak
    {memBrk : Nat}
    (hPaged : Paged memory pages) :
    Paged { memory with memBrk := memBrk } pages where
  sparse := hPaged.sparse
  heap := hPaged.heap
  buckets := hPaged.buckets
  pool := hPaged.pool
  table := hPaged.table

/- Moving the break, in range or not. -/
theorem Represents.sbrk
    {incr : Int} {granted : Bool}
    (hRep : Represents memory flat) :
    ∃ flat',
      FlatStep flat
          (.sbrk incr granted,
            ((memSbrk memory incr granted).getD
              (memory, badAddress)).2) flat' ∧
        Represents
          ((memSbrk memory incr granted).getD
            (memory, badAddress)).1 flat' := by
  have hBreak := hRep.memBrk
  have hLimit := hRep.memMaxAddr
  have hGranted : ¬(!memory.sparse && !granted) = true := by
    simp [hRep.paged.sparse]
  unfold memSbrk
  by_cases hNegative : incr < 0
  · rw [if_pos hNegative]
    exact ⟨flat, .sbrkFails (.inl hNegative), hRep⟩
  · rw [if_neg hNegative]
    by_cases hBeyond :
        (memory.memMaxAddr : Int) < memory.memBrk + incr
    · rw [if_pos hBeyond]
      exact ⟨flat, .sbrkFails (.inr (by omega)), hRep⟩
    · rw [if_neg hBeyond, if_neg hGranted, Option.getD_some,
        hBreak]
      refine ⟨_, .sbrk (by omega) (by omega), ?_⟩
      exact .of_paged hRep.paged.withBreak rfl hLimit
        hRep.bytes

/- A reset leaves an empty table and an empty heap. -/
theorem represents_memResetBrk
    (hSparse : memory.sparse = true)
    (hHeap : memory.heap = sparseHeapStart)
    (hBuckets : 0 < memory.numBuckets)
    (hLimit :
      memory.memMaxAddr = sparseHeapStart + maxSparseHeap) :
    Represents (memResetBrk memory) Flat.empty := by
  unfold memResetBrk
  rw [if_pos hSparse]
  refine .of_paged
    (@Paged.mk _ (fun _ => none) hSparse hHeap hBuckets
      (Nat.zero_add _)
      ⟨fun _ => [], ChainTable.table_empty, ?_,
        funext fun _ => ChainTable.lookup_empty.symm⟩)
    hHeap hLimit ?_
  · intro b k hMember
    cases hMember
  · intro a b hByte
    cases hByte

/-
  One call on the pages is the same call, with the same
  result, on flat memory.
-/
theorem Represents.step
    (hRep : Represents memory flat)
    (hFits : call.Fits memory.memBrk)
    (hRun : call.run memory = .ok (memory', value)) :
    ∃ flat',
      FlatStep flat (call, value) flat' ∧
        Represents memory' flat' := by
  cases call with
  | write addr val len =>
      rcases hFits with ⟨hPositive, hLen, hIn⟩
      rcases returned hRun with ⟨hWrite, hValue⟩
      obtain rfl : value = 0 := hValue
      rcases
          (memWrite_spec hRep.paged hIn hPositive hLen).of_ok
            hWrite with
        ⟨pages', hStores⟩
      exact ⟨_, .write, hRep.store hStores hIn.1⟩
  | memset dst c n =>
      rcases returned hRun with ⟨hSet, hValue⟩
      obtain rfl : value = dst := hValue
      rcases (memMemset_spec hRep.paged hFits).of_ok hSet with
        ⟨pages', hStores⟩
      exact ⟨_, .memset, hRep.store hStores hFits.1⟩
  | memcpy dst src n =>
      rcases hFits with ⟨hDst, hSrc, hApart⟩
      rcases returned hRun with ⟨hCopy, hValue⟩
      obtain rfl : value = dst := hValue
      rcases
          (memMemcpy_spec hRep.paged hDst hSrc hApart).of_ok
            hCopy with
        ⟨pages', hCopies⟩
      refine ⟨_, .memcpy ?_,
        hRep.store hCopies.stores hDst.1⟩
      intro i b hi hByte
      rcases hRep.bytes _ b hByte with ⟨hLow, hOld⟩
      dsimp only
      rw [Nat.add_sub_cancel_left,
        hCopies.stores.bytesOf hLow (by omega) hOld]
      exact hRep.bytesOf hByte
  | read addr len =>
      rcases hFits with ⟨hPositive, hLen, hIn⟩
      rcases
          (memRead_spec hRep.paged hIn hPositive hLen).of_ok
            hRun with
        ⟨pages', hExtends, hReadable, hValue⟩
      have hRep' := hRep.extends hExtends
      have hPages := hExtends.paged.pages_eq
      refine ⟨flat, .read ?_, hRep'⟩
      intro hWritten
      rw [← hRep'.word hWritten, hPages]
      exact hValue
  | sbrk incr granted =>
      rcases @Represents.sbrk memory flat incr granted hRep with
        ⟨flat', hStep, hRep'⟩
      have hPair := Except.ok.inj hRun
      rw [hPair] at hStep hRep'
      exact ⟨flat', hStep, hRep'⟩
  | resetBrk =>
      rcases Prod.mk.inj (Except.ok.inj hRun) with ⟨rfl, rfl⟩
      exact ⟨_, .resetBrk,
        represents_memResetBrk hRep.paged.sparse
          hRep.paged.heap hRep.paged.buckets
          hRep.memMaxAddr⟩

------------------------------------------------------------
-- Room
------------------------------------------------------------

/- A call returns unless the pool is empty. -/
theorem Outcome.returns
    {α : Type}
    {needs : Finset Nat → Prop} {result : Except Stop α}
    {after : α → Memory}
    {post : α → (Nat → Option Nat) → Prop}
    {ids : Finset Nat}
    (hOutcome :
      Outcome memory memory.pages needs result after post)
    (hNeeds : needs ids) :
    (∃ last, result = .ok last) ∨
      (result = .error .exit ∧ Exhausted memory ids) := by
  rcases hOutcome with
    ⟨hExit, hFull⟩ | ⟨last, _, hValue, _, _⟩
  · exact .inr ⟨hExit, not_le.mp (hFull ids hNeeds)⟩
  · exact .inl ⟨last, hValue⟩

/- The same for a call that has its own value. -/
theorem Outcome.returnsValue
    {needs : Finset Nat → Prop}
    {result : Except Stop Memory}
    {post : Memory → (Nat → Option Nat) → Prop}
    {ids : Finset Nat}
    (hOutcome :
      Outcome memory memory.pages needs result
        (fun memory' => memory') post)
    (hNeeds : needs ids) :
    (∃ memory' last,
        (result >>= fun memory' => .ok (memory', value)) =
          .ok (memory', last)) ∨
      ((result >>= fun memory' => .ok (memory', value)) =
          .error .exit ∧ Exhausted memory ids) := by
  rcases hOutcome.returns hNeeds with
    ⟨memory', hValue⟩ | ⟨hExit, hFull⟩
  · refine .inl ⟨memory', value, ?_⟩
    rw [hValue, ok_bind]
  · refine .inr ⟨?_, hFull⟩
    rw [hExit]
    rfl

theorem Represents.returns
    (hRep : Represents memory flat)
    (hFits : call.Fits memory.memBrk) :
    (∃ memory' value,
        call.run memory = .ok (memory', value)) ∨
      (call.run memory = .error .exit ∧
        Exhausted memory call.accessed) := by
  cases call with
  | write addr val len =>
      rcases hFits with ⟨hPositive, hLen, hIn⟩
      exact (memWrite_spec hRep.paged hIn hPositive
        hLen).returnsValue covers_pagesOf
  | memset dst c n =>
      exact (memMemset_spec hRep.paged hFits).returnsValue
        covers_pagesOf
  | memcpy dst src n =>
      rcases hFits with ⟨hDst, hSrc, hApart⟩
      exact (memMemcpy_spec hRep.paged hDst hSrc
        hApart).returnsValue
        ⟨covers_pagesOf.union_left,
          covers_pagesOf.union_right⟩
  | read addr len =>
      rcases hFits with ⟨hPositive, hLen, hIn⟩
      rcases
        (memRead_spec hRep.paged hIn hPositive hLen).returns
          covers_pagesOf with
        ⟨last, hValue⟩ | hFull
      · exact .inl ⟨last.1, last.2, hValue⟩
      · exact .inr hFull
  | sbrk incr granted => exact .inl ⟨_, _, rfl⟩
  | resetBrk => exact .inl ⟨_, _, rfl⟩

/- The pages of written bytes are all in use. -/
theorem Represents.not_exhausted
    (hRep : Represents memory flat)
    (hWritten : flat.Written addr len) :
    ¬Exhausted memory (pagesOf addr len) := by
  have hNone :
      ((pagesOf addr len).filter fun id =>
        memory.pages id = none) = ∅ := by
    apply Finset.filter_eq_empty_iff.mpr
    intro id hMember hMissing
    rcases Finset.mem_image.mp hMember with ⟨a, hRange, rfl⟩
    rcases Finset.mem_Ico.mp hRange with ⟨hLow, hHigh⟩
    rcases
        Option.isSome_iff_exists.mp (hWritten a hLow hHigh) with
      ⟨b, hByte⟩
    have hAt := (hRep.bytes a b hByte).2
    unfold Memory.byte contents at hAt
    rw [hMissing] at hAt
    cases hAt
  unfold Exhausted
  rw [hNone, Finset.card_empty]
  exact Nat.not_lt_zero _

/- A read of written bytes returns their value. -/
theorem Represents.read
    (hRep : Represents memory flat)
    (hPositive : 1 ≤ len)
    (hLen : len ≤ 8)
    (hIn : InHeap memory.memBrk addr len)
    (hWritten : flat.Written addr len) :
    ∃ memory',
      memRead memory addr len =
        .ok (memory', flat.word addr len) := by
  have hFits :
      (MemCall.read addr len).Fits memory.memBrk :=
    ⟨hPositive, hLen, hIn⟩
  rcases hRep.returns hFits with
    ⟨memory', value, hRun⟩ | ⟨_, hFull⟩
  · rcases hRep.step hFits hRun with ⟨flat', hStep, _⟩
    cases hStep with
    | read hValue =>
        rw [← hValue hWritten]
        exact ⟨memory', hRun⟩
  · exact absurd hFull (hRep.not_exhausted hWritten)

/- A write keeps every other byte. -/
theorem Represents.frame
    {val a : Nat} {b : UInt8}
    (hRep : Represents memory flat)
    (hPositive : 1 ≤ len)
    (hLen : len ≤ 8)
    (hIn : InHeap memory.memBrk addr len)
    (hWrite : memWrite memory addr val len = .ok memory')
    (hHeap : sparseHeapStart ≤ a)
    (hApart : a < addr ∨ addr + len ≤ a)
    (hByte : memory.byte a = some b) :
    memory'.byte a = some b := by
  rcases
      (memWrite_spec hRep.paged hIn hPositive hLen).of_ok
        hWrite with
    ⟨pages', hStores⟩
  unfold Memory.byte
  rw [hStores.paged.pages_eq]
  exact hStores.outside a b hHeap hApart hByte

------------------------------------------------------------
-- Runs
------------------------------------------------------------

/-
  Every run of calls is one on flat memory.  After it, a call
  returns unless the pool has no page for it, a read of
  written bytes returns their little-endian value, and a
  write changes no byte outside its range.
-/
theorem sparse_memory_is_flat
    {process : ByteMemory}
    {events : List (MemCall × Nat)}
    {memory : Memory}
    (hRun : Run MemStep (memInit process) events memory) :
    ∃ flat,
      Run FlatStep Flat.empty events flat ∧
        Represents memory flat ∧
        (∀ call : MemCall, call.Fits memory.memBrk →
          (∃ memory' value,
              call.run memory = .ok (memory', value)) ∨
            (call.run memory = .error .exit ∧
              Exhausted memory call.accessed)) ∧
        (∀ addr len, 1 ≤ len → len ≤ 8 →
          InHeap memory.memBrk addr len →
          flat.Written addr len →
          ∃ memory',
            memRead memory addr len =
              .ok (memory', flat.word addr len)) ∧
        ∀ addr val len memory', 1 ≤ len → len ≤ 8 →
          InHeap memory.memBrk addr len →
          memWrite memory addr val len = .ok memory' →
          ∀ a b, sparseHeapStart ≤ a →
            a < addr ∨ addr + len ≤ a →
            memory.byte a = some b →
            memory'.byte a = some b := by
  have hBuckets :
      0 < 10 * maxDenseHeap / (10 * 1040 + 8) / 10 := by
    decide
  have hStart : Represents (memInit process) Flat.empty :=
    represents_memResetBrk rfl rfl hBuckets rfl
  rcases
      hRun.simulation Represents hStart
        fun _ _ _ _ hRep hStep => hRep.step hStep.1 hStep.2 with
    ⟨flat, hFlat, hRep⟩
  refine ⟨flat, hFlat, hRep, ?_, ?_, ?_⟩
  · intro call hFits
    exact hRep.returns hFits
  · intro addr len hPositive hLen hIn hWritten
    exact hRep.read hPositive hLen hIn hWritten
  · intro addr val len memory' hPositive hLen hIn hWrite
      a b hHeap hApart hByte
    exact hRep.frame hPositive hLen hIn hWrite hHeap hApart
      hByte

/-
  A heap of two pages, a word over the end of the first, and
  a read of its middle.
-/
def straddling : List (MemCall × Nat) :=
  [(.sbrk 2048 true, sparseHeapStart),
    (.write (sparseHeapStart + 1020) 0x1122334455667788 8,
      0),
    (.read (sparseHeapStart + 1022) 4, 0x33445566)]

/- The heap of two pages. -/
def twoPages : Memory :=
  { memInit (fun _ => 0) with
    memBrk := sparseHeapStart + 2048 }

theorem memSbrk_twoPages :
    memSbrk (memInit fun _ => 0) 2048 true =
      some (twoPages, sparseHeapStart) := by
  unfold memSbrk
  rw [if_neg (by decide), if_neg (by decide),
    if_neg (by decide)]
  rfl

theorem memStep_sbrk :
    MemStep (memInit fun _ => 0)
      (.sbrk 2048 true, sparseHeapStart) twoPages := by
  refine ⟨trivial, ?_⟩
  dsimp only
  rw [MemCall.run, memSbrk_twoPages]
  rfl

theorem memStep_twoPages :
    ∃ memory memory',
      MemStep twoPages
          (.write (sparseHeapStart + 1020) 0x1122334455667788
            8, 0) memory ∧
        MemStep memory
          (.read (sparseHeapStart + 1022) 4, 0x33445566)
          memory' :=
  ⟨_, _, ⟨⟨by decide, by decide, by decide⟩, rfl⟩,
    ⟨⟨by decide, by decide, by decide⟩, rfl⟩⟩

theorem sparse_memory_is_flat_straddling :
    ∃ memory,
      Run MemStep (memInit fun _ => 0) straddling memory ∧
        ∃ flat,
          Run FlatStep Flat.empty straddling flat ∧
            Represents memory flat := by
  rcases memStep_twoPages with ⟨written, memory, hWrite, hRead⟩
  have hRun :
      Run MemStep (memInit fun _ => 0) straddling memory :=
    ((Run.nil.snoc memStep_sbrk).snoc hWrite).snoc hRead
  rcases sparse_memory_is_flat hRun with ⟨flat, hFlat, hRep, _⟩
  exact ⟨memory, hRun, flat, hFlat, hRep⟩

end Driver

end CsappLabs
