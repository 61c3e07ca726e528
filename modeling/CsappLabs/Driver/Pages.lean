import Mathlib.Data.Finset.Card
import CsappLabs.Lib.ChainTable
import CsappLabs.Splay.Rotate
import CsappLabs.Driver.SparseMemory

/-
  The page table as a partial map from page ids to blocks.

  An access finds the block of its page, takes a new block
  from the pool for it, or exits because the pool is empty.
  In every case the pages that were mapped stay where they
  are, with the bytes they have.

  Key definitions:
    * `Paged`, `contents`
    * `Room`, `Extends`
    * `Outcome`

  Key theorems:
    * `Outcome.bind`
    * `getMem_spec`
-/

------------------------------------------------------------
-- The Page Table
------------------------------------------------------------

namespace CsappLabs

namespace Driver

open Splay (Ptr Stop ok_bind)
open ChainTable

/-
  The hash table maps the ids of the pages in use to their
  blocks, which lie in the part of the pool given out.
-/
structure Paged
    (memory : Memory)
    (pages : Nat → Option Nat) :
    Prop where
  sparse : memory.sparse = true
  heap : memory.heap = sparseHeapStart
  buckets : 0 < memory.numBuckets
  pool :
    memory.nextFreePage + memory.numFreePages =
      memory.numPages
  table :
    ∃ chains,
      Table (· % memory.numBuckets) memory.pageTable
          (fun k => (memory.blocks k).next)
          (fun k => (memory.blocks k).id) chains ∧
        (∀ b, ∀ k ∈ chains b, k < memory.nextFreePage) ∧
        pages =
          lookup (· % memory.numBuckets)
            (fun k => (memory.blocks k).id) chains

/- Where an address lies in its page. -/
def pageOffset (addr : Nat) : Nat :=
  addr - pageStart (pageId addr)

/- The byte that the emulation has at an address. -/
def contents
    (memory : Memory)
    (pages : Nat → Option Nat)
    (addr : Nat) :
    Option UInt8 :=
  (pages (pageId addr)).map fun k =>
    (memory.blocks k).bytes (pageOffset addr)

/- The pool has enough pages for those of `ids`. -/
def Room
    (memory : Memory)
    (pages : Nat → Option Nat)
    (ids : Finset Nat) :
    Prop :=
  (ids.filter fun id => pages id = none).card ≤
    memory.numFreePages

/-
  More pages may be in use, but those that were have the same
  blocks, and all blocks have the same bytes.
-/
structure Extends
    (memory : Memory)
    (pages : Nat → Option Nat)
    (memory' : Memory)
    (pages' : Nat → Option Nat) :
    Prop where
  paged : Paged memory' pages'
  memBrk : memory'.memBrk = memory.memBrk
  memMaxAddr : memory'.memMaxAddr = memory.memMaxAddr
  kept : ∀ id k, pages id = some k → pages' id = some k
  bytes :
    ∀ k, (memory'.blocks k).bytes = (memory.blocks k).bytes

variable {memory memory' : Memory}
variable {pages pages' : Nat → Option Nat}
variable {ids : Finset Nat}
variable {addr id k : Nat} {byte : UInt8}

namespace Paged

theorem refl (hPaged : Paged memory pages) :
    Extends memory pages memory pages where
  paged := hPaged
  memBrk := rfl
  memMaxAddr := rfl
  kept := fun _ _ hPage => hPage
  bytes := fun _ => rfl

/- Different pages have different blocks. -/
theorem inj
    {id' : Nat}
    (hPaged : Paged memory pages)
    (hPage : pages id = some k)
    (hOther : pages id' = some k) :
    id = id' := by
  rcases hPaged.table with ⟨chains, hTable, _, rfl⟩
  exact hTable.lookup_inj hPage hOther

end Paged

/- What was readable stays so. -/
theorem Extends.contents
    (hExtends : Extends memory pages memory' pages')
    (hByte : contents memory pages addr = some byte) :
    Driver.contents memory' pages' addr = some byte := by
  unfold Driver.contents at hByte ⊢
  rcases Option.map_eq_some_iff.mp hByte with ⟨k, hPage, hAt⟩
  rw [hExtends.kept _ k hPage, Option.map_some,
    hExtends.bytes, hAt]

theorem Extends.trans
    {memory'' : Memory} {pages'' : Nat → Option Nat}
    (hFirst : Extends memory pages memory' pages')
    (hSecond : Extends memory' pages' memory'' pages'') :
    Extends memory pages memory'' pages'' where
  paged := hSecond.paged
  memBrk := hSecond.memBrk.trans hFirst.memBrk
  memMaxAddr := hSecond.memMaxAddr.trans hFirst.memMaxAddr
  kept := fun id k hPage =>
    hSecond.kept id k (hFirst.kept id k hPage)
  bytes := fun k => (hSecond.bytes k).trans (hFirst.bytes k)

------------------------------------------------------------
-- Outcomes
------------------------------------------------------------

/-
  How a call ends.  It exits, which it does only without room
  for the pages it needs, or it returns, and then the pages
  it was promised are still there for the calls after it.
-/
def Outcome
    {α : Type}
    (memory : Memory)
    (pages : Nat → Option Nat)
    (needs : Finset Nat → Prop)
    (result : Except Stop α)
    (after : α → Memory)
    (post : α → (Nat → Option Nat) → Prop) :
    Prop :=
  (result = .error .exit ∧
      ∀ ids, needs ids → ¬Room memory pages ids) ∨
    ∃ value pages',
      result = .ok value ∧ post value pages' ∧
        ∀ ids, needs ids → Room memory pages ids →
          Room (after value) pages' ids

namespace Outcome

variable {α β : Type}
variable {needs needs₁ : Finset Nat → Prop}
variable {first : Except Stop α} {result : Except Stop β}
variable {next : α → Except Stop β}
variable {after₁ : α → Memory} {after : β → Memory}
variable {post₁ : α → (Nat → Option Nat) → Prop}
variable {post post' : β → (Nat → Option Nat) → Prop}

/- A call that takes no page. -/
theorem ok
    {value : β}
    (hPost : post value pages)
    (hFree :
      (after value).numFreePages = memory.numFreePages) :
    Outcome memory pages needs (.ok value) after post := by
  refine .inr ⟨value, pages, rfl, hPost, ?_⟩
  intro ids _ hRoom
  unfold Room
  rwa [hFree]

/- One call after another. -/
theorem bind
    (hFirst : Outcome memory pages needs₁ first after₁ post₁)
    (hNeeds : ∀ ids, needs ids → needs₁ ids)
    (hNext :
      ∀ value pages₁, post₁ value pages₁ →
        Outcome (after₁ value) pages₁ needs (next value)
          after post) :
    Outcome memory pages needs (first >>= next) after
      post := by
  rcases hFirst with
    ⟨hExit, hFull⟩ | ⟨value, pages₁, hValue, hPost₁, hRoom₁⟩
  · refine .inl ⟨?_, fun ids hIds =>
      hFull ids (hNeeds ids hIds)⟩
    rw [hExit]
    rfl
  · rw [hValue, ok_bind]
    rcases hNext value pages₁ hPost₁ with
      ⟨hExit, hFull⟩ | ⟨last, pages₂, hLast, hPost, hRoom⟩
    · exact .inl ⟨hExit, fun ids hIds hThere =>
        hFull ids hIds (hRoom₁ ids (hNeeds ids hIds) hThere)⟩
    · exact .inr ⟨last, pages₂, hLast, hPost,
        fun ids hIds hThere =>
          hRoom ids hIds
            (hRoom₁ ids (hNeeds ids hIds) hThere)⟩

/- A stronger need and a weaker postcondition. -/
theorem mono
    (hOutcome : Outcome memory pages needs₁ result after post)
    (hNeeds : ∀ ids, needs ids → needs₁ ids)
    (hPost :
      ∀ value pages', post value pages' →
        post' value pages') :
    Outcome memory pages needs result after post' := by
  rcases hOutcome with
    ⟨hExit, hFull⟩ | ⟨value, pages', hValue, hHolds, hRoom⟩
  · exact .inl ⟨hExit, fun ids hIds =>
      hFull ids (hNeeds ids hIds)⟩
  · exact .inr ⟨value, pages', hValue,
      hPost value pages' hHolds, fun ids hIds =>
        hRoom ids (hNeeds ids hIds)⟩

/- What a call that returns has achieved. -/
theorem of_ok
    {last : β}
    (hOutcome : Outcome memory pages needs result after post)
    (hReturns : result = .ok last) :
    ∃ pages', post last pages' := by
  rcases hOutcome with
    ⟨hExit, _⟩ | ⟨value, pages', hValue, hPost, _⟩
  · rw [hReturns] at hExit
    cases hExit
  · rw [hReturns] at hValue
    cases hValue
    exact ⟨pages', hPost⟩

end Outcome

------------------------------------------------------------
-- Access To A Page
------------------------------------------------------------

/- The loop finds the first block with the id. -/
theorem chainLoop_spec
    {head : Ptr} {chain : List Nat} {fuel : Nat}
    (hChained :
      Chained (fun k => (memory.blocks k).next) head chain)
    (hFuel : chain.length < fuel) :
    chainLoop memory id fuel head =
      .ok (chain.find? fun k =>
        decide ((memory.blocks k).id = id)) := by
  induction chain generalizing head fuel with
  | nil =>
      rcases
          Nat.exists_eq_add_one_of_ne_zero
            (Nat.ne_zero_of_lt hFuel) with
        ⟨fuel, rfl⟩
      rw [show head = none from hChained]
      rfl
  | cons loc rest ih =>
      rcases
          Nat.exists_eq_add_one_of_ne_zero
            (Nat.ne_zero_of_lt hFuel) with
        ⟨fuel, rfl⟩
      rcases hChained with ⟨hHead, hRest⟩
      rw [hHead, chainLoop]
      by_cases hId : (memory.blocks loc).id = id
      · rw [if_pos hId,
          List.find?_cons_of_pos (by simpa using hId)]
      · rw [if_neg hId,
          List.find?_cons_of_neg (by simpa using hId)]
        exact ih hRest (Nat.lt_of_succ_lt_succ hFuel)

/- A chain has at most the blocks given out. -/
theorem length_chain_le
    {chain : List Nat} {bound : Nat}
    (hNodup : chain.Nodup)
    (hBelow : ∀ k ∈ chain, k < bound) :
    chain.length ≤ bound := by
  have hSub : chain ⊆ List.range bound := fun k hMember =>
    List.mem_range.mpr (hBelow k hMember)
  have hLength :=
    (List.subperm_of_subset hNodup hSub).length_le
  rwa [List.length_range] at hLength

/- The search of get_mem is a lookup in the map. -/
theorem Paged.search
    (hPaged : Paged memory pages)
    (id : Nat) :
    chainLoop memory id (memory.numPages + 1)
        (memory.pageTable (id % memory.numBuckets)) =
      .ok (pages id) := by
  rcases hPaged.table with ⟨chains, hTable, hUsed, rfl⟩
  have hLength :=
    length_chain_le
      (hTable.nodup (id % memory.numBuckets)) (hUsed _)
  have hPool := hPaged.pool
  rw [chainLoop_spec (hTable.chained _) (by omega)]
  rfl

/- The fields of the blocks with a new page. -/
theorem newPage_id {b : Nat} :
    (fun k => ((newPage memory id b).blocks k).id) =
      Function.update (fun k => (memory.blocks k).id)
        memory.nextFreePage id := by
  funext k
  by_cases hBlock : k = memory.nextFreePage <;>
    simp [newPage, Memory.modifyBlock, Function.update,
      hBlock]

theorem newPage_next {b : Nat} :
    (fun k => ((newPage memory id b).blocks k).next) =
      Function.update (fun k => (memory.blocks k).next)
        memory.nextFreePage (memory.pageTable b) := by
  funext k
  by_cases hBlock : k = memory.nextFreePage <;>
    simp [newPage, Memory.modifyBlock, Function.update,
      hBlock]

theorem newPage_bytes {b : Nat} :
    ((newPage memory id b).blocks k).bytes =
      (memory.blocks k).bytes := by
  by_cases hBlock : k = memory.nextFreePage <;>
    simp [newPage, Memory.modifyBlock, Function.update,
      hBlock]

/- A page taken from the pool. -/
theorem Paged.newPage
    (hPaged : Paged memory pages)
    (hMissing : pages id = none)
    (hFree : memory.numFreePages ≠ 0) :
    Paged
      (newPage memory id (id % memory.numBuckets))
      (Function.update pages id
        (some memory.nextFreePage)) := by
  rcases hPaged.table with ⟨chains, hTable, hUsed, rfl⟩
  have hFresh : ∀ b, memory.nextFreePage ∉ chains b :=
    fun b hMember =>
      absurd (hUsed b _ hMember) (lt_irrefl _)
  have hPool := hPaged.pool
  refine ⟨hPaged.sparse, hPaged.heap, hPaged.buckets, ?_,
    Function.update chains (id % memory.numBuckets)
      (memory.nextFreePage ::
        chains (id % memory.numBuckets)), ?_, ?_, ?_⟩
  · change memory.nextFreePage + 1 +
      (memory.numFreePages - 1) = memory.numPages
    omega
  · rw [newPage_id, newPage_next]
    exact hTable.insert hFresh hMissing
  · intro b k hMember
    change k < memory.nextFreePage + 1
    by_cases hBucket : b = id % memory.numBuckets
    · rw [hBucket, Function.update_self] at hMember
      rcases List.mem_cons.mp hMember with rfl | hRest
      · omega
      · have hBelow := hUsed _ k hRest
        omega
    · rw [Function.update_of_ne hBucket] at hMember
      have hBelow := hUsed b k hMember
      omega
  · rw [newPage_id]
    exact (hTable.lookup_insert hFresh hMissing).symm

/- A page that was missing is now the newest. -/
theorem Paged.extendsNew
    (hPaged : Paged memory pages)
    (hMissing : pages id = none)
    (hFree : memory.numFreePages ≠ 0) :
    Extends memory pages
      (Driver.newPage memory id (id % memory.numBuckets))
      (Function.update pages id
        (some memory.nextFreePage)) where
  paged := hPaged.newPage hMissing hFree
  memBrk := rfl
  memMaxAddr := rfl
  kept := by
    intro other k hPage
    have hNe : other ≠ id := by
      rintro rfl
      rw [hMissing] at hPage
      cases hPage
    rw [Function.update_of_ne hNe, hPage]
  bytes := fun _ => newPage_bytes

/- Taking a page that is needed leaves enough for the rest. -/
theorem Room.newPage
    (hRoom : Room memory pages ids)
    (hNeeded : id ∈ ids)
    (hMissing : pages id = none) :
    memory.numFreePages ≠ 0 ∧
      Room
        (Driver.newPage memory id
          (id % memory.numBuckets))
        (Function.update pages id
          (some memory.nextFreePage)) ids := by
  have hFilter :
      (ids.filter fun other =>
          Function.update pages id
            (some memory.nextFreePage) other = none) =
        (ids.filter fun other =>
          pages other = none).erase id := by
    ext other
    by_cases hOther : other = id
    · simp [hOther]
    · simp [hOther]
  have hMember :
      id ∈ ids.filter fun other => pages other = none := by
    simp [hNeeded, hMissing]
  have hCard := Finset.card_erase_of_mem hMember
  have hPositive := Finset.card_pos.mpr ⟨id, hMember⟩
  unfold Room at hRoom ⊢
  rw [hFilter, hCard]
  change _ ∧ _ ≤ memory.numFreePages - 1
  omega

/-
  get_mem gives the place of the address, in the page that
  it had or in a new one.
-/
theorem getMem_spec
    (hPaged : Paged memory pages)
    (addr : Nat) :
    Outcome memory pages (fun ids => pageId addr ∈ ids)
      (getMem memory addr) (fun opened => opened.1)
      fun opened pages' =>
        opened.2.2 = pageOffset addr ∧
          Extends memory pages opened.1 pages' ∧
          pages' (pageId addr) = some opened.2.1 := by
  have hSearch := hPaged.search (pageId addr)
  unfold getMem
  cases hPage : pages (pageId addr) with
  | some k =>
      refine .inr ⟨(memory, k, pageOffset addr), pages, ?_,
        ⟨rfl, hPaged.refl, hPage⟩, fun _ _ hRoom => hRoom⟩
      simp only [hSearch, hPage, ok_bind]
      rfl
  | none =>
      by_cases hFree : memory.numFreePages = 0
      · refine .inl ⟨?_, fun ids hNeeded hRoom =>
          (hRoom.newPage hNeeded hPage).1 hFree⟩
        simp only [hSearch, hPage, ok_bind, hFree, if_true]
      · refine .inr ⟨(_, memory.nextFreePage,
            pageOffset addr), _, ?_,
          ⟨rfl, hPaged.extendsNew hPage hFree, by simp⟩,
          fun ids hNeeded hRoom =>
            (hRoom.newPage hNeeded hPage).2⟩
        simp only [hSearch, hPage, ok_bind, hFree, if_false]
        rfl

end Driver

end CsappLabs
