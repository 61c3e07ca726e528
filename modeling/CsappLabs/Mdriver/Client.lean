import CsappLabs.Mdriver.EvalMmValid
import Mathlib.Data.List.Basic

/-
  What a malloc package promises the clients that follow a
  trace.

  A client holds the payloads that the package gave it and has
  not taken back, and writes what it likes into them between
  its calls.  A package meets the specification on a trace if
  it serves each request of each such client: with a payload
  that is aligned, in the heap and apart from the live ones,
  and without touching these.

  Key definitions include:
    * `Payload`, `Client`
    * `Placed`, `Served`
    * `ClientStep`, `MeetsSpec`
    * `Owns`, `Holds`

  Key theorems include:
    * `Placed.addRange`
    * `removeRange_live`
    * `Holds.placed`
-/

------------------------------------------------------------
-- Payloads
------------------------------------------------------------

namespace CsappLabs

namespace Mdriver

open Malloc (null asInt)
open Transition (Run)

structure Payload where
  address : Nat
  size : Nat
  deriving DecidableEq, Repr

/- The range that the driver records for a payload. -/
def Payload.range (payload : Payload) : Range :=
  ⟨payload.address, payload.address + payload.size - 1⟩

/- No byte in common. -/
def Payload.Apart (left right : Payload) : Prop :=
  left.address + left.size ≤ right.address ∨
    right.address + right.size ≤ left.address

/- The payloads keep their bytes. -/
def Untouched
    (before after : ByteMemory)
    (payloads : List Payload) :
    Prop :=
  ∀ payload ∈ payloads,
    after.SameOn before payload.address
      (payload.address + payload.size)

/- A payload as the specification wants it. -/
structure Placed
    (memlib : Memlib)
    (others : List Payload)
    (payload : Payload) :
    Prop where
  nonnull : payload.address ≠ null
  aligned : payload.address % 8 = 0
  above : memHeapLo memlib ≤ payload.address
  below :
    payload.address + payload.size ≤ memHeapHi memlib + 1
  apart : ∀ other ∈ others, payload.Apart other

------------------------------------------------------------
-- Clients
------------------------------------------------------------

variable {σ : Type}

/- The live payloads, and the last payload of each id. -/
structure Client (σ : Type) where
  world : World σ
  live : List Payload
  table : Nat → Payload

/- The client after it has put a payload under an id. -/
def Client.store
    (client : Client σ)
    (world : World σ)
    (others : List Payload)
    (index : Nat)
    (payload : Payload) :
    Client σ where
  world := world
  live := payload :: others
  table := Function.update client.table index payload

/- The payloads other than that of an id. -/
def Client.others
    (client : Client σ)
    (index : Nat) :
    List Payload :=
  client.live.erase (client.table index)

/- The client after its request. -/
def Client.after
    (pkg : Package σ)
    (client : Client σ) :
    Request → Client σ
  | .alloc index size =>
      let result := pkg.mmMalloc client.world size.toNat
      client.store result.1 client.live index
        ⟨result.2, size.toNat⟩
  | .realloc index size =>
      let result :=
        pkg.mmRealloc client.world
          (client.table index).address size.toNat
      client.store result.1 (client.others index) index
        ⟨result.2, size.toNat⟩
  | .free index =>
      { client with
        world :=
          pkg.mmFree client.world
            (client.table index).address
        live := client.others index }

/- The package does for a request what it should. -/
def Served
    (pkg : Package σ)
    (client : Client σ) :
    Request → Prop
  | .alloc _ size =>
      let result := pkg.mmMalloc client.world size.toNat
      Placed result.1.memlib client.live
          ⟨result.2, size.toNat⟩ ∧
        Untouched client.world.mem result.1.mem client.live
  | .realloc index size =>
      let old := client.table index
      let result :=
        pkg.mmRealloc client.world old.address size.toNat
      Placed result.1.memlib (client.others index)
          ⟨result.2, size.toNat⟩ ∧
        Untouched client.world.mem result.1.mem
            (client.others index) ∧
          ∀ j, j < min old.size size.toNat →
            result.1.mem (result.2 + j) =
              client.world.mem (old.address + j)
  | .free index =>
      Untouched client.world.mem
        (pkg.mmFree client.world
          (client.table index).address).mem
        (client.others index)

/-
  One step of a client of a trace: its next request, or a
  change of the bytes of a live payload.
-/
inductive ClientStep
    (pkg : Package σ) :
    Client σ × List Request → Option Request →
      Client σ × List Request → Prop where
  | request
      {client : Client σ}
      {op : Request}
      {ops : List Request} :
      ClientStep pkg (client, op :: ops) (some op)
        (client.after pkg op, ops)
  | write
      {client : Client σ}
      {payload : Payload}
      {mem : ByteMemory}
      {ops : List Request} :
      payload ∈ client.live →
      mem.SameOutside client.world.mem payload.address
        (payload.address + payload.size) →
      ClientStep pkg (client, ops) none
        ({ client with world := client.world.withMem mem },
          ops)

/- Every request that such a client makes is served. -/
def Serves
    (pkg : Package σ)
    (client : Client σ)
    (ops : List Request) :
    Prop :=
  ∀ labels client' op ops',
    Run (ClientStep pkg) (client, ops) labels
        (client', op :: ops') →
      Served pkg client' op

/- A client straight after mm_init. -/
def Client.start
    (pkg : Package σ)
    (world : World σ) :
    Client σ where
  world := (pkg.mmInit world).1
  live := []
  table := fun _ => ⟨null, 0⟩

/- The specification, on the requests of a trace. -/
structure MeetsSpec
    (pkg : Package σ)
    (world : World σ)
    (trace : List Request) :
    Prop where
  init : 0 ≤ (pkg.mmInit world).2
  serves : Serves pkg (.start pkg world) trace

/-
  Sizes are positive ints, and the ids that realloc and free
  name are live.
-/
def Legal :
    List Nat → List Request → Prop
  | _, [] => True
  | ids, .alloc index size :: ops =>
      0 < asInt size.toNat ∧ Legal (index :: ids) ops
  | ids, .realloc index size :: ops =>
      index ∈ ids ∧ 0 < asInt size.toNat ∧ Legal ids ops
  | ids, .free index :: ops =>
      index ∈ ids ∧ Legal (ids.filter (· ≠ index)) ops

------------------------------------------------------------
-- Recording a Payload
------------------------------------------------------------

variable {memlib : Memlib}
variable {live others : List Payload}
variable {payload old : Payload}

theorem Payload.Apart.symm
    {left right : Payload}
    (hApart : left.Apart right) :
    right.Apart left :=
  Or.symm hApart

theorem Payload.range_le
    (hPositive : 0 < payload.size) :
    payload.range.lo ≤ payload.range.hi := by
  change payload.address ≤ payload.address + payload.size - 1
  omega

/- The ranges of such payloads have no address in common. -/
theorem Payload.apart_iff_disjoint
    {left right : Payload}
    (hLeft : 0 < left.size)
    (hRight : 0 < right.size) :
    left.Apart right ↔
      Disjoint left.range.addresses
        right.range.addresses := by
  unfold Range.addresses
  rw [Interval.disjoint_iff_apart (range_le hLeft)
    (range_le hRight)]
  unfold Payload.Apart Payload.range
  simp only
  omega

theorem Payload.Apart.not_endIn
    {other : Payload}
    (hApart : payload.Apart other)
    (hPositive : 0 < payload.size)
    (hOther : 0 < other.size) :
    ¬ Interval.EndIn payload.range.lo payload.range.hi
        other.range.lo other.range.hi := by
  have hDisjoint :=
    (Payload.apart_iff_disjoint hPositive hOther).mp hApart
  exact
    ((Interval.disjoint_iff_ends
      (Payload.range_le hPositive)).mp hDisjoint).1

/- add_range accepts what the specification promises. -/
theorem Placed.addRange
    (hPlaced : Placed memlib others payload)
    (hPositive : 0 < payload.size)
    (hInt : payload.size < 2 ^ 31)
    (hOthers : ∀ other ∈ others, 0 < other.size) :
    addRange memlib (others.map Payload.range)
        payload.address payload.size =
      .ok ((payload :: others).map Payload.range) := by
  have hBelow := hPlaced.below
  rw [addRange_ok_iff hPositive hInt]
  refine ⟨⟨hPlaced.aligned, hPlaced.above, ?_, ?_⟩, rfl⟩
  · omega
  · intro range hMem
    rcases List.mem_map.mp hMem with ⟨other, hOther, rfl⟩
    exact
      (hPlaced.apart other hOther).not_endIn hPositive
        (hOthers other hOther)

/- The live payloads of a client. -/
structure Proper (live : List Payload) : Prop where
  apart : live.Pairwise Payload.Apart
  positive : ∀ payload ∈ live, 0 < payload.size

theorem Proper.erase
    (hProper : Proper live)
    (old : Payload) :
    Proper (live.erase old) where
  apart :=
    List.Pairwise.sublist List.erase_sublist hProper.apart
  positive payload hMem :=
    hProper.positive payload (List.mem_of_mem_erase hMem)

theorem Proper.cons
    (hProper : Proper live)
    (hPlaced : Placed memlib live payload)
    (hPositive : 0 < payload.size) :
    Proper (payload :: live) where
  apart :=
    List.pairwise_cons.mpr ⟨hPlaced.apart, hProper.apart⟩
  positive :=
    List.forall_mem_cons.mpr ⟨hPositive, hProper.positive⟩

/- remove_range takes out the record of a live payload. -/
theorem removeRange_live
    (hProper : Proper live)
    (hOld : old ∈ live) :
    removeRange (live.map Payload.range) old.address =
      (live.erase old).map Payload.range := by
  induction live with
  | nil => cases hOld
  | cons head live ih =>
      rcases List.pairwise_cons.mp hProper.apart with
        ⟨hHead, hApart⟩
      rcases List.forall_mem_cons.mp hProper.positive with
        ⟨hPositive, hRest⟩
      rw [List.map_cons, removeRange, List.erase_cons]
      by_cases hSame : head = old
      · rw [if_pos (by rw [hSame]; rfl),
          if_pos (by rw [hSame]; exact beq_self_eq_true old)]
      · have hMem : old ∈ live := by
          rcases List.mem_cons.mp hOld with hEq | hMem
          · exact absurd hEq.symm hSame
          · exact hMem
        have hOldPositive := hRest old hMem
        have hNe : head.range.lo ≠ old.address := by
          have hBetween := hHead old hMem
          unfold Payload.Apart at hBetween
          unfold Payload.range
          simp only
          omega
        rw [if_neg hNe, if_neg (by simpa using hSame),
          List.map_cons, ih ⟨hApart, hRest⟩ hMem]

------------------------------------------------------------
-- What the Driver Knows
------------------------------------------------------------

/- The byte that fills the payload of an id. -/
def fillByte (index : Nat) : UInt8 :=
  UInt8.ofNat (index &&& 0xFF)

/- The driver's arrays and the payload of an id. -/
structure Owns
    (mem : ByteMemory)
    (blocks blockSizes : Nat → Nat)
    (payload : Payload)
    (id : Nat) :
    Prop where
  block : blocks id = payload.address
  blockSize : blockSizes id = payload.size
  int : payload.size < 2 ^ 31
  filled :
    ∀ j, j < payload.size →
      mem (payload.address + j) = fillByte id

/- The live ids have payloads of their own. -/
structure Holds
    (mem : ByteMemory)
    (blocks blockSizes : Nat → Nat)
    (live : List Payload)
    (table : Nat → Payload)
    (ids : List Nat) :
    Prop where
  owned : ∀ id ∈ ids, table id ∈ live
  distinct :
    ∀ id ∈ ids, ∀ other ∈ ids,
      id ≠ other → table id ≠ table other
  owns :
    ∀ id ∈ ids, Owns mem blocks blockSizes (table id) id

variable {mem mem' : ByteMemory}
variable {blocks blockSizes : Nat → Nat}
variable {table : Nat → Payload}
variable {ids ids' : List Nat}
variable {index : Nat}

theorem Holds.subset
    (hHolds : Holds mem blocks blockSizes live table ids)
    (hSubset : ∀ id ∈ ids', id ∈ ids) :
    Holds mem blocks blockSizes live table ids' where
  owned id hId := hHolds.owned id (hSubset id hId)
  distinct id hId other hOther :=
    hHolds.distinct id (hSubset id hId) other
      (hSubset other hOther)
  owns id hId := hHolds.owns id (hSubset id hId)

theorem not_mem_without :
    index ∉ ids.filter (· ≠ index) := by
  simp

theorem mem_cons_without :
    ∀ id ∈ index :: ids,
      id ∈ index :: ids.filter (· ≠ index) := by
  intro id hId
  by_cases hEq : id = index
  · exact hEq ▸ List.mem_cons_self
  · simp only [List.mem_cons, hEq, false_or] at hId ⊢
    exact List.mem_filter.mpr ⟨hId, by simpa using hEq⟩

/- Without an id its payload need not be live. -/
theorem Holds.erase
    (hHolds : Holds mem blocks blockSizes live table ids)
    (hIndex : index ∈ ids) :
    Holds mem blocks blockSizes (live.erase (table index))
      table (ids.filter (· ≠ index)) where
  owned id hId := by
    simp only [List.mem_filter, decide_eq_true_eq] at hId
    have hNe :=
      hHolds.distinct id hId.1 index hIndex hId.2
    exact
      (List.mem_erase_of_ne hNe).mpr
        (hHolds.owned id hId.1)
  distinct id hId other hOther :=
    hHolds.distinct id (List.mem_of_mem_filter hId) other
      (List.mem_of_mem_filter hOther)
  owns id hId :=
    hHolds.owns id (List.mem_of_mem_filter hId)

theorem Holds.untouched
    (hHolds : Holds mem blocks blockSizes live table ids)
    (hSame : Untouched mem mem' live) :
    Holds mem' blocks blockSizes live table ids where
  owned := hHolds.owned
  distinct := hHolds.distinct
  owns id hId := by
    have hOwns := hHolds.owns id hId
    refine
      ⟨hOwns.block, hOwns.blockSize, hOwns.int, ?_⟩
    intro j hJ
    rw [hSame _ (hHolds.owned id hId) _ (by omega)
      (by omega)]
    exact hOwns.filled j hJ

theorem memset_inside
    {p n j : Nat}
    {c : UInt8}
    (hIndex : j < n) :
    memset mem p c n (p + j) = c := by
  unfold memset
  rw [if_pos (by omega)]

theorem memset_sameOutside
    {p n : Nat}
    {c : UInt8} :
    (memset mem p c n).SameOutside mem p (p + n) := by
  intro a hOutside
  unfold memset
  rw [if_neg (by omega)]

/- Filling a payload leaves those apart from it alone. -/
theorem Placed.untouched
    (hPlaced : Placed memlib others payload)
    (c : UInt8) :
    Untouched mem
      (memset mem payload.address c payload.size)
      others := by
  intro other hOther
  apply memset_sameOutside.sameOn
  exact (hPlaced.apart other hOther).symm

/- The new payload of an id, filled and remembered. -/
theorem Holds.placed
    (hHolds : Holds mem blocks blockSizes others table ids)
    (hPlaced : Placed memlib others payload)
    (hPositive : 0 < payload.size)
    (hInt : payload.size < 2 ^ 31)
    (hIndex : index ∉ ids) :
    Holds
      (memset mem payload.address (fillByte index)
        payload.size)
      (Function.update blocks index payload.address)
      (Function.update blockSizes index payload.size)
      (payload :: others)
      (Function.update table index payload)
      (index :: ids) := by
  have hKept :=
    hHolds.untouched (hPlaced.untouched (fillByte index))
  have hNe {id : Nat} (hId : id ∈ ids) : id ≠ index :=
    fun hEq => hIndex (hEq ▸ hId)
  have hFresh : payload ∉ others := by
    intro hMem
    have hApart := hPlaced.apart payload hMem
    unfold Payload.Apart at hApart
    omega
  refine ⟨?_, ?_, ?_⟩
  · intro id hId
    rcases List.mem_cons.mp hId with rfl | hId
    · rw [Function.update_self]
      exact List.mem_cons_self
    · rw [Function.update_of_ne (hNe hId)]
      exact List.mem_cons_of_mem _ (hKept.owned id hId)
  · intro id hId other hOther hDiffer
    rcases List.mem_cons.mp hId with rfl | hOld
    · rcases List.mem_cons.mp hOther with rfl | hOther
      · exact absurd rfl hDiffer
      · rw [Function.update_self,
          Function.update_of_ne (hNe hOther)]
        intro hEq
        exact hFresh (hEq ▸ hKept.owned other hOther)
    · rw [Function.update_of_ne (hNe hOld)]
      rcases List.mem_cons.mp hOther with rfl | hOther
      · rw [Function.update_self]
        intro hEq
        exact hFresh (hEq ▸ hKept.owned id hOld)
      · rw [Function.update_of_ne (hNe hOther)]
        exact hKept.distinct id hOld other hOther hDiffer
  · intro id hId
    rcases List.mem_cons.mp hId with rfl | hId
    · rw [Function.update_self]
      refine
        ⟨Function.update_self _ _ _,
          Function.update_self _ _ _, hInt, ?_⟩
      exact fun j hJ => memset_inside hJ
    · have hOwns := hKept.owns id hId
      rw [Function.update_of_ne (hNe hId)]
      refine ⟨?_, ?_, hOwns.int, hOwns.filled⟩
      · rw [Function.update_of_ne (hNe hId)]
        exact hOwns.block
      · rw [Function.update_of_ne (hNe hId)]
        exact hOwns.blockSize

end Mdriver

end CsappLabs
