import CsappLabs.Mdriver.Client

/-
  Does eval_mm_valid accept every correct package?

  The driver is a client of the package.  It fills the payload
  of each id with the low byte of the id, and after mm_realloc
  compares that byte as an int with chars, which are signed.
  From 128 on the two never agree.  On any other trace the
  driver reports nothing about a package that meets the
  specification.

  Key definitions include:
    * `InStep`, `Follows`

  Key theorems include:
    * `Owns.comparePayload_ok_iff`
    * `InStep.alloc`, `InStep.realloc`, `InStep.free`
    * `evalMmValid_ok_iff`
-/

------------------------------------------------------------
-- The Comparison
------------------------------------------------------------

namespace CsappLabs

namespace Mdriver

open Malloc (null asInt maxHeap)
open Transition (Run)

variable {σ : Type}
variable {pkg : Package σ}
variable {driver driver' : Driver σ}
variable {client client' : Client σ}
variable {memlib : Memlib}
variable {others : List Payload}
variable {payload : Payload}
variable {ids : List Nat}
variable {ops : List Request}
variable {op : Request}
variable {index : Nat}
variable {size : UInt32}

theorem signedChar_fillByte_iff :
    signedChar (fillByte index) =
        ((index &&& 0xFF : Nat) : Int) ↔
      index % 256 < 128 := by
  have hMask : index &&& 0xFF = index % 256 :=
    Nat.and_two_pow_sub_one_eq_mod index 8
  have hByte : (fillByte index).toNat = index % 256 := by
    rw [fillByte, UInt8.toNat_ofNat', hMask]
    omega
  unfold signedChar
  rw [hByte, hMask]
  split
  · omega
  · omega

/- The loop finds the fill byte, or stops at once. -/
theorem comparePayload_iff
    {newp count : Nat}
    (hBytes :
      0 < oldBytes count (driver.blockSizes index))
    (hFilled :
      ∀ j, j < oldBytes count (driver.blockSizes index) →
        driver.world.mem (newp + j) = fillByte index) :
    comparePayload driver index newp count = .ok () ↔
      index % 256 < 128 := by
  have hAll :
      ((List.range
          (oldBytes count (driver.blockSizes index))).all
        fun j =>
          signedChar (driver.world.mem (newp + j)) ==
            ((index &&& 0xFF : Nat) : Int)) = true ↔
        index % 256 < 128 := by
    rw [List.all_eq_true, ← signedChar_fillByte_iff]
    constructor
    · intro hEach
      have hFirst := hEach 0 (List.mem_range.mpr hBytes)
      rw [hFilled 0 hBytes] at hFirst
      exact eq_of_beq hFirst
    · intro hSame j hMem
      rw [hFilled j (List.mem_range.mp hMem)]
      exact beq_iff_eq.mpr hSame
  unfold comparePayload
  rw [← hAll]
  simp

/- Of two positive ints the loop takes the lesser one. -/
theorem oldBytes_eq
    {count old : Nat}
    (hCount : count < 2 ^ 31)
    (hOld : old < 2 ^ 31) :
    oldBytes count old = min old count := by
  unfold oldBytes
  rw [asInt_of_lt hCount, asInt_of_lt hOld]
  split
  · omega
  · omega

------------------------------------------------------------
-- The Driver is a Client
------------------------------------------------------------

variable {blocks blockSizes : Nat → Nat}

/- The driver of a client: it records the live payloads. -/
def Client.asDriver
    (client : Client σ)
    (blocks blockSizes : Nat → Nat) :
    Driver σ where
  world := client.world
  ranges := client.live.map Payload.range
  blocks := blocks
  blockSizes := blockSizes

/- The arrays agree with what the client holds. -/
structure InStep
    (blocks blockSizes : Nat → Nat)
    (client : Client σ)
    (ids : List Nat) :
    Prop where
  proper : Proper client.live
  holds :
    Holds client.world.mem blocks blockSizes client.live
      client.table ids

/- The operation succeeds, as steps of the client. -/
def Follows
    (pkg : Package σ)
    (driver : Driver σ)
    (client : Client σ)
    (op : Request)
    (ops : List Request)
    (ids : List Nat) :
    Prop :=
  ∃ blocks blockSizes client' labels,
    evalOp pkg driver op =
        .ok (client'.asDriver blocks blockSizes) ∧
      Run (ClientStep pkg) (client, op :: ops) labels
          (client', ops) ∧
        InStep blocks blockSizes client' ids

/- The client after it has filled a payload. -/
def Client.filled
    (client : Client σ)
    (index : Nat)
    (payload : Payload) :
    Client σ :=
  { client with
    world :=
      client.world.withMem
        (memset client.world.mem payload.address
          (fillByte index) payload.size) }

/- A request that stores a payload, and its filling. -/
theorem Client.run_filled
    {world : World σ}
    (hAfter :
      client.after pkg op =
        client.store world others index payload) :
    Run (ClientStep pkg) (client, op :: ops)
      [some op, none]
      ((client.store world others index payload).filled
        index payload, ops) := by
  rw [← hAfter]
  refine
    .snoc (.snoc .nil .request)
      (.write ?_ memset_sameOutside)
  rw [hAfter]
  exact List.mem_cons_self

theorem callMalloc_driver
    {count p : Nat}
    {world : World σ}
    (hCall : pkg.mmMalloc client.world count = (world, p))
    (hNonnull : p ≠ null) :
    callMalloc pkg (client.asDriver blocks blockSizes) count =
      .ok
        (Client.asDriver { client with world := world }
          blocks blockSizes, p) :=
  callMalloc_ok_iff.mpr ⟨hNonnull, world, hCall, rfl⟩

theorem callRealloc_driver
    {count newp : Nat}
    {world : World σ}
    (hStep : InStep blocks blockSizes client ids)
    (hIndex : index ∈ ids)
    (hCall :
      pkg.mmRealloc client.world
          (client.table index).address count =
        (world, newp))
    (hNonnull : newp ≠ null) :
    callRealloc pkg (client.asDriver blocks blockSizes) index
        count =
      .ok
        (Client.asDriver
          { client with
            world := world
            live := client.others index }
          blocks blockSizes, newp) := by
  have hBlock := (hStep.holds.owns index hIndex).block
  have hRemove :=
    removeRange_live hStep.proper
      (hStep.holds.owned index hIndex)
  rw [← hBlock] at hCall hRemove
  refine
    callRealloc_ok_iff.mpr ⟨hNonnull, world, hCall, ?_⟩
  simp only [Client.asDriver, hRemove]
  rfl

theorem callFree_driver
    (hStep : InStep blocks blockSizes client ids)
    (hIndex : index ∈ ids) :
    callFree pkg (client.asDriver blocks blockSizes) index =
      (client.after pkg (.free index)).asDriver blocks
        blockSizes := by
  have hBlock := (hStep.holds.owns index hIndex).block
  have hRemove :=
    removeRange_live hStep.proper
      (hStep.holds.owned index hIndex)
  unfold callFree
  simp only [Client.asDriver, hBlock, hRemove]
  rfl

/- add_range records a payload that the package has placed. -/
theorem Placed.recordPayload
    (hPlaced :
      Placed client.world.memlib client.live payload)
    (hProper : Proper client.live)
    (hPositive : 0 < payload.size)
    (hInt : payload.size < 2 ^ 31) :
    recordPayload (client.asDriver blocks blockSizes)
        payload.address payload.size =
      .ok
        (Client.asDriver
          { client with live := payload :: client.live }
          blocks blockSizes) := by
  rw [recordPayload_ok_iff]
  exact
    ⟨_, hPlaced.addRange hPositive hInt hProper.positive,
      rfl⟩

/- The arrays after an operation that has placed a payload. -/
theorem Placed.inStep
    {world : World σ}
    (hPlaced : Placed world.memlib others payload)
    (hProper : Proper others)
    (hHolds :
      Holds world.mem blocks blockSizes others client.table
        (ids.filter (· ≠ index)))
    (hPositive : 0 < payload.size)
    (hInt : payload.size < 2 ^ 31) :
    InStep
      (Function.update blocks index payload.address)
      (Function.update blockSizes index payload.size)
      ((client.store world others index payload).filled
        index payload)
      (index :: ids) where
  proper := hProper.cons hPlaced hPositive
  holds :=
    (hHolds.placed hPlaced hPositive hInt
      not_mem_without).subset mem_cons_without

------------------------------------------------------------
-- One Operation
------------------------------------------------------------

/- mm_malloc -/
theorem InStep.alloc
    (hStep : InStep blocks blockSizes client ids)
    (hServed : Served pkg client (.alloc index size))
    (hSize : 0 < asInt size.toNat) :
    Follows pkg (client.asDriver blocks blockSizes) client
      (.alloc index size) ops (index :: ids) := by
  rcases (asInt_pos_iff size.toNat_lt).mp hSize with
    ⟨hPositive, hInt⟩
  rcases hServed with ⟨hPlaced, hSame⟩
  rcases hCall : pkg.mmMalloc client.world size.toNat with
    ⟨world, p⟩
  rw [hCall] at hPlaced hSame
  have hAfter :
      client.after pkg (.alloc index size) =
        client.store world client.live index
          ⟨p, size.toNat⟩ := by
    rw [Client.after, hCall]
  have hRecord :=
    @Placed.recordPayload σ { client with world := world }
      ⟨p, size.toNat⟩ blocks blockSizes hPlaced
      hStep.proper hPositive hInt
  have hHolds :
      Holds world.mem blocks blockSizes client.live
        client.table (ids.filter (· ≠ index)) :=
    (hStep.holds.subset
      (fun _ hId => List.mem_of_mem_filter hId)).untouched
        hSame
  exact
    ⟨_, _, _, _,
      evalAlloc_ok_iff.mpr
        ⟨_, p, _, callMalloc_driver hCall hPlaced.nonnull,
          hRecord, rfl⟩,
      Client.run_filled hAfter,
      hPlaced.inStep hStep.proper hHolds hPositive hInt⟩

/- The bytes that mm_realloc copied are those of the fill. -/
theorem Owns.comparePayload_ok_iff
    {mem : ByteMemory}
    {old : Payload}
    {newp count : Nat}
    (hOwns :
      Owns mem driver.blocks driver.blockSizes old index)
    (hOld : 0 < old.size)
    (hPositive : 0 < count)
    (hInt : count < 2 ^ 31)
    (hCopied :
      ∀ j, j < min old.size count →
        driver.world.mem (newp + j) =
          mem (old.address + j)) :
    comparePayload driver index newp count = .ok () ↔
      index % 256 < 128 := by
  have hOldBytes :
      oldBytes count (driver.blockSizes index) =
        min old.size count := by
    rw [hOwns.blockSize]
    exact oldBytes_eq hInt hOwns.int
  apply comparePayload_iff
  · omega
  · intro j hJ
    rw [hOldBytes] at hJ
    exact (hCopied j hJ).trans (hOwns.filled j (by omega))

/- mm_realloc -/
theorem InStep.realloc
    (hStep : InStep blocks blockSizes client ids)
    (hIndex : index ∈ ids)
    (hServed : Served pkg client (.realloc index size))
    (hSize : 0 < asInt size.toNat) :
    (index % 256 < 128 →
      Follows pkg (client.asDriver blocks blockSizes) client
        (.realloc index size) ops ids) ∧
    ((∃ driver',
        evalOp pkg (client.asDriver blocks blockSizes)
          (.realloc index size) = .ok driver') →
      index % 256 < 128) := by
  rcases (asInt_pos_iff size.toNat_lt).mp hSize with
    ⟨hPositive, hInt⟩
  have hOwns := hStep.holds.owns index hIndex
  have hOld :=
    hStep.proper.positive _
      (hStep.holds.owned index hIndex)
  rcases hServed with ⟨hPlaced, hSame, hCopied⟩
  rcases
    hCall :
      pkg.mmRealloc client.world
        (client.table index).address size.toNat
    with ⟨world, newp⟩
  rw [hCall] at hPlaced hSame hCopied
  have hCalled :
      callRealloc pkg (client.asDriver blocks blockSizes)
        index size.toNat = _ :=
    callRealloc_driver hStep hIndex hCall hPlaced.nonnull
  have hProper : Proper (client.others index) :=
    hStep.proper.erase _
  have hRecord :=
    @Placed.recordPayload σ
      { client with
        world := world
        live := client.others index }
      ⟨newp, size.toNat⟩ blocks blockSizes hPlaced hProper
      hPositive hInt
  have hCompare :=
    @Owns.comparePayload_ok_iff σ
      (Client.asDriver
        { client with
          world := world
          live := ⟨newp, size.toNat⟩ :: client.others index }
        blocks blockSizes)
      index _ _ newp size.toNat hOwns hOld hPositive hInt
      hCopied
  constructor
  · intro hLow
    have hHolds :
        Holds world.mem blocks blockSizes
          (client.others index) client.table
          (ids.filter (· ≠ index)) :=
      (hStep.holds.erase hIndex).untouched hSame
    have hAfter :
        client.after pkg (.realloc index size) =
          client.store world (client.others index) index
            ⟨newp, size.toNat⟩ := by
      rw [Client.after, hCall]
    have hAfterwards :=
      hPlaced.inStep hProper hHolds hPositive hInt
    exact
      ⟨_, _, _, _,
        evalRealloc_ok_iff.mpr
          ⟨_, _, _, hCalled, hRecord, hCompare.mpr hLow,
            rfl⟩,
        Client.run_filled hAfter,
        hAfterwards.proper,
        hAfterwards.holds.subset
          (fun _ hId => List.mem_cons_of_mem _ hId)⟩
  · rintro ⟨driver', hEval⟩
    rcases evalRealloc_ok_iff.mp hEval with
      ⟨called, newp', recorded, hOther, hOtherRecord,
        hDone, _⟩
    rw [hCalled] at hOther
    cases hOther
    rw [hRecord] at hOtherRecord
    cases hOtherRecord
    exact hCompare.mp hDone

/- mm_free -/
theorem InStep.free
    (hStep : InStep blocks blockSizes client ids)
    (hIndex : index ∈ ids)
    (hServed : Served pkg client (.free index)) :
    Follows pkg (client.asDriver blocks blockSizes) client
      (.free index) ops (ids.filter (· ≠ index)) := by
  have hEval :
      evalOp pkg (client.asDriver blocks blockSizes)
          (.free index) =
        .ok (callFree pkg
          (client.asDriver blocks blockSizes) index) :=
    rfl
  rw [callFree_driver hStep hIndex] at hEval
  exact
    ⟨_, _, _, _, hEval, .snoc .nil .request,
      hStep.proper.erase _,
      (hStep.holds.erase hIndex).untouched hServed⟩

------------------------------------------------------------
-- A Trace
------------------------------------------------------------

theorem Serves.head
    (hServes : Serves pkg client (op :: ops)) :
    Served pkg client op :=
  hServes _ _ _ _ .nil

theorem Serves.run
    {ops' : List Request}
    {labels : List (Option Request)}
    (hServes : Serves pkg client ops)
    (hRun :
      Run (ClientStep pkg) (client, ops) labels
        (client', ops')) :
    Serves pkg client' ops' :=
  fun _ _ _ _ hLater =>
    hServes _ _ _ _ (hRun.append hLater)

/- The ids below 128 modulo 256, as far as realloc goes. -/
def LowIds (ops : List Request) : Prop :=
  ∀ index size,
    Request.realloc index size ∈ ops → index % 256 < 128

theorem lowIds_cons :
    LowIds (op :: ops) ↔
      (∀ index size,
        op = .realloc index size → index % 256 < 128) ∧
        LowIds ops := by
  unfold LowIds
  simp only [List.mem_cons, or_imp, forall_and]
  constructor
  · rintro ⟨hHead, hTail⟩
    exact
      ⟨fun index size hOp => hHead index size hOp.symm,
        hTail⟩
  · rintro ⟨hHead, hTail⟩
    exact
      ⟨fun index size hOp => hHead index size hOp.symm,
        hTail⟩

/- What follows an operation that succeeds. -/
theorem Follows.evalOps_ok_iff
    {i : Nat}
    (hFollows : Follows pkg driver client op ops ids)
    (hServes : Serves pkg client (op :: ops))
    (hRest :
      ∀ blocks blockSizes client',
        InStep blocks blockSizes client' ids →
          Serves pkg client' ops →
            ((∃ driver',
                evalOps pkg
                  (client'.asDriver blocks blockSizes)
                  (i + 1) ops = .ok driver') ↔
              LowIds ops)) :
    (∃ driver',
        evalOps pkg driver i (op :: ops) = .ok driver') ↔
      LowIds ops := by
  rcases hFollows with
    ⟨blocks, blockSizes, client', labels, hEval, hRun, hStep⟩
  simp only [evalOps, hEval]
  exact
    hRest blocks blockSizes client' hStep (hServes.run hRun)

/- The loop accepts the package on the rest of a trace. -/
theorem InStep.evalOps_ok_iff
    {i : Nat}
    (hStep : InStep blocks blockSizes client ids)
    (hServes : Serves pkg client ops)
    (hLegal : Legal ids ops) :
    (∃ driver',
        evalOps pkg (client.asDriver blocks blockSizes) i
          ops = .ok driver') ↔
      LowIds ops := by
  induction ops
    generalizing blocks blockSizes client ids i with
  | nil => simp [evalOps, LowIds]
  | cons op ops ih =>
      rw [lowIds_cons]
      cases op with
      | alloc index size =>
          rcases hLegal with ⟨hSize, hRest⟩
          rw [(hStep.alloc hServes.head hSize).evalOps_ok_iff
            hServes
            (fun _ _ _ hNext hServed =>
              ih hNext hServed hRest)]
          simp
      | realloc index size =>
          rcases hLegal with ⟨hIndex, hSize, hRest⟩
          rcases
            @InStep.realloc _ _ _ _ ops _ _ _ _ hStep hIndex
              hServes.head hSize
            with ⟨hLow, hHigh⟩
          by_cases hByte : index % 256 < 128
          · rw [(hLow hByte).evalOps_ok_iff hServes
              (fun _ _ _ hNext hServed =>
                ih hNext hServed hRest)]
            simp [hByte]
          · refine
              iff_of_false ?_
                (fun hAll => hByte (hAll.1 _ _ rfl))
            rintro ⟨driver', hEval⟩
            rcases evalOps_cons_ok_iff.mp hEval with
              ⟨middle, hOp, _⟩
            exact hByte (hHigh ⟨middle, hOp⟩)
      | free index =>
          rcases hLegal with ⟨hIndex, hRest⟩
          rw [(hStep.free hIndex hServes.head).evalOps_ok_iff
            hServes
            (fun _ _ _ hNext hServed =>
              ih hNext hServed hRest)]
          simp

/-
  On a package that meets the specification eval_mm_valid
  returns 1, if and only if the trace reallocates no id whose
  low byte is a negative char.
-/
theorem evalMmValid_ok_iff
    (trace : List Request)
    (hLegal : Legal [] trace)
    (hMeets :
      MeetsSpec pkg (resetDriver driver).world trace) :
    (∃ driver',
        evalMmValid pkg driver trace = .ok driver') ↔
      ∀ index size,
        Request.realloc index size ∈ trace →
          index % 256 < 128 := by
  have hInit :
      ¬ (pkg.mmInit (resetDriver driver).world).2 < 0 :=
    not_lt.mpr hMeets.init
  have hStart :
      InStep driver.blocks driver.blockSizes
        (Client.start pkg (resetDriver driver).world) [] :=
    ⟨⟨.nil, by simp [Client.start]⟩,
      ⟨by simp, by simp, by simp⟩⟩
  unfold evalMmValid
  rw [if_neg hInit]
  exact hStart.evalOps_ok_iff hMeets.serves hLegal

------------------------------------------------------------
-- A Block that is Resized
------------------------------------------------------------

/- The life of one id. -/
def resizeTrace (index : Nat) : List Request :=
  [.alloc index 8, .realloc index 16, .free index]

/- A package that can serve one payload at a time. -/
def oneBlock : Package Unit :=
  fixedPackage fun _ => 4096

/- The heap of zeroDriver, fully extended. -/
def FullyGrown (world : World Unit) : Prop :=
  world.memlib.memStartBrk = 4096 ∧
    world.memlib.memBrk = 4096 + maxHeap

/- A client of resizeTrace. -/
inductive Resizes
    (index : Nat) :
    Client Unit × List Request → Prop where
  | fresh
      {client : Client Unit} :
      FullyGrown client.world →
      client.live = [] →
      Resizes index (client, resizeTrace index)
  | placed
      {client : Client Unit} :
      FullyGrown client.world →
      client.live = [⟨4096, 8⟩] →
      client.table index = ⟨4096, 8⟩ →
      Resizes index
        (client, [.realloc index 16, .free index])
  | resized
      {client : Client Unit} :
      FullyGrown client.world →
      client.live = [⟨4096, 16⟩] →
      client.table index = ⟨4096, 16⟩ →
      Resizes index (client, [.free index])
  | freed
      {client : Client Unit} :
      Resizes index (client, [])

theorem Resizes.step
    {state state' : Client Unit × List Request}
    {label : Option Request}
    (hResizes : Resizes index state)
    (hStep : ClientStep oneBlock state label state') :
    Resizes index state' := by
  cases hResizes with
  | fresh hGrown hLive =>
      cases hStep with
      | request =>
          refine .placed hGrown ?_ (Function.update_self _ _ _)
          exact congrArg (List.cons _) hLive
      | write _ _ => exact .fresh hGrown hLive
  | @placed client hGrown hLive hTable =>
      cases hStep with
      | request =>
          have hAfter :
              client.after oneBlock (.realloc index 16) =
                client.store client.world [] index
                  ⟨4096, 16⟩ := by
            change
              client.store client.world
                (client.live.erase (client.table index))
                index ⟨(client.table index).address, 16⟩ = _
            rw [hLive, hTable]
            rfl
          rw [hAfter]
          exact
            .resized hGrown rfl (Function.update_self _ _ _)
      | write _ _ => exact .placed hGrown hLive hTable
  | resized hGrown hLive hTable =>
      cases hStep with
      | request => exact .freed
      | write _ _ => exact .resized hGrown hLive hTable
  | freed =>
      cases hStep with
      | write _ _ => exact .freed

theorem FullyGrown.placed
    {world : World Unit}
    {size : Nat}
    (hGrown : FullyGrown world)
    (hSize : size ≤ maxHeap) :
    Placed world.memlib [] ⟨4096, size⟩ := by
  rcases hGrown with ⟨hStart, hBrk⟩
  refine ⟨?_, ?_, le_of_eq hStart, ?_, by simp⟩
  · change 4096 ≠ null
    decide
  · change 4096 % 8 = 0
    decide
  · unfold memHeapHi
    simp only
    omega

theorem untouched_nil
    {before after : ByteMemory} :
    Untouched before after [] := by
  intro payload hMem
  cases hMem

theorem Resizes.served
    {client : Client Unit}
    {op : Request}
    {ops : List Request}
    (hResizes : Resizes index (client, op :: ops)) :
    Served oneBlock client op := by
  cases hResizes with
  | fresh hGrown hLive =>
      change Placed client.world.memlib client.live _ ∧
        Untouched _ _ client.live
      rw [hLive]
      exact
        ⟨hGrown.placed (by decide), untouched_nil⟩
  | placed hGrown hLive hTable =>
      have hNone : client.others index = [] := by
        rw [Client.others, hLive, hTable]
        rfl
      change
        Placed client.world.memlib (client.others index)
            ⟨(client.table index).address, 16⟩ ∧
          Untouched _ _ (client.others index) ∧ _
      rw [hNone, hTable]
      exact
        ⟨hGrown.placed (by decide), untouched_nil,
          fun _ _ => rfl⟩
  | resized _ _ _ => exact fun _ _ _ _ _ => rfl

theorem oneBlock_meets
    (index : Nat) :
    MeetsSpec oneBlock (resetDriver zeroDriver).world
      (resizeTrace index) where
  init := le_refl _
  serves labels client op ops hRun := by
    have hResizes : Resizes index (client, op :: ops) := by
      apply hRun.invariant (Resizes index)
      · exact .fresh ⟨rfl, rfl⟩ rfl
      · exact fun _ _ _ hHere hStep => hHere.step hStep
    exact hResizes.served

theorem resizeTrace_legal
    (index : Nat) :
    Legal [] (resizeTrace index) :=
  ⟨by decide, List.mem_cons_self, by decide,
    List.mem_cons_self, trivial⟩

/- Resizing the block of id 127 raises no alarm. -/
theorem evalMmValid_ok_127 :
    ∃ driver',
      evalMmValid oneBlock zeroDriver (resizeTrace 127) =
        .ok driver' := by
  rw [evalMmValid_ok_iff (resizeTrace 127)
    (resizeTrace_legal 127) (oneBlock_meets 127)]
  intro index size hMem
  simp only [resizeTrace, List.mem_cons, reduceCtorEq,
    Request.realloc.injEq, List.not_mem_nil, or_false,
    false_or] at hMem
  omega

/- Resizing the block of id 128 does. -/
theorem false_alarm_128 :
    ∃ (pkg : Package Unit) (driver : Driver Unit)
      (trace : List Request),
      Legal [] trace ∧
        MeetsSpec pkg (resetDriver driver).world trace ∧
          evalMmValid pkg driver trace =
            .error (1, .notPreserved) :=
  ⟨oneBlock, zeroDriver, resizeTrace 128,
    resizeTrace_legal 128, oneBlock_meets 128, rfl⟩

end Mdriver

end CsappLabs
