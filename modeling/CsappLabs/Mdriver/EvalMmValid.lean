import CsappLabs.Lib.Transition
import CsappLabs.Mdriver.Ranges

/-
  eval_mm_valid of the malloc driver
  (malloc/malloclab/mdriver.c), over any malloc package.

  The function is given twice: as it computes its result, and
  as steps between the points where the range list changes.
  Every evaluation is a run of steps.  In a run whose calls of
  add_range are guarded, the recorded ranges stay disjoint.

  Key definitions include:
    * `Package`, `Driver`, `Request`
    * `evalOp`, `evalMmValid`
    * `Point`, `Step`, `GuardedStep`

  Key theorems include:
    * `evalOps_run`
    * `recorded_ranges_disjoint`
-/

------------------------------------------------------------
-- The Package
------------------------------------------------------------

namespace CsappLabs

namespace Mdriver

open Malloc (null asInt maxHeap)
open Transition (Run)

/- The simulated memory and the package's own variables. -/
structure World (σ : Type) where
  memlib : Memlib
  own : σ

/- mm_init, mm_malloc, mm_realloc and mm_free. -/
structure Package (σ : Type) where
  mmInit : World σ → World σ × Int
  mmMalloc : World σ → Nat → World σ × Nat
  mmRealloc : World σ → Nat → Nat → World σ × Nat
  mmFree : World σ → Nat → World σ

def World.mem {σ : Type} (world : World σ) : ByteMemory :=
  world.memlib.mem

def World.withMem
    {σ : Type}
    (world : World σ)
    (mem : ByteMemory) :
    World σ :=
  { world with memlib := { world.memlib with mem := mem } }

/- memset -/
def memset
    (mem : ByteMemory)
    (p : Nat)
    (c : UInt8)
    (n : Nat) :
    ByteMemory :=
  fun a => if p ≤ a ∧ a < p + n then c else mem a

------------------------------------------------------------
-- The Driver
------------------------------------------------------------

/- traceop_t; sizes are ints, given by their 32 bits. -/
inductive Request where
  | alloc (index : Nat) (size : UInt32)
  | realloc (index : Nat) (size : UInt32)
  | free (index : Nat)
  deriving DecidableEq, Repr

/- The field size, which free leaves unset. -/
def Request.size : Request → Nat
  | alloc _ size => size.toNat
  | realloc _ size => size.toNat
  | free _ => 0

/-
  The range list, and the arrays blocks and block_sizes of the
  trace, with whatever they hold at first.
-/
structure Driver (σ : Type) where
  world : World σ
  ranges : List Range
  blocks : Nat → Nat
  blockSizes : Nat → Nat

/- A char, which is signed. -/
def signedChar (byte : UInt8) : Int :=
  if byte.toNat < 128 then
    byte.toNat
  else
    (byte.toNat : Int) - 256

variable {σ : Type}

/- mm_malloc, and the test of its result. -/
def callMalloc
    (pkg : Package σ)
    (driver : Driver σ)
    (size : Nat) :
    Except Alarm (Driver σ × Nat) :=
  let (world, p) := pkg.mmMalloc driver.world size
  if p = null then
    .error .mallocFailed
  else
    .ok ({ driver with world := world }, p)

/- mm_realloc, the test of its result, and remove_range. -/
def callRealloc
    (pkg : Package σ)
    (driver : Driver σ)
    (index size : Nat) :
    Except Alarm (Driver σ × Nat) :=
  let oldp := driver.blocks index
  let (world, newp) := pkg.mmRealloc driver.world oldp size
  if newp = null then
    .error .reallocFailed
  else
    .ok
      ({ driver with
          world := world
          ranges := removeRange driver.ranges oldp },
        newp)

/- The call of add_range. -/
def recordPayload
    (driver : Driver σ)
    (p size : Nat) :
    Except Alarm (Driver σ) :=
  match
    addRange driver.world.memlib driver.ranges p size
  with
  | .error alarm => .error alarm
  | .ok ranges => .ok { driver with ranges := ranges }

/- The lesser of size and oldsize, which are ints. -/
def oldBytes (size oldsize : Nat) : Nat :=
  if asInt size < asInt oldsize then
    (asInt size).toNat
  else
    (asInt oldsize).toNat

/- The loop that looks for the data of the old block. -/
def comparePayload
    (driver : Driver σ)
    (index newp size : Nat) :
    Except Alarm Unit :=
  let oldsize := oldBytes size (driver.blockSizes index)
  if
      (List.range oldsize).all fun j =>
        signedChar (driver.world.mem (newp + j)) ==
          ((index &&& 0xFF : Nat) : Int) then
    .ok ()
  else
    .error .notPreserved

/- memset, and the two stores that remember the region. -/
def rememberPayload
    (driver : Driver σ)
    (index p size : Nat) :
    Driver σ :=
  { driver with
    world :=
      driver.world.withMem
        (memset driver.world.mem p
          (UInt8.ofNat (index &&& 0xFF)) size)
    blocks := Function.update driver.blocks index p
    blockSizes :=
      Function.update driver.blockSizes index size }

/- remove_range and mm_free. -/
def callFree
    (pkg : Package σ)
    (driver : Driver σ)
    (index : Nat) :
    Driver σ :=
  let p := driver.blocks index
  { driver with
    world := pkg.mmFree driver.world p
    ranges := removeRange driver.ranges p }

/- The body of the loop. -/
def evalOp
    (pkg : Package σ)
    (driver : Driver σ) :
    Request → Except Alarm (Driver σ)
  | .alloc index size => do
      let (driver, p) ← callMalloc pkg driver size.toNat
      let driver ← recordPayload driver p size.toNat
      return rememberPayload driver index p size.toNat
  | .realloc index size => do
      let (driver, newp) ←
        callRealloc pkg driver index size.toNat
      let driver ← recordPayload driver newp size.toNat
      comparePayload driver index newp size.toNat
      return rememberPayload driver index newp size.toNat
  | .free index => return callFree pkg driver index

/- The loop, from operation `i` on. -/
def evalOps
    (pkg : Package σ)
    (driver : Driver σ)
    (i : Nat) :
    List Request → Except (Nat × Alarm) (Driver σ)
  | [] => .ok driver
  | op :: ops =>
      match evalOp pkg driver op with
      | .error alarm => .error (i, alarm)
      | .ok driver => evalOps pkg driver (i + 1) ops

/- mem_reset_brk and clear_ranges. -/
def resetDriver (driver : Driver σ) : Driver σ :=
  { driver with
    world :=
      { driver.world with
        memlib := memResetBrk driver.world.memlib }
    ranges := clearRanges driver.ranges }

/- What mm_init leaves. -/
def initDriver
    (pkg : Package σ)
    (driver : Driver σ) :
    Driver σ :=
  { resetDriver driver with
    world := (pkg.mmInit (resetDriver driver).world).1 }

/-
  eval_mm_valid; it returns 1, or it reports an alarm at an
  operation and returns 0.
-/
def evalMmValid
    (pkg : Package σ)
    (driver : Driver σ)
    (trace : List Request) :
    Except (Nat × Alarm) (Driver σ) :=
  if (pkg.mmInit (resetDriver driver).world).2 < 0 then
    .error (0, .initFailed)
  else
    evalOps pkg (initDriver pkg driver) 0 trace

------------------------------------------------------------
-- Points
------------------------------------------------------------

/- How far the loop has got with its operation. -/
inductive Phase where
  | ready
  | placed (p : Nat)
  | recorded (p : Nat)

/- A point of eval_mm_valid, and the operations to come. -/
structure Point (σ : Type) where
  driver : Driver σ
  phase : Phase
  ops : List Request

inductive Event where
  | call
  | record (lo size : Nat)
  | remember

/- From one point of eval_mm_valid to the next. -/
inductive Step
    (pkg : Package σ) :
    Point σ → Event → Point σ → Prop where
  | malloc
      {driver driver' : Driver σ}
      {index p : Nat}
      {size : UInt32}
      {ops : List Request} :
      callMalloc pkg driver size.toNat =
        .ok (driver', p) →
      Step pkg ⟨driver, .ready, .alloc index size :: ops⟩
        .call ⟨driver', .placed p, .alloc index size :: ops⟩
  | realloc
      {driver driver' : Driver σ}
      {index newp : Nat}
      {size : UInt32}
      {ops : List Request} :
      callRealloc pkg driver index size.toNat =
        .ok (driver', newp) →
      Step pkg ⟨driver, .ready, .realloc index size :: ops⟩
        .call
        ⟨driver', .placed newp, .realloc index size :: ops⟩
  | free
      {driver : Driver σ}
      {index : Nat}
      {ops : List Request} :
      Step pkg ⟨driver, .ready, .free index :: ops⟩ .call
        ⟨callFree pkg driver index, .ready, ops⟩
  | record
      {driver driver' : Driver σ}
      {p : Nat}
      {op : Request}
      {ops : List Request} :
      recordPayload driver p op.size = .ok driver' →
      Step pkg ⟨driver, .placed p, op :: ops⟩
        (.record p op.size)
        ⟨driver', .recorded p, op :: ops⟩
  | remember
      {driver : Driver σ}
      {index p : Nat}
      {size : UInt32}
      {ops : List Request} :
      Step pkg
        ⟨driver, .recorded p, .alloc index size :: ops⟩
        .remember
        ⟨rememberPayload driver index p size.toNat, .ready,
          ops⟩
  | compare
      {driver : Driver σ}
      {index newp : Nat}
      {size : UInt32}
      {ops : List Request} :
      comparePayload driver index newp size.toNat =
        .ok () →
      Step pkg
        ⟨driver, .recorded newp, .realloc index size :: ops⟩
        .remember
        ⟨rememberPayload driver index newp size.toNat,
          .ready, ops⟩

/- The first point of the loop. -/
def startPoint
    (pkg : Package σ)
    (driver : Driver σ)
    (trace : List Request) :
    Point σ :=
  ⟨initDriver pkg driver, .ready, trace⟩

/- Runs in which every call of add_range is guarded. -/
def GuardedStep
    (pkg : Package σ)
    (point : Point σ)
    (event : Event)
    (point' : Point σ) :
    Prop :=
  Step pkg point event point' ∧
    ∀ lo size, event = .record lo size →
      Guarded point.driver.world.memlib
        point.driver.ranges lo size

------------------------------------------------------------
-- One Operation
------------------------------------------------------------

variable {pkg : Package σ}
variable {driver driver' : Driver σ}
variable {op : Request}
variable {ops : List Request}
variable {index : Nat}
variable {size : UInt32}

theorem bind_ok_iff
    {ε α β : Type}
    {x : Except ε α}
    {f : α → Except ε β}
    {b : β} :
    (x >>= f) = .ok b ↔ ∃ a, x = .ok a ∧ f a = .ok b := by
  cases x with
  | error e =>
      constructor
      · intro hBind
        cases hBind
      · rintro ⟨a, hError, _⟩
        cases hError
  | ok a =>
      constructor
      · exact fun hBind => ⟨a, rfl, hBind⟩
      · rintro ⟨_, hOk, hBind⟩
        cases hOk
        exact hBind

/- A call whose result is not NULL. -/
theorem nonnull_ok_iff
    {result : World σ × Nat}
    {alarm : Alarm}
    {called : World σ → Driver σ}
    {p : Nat} :
    (if result.2 = null then
        .error alarm
      else
        .ok (called result.1, result.2) :
      Except Alarm (Driver σ × Nat)) = .ok (driver', p) ↔
      p ≠ null ∧
        ∃ world,
          result = (world, p) ∧ driver' = called world := by
  rcases result with ⟨world, q⟩
  by_cases hNull : q = null
  · rw [if_pos hNull]
    constructor
    · intro hOk
      cases hOk
    · rintro ⟨hNonnull, _, hPair, _⟩
      cases hPair
      exact absurd hNull hNonnull
  · rw [if_neg hNull]
    constructor
    · intro hOk
      cases hOk
      exact ⟨hNull, world, rfl, rfl⟩
    · rintro ⟨_, _, hPair, rfl⟩
      cases hPair
      rfl

theorem callMalloc_ok_iff
    {p count : Nat} :
    callMalloc pkg driver count = .ok (driver', p) ↔
      p ≠ null ∧
        ∃ world,
          pkg.mmMalloc driver.world count = (world, p) ∧
            driver' = { driver with world := world } :=
  @nonnull_ok_iff σ driver'
    (pkg.mmMalloc driver.world count) .mallocFailed
    (fun world => { driver with world := world }) p

theorem callRealloc_ok_iff
    {newp count : Nat} :
    callRealloc pkg driver index count =
        .ok (driver', newp) ↔
      newp ≠ null ∧
        ∃ world,
          pkg.mmRealloc driver.world (driver.blocks index)
              count =
            (world, newp) ∧
            driver' =
              { driver with
                world := world
                ranges :=
                  removeRange driver.ranges
                    (driver.blocks index) } :=
  @nonnull_ok_iff σ driver'
    (pkg.mmRealloc driver.world (driver.blocks index)
      count) .reallocFailed
    (fun world =>
      { driver with
        world := world
        ranges :=
          removeRange driver.ranges (driver.blocks index) })
    newp

theorem evalAlloc_ok_iff :
    evalOp pkg driver (.alloc index size) = .ok driver' ↔
      ∃ called p recorded,
        callMalloc pkg driver size.toNat =
            .ok (called, p) ∧
          recordPayload called p size.toNat =
              .ok recorded ∧
            driver' =
              rememberPayload recorded index p
                size.toNat := by
  simp only [evalOp, bind_ok_iff, Prod.exists]
  constructor
  · rintro ⟨called, p, hCall, recorded, hRecord, hDone⟩
    cases hDone
    exact ⟨called, p, recorded, hCall, hRecord, rfl⟩
  · rintro ⟨called, p, recorded, hCall, hRecord, rfl⟩
    exact ⟨called, p, hCall, recorded, hRecord, rfl⟩

theorem evalRealloc_ok_iff :
    evalOp pkg driver (.realloc index size) =
        .ok driver' ↔
      ∃ called newp recorded,
        callRealloc pkg driver index size.toNat =
            .ok (called, newp) ∧
          recordPayload called newp size.toNat =
              .ok recorded ∧
            comparePayload recorded index newp size.toNat =
                .ok () ∧
              driver' =
                rememberPayload recorded index newp
                  size.toNat := by
  simp only [evalOp, bind_ok_iff, Prod.exists]
  constructor
  · rintro
      ⟨called, newp, hCall, recorded, hRecord, ⟨⟩, hCompare,
        hDone⟩
    cases hDone
    exact
      ⟨called, newp, recorded, hCall, hRecord, hCompare,
        rfl⟩
  · rintro
      ⟨called, newp, recorded, hCall, hRecord, hCompare,
        rfl⟩
    exact
      ⟨called, newp, hCall, recorded, hRecord, (),
        hCompare, rfl⟩

/- The loop goes on after an operation that succeeds. -/
theorem evalOps_cons_ok_iff
    {i : Nat} :
    evalOps pkg driver i (op :: ops) = .ok driver' ↔
      ∃ middle,
        evalOp pkg driver op = .ok middle ∧
          evalOps pkg middle (i + 1) ops = .ok driver' := by
  rw [evalOps]
  cases evalOp pkg driver op with
  | error alarm => simp
  | ok middle => simp

------------------------------------------------------------
-- Evaluations are Runs
------------------------------------------------------------

theorem evalOp_run
    (hEval : evalOp pkg driver op = .ok driver') :
    ∃ labels,
      Run (Step pkg) ⟨driver, .ready, op :: ops⟩ labels
        ⟨driver', .ready, ops⟩ := by
  cases op with
  | alloc index size =>
      rcases evalAlloc_ok_iff.mp hEval with
        ⟨called, p, recorded, hCall, hRecord, rfl⟩
      exact
        ⟨_, .snoc (.snoc (.snoc .nil (.malloc hCall))
          (.record hRecord)) .remember⟩
  | realloc index size =>
      rcases evalRealloc_ok_iff.mp hEval with
        ⟨called, newp, recorded, hCall, hRecord, hCompare,
          rfl⟩
      exact
        ⟨_, .snoc (.snoc (.snoc .nil (.realloc hCall))
          (.record hRecord)) (.compare hCompare)⟩
  | free index =>
      cases hEval
      exact ⟨_, .snoc .nil .free⟩

/- An evaluation passes through the points of a run. -/
theorem evalOps_run
    {i : Nat}
    (hEval : evalOps pkg driver i ops = .ok driver') :
    ∃ labels,
      Run (Step pkg) ⟨driver, .ready, ops⟩ labels
        ⟨driver', .ready, []⟩ := by
  induction ops generalizing driver i with
  | nil =>
      cases hEval
      exact ⟨[], .nil⟩
  | cons op ops ih =>
      rcases evalOps_cons_ok_iff.mp hEval with
        ⟨middle, hOp, hRest⟩
      rcases @evalOp_run σ pkg driver middle op ops hOp with
        ⟨first, hFirst⟩
      rcases ih hRest with ⟨later, hLater⟩
      exact ⟨_, hFirst.append hLater⟩

/- eval_mm_valid returns 1 at the end of a run only. -/
theorem evalMmValid_run
    {trace : List Request}
    (hEval : evalMmValid pkg driver trace = .ok driver') :
    ∃ labels,
      Run (Step pkg) (startPoint pkg driver trace) labels
        ⟨driver', .ready, []⟩ := by
  unfold evalMmValid at hEval
  by_cases hInit :
      (pkg.mmInit (resetDriver driver).world).2 < 0
  · rw [if_pos hInit] at hEval
    cases hEval
  · rw [if_neg hInit] at hEval
    exact evalOps_run hEval

------------------------------------------------------------
-- The Recorded Ranges
------------------------------------------------------------

theorem recordPayload_ok_iff
    {p count : Nat} :
    recordPayload driver p count = .ok driver' ↔
      ∃ ranges,
        addRange driver.world.memlib driver.ranges p
            count =
          .ok ranges ∧
          driver' = { driver with ranges := ranges } := by
  unfold recordPayload
  cases addRange driver.world.memlib driver.ranges p count
    with
  | error alarm => simp
  | ok ranges => simp [eq_comm]

theorem Request.size_lt (op : Request) :
    op.size < 2 ^ 32 := by
  cases op with
  | alloc index size => exact size.toNat_lt
  | realloc index size => exact size.toNat_lt
  | free index => exact Nat.two_pow_pos 32

theorem GuardedStep.separate
    {point point' : Point σ}
    {event : Event}
    (hStep : GuardedStep pkg point event point')
    (hSeparate : Separate point.driver.ranges) :
    Separate point'.driver.ranges := by
  rcases hStep with ⟨hStep, hGuarded⟩
  cases hStep with
  | malloc hCall =>
      rcases callMalloc_ok_iff.mp hCall with
        ⟨_, world, _, rfl⟩
      exact hSeparate
  | realloc hCall =>
      rcases callRealloc_ok_iff.mp hCall with
        ⟨_, world, _, rfl⟩
      exact hSeparate.removeRange _
  | free => exact hSeparate.removeRange _
  | record hRecord =>
      rcases recordPayload_ok_iff.mp hRecord with
        ⟨ranges, hOk, rfl⟩
      exact
        hSeparate.addRange (hGuarded _ _ rfl) hOk
          (Request.size_lt _)
  | remember => exact hSeparate
  | compare _ => exact hSeparate

/-
  A call of add_range records only what it may if and only if
  it is guarded, and guarded calls keep the recorded ranges
  disjoint at every point of eval_mm_valid.
-/
theorem recorded_ranges_disjoint
    {memlib : Memlib}
    {ranges : List Range}
    {lo count : Nat}
    {trace : List Request}
    {events : List Event}
    {point : Point σ}
    (hPositive : 0 < count)
    (hInt : count < 2 ^ 31)
    (hRun :
      Run (GuardedStep pkg) (startPoint pkg driver trace)
        events point) :
    ((∀ ranges',
        addRange memlib ranges lo count = .ok ranges' →
          Recordable memlib ranges lo count) ↔
      Guarded memlib ranges lo count) ∧
      Separate point.driver.ranges := by
  refine ⟨addRange_sound hPositive hInt, ?_⟩
  apply hRun.invariant
    (fun point => Separate point.driver.ranges)
  · exact List.Pairwise.nil
  · intro _ _ _ hSeparate hStep
    exact hStep.separate hSeparate

------------------------------------------------------------
-- Overlapping Payloads
------------------------------------------------------------

/- A heap of zero bytes at address 4096. -/
def zeroMemlib : Memlib where
  mem := fun _ => 0
  memStartBrk := 4096
  memBrk := 4096
  nonnull := Nat.succ_pos 4095
  grown := Nat.le_refl _
  bounded := Nat.le_add_right _ _
  addressable := by
    decide

/- A package that looks at nothing but the size. -/
def fixedPackage (choose : Nat → Nat) : Package Unit where
  mmInit world :=
    ({ world with
        memlib :=
          { world.memlib with
            memBrk := world.memlib.memStartBrk + maxHeap
            grown := Nat.le_add_right _ _
            bounded := Nat.le_refl _ } },
      0)
  mmMalloc world size := (world, choose size)
  mmRealloc world p _ := (world, p)
  mmFree world _ := world

/- The driver before its first trace. -/
def zeroDriver : Driver Unit where
  world := ⟨zeroMemlib, ()⟩
  ranges := []
  blocks := fun _ => 0
  blockSizes := fun _ => 0

/- Payloads of 8 and of 64 bytes, one behind the other. -/
def pairPackage : Package Unit :=
  fixedPackage fun size => if size = 8 then 4096 else 4112

/- Two payloads are recorded, and a third may be. -/
theorem recorded_ranges_disjoint_two :
    ∃ events point,
      2 < events.length ∧
        Run (GuardedStep pairPackage)
            (startPoint pairPackage zeroDriver
              [.alloc 0 8, .alloc 1 64])
            events point ∧
          point.driver.ranges =
              [⟨4112, 4175⟩, ⟨4096, 4103⟩] ∧
            Separate point.driver.ranges ∧
              ∃ memlib ranges',
                addRange memlib point.driver.ranges 4200 8 =
                    .ok ranges' ∧
                  Recordable memlib point.driver.ranges 4200
                    8 := by
  have hRun :
      Run (GuardedStep pairPackage)
        (startPoint pairPackage zeroDriver
          [.alloc 0 8, .alloc 1 64])
        [.call, .record 4096 8, .remember, .call,
         .record 4112 64, .remember] _ :=
    .snoc
      (.snoc
        (.snoc
          (.snoc
            (.snoc
              (.snoc .nil
                ⟨.malloc rfl, fun _ _ hEvent => by
                  cases hEvent⟩)
              ⟨.record rfl, fun _ _ _ hInside => by
                rcases hInside with ⟨range, hMem, _⟩
                cases hMem⟩)
            ⟨.remember, fun _ _ hEvent => by
              cases hEvent⟩)
          ⟨.malloc rfl, fun _ _ hEvent => by
            cases hEvent⟩)
        ⟨.record rfl, fun lo size hEvent hInside => by
          cases hEvent
          rcases hInside with ⟨range, hMem, hInside⟩
          cases List.mem_singleton.mp hMem
          exact absurd hInside (by decide)⟩)
      ⟨.remember, fun _ _ hEvent => by
        cases hEvent⟩
  have hGuarded :
      Guarded (pairPackage.mmInit zeroDriver.world).1.memlib
        [⟨4112, 4175⟩, ⟨4096, 4103⟩] 4200 8 := by
    rintro ⟨range, hMem, hInside⟩
    rcases List.mem_cons.mp hMem with rfl | hMem
    · exact absurd hInside (by decide)
    · cases List.mem_singleton.mp hMem
      exact absurd hInside (by decide)
  rcases
    @recorded_ranges_disjoint _ _ _
      (pairPackage.mmInit zeroDriver.world).1.memlib
      [⟨4112, 4175⟩, ⟨4096, 4103⟩] 4200 8 _ _ _
      (by decide) (by decide) hRun
    with ⟨hSound, hSeparate⟩
  exact
    ⟨_, _, by decide, hRun, rfl, hSeparate, _, _, rfl,
      hSound.mpr hGuarded _ rfl⟩

/-
  A payload of 64 bytes around one of 8 bytes is recorded, and
  eval_mm_valid returns 1.
-/
theorem payload_around_payload_recorded :
    (∃ memlib ranges lo size ranges',
      0 < size ∧ size < 2 ^ 31 ∧ lo + size ≤ 2 ^ 32 ∧
        addRange memlib ranges lo size = .ok ranges' ∧
          ¬ Recordable memlib ranges lo size) ∧
      ∃ (pkg : Package Unit) (driver driver' : Driver Unit)
        (trace : List Request),
        evalMmValid pkg driver trace = .ok driver' ∧
          ¬ Separate driver'.ranges := by
  have hOverlap :
      ¬ Disjoint (Set.Icc 4096 4159) (Set.Icc 4112 4119) :=
    Interval.Inside.not_disjoint (by decide)
  constructor
  · refine
      ⟨((fixedPackage fun _ => 0).mmInit
          zeroDriver.world).1.memlib,
        [⟨4112, 4119⟩], 4096, 64, _, by decide, by decide,
        by decide, rfl, ?_⟩
    intro hRecordable
    exact
      hOverlap (hRecordable.apart ⟨4112, 4119⟩ (.head _))
  · refine
      ⟨fixedPackage fun size =>
          if size = 8 then 4112 else 4096,
        zeroDriver, _, [.alloc 0 8, .alloc 1 64], rfl, ?_⟩
    intro hSeparate
    exact
      hOverlap
        ((List.pairwise_cons.mp hSeparate).1
          ⟨4112, 4119⟩ (.head _))

end Mdriver

end CsappLabs
