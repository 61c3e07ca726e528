import CsappLabs.Lib.WrapCounter
import CsappLabs.Lib.Transition

/-
  The connection buffer (sbuf.c) with the counters it has in
  C: front and rear are 32-bit ints that wrap, and a slot is
  their truncating remainder by n.

  sbuf_insert and sbuf_remove are one step each, as the mutex
  makes them; a P waits for a positive semaphore. An index
  may be negative.

  Key definitions include:
    * `Ring`
    * `sbufInsert`, `sbufRemove`
    * `Cyclic`

  Key theorems include:
    * `counted_of_run`
    * `cyclic_iff`
-/

------------------------------------------------------------
-- The Buffer
------------------------------------------------------------

namespace CsappLabs

namespace Proxy

namespace Counters

open Transition WrapCounter

/- sbuf_t, with the values of slots and items. -/
structure Ring where
  buf : Int → Int
  n : Int
  front : Int
  rear : Int
  slots : Nat
  items : Nat

def sbufInit (n : Nat) : Ring where
  buf := fun _ => 0
  n := n
  front := 0
  rear := 0
  slots := n
  items := 0

/- `++c` on a 32-bit int. -/
def increment (c : Int) : Int :=
  Int.bmod (c + 1) (2 ^ 32)

/- The index that sbuf_insert writes to, and the buffer then. -/
def sbufInsert (s : Ring) (item : Int) : Int × Ring :=
  let rear := increment s.rear
  (rear.tmod s.n,
    { s with
      rear := rear
      buf := Function.update s.buf (rear.tmod s.n) item
      slots := s.slots - 1
      items := s.items + 1 })

/-
  The index that sbuf_remove reads from, the item there, and
  the buffer then.
-/
def sbufRemove (s : Ring) : Int × Int × Ring :=
  let front := increment s.front
  (front.tmod s.n, s.buf (front.tmod s.n),
    { s with
      front := front
      slots := s.slots + 1
      items := s.items - 1 })

/- An access to buf, by the call that makes it. -/
inductive Access where
| insert (index item : Int)
| remove (index item : Int)
deriving DecidableEq, Repr

def Access.index : Access → Int
| .insert index _ => index
| .remove index _ => index

inductive Step : Ring → Access → Ring → Prop
| insert {s : Ring} {item : Int} :
    0 < s.slots →
    Step s (.insert (sbufInsert s item).1 item)
      (sbufInsert s item).2
| remove {s : Ring} :
    0 < s.items →
    Step s (.remove (sbufRemove s).1 (sbufRemove s).2.1)
      (sbufRemove s).2.2

------------------------------------------------------------
-- Histories
------------------------------------------------------------

/- The indices of the inserts of a history, and removes. -/
def inserts (accesses : List Access) : List Int :=
  accesses.filterMap fun access =>
    match access with
    | .insert index _ => some index
    | .remove _ _ => none

def removes (accesses : List Access) : List Int :=
  accesses.filterMap fun access =>
    match access with
    | .insert _ _ => none
    | .remove index _ => some index

variable {n : Nat} {accesses : List Access} {s : Ring}

@[simp] theorem inserts_insert (index item : Int) :
    inserts (accesses ++ [.insert index item]) =
      inserts accesses ++ [index] := by
  simp [inserts]

@[simp] theorem inserts_remove (index item : Int) :
    inserts (accesses ++ [.remove index item]) =
      inserts accesses := by
  simp [inserts]

@[simp] theorem removes_insert (index item : Int) :
    removes (accesses ++ [.insert index item]) =
      removes accesses := by
  simp [removes]

@[simp] theorem removes_remove (index item : Int) :
    removes (accesses ++ [.remove index item]) =
      removes accesses ++ [index] := by
  simp [removes]

/- Every access is an insert or a remove. -/
theorem mem_indices
    {access : Access}
    (hMem : access ∈ accesses) :
    access.index ∈ inserts accesses ∨
      access.index ∈ removes accesses := by
  cases access with
  | insert index item =>
      left
      exact List.mem_filterMap.mpr ⟨_, hMem, rfl⟩
  | remove index item =>
      right
      exact List.mem_filterMap.mpr ⟨_, hMem, rfl⟩

theorem index_mem_of_inserts
    {index : Int}
    (hMem : index ∈ inserts accesses) :
    ∃ access ∈ accesses, access.index = index := by
  rcases List.mem_filterMap.mp hMem with
    ⟨access, hAccess, hIndex⟩
  refine ⟨access, hAccess, ?_⟩
  cases access with
  | insert index' item => exact Option.some.inj hIndex
  | remove index' item => cases hIndex

------------------------------------------------------------
-- What a Run Counts
------------------------------------------------------------

/- The number of non-negative 32-bit ints. -/
abbrev half : Nat := 2 ^ 31

/- The slots of the first so many counts. -/
def firstSlots (n count : Nat) : List Int :=
  (List.range' 1 count).map (slot half n)

theorem firstSlots_succ (n count : Nat) :
    firstSlots n (count + 1) =
      firstSlots n count ++ [slot half n (count + 1)] := by
  unfold firstSlots
  rw [List.range'_concat, List.map_append, Nat.one_mul,
    Nat.add_comm 1 count]
  rfl

/-
  The counters are the numbers of calls, wrapped, and the
  indices are the slots of these counts. An item is removed
  only after it was inserted.
-/
structure Counted
    (n : Nat)
    (accesses : List Access)
    (s : Ring) :
    Prop where
  size : s.n = n
  rear : s.rear = value half (inserts accesses).length
  front : s.front = value half (removes accesses).length
  items :
    (removes accesses).length + s.items =
      (inserts accesses).length
  inserted :
    inserts accesses =
      firstSlots n (inserts accesses).length
  removed :
    removes accesses =
      firstSlots n (removes accesses).length

theorem counted_start (n : Nat) :
    Counted n [] (sbufInit n) where
  size := rfl
  rear := rfl
  front := rfl
  items := rfl
  inserted := rfl
  removed := rfl

theorem increment_value (k : Nat) :
    increment (value half k) = value half (k + 1) :=
  value_succ

theorem Counted.step
    {access : Access}
    {t : Ring}
    (hCounted : Counted n accesses s)
    (hStep : Step s access t) :
    Counted n (accesses ++ [access]) t := by
  cases hStep with
  | @insert item hSlots =>
      have hRear :
          increment s.rear =
            value half ((inserts accesses).length + 1) := by
        rw [hCounted.rear, increment_value]
      have hIndex :
          (sbufInsert s item).1 =
            slot half n ((inserts accesses).length + 1) := by
        change (increment s.rear).tmod s.n = _
        rw [hRear, hCounted.size]
        rfl
      exact
        { size := hCounted.size
          rear := by
            rw [inserts_insert, List.length_append]
            exact hRear
          front := by
            rw [removes_insert]
            exact hCounted.front
          items := by
            have hItems := hCounted.items
            rw [inserts_insert, removes_insert,
              List.length_append]
            change _ + (s.items + 1) = _ + 1
            omega
          inserted := by
            rw [inserts_insert, List.length_append,
              List.length_singleton, firstSlots_succ,
              ← hCounted.inserted, hIndex]
          removed := by
            rw [removes_insert]
            exact hCounted.removed }
  | remove hItems =>
      have hFront :
          increment s.front =
            value half ((removes accesses).length + 1) := by
        rw [hCounted.front, increment_value]
      have hIndex :
          (sbufRemove s).1 =
            slot half n ((removes accesses).length + 1) := by
        change (increment s.front).tmod s.n = _
        rw [hFront, hCounted.size]
        rfl
      exact
        { size := hCounted.size
          rear := by
            rw [inserts_remove]
            exact hCounted.rear
          front := by
            rw [removes_remove, List.length_append]
            exact hFront
          items := by
            have hBefore := hCounted.items
            rw [inserts_remove, removes_remove,
              List.length_append]
            change _ + 1 + (s.items - 1) = _
            omega
          inserted := by
            rw [inserts_remove]
            exact hCounted.inserted
          removed := by
            rw [removes_remove, List.length_append,
              List.length_singleton, firstSlots_succ,
              ← hCounted.removed, hIndex] }

theorem counted_of_run
    (hRun : Run Step (sbufInit n) accesses s) :
    Counted n accesses s :=
  hRun.history (Counted n) (counted_start n)
    fun _ _ _ _ hCounted hStep => hCounted.step hStep

------------------------------------------------------------
-- Round and Round
------------------------------------------------------------

/-
  Every index is that of a slot, and successive inserts use
  successive slots, the first after the last.
-/
structure Cyclic
    (n : Nat)
    (accesses : List Access) :
    Prop where
  inRange :
    ∀ access ∈ accesses,
      0 ≤ access.index ∧ access.index < n
  successive :
    (inserts accesses).IsChain
      fun (a b : Int) => b = (a + 1) % (n : Int)

theorem mem_firstSlots
    {count : Nat}
    {index : Int} :
    index ∈ firstSlots n count ↔
      ∃ k, 1 ≤ k ∧ k ≤ count ∧ index = slot half n k := by
  unfold firstSlots
  simp only [List.mem_map, List.mem_range'_1]
  constructor
  · rintro ⟨k, ⟨hLow, hHigh⟩, hEq⟩
    exact ⟨k, hLow, by omega, hEq.symm⟩
  · rintro ⟨k, hLow, hHigh, hEq⟩
    exact ⟨k, ⟨hLow, by omega⟩, hEq.symm⟩

/- Slots within the limit follow one another. -/
theorem firstSlots_successive
    {count : Nat}
    (hLimit : n = 1 ∨ count ≤ limit half n) :
    (firstSlots n count).IsChain
      fun (a b : Int) => b = (a + 1) % (n : Int) := by
  rw [List.isChain_iff_getElem]
  intro i hLt
  simp only [firstSlots, List.length_map, List.length_range']
    at hLt
  simp only [firstSlots, List.getElem_map,
    List.getElem_range']
  have hNext :
      slot half n (1 + i + 1) =
        (slot half n (1 + i) + 1) % n := by
    apply slot_succ
    rcases hLimit with hOne | hLe
    · exact Or.inl hOne
    · exact Or.inr (by omega)
  simpa [Nat.add_assoc] using hNext

theorem one_lt_half : 1 < half := by norm_num

/- Past the limit the slot of some insert is negative. -/
theorem Counted.within_limit
    (hCounted : Counted n accesses s)
    (hCyclic : Cyclic n accesses) :
    n = 1 ∨ (inserts accesses).length ≤ limit half n := by
  apply (slots_nonneg_iff one_lt_half _).mp
  intro k hLow hHigh
  have hMem : slot half n k ∈ inserts accesses := by
    rw [hCounted.inserted, mem_firstSlots]
    exact ⟨k, hLow, hHigh, rfl⟩
  rcases index_mem_of_inserts hMem with
    ⟨access, hAccess, hIndex⟩
  rw [← hIndex]
  exact (hCyclic.inRange access hAccess).1

/- A remove follows the insert with the same count. -/
theorem Counted.index_eq_slot
    {access : Access}
    (hCounted : Counted n accesses s)
    (hAccess : access ∈ accesses) :
    ∃ k, 1 ≤ k ∧ k ≤ (inserts accesses).length ∧
      access.index = slot half n k := by
  have hItems := hCounted.items
  rcases mem_indices hAccess with hInsert | hRemove
  · rw [hCounted.inserted, mem_firstSlots] at hInsert
    exact hInsert
  · rw [hCounted.removed, mem_firstSlots] at hRemove
    rcases hRemove with ⟨k, hLow, hHigh, hIndex⟩
    exact ⟨k, hLow, by omega, hIndex⟩

/-
  The indices of a run are slots in cyclic order exactly when
  there is one slot or the run has at most as many inserts as
  the rear counter can count before its remainder turns
  negative.
-/
theorem cyclic_iff
    (hPos : 1 ≤ n)
    (hRun : Run Step (sbufInit n) accesses s) :
    Cyclic n accesses ↔
      n = 1 ∨ (inserts accesses).length ≤ limit half n := by
  have hCounted := counted_of_run hRun
  constructor
  · exact hCounted.within_limit
  · intro hLimit
    have hNonneg :=
      (slots_nonneg_iff one_lt_half _).mpr hLimit
    constructor
    · intro access hAccess
      rcases hCounted.index_eq_slot hAccess with
        ⟨k, hLow, hHigh, hIndex⟩
      rw [hIndex]
      exact ⟨hNonneg k hLow hHigh, slot_lt hPos⟩
    · rw [hCounted.inserted]
      exact firstSlots_successive hLimit

/- One descriptor through a buffer of 16 slots. -/
theorem cyclic_iff_sixteen :
    ∃ accesses s, Run Step (sbufInit 16) accesses s ∧
      Cyclic 16 accesses := by
  have hInsert :=
    @Step.insert (sbufInit 16) 7 (by decide)
  have hRemove :=
    @Step.remove (sbufInsert (sbufInit 16) 7).2 (by decide)
  have hRun := Run.snoc (Run.snoc .nil hInsert) hRemove
  exact
    ⟨_, _, hRun,
      (cyclic_iff (by decide) hRun).mpr (Or.inr (by decide))⟩

/- Any number of descriptors go through one at a time. -/
theorem exists_run
    (hPos : 1 ≤ n)
    (k : Nat) :
    ∃ accesses s, Run Step (sbufInit n) accesses s ∧
      (inserts accesses).length = k ∧ s.slots = n ∧
        s.items = 0 := by
  induction k with
  | zero => exact ⟨[], _, .nil, rfl, rfl, rfl⟩
  | succ k ih =>
      rcases ih with
        ⟨accesses, s, hRun, hLength, hSlots, hItems⟩
      have hInsert := @Step.insert s 0 (by omega)
      have hRemove := @Step.remove (sbufInsert s 0).2
        (Nat.succ_pos _)
      refine
        ⟨_, _, (hRun.snoc hInsert).snoc hRemove, ?_, ?_, ?_⟩
      · rw [inserts_remove, inserts_insert, List.length_append,
          hLength]
        rfl
      · change s.slots - 1 + 1 = n
        omega
      · change s.items + 1 - 1 = 0
        omega

/-
  The buffer of the proxy, after 2^31 + 1 descriptors: the
  last one went to a negative index.
-/
theorem cyclic_broken_after_wrap :
    ∃ accesses s, Run Step (sbufInit 16) accesses s ∧
      (inserts accesses).length = 2 ^ 31 + 1 ∧
        ¬Cyclic 16 accesses := by
  rcases @exists_run 16 (by decide) (2 ^ 31 + 1) with
    ⟨accesses, s, hRun, hLength, _⟩
  refine ⟨accesses, s, hRun, hLength, ?_⟩
  intro hCyclic
  rcases (counted_of_run hRun).within_limit hCyclic with
    hOne | hLe
  · exact absurd hOne (by decide)
  · rw [hLength] at hLe
    exact absurd hLe (by decide)

end Counters

end Proxy

end CsappLabs
