import CsappLabs.Mdriver.MmClient
import Mathlib.Algebra.Order.BigOperators.Group.List
import Mathlib.Order.Lattice.Nat

/-
  eval_mm_util of the malloc driver.

  It adds up the sizes of the live payloads as it follows a
  trace and keeps the greatest sum.  On a package that meets
  the specification this is the peak of the trace, whatever
  the package, and the heap has at least so many bytes.

  Key definitions include:
    * `Usage`, `utilOp`, `evalMmUtil`
    * `liveSizes`, `liveBytes`, `peakBytes`
    * `UsesSbrk`

  Key theorems include:
    * `Counts.step`
    * `evalMmUtil_peak`
-/

------------------------------------------------------------
-- The Function
------------------------------------------------------------

namespace CsappLabs

namespace Mdriver

open Malloc (null asInt maxHeap)
open Transition (Run)

variable {σ : Type}

/- A sum of ints in 32 bits. -/
def wrapInt (value : Int) : Int :=
  Int.bmod value (2 ^ 32)

/- mem_heapsize -/
def memHeapsize (memlib : Memlib) : Nat :=
  memlib.memBrk - memlib.memStartBrk

/- The messages of app_error. -/
inductive UtilError where
  | initFailed
  | mallocFailed
  | reallocFailed
  deriving DecidableEq, Repr

/- The arrays of the trace, and the two sums. -/
structure Usage (σ : Type) where
  world : World σ
  blocks : Nat → Nat
  blockSizes : Nat → Nat
  totalSize : Int
  maxTotalSize : Int

/- The two stores of a payload, and the statistics. -/
def Usage.remember
    (usage : Usage σ)
    (index p size : Nat)
    (totalSize : Int) :
    Usage σ where
  world := usage.world
  blocks := Function.update usage.blocks index p
  blockSizes := Function.update usage.blockSizes index size
  totalSize := totalSize
  maxTotalSize :=
    if totalSize > usage.maxTotalSize then
      totalSize
    else
      usage.maxTotalSize

/- The body of the loop. -/
def utilOp
    (pkg : Package σ)
    (usage : Usage σ) :
    Request → Except UtilError (Usage σ)
  | .alloc index size =>
      let (world, p) :=
        pkg.mmMalloc usage.world size.toNat
      if p = null then
        .error .mallocFailed
      else
        let totalSize :=
          wrapInt (usage.totalSize + asInt size.toNat)
        .ok
          (Usage.remember { usage with world := world } index
            p size.toNat totalSize)
  | .realloc index newsize =>
      let oldsize := asInt (usage.blockSizes index)
      let (world, newp) :=
        pkg.mmRealloc usage.world (usage.blocks index)
          newsize.toNat
      if newp = null then
        .error .reallocFailed
      else
        let totalSize :=
          wrapInt
            (usage.totalSize +
              wrapInt (asInt newsize.toNat - oldsize))
        .ok
          (Usage.remember { usage with world := world } index
            newp newsize.toNat totalSize)
  | .free index =>
      let size := asInt (usage.blockSizes index)
      .ok
        { usage with
          world :=
            pkg.mmFree usage.world (usage.blocks index)
          totalSize := wrapInt (usage.totalSize - size) }

/- The loop. -/
def utilOps
    (pkg : Package σ)
    (usage : Usage σ) :
    List Request → Except UtilError (Usage σ)
  | [] => .ok usage
  | op :: ops =>
      match utilOp pkg usage op with
      | .error message => .error message
      | .ok usage => utilOps pkg usage ops

/-
  eval_mm_util; the value is the quotient that it returns, of
  the greatest sum and the size of the heap.
-/
def evalMmUtil
    (pkg : Package σ)
    (driver : Driver σ)
    (trace : List Request) :
    Except UtilError (Int × Nat) :=
  let world :=
    { driver.world with
      memlib := memResetBrk driver.world.memlib }
  if (pkg.mmInit world).2 < 0 then
    .error .initFailed
  else
    match
      utilOps pkg
        { world := (pkg.mmInit world).1
          blocks := driver.blocks
          blockSizes := driver.blockSizes
          totalSize := 0
          maxTotalSize := 0 }
        trace
    with
    | .error message => .error message
    | .ok usage =>
        .ok
          (usage.maxTotalSize,
            memHeapsize usage.world.memlib)

------------------------------------------------------------
-- The Peak of a Trace
------------------------------------------------------------

/- The ids that hold payloads, and the sizes of these. -/
def liveSizes : List Request → List (Nat × Nat) :=
  List.foldl
    (fun live op =>
      match op with
      | .alloc index size => (index, size.toNat) :: live
      | .realloc index size =>
          (index, size.toNat) ::
            live.eraseP fun entry => entry.1 = index
      | .free index =>
          live.eraseP fun entry => entry.1 = index)
    []

/- The bytes that are live after some requests. -/
def liveBytes (ops : List Request) : Nat :=
  ((liveSizes ops).map Prod.snd).sum

/- The most bytes that are ever live in a trace. -/
def peakBytes (trace : List Request) : Nat :=
  (Finset.range (trace.length + 1)).sup fun n =>
    liveBytes (trace.take n)

section Peak

variable {op : Request}
variable {ops : List Request}

theorem peakBytes_concat :
    peakBytes (ops ++ [op]) =
      max (peakBytes ops) (liveBytes (ops ++ [op])) := by
  have hEarlier :
      ((Finset.range (ops.length + 1)).sup fun n =>
          liveBytes ((ops ++ [op]).take n)) =
        peakBytes ops := by
    apply Finset.sup_congr rfl
    intro n hN
    rw [List.take_append_of_le_length
      (Nat.le_of_lt_succ (Finset.mem_range.mp hN))]
  have hWhole :
      (ops ++ [op]).take (ops.length + 1) = ops ++ [op] :=
    List.take_of_length_le (by simp)
  unfold peakBytes
  rw [List.length_append, List.length_singleton,
    Finset.range_add_one, Finset.sup_insert, hEarlier,
    hWhole, sup_comm]
  rfl

theorem liveBytes_le_peak :
    liveBytes ops ≤ peakBytes ops := by
  have hSup :=
    @Finset.le_sup Nat Nat _ _ _
      (fun n => liveBytes (ops.take n)) ops.length
      (Finset.self_mem_range_succ ops.length)
  rwa [List.take_length] at hSup

end Peak

------------------------------------------------------------
-- What is Counted
------------------------------------------------------------

/- The memory starts where it did, and its break went up. -/
structure Raised (memlib memlib' : Memlib) : Prop where
  start : memlib'.memStartBrk = memlib.memStartBrk
  up : memlib.memBrk ≤ memlib'.memBrk

/- A package that moves the break by mem_sbrk only. -/
structure UsesSbrk (pkg : Package σ) : Prop where
  malloc :
    ∀ world size,
      Raised world.memlib (pkg.mmMalloc world size).1.memlib
  realloc :
    ∀ world p size,
      Raised world.memlib
        (pkg.mmRealloc world p size).1.memlib
  free :
    ∀ world p,
      Raised world.memlib (pkg.mmFree world p).memlib

/- The payload lies in the heap. -/
def Within (memlib : Memlib) (payload : Payload) : Prop :=
  memlib.memStartBrk ≤ payload.address ∧
    payload.address + payload.size ≤ memlib.memBrk

/-
  The sums after some requests, next to a client that has made
  them.
-/
structure Counts
    (usage : Usage σ)
    (client : Client σ)
    (done : List Request)
    (ids : List Nat) :
    Prop where
  world : usage.world = client.world
  proper : Proper client.live
  within :
    ∀ payload ∈ client.live,
      Within client.world.memlib payload
  owned : ∀ id ∈ ids, client.table id ∈ client.live
  distinct :
    ∀ id ∈ ids, ∀ other ∈ ids,
      id ≠ other → client.table id ≠ client.table other
  block :
    ∀ id ∈ ids, usage.blocks id = (client.table id).address
  blockSize :
    ∀ id ∈ ids, usage.blockSizes id = (client.table id).size
  recorded :
    ∀ id ∈ ids,
      (liveSizes done).find? (fun entry => entry.1 = id) =
        some (id, (client.table id).size)
  live :
    (client.live.map Payload.size).sum = liveBytes done
  total : usage.totalSize = liveBytes done
  peak : usage.maxTotalSize = peakBytes done
  fits : peakBytes done ≤ memHeapsize client.world.memlib

section Sums

variable {memlib memlib' : Memlib}
variable {live : List Payload}
variable {payload : Payload}
variable {entries : List (Nat × Nat)}
variable {entry : Nat × Nat}
variable {index id : Nat}

theorem Within.raised
    (hWithin : Within memlib payload)
    (hRaised : Raised memlib memlib') :
    Within memlib' payload := by
  have hStart := hRaised.start
  have hUp := hRaised.up
  unfold Within at hWithin ⊢
  omega

/- Live payloads take no more bytes than the heap has. -/
theorem sum_sizes_le
    (hProper : Proper live)
    (hWithin : ∀ payload ∈ live, Within memlib payload) :
    (live.map Payload.size).sum ≤ memHeapsize memlib := by
  have hApart :
      (live.map fun payload =>
          (payload.address, payload.size)).Pairwise
        fun left right =>
          left.1 + left.2 ≤ right.1 ∨
            right.1 + right.2 ≤ left.1 := by
    rw [List.pairwise_map]
    exact hProper.apart
  have hInside :
      ∀ part ∈ live.map fun payload =>
          (payload.address, payload.size),
        memlib.memStartBrk ≤ part.1 ∧
          part.1 + part.2 ≤ memlib.memBrk := by
    intro part hPart
    rcases List.mem_map.mp hPart with ⟨payload, hMember, rfl⟩
    exact hWithin payload hMember
  have hSum := Interval.sum_lengths_le hApart hInside
  rw [List.map_map] at hSum
  exact hSum

theorem memHeapsize_lt :
    memHeapsize memlib < 2 ^ 31 := by
  have hBounded := memlib.bounded
  have hMax : maxHeap = 20971520 := by decide
  unfold memHeapsize
  omega

theorem wrapInt_of_small
    {value : Int}
    (hLow : -2 ^ 31 ≤ value)
    (hHigh : value < 2 ^ 31) :
    wrapInt value = value := by
  unfold wrapInt Int.bmod
  simp only
  split
  · omega
  · omega

theorem sum_erase
    (hMember : payload ∈ live) :
    ((live.erase payload).map Payload.size).sum +
        payload.size =
      (live.map Payload.size).sum := by
  have hPerm :=
    ((List.perm_cons_erase hMember).map Payload.size).sum_eq
  rw [hPerm, List.map_cons, List.sum_cons, Nat.add_comm]

theorem sum_eraseP
    (hFind :
      entries.find? (fun entry => entry.1 = index) =
        some entry) :
    ((entries.eraseP fun entry => entry.1 = index).map
          Prod.snd).sum + entry.2 =
      (entries.map Prod.snd).sum := by
  induction entries with
  | nil => cases hFind
  | cons first rest ih =>
      by_cases hKey : first.1 = index
      · rw [List.find?_cons_of_pos (by simpa using hKey)]
          at hFind
        cases hFind
        rw [List.eraseP_cons_of_pos (by simpa using hKey),
          List.map_cons, List.sum_cons, Nat.add_comm]
      · rw [List.find?_cons_of_neg (by simpa using hKey)]
          at hFind
        have hRest := ih hFind
        rw [List.eraseP_cons_of_neg (by simpa using hKey),
          List.map_cons, List.map_cons, List.sum_cons,
          List.sum_cons]
        omega

theorem find_eraseP
    (hNe : id ≠ index) :
    (entries.eraseP fun entry => entry.1 = index).find?
        (fun entry => entry.1 = id) =
      entries.find? fun entry => entry.1 = id := by
  induction entries with
  | nil => rfl
  | cons first rest ih =>
      by_cases hKey : first.1 = index
      · have hOther : ¬ first.1 = id :=
          fun hId => hNe (hId.symm.trans hKey)
        rw [List.eraseP_cons_of_pos (by simpa using hKey),
          List.find?_cons_of_neg (by simpa using hOther)]
      · rw [List.eraseP_cons_of_neg (by simpa using hKey),
          List.find?_cons, List.find?_cons, ih]

end Sums

------------------------------------------------------------
-- One Request
------------------------------------------------------------

section Requests

variable {pkg : Package σ}
variable {usage : Usage σ}
variable {client : Client σ}
variable {world : World σ}
variable {payload : Payload}
variable {others : List Payload}
variable {rest : List (Nat × Nat)}
variable {done ops : List Request}
variable {ids : List Nat}
variable {index : Nat}
variable {size : UInt32}
variable {op : Request}

theorem liveSizes_concat :
    liveSizes (done ++ [op]) =
      match op with
      | .alloc index size =>
          (index, size.toNat) :: liveSizes done
      | .realloc index size =>
          (index, size.toNat) ::
            (liveSizes done).eraseP fun entry =>
              entry.1 = index
      | .free index =>
          (liveSizes done).eraseP fun entry =>
            entry.1 = index := by
  unfold liveSizes
  rw [List.foldl_append, List.foldl_cons, List.foldl_nil]

theorem Placed.within
    (hPlaced : Placed world.memlib others payload) :
    Within world.memlib payload := by
  have hAbove := hPlaced.above
  have hBelow := hPlaced.below
  have hNonnull := world.memlib.nonnull
  have hGrown := world.memlib.grown
  unfold memHeapLo at hAbove
  unfold memHeapHi at hBelow
  unfold Within
  omega

/- A live payload is a part of what is counted. -/
theorem Counts.size_le
    (hCounts : Counts usage client done ids)
    (hMember : payload ∈ client.live) :
    payload.size ≤ liveBytes done := by
  rw [← hCounts.live]
  exact List.le_sum_of_mem (List.mem_map_of_mem hMember)

theorem Counts.liveBytes_lt
    (hCounts : Counts usage client done ids) :
    liveBytes done < 2 ^ 31 :=
  Nat.lt_of_le_of_lt
    (Nat.le_trans liveBytes_le_peak hCounts.fits)
    memHeapsize_lt

/- A request that stores a payload beside the others. -/
theorem Counts.store
    {totalSize : Int}
    (hCounts : Counts usage client done ids)
    (hEntries :
      liveSizes (done ++ [op]) =
        (index, payload.size) :: rest)
    (hRaised : Raised client.world.memlib world.memlib)
    (hPlaced : Placed world.memlib others payload)
    (hPositive : 0 < payload.size)
    (hProper : Proper others)
    (hSubset : ∀ other ∈ others, other ∈ client.live)
    (hOwned :
      ∀ id ∈ ids, id ≠ index → client.table id ∈ others)
    (hRest :
      ∀ id, id ≠ index →
        rest.find? (fun entry => entry.1 = id) =
          (liveSizes done).find? fun entry => entry.1 = id)
    (hSum :
      (others.map Payload.size).sum =
        (rest.map Prod.snd).sum)
    (hTotal :
      totalSize = wrapInt (liveBytes (done ++ [op]))) :
    Counts
      (Usage.remember { usage with world := world } index
        payload.address payload.size totalSize)
      (client.store world others index payload)
      (done ++ [op]) (index :: ids) := by
  have hAll : Proper (payload :: others) :=
    hProper.cons hPlaced hPositive
  have hWithin :
      ∀ other ∈ payload :: others,
        Within world.memlib other := by
    intro other hOther
    rcases List.mem_cons.mp hOther with rfl | hOther
    · exact hPlaced.within
    · exact
        (hCounts.within other (hSubset other hOther)).raised
          hRaised
  have hLive :
      ((payload :: others).map Payload.size).sum =
        liveBytes (done ++ [op]) := by
    rw [liveBytes, hEntries, List.map_cons, List.map_cons,
      List.sum_cons, List.sum_cons, hSum]
  have hBytes := sum_sizes_le hAll hWithin
  rw [hLive] at hBytes
  have hHeap := @memHeapsize_lt world.memlib
  have hExact : totalSize = liveBytes (done ++ [op]) := by
    rw [hTotal]
    exact wrapInt_of_small (by omega) (by omega)
  have hFresh : payload ∉ others := by
    intro hMember
    have hApart := hPlaced.apart payload hMember
    unfold Payload.Apart at hApart
    omega
  have hOther :
      ∀ id ∈ index :: ids, id ≠ index → id ∈ ids :=
    fun id hId hNe => (List.mem_cons.mp hId).resolve_left hNe
  refine
    { world := rfl
      proper := hAll
      within := hWithin
      owned := ?_
      distinct := ?_
      block := ?_
      blockSize := ?_
      recorded := ?_
      live := hLive
      total := hExact
      peak := ?_
      fits := ?_ }
  · intro id hId
    unfold Client.store
    simp only
    by_cases hEq : id = index
    · rw [hEq, Function.update_self]
      exact List.mem_cons_self
    · rw [Function.update_of_ne hEq]
      exact List.mem_cons_of_mem _
        (hOwned id (hOther id hId hEq) hEq)
  · intro id hId other hOtherId hDiffer
    unfold Client.store
    simp only
    by_cases hEq : id = index
    · have hNe : other ≠ index := hEq ▸ hDiffer.symm
      rw [hEq, Function.update_self,
        Function.update_of_ne hNe]
      exact fun hSame => hFresh (hSame ▸
        hOwned other (hOther other hOtherId hNe) hNe)
    · rw [Function.update_of_ne hEq]
      by_cases hSame : other = index
      · rw [hSame, Function.update_self]
        exact fun hPayload => hFresh (hPayload ▸
          hOwned id (hOther id hId hEq) hEq)
      · rw [Function.update_of_ne hSame]
        exact
          hCounts.distinct id (hOther id hId hEq) other
            (hOther other hOtherId hSame) hDiffer
  · intro id hId
    unfold Client.store Usage.remember
    simp only
    by_cases hEq : id = index
    · rw [hEq, Function.update_self, Function.update_self]
    · rw [Function.update_of_ne hEq,
        Function.update_of_ne hEq]
      exact hCounts.block id (hOther id hId hEq)
  · intro id hId
    unfold Client.store Usage.remember
    simp only
    by_cases hEq : id = index
    · rw [hEq, Function.update_self, Function.update_self]
    · rw [Function.update_of_ne hEq,
        Function.update_of_ne hEq]
      exact hCounts.blockSize id (hOther id hId hEq)
  · intro id hId
    rw [hEntries]
    unfold Client.store
    simp only
    by_cases hEq : id = index
    · rw [List.find?_cons_of_pos (by simp [hEq]), hEq,
        Function.update_self]
    · rw [List.find?_cons_of_neg (by simp [Ne.symm hEq]),
        hRest id hEq, Function.update_of_ne hEq]
      exact hCounts.recorded id (hOther id hId hEq)
  · have hPeak := hCounts.peak
    unfold Usage.remember
    simp only
    rw [peakBytes_concat, hExact, hPeak]
    split
    · omega
    · omega
  · have hFits := hCounts.fits
    have hStart := hRaised.start
    have hUp := hRaised.up
    unfold memHeapsize at hFits hBytes ⊢
    change _ ≤ world.memlib.memBrk - world.memlib.memStartBrk
    rw [peakBytes_concat]
    omega

/- The request, and the sums after it. -/
def Counted
    (pkg : Package σ)
    (usage : Usage σ)
    (client : Client σ)
    (done : List Request)
    (op : Request)
    (ids : List Nat) :
    Prop :=
  ∃ usage',
    utilOp pkg usage op = .ok usage' ∧
      Counts usage' (client.after pkg op) (done ++ [op]) ids

/- mm_malloc -/
theorem Counts.alloc
    (hCounts : Counts usage client done ids)
    (hSbrk : UsesSbrk pkg)
    (hServed : Served pkg client (.alloc index size))
    (hSize : 0 < asInt size.toNat) :
    Counted pkg usage client done (.alloc index size)
      (index :: ids) := by
  rcases (asInt_pos_iff size.toNat_lt).mp hSize with
    ⟨hPositive, hInt⟩
  have hRaised := hSbrk.malloc client.world size.toNat
  rcases hServed with ⟨hPlaced, _⟩
  rcases hCall : pkg.mmMalloc client.world size.toNat with
    ⟨world, p⟩
  rw [hCall] at hPlaced hRaised
  have hEntries :=
    @liveSizes_concat done (.alloc index size)
  have hTotal :
      wrapInt (usage.totalSize + asInt size.toNat) =
        wrapInt
          (liveBytes (done ++ [.alloc index size])) := by
    rw [hCounts.total, Malloc.asInt_of_lt hInt, liveBytes,
      liveBytes, hEntries, List.map_cons, List.sum_cons,
      Nat.cast_add, add_comm]
  have hStored :=
    hCounts.store hEntries hRaised hPlaced hPositive
      hCounts.proper (fun _ hOther => hOther)
      (fun id hId _ => hCounts.owned id hId)
      (fun _ _ => rfl) hCounts.live hTotal
  have hUtil :
      utilOp pkg usage (.alloc index size) =
        .ok
          (Usage.remember { usage with world := world } index
            p size.toNat
            (wrapInt
              (usage.totalSize + asInt size.toNat))) := by
    unfold utilOp
    simp only [hCounts.world, hCall]
    rw [if_neg hPlaced.nonnull]
  refine ⟨_, hUtil, ?_⟩
  unfold Client.after
  simp only [hCall]
  exact hStored

/- mm_realloc -/
theorem Counts.realloc
    (hCounts : Counts usage client done ids)
    (hIndex : index ∈ ids)
    (hSbrk : UsesSbrk pkg)
    (hServed : Served pkg client (.realloc index size))
    (hSize : 0 < asInt size.toNat) :
    Counted pkg usage client done (.realloc index size)
      (index :: ids) := by
  rcases (asInt_pos_iff size.toNat_lt).mp hSize with
    ⟨hPositive, hInt⟩
  have hRaised :=
    hSbrk.realloc client.world (client.table index).address
      size.toNat
  have hOwned := hCounts.owned index hIndex
  have hOld := hCounts.size_le hOwned
  have hLiveBytes := hCounts.liveBytes_lt
  rcases hServed with ⟨hPlaced, _, _⟩
  rcases hCall :
      pkg.mmRealloc client.world
        (client.table index).address size.toNat with
    ⟨world, newp⟩
  rw [hCall] at hPlaced hRaised
  have hEntries :=
    @liveSizes_concat done (.realloc index size)
  have hErased := sum_eraseP (hCounts.recorded index hIndex)
  have hLive := sum_erase hOwned
  have hSame := hCounts.live
  have hOthers :
      ((client.others index).map Payload.size).sum =
        (((liveSizes done).eraseP fun entry =>
          entry.1 = index).map Prod.snd).sum := by
    unfold liveBytes at hSame
    unfold Client.others
    simp only at hErased
    omega
  have hTotal :
      wrapInt
          (usage.totalSize +
            wrapInt
              (asInt size.toNat -
                asInt (usage.blockSizes index))) =
        wrapInt
          (liveBytes (done ++ [.realloc index size])) := by
    have hDifference :
        wrapInt
            ((size.toNat : Int) -
              ((client.table index).size : Int)) =
          (size.toNat : Int) - (client.table index).size :=
      wrapInt_of_small (by omega) (by omega)
    rw [hCounts.total, hCounts.blockSize index hIndex,
      Malloc.asInt_of_lt hInt, Malloc.asInt_of_lt (by omega),
      hDifference]
    refine congrArg wrapInt ?_
    unfold liveBytes at hSame ⊢
    rw [hEntries, List.map_cons, List.sum_cons]
    simp only at hErased ⊢
    omega
  have hStored :=
    hCounts.store hEntries hRaised hPlaced hPositive
      (hCounts.proper.erase _)
      (fun _ hOther => List.mem_of_mem_erase hOther)
      (fun id hId hNe =>
        (List.mem_erase_of_ne
          (hCounts.distinct id hId index hIndex hNe)).mpr
          (hCounts.owned id hId))
      (fun _ hNe => find_eraseP hNe) hOthers hTotal
  have hUtil :
      utilOp pkg usage (.realloc index size) =
        .ok
          (Usage.remember { usage with world := world } index
            newp size.toNat
            (wrapInt
              (usage.totalSize +
                wrapInt
                  (asInt size.toNat -
                    asInt (usage.blockSizes index))))) := by
    unfold utilOp
    simp only [hCounts.world, hCounts.block index hIndex,
      hCall]
    rw [if_neg hPlaced.nonnull]
  refine ⟨_, hUtil, ?_⟩
  unfold Client.after
  simp only [hCall]
  exact hStored

/- mm_free -/
theorem Counts.free
    (hCounts : Counts usage client done ids)
    (hIndex : index ∈ ids)
    (hSbrk : UsesSbrk pkg) :
    Counted pkg usage client done (.free index)
      (ids.filter (· ≠ index)) := by
  have hRaised :=
    hSbrk.free client.world (client.table index).address
  have hOwned := hCounts.owned index hIndex
  have hOld := hCounts.size_le hOwned
  have hLiveBytes := hCounts.liveBytes_lt
  have hEntries := @liveSizes_concat done (.free index)
  have hErased := sum_eraseP (hCounts.recorded index hIndex)
  have hLive := sum_erase hOwned
  have hSame := hCounts.live
  have hRest :
      liveBytes (done ++ [.free index]) +
          (client.table index).size =
        liveBytes done := by
    unfold liveBytes
    rw [hEntries]
    exact hErased
  have hMember :
      ∀ id ∈ ids.filter (· ≠ index),
        id ∈ ids ∧ id ≠ index := by
    intro id hId
    simpa using hId
  refine ⟨_, rfl, ?_⟩
  refine
    { world := ?_
      proper := hCounts.proper.erase _
      within := ?_
      owned := ?_
      distinct := ?_
      block := ?_
      blockSize := ?_
      recorded := ?_
      live := ?_
      total := ?_
      peak := ?_
      fits := ?_ }
  · change pkg.mmFree usage.world (usage.blocks index) = _
    rw [hCounts.world, hCounts.block index hIndex]
    rfl
  · intro payload hPayload
    exact
      (hCounts.within payload
        (List.mem_of_mem_erase hPayload)).raised hRaised
  · intro id hId
    rcases hMember id hId with ⟨hId, hNe⟩
    exact
      (List.mem_erase_of_ne
        (hCounts.distinct id hId index hIndex hNe)).mpr
        (hCounts.owned id hId)
  · intro id hId other hOther
    exact
      hCounts.distinct id (hMember id hId).1 other
        (hMember other hOther).1
  · exact fun id hId => hCounts.block id (hMember id hId).1
  · exact fun id hId =>
      hCounts.blockSize id (hMember id hId).1
  · intro id hId
    rcases hMember id hId with ⟨hId, hNe⟩
    rw [hEntries]
    exact
      (find_eraseP hNe).trans (hCounts.recorded id hId)
  · change
      ((client.live.erase (client.table index)).map
        Payload.size).sum = _
    omega
  · change
      wrapInt
        (usage.totalSize -
          asInt (usage.blockSizes index)) = _
    rw [hCounts.total, hCounts.blockSize index hIndex,
      Malloc.asInt_of_lt (by omega),
      wrapInt_of_small (by omega) (by omega)]
    omega
  · change usage.maxTotalSize = _
    have hPeak := @liveBytes_le_peak done
    rw [peakBytes_concat, hCounts.peak]
    omega
  · have hFits := hCounts.fits
    have hStart := hRaised.start
    have hUp := hRaised.up
    have hPeak := @liveBytes_le_peak done
    unfold memHeapsize at hFits ⊢
    change _ ≤
      (pkg.mmFree client.world
          (client.table index).address).memlib.memBrk -
        (pkg.mmFree client.world
          (client.table index).address).memlib.memStartBrk
    rw [peakBytes_concat]
    omega

/- The ids that are left. -/
theorem Counts.subset
    {ids' : List Nat}
    (hCounts : Counts usage client done ids)
    (hSubset : ∀ id ∈ ids', id ∈ ids) :
    Counts usage client done ids' :=
  { hCounts with
    owned := fun id hId => hCounts.owned id (hSubset id hId)
    distinct := fun id hId other hOther =>
      hCounts.distinct id (hSubset id hId) other
        (hSubset other hOther)
    block := fun id hId => hCounts.block id (hSubset id hId)
    blockSize := fun id hId =>
      hCounts.blockSize id (hSubset id hId)
    recorded := fun id hId =>
      hCounts.recorded id (hSubset id hId) }

/- One request of a legal trace. -/
theorem Counts.step
    (hCounts : Counts usage client done ids)
    (hSbrk : UsesSbrk pkg)
    (hServed : Served pkg client op)
    (hLegal : Legal ids (op :: ops)) :
    ∃ ids',
      Counted pkg usage client done op ids' ∧
        Legal ids' ops := by
  cases op with
  | alloc index size =>
      rcases hLegal with ⟨hSize, hLegal⟩
      exact ⟨_, hCounts.alloc hSbrk hServed hSize, hLegal⟩
  | realloc index size =>
      rcases hLegal with ⟨hIndex, hSize, hLegal⟩
      rcases
          hCounts.realloc hIndex hSbrk hServed hSize with
        ⟨usage', hUtil, hCounts'⟩
      exact
        ⟨ids,
          ⟨usage', hUtil,
            hCounts'.subset fun _ hId =>
              List.mem_cons_of_mem _ hId⟩,
          hLegal⟩
  | free index =>
      rcases hLegal with ⟨hIndex, hLegal⟩
      exact ⟨_, hCounts.free hIndex hSbrk, hLegal⟩

/- The loop over the requests to come. -/
theorem Counts.run
    (hCounts : Counts usage client done ids)
    (hSbrk : UsesSbrk pkg)
    (hServes : Serves pkg client ops)
    (hLegal : Legal ids ops) :
    ∃ usage' client' ids',
      utilOps pkg usage ops = .ok usage' ∧
        Counts usage' client' (done ++ ops) ids' := by
  induction ops generalizing usage client done ids with
  | nil =>
      rw [List.append_nil]
      exact ⟨usage, client, ids, rfl, hCounts⟩
  | cons op ops ih =>
      rcases hCounts.step hSbrk hServes.head hLegal with
        ⟨ids', ⟨usage', hUtil, hCounts'⟩, hLegal'⟩
      rcases
          ih hCounts'
            (hServes.run (.snoc .nil .request)) hLegal' with
        ⟨last, client', ids'', hRest, hLast⟩
      rw [List.append_assoc] at hLast
      refine ⟨last, client', ids'', ?_, hLast⟩
      rw [utilOps, hUtil]
      exact hRest

/- Before the first request nothing is live. -/
theorem Counts.start
    {blocks blockSizes : Nat → Nat} :
    Counts
      { world := (pkg.mmInit world).1
        blocks := blocks
        blockSizes := blockSizes
        totalSize := 0
        maxTotalSize := 0 }
      (Client.start pkg world) [] [] where
  world := rfl
  proper := ⟨.nil, by simp [Client.start]⟩
  within := by simp [Client.start]
  owned := by simp
  distinct := by simp
  block := by simp
  blockSize := by simp
  recorded := by simp
  live := rfl
  total := rfl
  peak := rfl
  fits := Nat.zero_le _

/- mm.c moves its break by mem_sbrk only. -/
theorem usesSbrk_mm : UsesSbrk mmPackage where
  malloc world size :=
    ⟨rfl, (@mmMalloc_grows world.heap size).up⟩
  realloc world p size :=
    ⟨rfl, (@mmRealloc_grows world.heap p size).up⟩
  free world p := ⟨rfl, (@mmFree_grows world.heap p).up⟩

/-
  eval_mm_util divides the peak of the trace by the size of
  the heap, and the one is not above the other.
-/
theorem evalMmUtil_peak
    {driver : Driver σ}
    {trace : List Request}
    (hSbrk : UsesSbrk pkg)
    (hLegal : Legal [] trace)
    (hMeets :
      MeetsSpec pkg (resetDriver driver).world trace) :
    ∃ heapsize,
      evalMmUtil pkg driver trace =
          .ok (peakBytes trace, heapsize) ∧
        peakBytes trace ≤ heapsize := by
  have hReset :
      (resetDriver driver).world =
        { driver.world with
          memlib := memResetBrk driver.world.memlib } :=
    rfl
  rw [hReset] at hMeets
  have hStart :=
    @Counts.start σ pkg
      { driver.world with
        memlib := memResetBrk driver.world.memlib }
      driver.blocks driver.blockSizes
  rcases hStart.run hSbrk hMeets.serves hLegal with
    ⟨usage, client, ids, hRun, hCounts⟩
  refine ⟨memHeapsize usage.world.memlib, ?_, ?_⟩
  · unfold evalMmUtil
    simp only
    rw [if_neg (not_lt.mpr hMeets.init), hRun]
    simp only
    rw [hCounts.peak, List.nil_append]
  · rw [hCounts.world]
    exact hCounts.fits

/- On moveTrace the peak is that of its third request. -/
theorem evalMmUtil_peak_moving :
    ∃ heapsize,
      evalMmUtil mmPackage mmDriver moveTrace =
          .ok (peakBytes moveTrace, heapsize) ∧
        peakBytes moveTrace ≤ heapsize := by
  have hLegal : Legal [] moveTrace :=
    ⟨by decide, by decide, by decide, by decide, by decide,
      trivial⟩
  exact
    evalMmUtil_peak usesSbrk_mm hLegal
      (mm_meets rfl (by decide) hLegal (.inr (by decide)))

end Requests

end Mdriver

end CsappLabs
