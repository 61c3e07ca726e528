import Mathlib.Data.List.Nodup
import Mathlib.Logic.Function.Basic

/-
  Recency lists, and slots with time stamps that encode them.

  A bounded store that drops the least recently used item is
  a list with the last used item in front. An implementation
  that keeps items in fixed slots with stamps encodes such a
  list when the slots, ordered by falling stamp, hold it.

  Key definitions include:
    * `Recency.touch`
    * `Recency.Encodes`
    * `Recency.leastScan`

  Key theorems include:
    * `Recency.touch_take`
    * `Recency.Encodes.push`
    * `Recency.Encodes.stamp_last_lt`
    * `Recency.leastScan_eq`
-/

------------------------------------------------------------
-- Recency Lists
------------------------------------------------------------

namespace Recency

section Touch

variable {α : Type} [DecidableEq α]
variable {recent front back : List α} {item last : α}
variable {capacity : Nat}

/- Use an item; a full store drops the item used last. -/
def touch (capacity : Nat) (item : α) (recent : List α) :
    List α :=
  if item ∈ recent then
    item :: recent.erase item
  else if recent.length < capacity then
    item :: recent
  else
    item :: recent.dropLast

theorem touch_of_mem
    (hFront : item ∉ front) :
    touch capacity item (front ++ item :: back) =
      item :: (front ++ back) := by
  rw [touch, if_pos (by simp),
    List.erase_append_right _ hFront, List.erase_cons_head]

theorem touch_of_room
    (hNew : item ∉ recent)
    (hRoom : recent.length < capacity) :
    touch capacity item recent = item :: recent := by
  rw [touch, if_neg hNew, if_pos hRoom]

theorem touch_of_full
    (hNew : item ∉ recent)
    (hFull : capacity ≤ recent.length) :
    touch capacity item recent =
      item :: recent.dropLast := by
  rw [touch, if_neg hNew, if_neg (by omega)]

/- The item used is in front afterwards. -/
theorem touch_front :
    ∃ rest, touch capacity item recent = item :: rest := by
  unfold touch
  split
  · exact ⟨_, rfl⟩
  · split
    · exact ⟨_, rfl⟩
    · exact ⟨_, rfl⟩

omit [DecidableEq α] in
theorem dropLast_take_succ
    {room : Nat}
    (hLength : room < recent.length) :
    (recent.take (room + 1)).dropLast = recent.take room := by
  rw [List.dropLast_eq_take, List.length_take, List.take_take]
  congr 1
  omega

/-
  A smaller store holds the front of a larger one, and keeps
  doing so when the same item is used in both.
-/
theorem touch_take
    {larger : Nat}
    (hPositive : 0 < capacity)
    (hMore : capacity ≤ larger) :
    touch capacity item (recent.take capacity) =
      (touch larger item recent).take capacity := by
  rcases Nat.exists_eq_succ_of_ne_zero
    (Nat.pos_iff_ne_zero.mp hPositive) with ⟨room, rfl⟩
  by_cases hOld : item ∈ recent
  · rcases List.eq_append_cons_of_mem hOld with
      ⟨front, back, rfl, hFront⟩
    rw [touch_of_mem hFront, List.take_succ_cons]
    rcases Nat.lt_or_ge front.length room.succ with
      hNear | hFar
    · -- the item is in the front that the smaller store holds
      have hTake : (front ++ item :: back).take room.succ =
          front ++ item :: back.take (room - front.length) := by
        rw [List.take_append, List.take_of_length_le (by omega),
          Nat.succ_sub (by omega), List.take_succ_cons]
      have hRest : (front ++ back).take room =
          front ++ back.take (room - front.length) := by
        rw [List.take_append, List.take_of_length_le (by omega)]
      rw [hTake, touch_of_mem hFront, hRest]
    · have hTake : (front ++ item :: back).take room.succ =
          front.take room.succ :=
        List.take_append_of_le_length hFar
      have hLength : (front.take room.succ).length =
          room.succ := by
        rw [List.length_take]
        omega
      have hNew : item ∉ front.take room.succ :=
        fun hMem => hFront (List.mem_of_mem_take hMem)
      rw [hTake, touch_of_full hNew (Nat.le_of_eq hLength.symm),
        dropLast_take_succ (by omega),
        List.take_append_of_le_length (by omega)]
  · have hNew : item ∉ recent.take room.succ :=
      fun hMem => hOld (List.mem_of_mem_take hMem)
    rcases Nat.lt_or_ge recent.length room.succ with
      hShort | hLong
    · rw [List.take_of_length_le (Nat.le_of_lt hShort),
        touch_of_room hOld hShort,
        touch_of_room hOld (by omega), List.take_succ_cons,
        List.take_of_length_le (by omega)]
    · have hLength : (recent.take room.succ).length =
          room.succ := by
        rw [List.length_take]
        omega
      rw [touch_of_full hNew (Nat.le_of_eq hLength.symm),
        dropLast_take_succ (by omega)]
      rcases Nat.lt_or_ge recent.length larger with
        hRoom | hFull
      · rw [touch_of_room hOld hRoom, List.take_succ_cons]
      · rw [touch_of_full hOld hFull, List.take_succ_cons,
          List.dropLast_eq_take, List.take_take,
          Nat.min_eq_left (by omega)]

end Touch

------------------------------------------------------------
-- Stamped Slots
------------------------------------------------------------

section Slots

variable {ι α : Type}
variable {key key' : ι → α} {stamp stamp' : ι → Nat}
variable {clock clock' : Nat}
variable {order kept : List ι} {recent : List α}

/-
  The slots of `order`, from the latest stamp down, hold the
  items of `recent`, and no stamp has reached the clock.
-/
structure Encodes
    (key : ι → α) (stamp : ι → Nat) (clock : Nat)
    (order : List ι) (recent : List α) : Prop where
  keys : order.map key = recent
  nodup : recent.Nodup
  sorted : order.Pairwise fun i j => stamp j < stamp i
  below : ∀ i ∈ order, stamp i < clock

/- Only the slots in use matter, and clocks may advance. -/
theorem Encodes.congr
    (hCode : Encodes key stamp clock order recent)
    (hKey : ∀ i ∈ order, key' i = key i)
    (hStamp : ∀ i ∈ order, stamp' i = stamp i)
    (hClock : clock ≤ clock') :
    Encodes key' stamp' clock' order recent := by
  refine ⟨?_, hCode.nodup, ?_, ?_⟩
  · rw [← hCode.keys]
    exact List.map_congr_left hKey
  · refine hCode.sorted.imp_of_mem ?_
    intro i j hI hJ hLt
    rw [hStamp i hI, hStamp j hJ]
    exact hLt
  · intro i hI
    rw [hStamp i hI]
    exact Nat.lt_of_lt_of_le (hCode.below i hI) hClock

/-
  Stamp a slot with the clock and put an item there, while
  some of the other slots are kept.
-/
theorem Encodes.push
    [DecidableEq ι]
    {slot : ι} {item : α}
    (hCode : Encodes key stamp clock order recent)
    (hKept : kept.Sublist order)
    (hSlot : slot ∉ kept)
    (hItem : item ∉ kept.map key)
    (hClock : clock < clock') :
    Encodes (Function.update key slot item)
      (Function.update stamp slot clock) clock'
      (slot :: kept) (item :: kept.map key) := by
  have hOld :
      Encodes key stamp clock kept (kept.map key) :=
    ⟨rfl, hCode.nodup.sublist (hCode.keys ▸ hKept.map key),
      hCode.sorted.sublist hKept,
      fun i hI => hCode.below i (hKept.subset hI)⟩
  have hOther : ∀ i ∈ kept, i ≠ slot := by
    intro i hI hEq
    exact hSlot (hEq ▸ hI)
  have hNew :
      Encodes (Function.update key slot item)
        (Function.update stamp slot clock) clock' kept
        (kept.map key) :=
    hOld.congr
      (fun i hI => Function.update_of_ne (hOther i hI) _ _)
      (fun i hI => Function.update_of_ne (hOther i hI) _ _)
      (Nat.le_of_lt hClock)
  refine ⟨?_, ?_, ?_, ?_⟩
  · rw [List.map_cons, hNew.keys, Function.update_self]
  · exact List.nodup_cons.mpr ⟨hItem, hOld.nodup⟩
  · refine List.pairwise_cons.mpr
      ⟨fun i hI => ?_, hNew.sorted⟩
    rw [Function.update_self,
      Function.update_of_ne (hOther i hI)]
    exact hOld.below i hI
  · intro i hI
    rcases List.mem_cons.mp hI with rfl | hKeptI
    · rw [Function.update_self]
      exact hClock
    · exact hNew.below i hKeptI

/- The last slot has the least stamp. -/
theorem Encodes.stamp_last_lt
    {last i : ι}
    (hCode :
      Encodes key stamp clock (kept ++ [last]) recent)
    (hMember : i ∈ kept) :
    stamp last < stamp i :=
  (List.pairwise_append.mp hCode.sorted).2.2
    i hMember last (by simp)

/- No two slots in use have the same stamp. -/
theorem Encodes.stamp_unique
    {i j : ι}
    (hCode : Encodes key stamp clock order recent)
    (hI : i ∈ order)
    (hJ : j ∈ order)
    (hStamp : stamp i = stamp j) :
    i = j := by
  have hNodup : (order.map stamp).Nodup :=
    List.pairwise_map.mpr
      (hCode.sorted.imp fun hLt => Nat.ne_of_gt hLt)
  exact List.inj_on_of_nodup_map hNodup hI hJ hStamp

/- A slot in use is known by the item it holds. -/
theorem Encodes.slot_unique
    {i j : ι}
    (hCode : Encodes key stamp clock order recent)
    (hI : i ∈ order)
    (hJ : j ∈ order)
    (hKey : key i = key j) :
    i = j := by
  have hNodup : (order.map key).Nodup :=
    hCode.keys.symm ▸ hCode.nodup
  exact List.inj_on_of_nodup_map hNodup hI hJ hKey

end Slots

------------------------------------------------------------
-- Scanning For The Least Stamp
------------------------------------------------------------

section Scan

variable {value : Nat → Nat} {bound count target : Nat}

/-
  Walk the first `count` values, keeping the least value seen
  below the bound and where it was seen.
-/
def leastScan (value : Nat → Nat) (bound : Nat) :
    Nat → Nat × Nat
| 0 => (bound, 0)
| count + 1 =>
    let (least, index) := leastScan value bound count
    if value count < least then
      (value count, count)
    else
      (least, index)

/- The scan stands at the least value seen so far. -/
theorem leastScan_least :
    (leastScan value bound count).1 ≤ bound ∧
      (∀ i, i < count →
        (leastScan value bound count).1 ≤ value i) ∧
      ((leastScan value bound count).1 < bound →
        (leastScan value bound count).2 < count ∧
          value (leastScan value bound count).2 =
            (leastScan value bound count).1) := by
  induction count with
  | zero => simp [leastScan]
  | succ count ih =>
      rcases ih with ⟨hBound, hLeast, hIndex⟩
      by_cases hNew :
          value count < (leastScan value bound count).1
      · have hScan :
            leastScan value bound (count + 1) =
              (value count, count) := if_pos hNew
        rw [hScan]
        refine ⟨by simp only; omega, fun i hI => ?_,
          fun _ => ⟨by simp, rfl⟩⟩
        rcases Nat.lt_succ_iff_lt_or_eq.mp hI with
          hOld | rfl
        · have hOldLeast := hLeast i hOld
          simp only
          omega
        · exact Nat.le_refl _
      · have hScan :
            leastScan value bound (count + 1) =
              leastScan value bound count := if_neg hNew
        rw [hScan]
        refine ⟨hBound, fun i hI => ?_, fun hLt => ?_⟩
        · rcases Nat.lt_succ_iff_lt_or_eq.mp hI with
            hOld | rfl
          · exact hLeast i hOld
          · omega
        · have hOld := hIndex hLt
          exact ⟨by omega, hOld.2⟩

/- Where no value is below the bound the index stays 0. -/
theorem leastScan_default
    (hNone : bound ≤ (leastScan value bound count).1) :
    (leastScan value bound count).2 = 0 := by
  induction count with
  | zero => rfl
  | succ count ih =>
      by_cases hNew :
          value count < (leastScan value bound count).1
      · have hScan :
            leastScan value bound (count + 1) =
              (value count, count) := if_pos hNew
        rw [hScan] at hNone
        have hBound :=
          (@leastScan_least value bound count).1
        exact absurd hNone
          (Nat.not_le_of_lt (Nat.lt_of_lt_of_le hNew hBound))
      · have hScan :
            leastScan value bound (count + 1) =
              leastScan value bound count := if_neg hNew
        rw [hScan] at hNone ⊢
        exact ih hNone

/- So it is where all values have reached the bound. -/
theorem leastScan_of_bound_le
    (hAll : ∀ i, i < count → bound ≤ value i) :
    (leastScan value bound count).2 = 0 := by
  apply leastScan_default
  by_contra hBelow
  have hFound :=
    (@leastScan_least value bound count).2.2 (by omega)
  have hReached := hAll _ hFound.1
  omega

/- A strict minimum below the bound is where it stands. -/
theorem leastScan_eq
    (hTarget : target < count)
    (hBound : value target < bound)
    (hStrict :
      ∀ i, i < count → i ≠ target →
        value target < value i) :
    (leastScan value bound count).2 = target := by
  have hScan := @leastScan_least value bound count
  have hLeast := hScan.2.1 target hTarget
  have hIndex := hScan.2.2 (by omega)
  by_contra hNe
  have hLt := hStrict _ hIndex.1 hNe
  omega

end Scan

end Recency
