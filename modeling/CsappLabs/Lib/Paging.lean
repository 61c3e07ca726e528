import CsappLabs.Lib.Reuse
import Mathlib.Algebra.BigOperators.Intervals

/-
  Dropping the least recently used item against any other way
  of choosing the item to drop.

  Each item of the recency list that the other store lacks is
  owed its place in the list.  A miss of the other store adds
  at most the capacity to what is owed, and a miss that only
  the recency list has takes one place from every item owed.

  Key definitions include:
    * `Recency.Serves`
    * `Recency.missed`
    * `Recency.owed`

  Key theorems include:
    * `Recency.owed_touch_hit`, `Recency.owed_touch_miss`
    * `Recency.Serves.missed_le`
-/

------------------------------------------------------------
-- Stores
------------------------------------------------------------

namespace Recency

variable {α : Type} [DecidableEq α]
variable {capacity room misses : Nat}
variable {item : α}
variable {uses : List α}
variable {held : Finset α}

/-
  A store of some room after a history, and its misses.  On a
  miss it takes the item in and may drop any one other item.
-/
inductive Serves (room : Nat) :
    List α → Finset α → Nat → Prop
| start :
    Serves room [] ∅ 0
| hit {uses : List α} {held : Finset α} {misses : Nat}
    {item : α} :
    Serves room uses held misses →
    item ∈ held →
    Serves room (uses ++ [item]) held misses
| miss {uses : List α} {held : Finset α} {misses : Nat}
    {item dropped : α} :
    Serves room uses held misses →
    item ∉ held →
    (insert item (held.erase dropped)).card ≤ room →
    Serves room (uses ++ [item])
      (insert item (held.erase dropped)) (misses + 1)

/- The misses of a store that drops the item used last. -/
def missed (capacity : Nat) (uses : List α) : Nat :=
  (uses.foldl
    (fun state item =>
      (touch capacity item state.1,
        if item ∈ state.1 then state.2 else state.2 + 1))
    (([] : List α), 0)).2

theorem missed_concat :
    missed capacity (uses ++ [item]) =
      if item ∈ stored capacity uses then
        missed capacity uses
      else
        missed capacity uses + 1 := by
  have hStored :
      ∀ start : List α × Nat,
        (uses.foldl
          (fun state item =>
            (touch capacity item state.1,
              if item ∈ state.1 then state.2
              else state.2 + 1))
          start).1 =
        uses.foldl
          (fun recent item => touch capacity item recent)
          start.1 := by
    induction uses with
    | nil => exact fun _ => rfl
    | cons first rest ih => exact fun start => ih _
  unfold missed
  rw [List.foldl_append, List.foldl_cons, List.foldl_nil,
    hStored]
  rfl

theorem nodup_stored
    (hPositive : 0 < capacity) :
    (stored capacity uses).Nodup := by
  rw [stored_eq_take hPositive]
  exact nodup_lastUsed.sublist (List.take_sublist _ _)

theorem length_stored_le
    (hPositive : 0 < capacity) :
    (stored capacity uses).length ≤ capacity := by
  rw [stored_eq_take hPositive, List.length_take]
  exact Nat.min_le_left _ _

------------------------------------------------------------
-- What Is Owed
------------------------------------------------------------

/- 1 + 2 + .. + n -/
def triangle (n : Nat) : Nat := ∑ i ∈ Finset.range n, (i + 1)

theorem triangle_succ (n : Nat) :
    triangle (n + 1) = triangle n + (n + 1) :=
  Finset.sum_range_succ _ _

/-
  The places from the end of the items that `held` lacks,
  where the first item is in place `place`.  The places that
  no item has yet are owed too, but for as many as the other
  store has free.
-/
def owed (held : Finset α) (free : Nat) :
    Nat → List α → Nat
| place, [] => triangle (place - free)
| place, first :: rest =>
    (if first ∈ held then 0 else place) +
      owed held free (place - 1) rest

section Owed

variable {free place : Nat}
variable {front back recent : List α}
variable {held' : Finset α}

/- Taking one place from every item. -/
theorem owed_pred
    (hRoom : recent.length < place) :
    owed held free (place - 1) recent +
        recent.countP (fun other => other ∉ held) +
        (place - recent.length - free) =
      owed held free place recent := by
  induction recent generalizing place with
  | nil =>
      rcases Nat.lt_or_ge free place with hLess | hMore
      · have hSucc : place - free = place - 1 - free + 1 := by
          omega
        have hTriangle := triangle_succ (place - 1 - free)
        simp only [owed, List.countP_nil, List.length_nil]
        rw [hSucc, hTriangle]
        omega
      · simp only [owed, List.countP_nil, List.length_nil]
        rw [show place - free = 0 by omega,
          show place - 1 - free = 0 by omega]
        omega
  | cons first rest ih =>
      rw [List.length_cons] at hRoom
      have hRest := @ih (place - 1) (by omega)
      simp only [owed, List.length_cons]
      by_cases hHeld : first ∈ held
      · rw [List.countP_cons_of_neg (by simpa using hHeld)]
        simp only [hHeld, if_true]
        omega
      · rw [List.countP_cons_of_pos (by simpa using hHeld)]
        simp only [hHeld, if_false]
        omega

/- In a full list the last item loses its place. -/
theorem owed_dropLast :
    owed held free (recent.length - 1) recent.dropLast +
        recent.countP (fun other => other ∉ held) =
      owed held free recent.length recent := by
  induction recent with
  | nil => rfl
  | cons first rest ih =>
      cases rest with
      | nil =>
          by_cases hHeld : first ∈ held
          · simp [owed, hHeld]
          · simp [owed, hHeld]
            omega
      | cons second rest =>
          rw [List.dropLast_cons_cons]
          simp only [owed, List.length_cons,
            Nat.add_sub_cancel] at ih ⊢
          by_cases hHeld : first ∈ held
          · rw [List.countP_cons_of_neg (by simpa using hHeld)]
            simp only [hHeld, if_true]
            omega
          · rw [List.countP_cons_of_pos (by simpa using hHeld)]
            simp only [hHeld, if_false]
            omega

/- An item that is held comes to the front. -/
theorem owed_front_le
    (hHeld : item ∈ held) :
    owed held free (place - 1) (front ++ back) ≤
      owed held free place (front ++ item :: back) := by
  induction front generalizing place with
  | nil => simp [owed, hHeld]
  | cons first rest ih =>
      have hRest := @ih (place - 1)
      simp only [List.cons_append, owed]
      split
      · omega
      · omega

/- Where the other store drops an item. -/
theorem owed_drop_le
    {dropped : α}
    (hKept : held.erase dropped ⊆ held')
    (hNodup : recent.Nodup) :
    owed held' free place recent ≤
      owed held free place recent +
        if dropped ∈ recent then place else 0 := by
  induction recent generalizing place with
  | nil => simp [owed]
  | cons first rest ih =>
      rcases List.nodup_cons.mp hNodup with ⟨hFirst, hRest⟩
      have hLater := @ih (place - 1) hRest
      simp only [owed]
      by_cases hEq : first = dropped
      · subst hEq
        rw [if_neg hFirst] at hLater
        rw [if_pos List.mem_cons_self]
        split
        · omega
        · omega
      · have hSame :
            (if first ∈ held' then 0 else place) ≤
              if first ∈ held then 0 else place := by
          by_cases hHeld : first ∈ held
          · rw [if_pos (hKept (Finset.mem_erase.mpr
              ⟨hEq, hHeld⟩))]
            exact Nat.zero_le _
          · rw [if_neg hHeld]
            split
            · exact Nat.zero_le _
            · exact Nat.le_refl _
        have hMember :
            dropped ∈ first :: rest ↔ dropped ∈ rest := by
          simp [Ne.symm hEq]
        simp only [hMember]
        split at hLater
        · rename_i hIn
          rw [if_pos hIn]
          omega
        · rename_i hIn
          rw [if_neg hIn]
          omega

/- Where the other store fills a free place. -/
theorem owed_fill_le
    (hKept : held ⊆ held') :
    owed held' free place recent ≤
      owed held (free + 1) place recent + place := by
  induction recent generalizing place with
  | nil =>
      simp only [owed]
      rcases Nat.lt_or_ge free place with hLess | hMore
      · have hSucc :
            place - free = place - (free + 1) + 1 := by
          omega
        have hTriangle := triangle_succ (place - (free + 1))
        rw [hSucc, hTriangle]
        omega
      · rw [show place - free = 0 by omega]
        simp [triangle]
  | cons first rest ih =>
      have hRest := @ih (place - 1)
      simp only [owed]
      by_cases hHeld : first ∈ held
      · rw [if_pos (hKept hHeld)]
        omega
      · rw [if_neg hHeld]
        split
        · omega
        · omega

end Owed

------------------------------------------------------------
-- One Use
------------------------------------------------------------

section Use

variable {free : Nat}
variable {recent : List α}

/- A use that both stores hit adds nothing. -/
theorem owed_touch_hit
    (hHeld : item ∈ held)
    (hRecent : item ∈ recent) :
    owed held free capacity (touch capacity item recent) ≤
      owed held free capacity recent := by
  rcases List.eq_append_cons_of_mem hRecent with
    ⟨front, back, rfl, hFront⟩
  have hMoved :=
    @owed_front_le _ _ item held free capacity front back hHeld
  rw [touch_of_mem hFront, owed, if_pos hHeld, Nat.zero_add]
  exact hMoved

/- The other store has at least one item outside the list. -/
theorem length_lt_outside
    (hHeld : item ∈ held)
    (hMissing : item ∉ recent)
    (hNodup : recent.Nodup) :
    recent.length <
      recent.countP (fun other => other ∉ held) +
        held.card := by
  have hInside :
      recent.countP (fun other => other ∈ held) ≤
        (held.erase item).card := by
    rw [List.countP_eq_length_filter,
      ← List.toFinset_card_of_nodup (hNodup.filter _)]
    apply Finset.card_le_card
    intro other hOther
    rw [List.mem_toFinset, List.mem_filter,
      decide_eq_true_eq] at hOther
    exact Finset.mem_erase.mpr
      ⟨fun hEq => hMissing (hEq ▸ hOther.1), hOther.2⟩
  have hSplit :=
    @List.length_eq_countP_add_countP _
      (fun other => decide (other ∈ held)) recent
  simp only [decide_eq_true_eq] at hSplit
  have hPositive := Finset.card_pos.mpr ⟨item, hHeld⟩
  rw [Finset.card_erase_of_mem hHeld] at hInside
  omega

/-
  A miss of the recency list alone takes a place from every
  item that the other store lacks, and those are many.
-/
theorem owed_touch_miss
    (hHeld : item ∈ held)
    (hMissing : item ∉ recent)
    (hNodup : recent.Nodup)
    (hLength : recent.length ≤ capacity)
    (hCard : held.card ≤ room)
    (hLess : room ≤ capacity) :
    owed held (room - held.card) capacity
          (touch capacity item recent) +
        (capacity - room + 1) ≤
      owed held (room - held.card) capacity recent := by
  have hOutside := length_lt_outside hHeld hMissing hNodup
  rcases Nat.lt_or_ge recent.length capacity with
    hRoom | hFull
  · have hTaken :=
      @owed_pred _ _ held (room - held.card) capacity recent
        hRoom
    rw [touch_of_room hMissing hRoom, owed, if_pos hHeld]
    omega
  · have hEq : recent.length = capacity :=
      Nat.le_antisymm hLength hFull
    have hTaken :=
      @owed_dropLast _ _ held (room - held.card) recent
    rw [hEq] at hTaken
    rw [touch_of_full hMissing hFull, owed, if_pos hHeld]
    omega

/- A miss of the other store. -/
theorem owed_miss_le
    {dropped : α}
    (hNew : item ∉ held)
    (hNodup : recent.Nodup)
    (hCard :
      (insert item (held.erase dropped)).card ≤ room) :
    owed (insert item (held.erase dropped))
        (room - (insert item (held.erase dropped)).card)
        capacity recent ≤
      owed held (room - held.card) capacity recent +
        capacity := by
  have hNotIn : item ∉ held.erase dropped :=
    fun hIn => hNew (Finset.mem_of_mem_erase hIn)
  rw [Finset.card_insert_of_notMem hNotIn] at hCard ⊢
  by_cases hDropped : dropped ∈ held
  · have hPositive := Finset.card_pos.mpr ⟨dropped, hDropped⟩
    rw [Finset.card_erase_of_mem hDropped,
      Nat.sub_add_cancel hPositive]
    refine le_trans
      (owed_drop_le (Finset.subset_insert _ _) hNodup) ?_
    split
    · exact Nat.le_refl _
    · exact Nat.le_add_right _ _
  · rw [Finset.erase_eq_of_notMem hDropped] at hCard ⊢
    have hFilled :=
      @owed_fill_le _ _ held (room - (held.card + 1))
        capacity recent _ (Finset.subset_insert item held)
    rwa [show room - (held.card + 1) + 1 = room - held.card by
      omega] at hFilled

end Use

------------------------------------------------------------
-- Whole Histories
------------------------------------------------------------

theorem Serves.card_le
    (hServes : Serves room uses held misses) :
    held.card ≤ room := by
  induction hServes with
  | start => exact Nat.zero_le _
  | hit _ _ ih => exact ih
  | miss _ _ hCard _ => exact hCard

/- One use of an item that the other store then holds. -/
theorem missed_touch_le
    (hHeld : item ∈ held)
    (hPositive : 0 < capacity)
    (hCard : held.card ≤ room)
    (hLess : room ≤ capacity) :
    (capacity - room + 1) *
          missed capacity (uses ++ [item]) +
        owed held (room - held.card) capacity
          (stored capacity (uses ++ [item])) ≤
      (capacity - room + 1) * missed capacity uses +
        owed held (room - held.card) capacity
          (stored capacity uses) := by
  rw [missed_concat, stored_concat]
  by_cases hRecent : item ∈ stored capacity uses
  · rw [if_pos hRecent]
    have hHit :=
      @owed_touch_hit _ _ capacity item held
        (room - held.card) _ hHeld hRecent
    omega
  · rw [if_neg hRecent, Nat.mul_add, Nat.mul_one]
    have hMiss :=
      owed_touch_miss hHeld hRecent (nodup_stored hPositive)
        (length_stored_le hPositive) hCard hLess
    omega

/-
  What a list of `capacity` items misses against any store of
  at most as much room.
-/
theorem Serves.missed_le
    (hServes : Serves room uses held misses)
    (hPositive : 0 < capacity)
    (hLess : room ≤ capacity) :
    (capacity - room + 1) * missed capacity uses +
        owed held (room - held.card) capacity
          (stored capacity uses) ≤
      capacity * misses + triangle (capacity - room) := by
  induction hServes with
  | start =>
      simp [missed, stored, owed]
  | hit hBefore hHeld ih =>
      exact le_trans
        (missed_touch_le hHeld hPositive hBefore.card_le hLess)
        ih
  | @miss uses held misses item dropped hBefore hNew hCard ih =>
      have hTouched :=
        @missed_touch_le _ _ capacity room item uses _
          (Finset.mem_insert_self item (held.erase dropped))
          hPositive hCard hLess
      have hOwed :=
        @owed_miss_le _ _ capacity room item held _ dropped
          hNew (@nodup_stored _ _ capacity uses hPositive)
          hCard
      rw [Nat.mul_add, Nat.mul_one]
      omega

end Recency
