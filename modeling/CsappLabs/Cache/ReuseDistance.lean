import CsappLabs.Lib.Reuse
import CsappLabs.Cache.Inclusion

/-
  The misses of the simulator from reuse distances.

  Whether an access misses depends on the trace alone: on how
  many other tags were used in its set since its tag was.
  One pass over the trace that notes these distances counts
  the misses of the caches of every associativity.

  Key definitions include:
    * `tagsOf`
    * `missesAt`

  Key theorems include:
    * `run_sets`
    * `simulate_counts_distances`
-/

------------------------------------------------------------
-- The Uses of a Set
------------------------------------------------------------

namespace CsappLabs

namespace Cache

open Recency

variable {line : Nat}
variable {entry : Access}
variable {trace : List Access}

/- The tags that a trace uses in a set, in order. -/
def tagsOf (set : Nat) (trace : List Access) : List Int :=
  (trace.filter fun entry => entry.set = set).map Access.tag

/-
  Whether the i-th access misses: at least `line` other tags
  were used in its set since its tag, or the tag never was.
-/
def missesAt
    (line : Nat) (entries : List Access) (i : Nat) : Bool :=
  match entries[i]? with
  | none => false
  | some entry =>
      match
        distance (tagsOf entry.set (entries.take i)) entry.tag
      with
      | none => true
      | some d => line ≤ d

theorem tagsOf_concat_same :
    tagsOf entry.set (trace ++ [entry]) =
      tagsOf entry.set trace ++ [entry.tag] := by
  simp [tagsOf]

theorem tagsOf_concat_other
    {set : Nat}
    (hOther : set ≠ entry.set) :
    tagsOf set (trace ++ [entry]) = tagsOf set trace := by
  simp [tagsOf, Ne.symm hOther]

theorem access_sets
    {ref : Reference} :
    (ref.access line entry).sets =
      Function.update ref.sets entry.set
        (touch line entry.tag (ref.sets entry.set)) := by
  unfold Reference.access
  cases entry.op with
  | modify => exact use_sets entry.tag entry.set
  | load => exact use_sets entry.tag entry.set
  | store => exact use_sets entry.tag entry.set

theorem access_misses
    {ref : Reference} :
    (ref.access line entry).misses =
      if entry.tag ∈ ref.sets entry.set then ref.misses
      else ref.misses + 1 := by
  unfold Reference.access
  cases entry.op with
  | modify => exact use_misses entry.tag entry.set
  | load => exact use_misses entry.tag entry.set
  | store => exact use_misses entry.tag entry.set

theorem run_concat :
    Reference.run line (trace ++ [entry]) =
      (Reference.run line trace).access line entry := by
  simp [Reference.run]

/- A set is the store after the uses of the set. -/
theorem run_sets
    (set : Nat) :
    (Reference.run line trace).sets set =
      stored line (tagsOf set trace) := by
  induction trace using List.reverseRecOn with
  | nil => rfl
  | append_singleton before entry ih =>
      rw [run_concat, access_sets]
      by_cases hSame : set = entry.set
      · subst hSame
        rw [Function.update_self, tagsOf_concat_same,
          stored_concat, ih]
      · rw [Function.update_of_ne hSame,
          tagsOf_concat_other hSame, ih]

------------------------------------------------------------
-- Counting
------------------------------------------------------------

/- Earlier accesses do not depend on later ones. -/
theorem missesAt_concat
    {i : Nat}
    (hEarlier : i < trace.length) :
    missesAt line (trace ++ [entry]) i =
      missesAt line trace i := by
  unfold missesAt
  rw [List.getElem?_append_left hEarlier,
    List.take_append_of_le_length (Nat.le_of_lt hEarlier)]

theorem missesAt_last
    (hLine : 0 < line) :
    missesAt line (trace ++ [entry]) trace.length = true ↔
      entry.tag ∉
        (Reference.run line trace).sets entry.set := by
  have hLast :
      missesAt line (trace ++ [entry]) trace.length =
        match
          distance (tagsOf entry.set trace) entry.tag
        with
        | none => true
        | some d => decide (line ≤ d) := by
    unfold missesAt
    rw [List.getElem?_concat_length, List.take_left]
  rw [hLast, run_sets, mem_stored_iff hLine]
  cases distance (tagsOf entry.set trace) entry.tag with
  | none => simp
  | some d => simp

/- The misses of a reference cache, access by access. -/
theorem run_misses
    (hLine : 0 < line) :
    (Reference.run line trace).misses =
      (List.range trace.length).countP
        (missesAt line trace) := by
  induction trace using List.reverseRecOn with
  | nil => rfl
  | append_singleton before entry ih =>
      have hEarlier :
          (List.range before.length).countP
              (missesAt line (before ++ [entry])) =
            (List.range before.length).countP
              (missesAt line before) := by
        apply List.countP_congr
        intro i hI
        rw [missesAt_concat (List.mem_range.mp hI)]
      rw [run_concat, access_misses, ih, List.length_append,
        List.length_singleton, List.range_succ,
        List.countP_append, hEarlier]
      by_cases hMiss :
          missesAt line (before ++ [entry])
            before.length = true
      · rw [if_neg ((missesAt_last hLine).mp hMiss)]
        simp [hMiss]
      · have hHit := mt (missesAt_last hLine).mpr hMiss
        rw [not_not] at hHit
        rw [if_pos hHit]
        simp [hMiss]

/-
  After every prefix of a trace the simulator has missed where
  `line` or more other tags came between two uses of a tag in
  its set, and at first uses.
-/
theorem simulate_counts_distances
    {before : List Access}
    (hLine : 0 < line)
    (hClock : ClockBelow line trace)
    (hPrefix : before <+: trace) :
    (simulate line before).misses =
      (List.range before.length).countP
        (missesAt line trace) := by
  have hAgrees :=
    simulate_agrees hLine (hClock.of_prefix hPrefix)
  rw [hAgrees.misses, run_misses hLine]
  rcases hPrefix with ⟨rest, rfl⟩
  apply List.countP_congr
  intro i hI
  have hEarlier := List.mem_range.mp hI
  unfold missesAt
  rw [List.getElem?_append_left hEarlier,
    List.take_append_of_le_length (Nat.le_of_lt hEarlier)]

/- Three tags in one set of two lines. -/
theorem simulate_counts_distances_three_tags :
    (simulate 2
        [⟨.load, 7, 0⟩, ⟨.store, 8, 0⟩, ⟨.load, 9, 0⟩,
          ⟨.modify, 7, 0⟩]).misses =
      (List.range 4).countP
        (missesAt 2
          [⟨.load, 7, 0⟩, ⟨.store, 8, 0⟩, ⟨.load, 9, 0⟩,
            ⟨.modify, 7, 0⟩]) :=
  simulate_counts_distances (by decide)
    (clockBelow_of_length (by decide))
    (List.prefix_refl _)

end Cache

end CsappLabs
