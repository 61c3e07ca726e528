import Mathlib.Data.Finmap
import Mathlib.Order.Basic

/-
  Sorted association lists as finite maps.

  A list of entries with increasing keys stands for a finite
  map.  Putting an entry in its place inserts it, and taking
  it out erases it.

  Key definitions include:
    * `SortedMap.Sorted`
    * `SortedMap.toMap`
    * `SortedMap.Nearest`

  Key theorems include:
    * `SortedMap.lookup_toMap`
    * `SortedMap.toMap_insert`
    * `SortedMap.toMap_erase`
    * `SortedMap.card_toMap`
    * `SortedMap.nearest_toMap`
-/

------------------------------------------------------------
-- Entries
------------------------------------------------------------

namespace SortedMap

variable {K V : Type} [LinearOrder K]

/- The keys increase. -/
def Sorted
    (entries : List (K × V)) :
    Prop :=
  entries.Pairwise fun low high => low.1 < high.1

/- The finite map of the entries. -/
def toMap
    (entries : List (K × V)) :
    Finmap (fun _ : K => V) :=
  (entries.map fun entry =>
    (⟨entry.1, entry.2⟩ : Sigma fun _ : K => V)).toFinmap

/- The value at the greatest key that is at most `k`. -/
def Nearest
    (m : Finmap (fun _ : K => V))
    (k : K)
    (found : Option V) :
    Prop :=
  (∃ g ∈ m, g ≤ k ∧ (∀ g' ∈ m, g' ≤ k → g' ≤ g) ∧
    found = m.lookup g) ∨
      ((∀ g ∈ m, k < g) ∧ found = none)

variable {entries front back : List (K × V)}
variable {k : K} {v : V}

theorem toMap_nil :
    toMap ([] : List (K × V)) = ∅ := rfl

theorem toMap_cons
    (entry : K × V) :
    toMap (entry :: back) =
      (toMap back).insert entry.1 entry.2 := by
  simp [toMap, Finmap.toFinmap_cons]

theorem mem_toMap :
    k ∈ toMap entries ↔ ∃ v, (k, v) ∈ entries := by
  induction entries with
  | nil =>
      rw [toMap_nil]
      simp [Finmap.notMem_empty]
  | cons entry back ih =>
      rw [toMap_cons, Finmap.mem_insert, ih]
      constructor
      · rintro (rfl | ⟨v, hMember⟩)
        · exact ⟨entry.2, List.mem_cons_self⟩
        · exact ⟨v, List.mem_cons_of_mem _ hMember⟩
      · rintro ⟨v, hMember⟩
        rcases List.mem_cons.mp hMember with rfl | hBack
        · exact .inl rfl
        · exact .inr ⟨v, hBack⟩

theorem Sorted.of_cons
    {entry : K × V}
    (hSorted : Sorted (entry :: back)) :
    Sorted back :=
  (List.pairwise_cons.mp hSorted).2

/- An entry gives the value at its key. -/
theorem lookup_toMap
    (hSorted : Sorted entries)
    (hMember : (k, v) ∈ entries) :
    (toMap entries).lookup k = some v := by
  induction entries with
  | nil => simp at hMember
  | cons entry back ih =>
      rw [toMap_cons]
      rcases List.mem_cons.mp hMember with hEq | hBack
      · rw [← hEq]
        exact Finmap.lookup_insert _
      · have hLess :=
          (List.pairwise_cons.mp hSorted).1 _ hBack
        rw [Finmap.lookup_insert_of_ne _ (ne_of_gt hLess)]
        exact ih hSorted.of_cons hBack

theorem lookup_toMap_none
    (hNone : ∀ entry ∈ entries, entry.1 ≠ k) :
    (toMap entries).lookup k = none := by
  rw [Finmap.lookup_eq_none, mem_toMap]
  rintro ⟨v, hMember⟩
  exact hNone _ hMember rfl

/- The keys of the map are those of the entries. -/
theorem card_toMap
    (hSorted : Sorted entries) :
    (toMap entries).keys.card = entries.length := by
  induction entries with
  | nil => rfl
  | cons entry back ih =>
      have hFresh : entry.1 ∉ (toMap back).keys := by
        rw [Finmap.mem_keys, mem_toMap]
        rintro ⟨v, hMember⟩
        have hLess :=
          (List.pairwise_cons.mp hSorted).1 _ hMember
        exact absurd hLess (lt_irrefl _)
      have hKeys :
          (toMap (entry :: back)).keys =
            Insert.insert entry.1 (toMap back).keys := by
        ext k
        simp only [Finmap.mem_keys, Finset.mem_insert,
          toMap_cons, Finmap.mem_insert]
      rw [hKeys, Finset.card_insert_of_notMem hFresh,
        ih hSorted.of_cons, List.length_cons]

------------------------------------------------------------
-- Changes
------------------------------------------------------------

/- What a sorted list says around one of its entries. -/
theorem Sorted.around
    (hSorted : Sorted (front ++ (k, v) :: back)) :
    (∀ entry ∈ front, entry.1 < k) ∧
      (∀ entry ∈ back, k < entry.1) ∧
        Sorted (front ++ back) := by
  rcases List.pairwise_append.mp hSorted with
    ⟨hFront, hRest, hCross⟩
  rcases List.pairwise_cons.mp hRest with ⟨hBack, hBackSorted⟩
  refine ⟨fun entry hMember => ?_, hBack, ?_⟩
  · exact hCross entry hMember (k, v) List.mem_cons_self
  · refine List.pairwise_append.mpr
      ⟨hFront, hBackSorted, fun low hLow high hHigh => ?_⟩
    exact hCross low hLow high
      (List.mem_cons_of_mem _ hHigh)

theorem Sorted.insert
    (hSorted : Sorted (front ++ back))
    (hFront : ∀ entry ∈ front, entry.1 < k)
    (hBack : ∀ entry ∈ back, k < entry.1) :
    Sorted (front ++ (k, v) :: back) := by
  rcases List.pairwise_append.mp hSorted with
    ⟨hFrontSorted, hBackSorted, hCross⟩
  refine List.pairwise_append.mpr
    ⟨hFrontSorted, List.pairwise_cons.mpr
      ⟨hBack, hBackSorted⟩, fun low hLow high hHigh => ?_⟩
  rcases List.mem_cons.mp hHigh with rfl | hHighBack
  · exact hFront low hLow
  · exact hCross low hLow high hHighBack

/- Every lookup in the map of a sorted list. -/
theorem lookup_toMap_iff
    (hSorted : Sorted entries) :
    (toMap entries).lookup k = some v ↔
      (k, v) ∈ entries := by
  constructor
  · intro hLookup
    have hMember : k ∈ toMap entries :=
      Finmap.mem_of_lookup_eq_some hLookup
    rcases mem_toMap.mp hMember with ⟨v', hEntry⟩
    rw [lookup_toMap hSorted hEntry] at hLookup
    cases hLookup
    exact hEntry
  · exact lookup_toMap hSorted

/- A new entry in its place. -/
theorem toMap_insert
    (hSorted : Sorted (front ++ (k, v) :: back)) :
    toMap (front ++ (k, v) :: back) =
      (toMap (front ++ back)).insert k v := by
  rcases hSorted.around with ⟨hFront, hBack, hRest⟩
  apply Finmap.ext_lookup
  intro k'
  by_cases hKey : k' = k
  · rw [hKey, Finmap.lookup_insert]
    exact lookup_toMap hSorted (by simp)
  · rw [Finmap.lookup_insert_of_ne _ hKey]
    ext v'
    rw [lookup_toMap_iff hSorted, lookup_toMap_iff hRest]
    simp [hKey]

/- An entry taken out. -/
theorem toMap_erase
    (hSorted : Sorted (front ++ (k, v) :: back)) :
    toMap (front ++ back) =
      (toMap (front ++ (k, v) :: back)).erase k := by
  rcases hSorted.around with ⟨hFront, hBack, hRest⟩
  apply Finmap.ext_lookup
  intro k'
  by_cases hKey : k' = k
  · rw [hKey, Finmap.lookup_erase]
    apply lookup_toMap_none
    intro entry hMember
    rcases List.mem_append.mp hMember with hLow | hHigh
    · exact ne_of_lt (hFront entry hLow)
    · exact ne_of_gt (hBack entry hHigh)
  · rw [Finmap.lookup_erase_ne hKey]
    ext v'
    rw [lookup_toMap_iff hSorted, lookup_toMap_iff hRest]
    simp [hKey]

------------------------------------------------------------
-- The Nearest Key
------------------------------------------------------------

theorem Nearest.unique
    {m : Finmap (fun _ : K => V)}
    {found found' : Option V}
    (hFound : Nearest m k found)
    (hOther : Nearest m k found') :
    found = found' := by
  rcases hFound with ⟨g, hMember, hLe, hMost, rfl⟩ |
    ⟨hAbove, rfl⟩ <;>
  rcases hOther with ⟨g', hMember', hLe', hMost', rfl⟩ |
    ⟨hAbove', rfl⟩
  · rw [le_antisymm (hMost' g hMember hLe)
      (hMost g' hMember' hLe')]
  · exact absurd hLe (not_le_of_gt (hAbove' g hMember))
  · exact absurd hLe' (not_le_of_gt (hAbove g' hMember'))
  · rfl

/- The last of the entries with smaller keys is nearest. -/
theorem nearest_toMap
    (hSorted : Sorted (front ++ back))
    (hFront : ∀ entry ∈ front, entry.1 ≤ k)
    (hBack : ∀ entry ∈ back, k < entry.1) :
    Nearest (toMap (front ++ back)) k
      (front.getLast?.map Prod.snd) := by
  rcases List.eq_nil_or_concat front with
    rfl | ⟨rest, last, rfl⟩
  · refine .inr ⟨?_, rfl⟩
    intro g hMember
    rcases mem_toMap.mp hMember with ⟨v, hEntry⟩
    exact hBack _ hEntry
  · rw [List.concat_eq_append] at *
    have hLast : last ∈ rest ++ [last] := by
      simp
    have hEntry : last ∈ rest ++ [last] ++ back :=
      List.mem_append_left back hLast
    refine .inl ⟨last.1, mem_toMap.mpr ⟨last.2, hEntry⟩,
      hFront last hLast, ?_, ?_⟩
    · intro g hMember hLe
      rcases mem_toMap.mp hMember with ⟨v, hOther⟩
      rcases List.mem_append.mp hOther with hLow | hHigh
      · rcases List.mem_append.mp hLow with hRest | hSelf
        · have hLess :=
            (List.pairwise_append.mp
              (List.pairwise_append.mp hSorted).1).2.2
                (g, v) hRest last (by simp)
          exact le_of_lt hLess
        · rw [List.mem_singleton] at hSelf
          rw [← hSelf]
      · exact absurd hLe (not_le_of_gt (hBack _ hHigh))
    · rw [lookup_toMap hSorted hEntry]
      simp

end SortedMap
