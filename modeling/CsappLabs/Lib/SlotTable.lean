import Mathlib.Data.Fintype.Card
import Mathlib.Data.Set.Function
import Mathlib.Data.Set.Insert
import Mathlib.Data.Fin.Basic

/-
  Tables with a fixed number of slots, each free or used, and
  looked up by a key.

  Key definitions include:
    * `SlotTable.lookup`
    * `SlotTable.keys`
    * `SlotTable.Distinct`

  Key theorems include:
    * `SlotTable.Distinct.lookup_eq`
    * `SlotTable.Distinct.update_used`
    * `SlotTable.Distinct.update_free`
    * `SlotTable.keys_update_used`
    * `SlotTable.Distinct.keys_update_free`
    * `SlotTable.Distinct.exists_free`
-/

namespace SlotTable

variable {α β : Type} {n : Nat}
variable {used : α → Prop} {key : α → β}
variable {slots : Fin n → α} {i j : Fin n} {item : α}

------------------------------------------------------------
-- Lookup
------------------------------------------------------------

/- The first slot that satisfies a test. -/
def find (slots : Fin n → α) (test : α → Bool) :
    Option (Fin n) :=
  Fin.find? fun i => test (slots i)

theorem find_eq_some_iff {test : α → Bool} :
    find slots test = some i ↔
      test (slots i) = true ∧
        ∀ j, j < i → test (slots j) = false :=
  Fin.find?_eq_some_iff

theorem find_eq_none_iff {test : α → Bool} :
    find slots test = none ↔
      ∀ j, test (slots j) = false :=
  Fin.find?_eq_none_iff

/- The first slot with a given key. -/
def lookup
    [DecidableEq β]
    (key : α → β)
    (slots : Fin n → α)
    (wanted : β) :
    Option (Fin n) :=
  find slots fun item => decide (key item = wanted)

theorem key_of_lookup_eq_some
    [DecidableEq β]
    {wanted : β}
    (hLookup : lookup key slots wanted = some i) :
    key (slots i) = wanted := by
  have hFound := (find_eq_some_iff.mp hLookup).1
  exact of_decide_eq_true hFound

theorem lookup_eq_none_iff
    [DecidableEq β]
    {wanted : β} :
    lookup key slots wanted = none ↔
      ∀ j, key (slots j) ≠ wanted := by
  simp only [lookup, find_eq_none_iff, decide_eq_false_iff_not,
    ne_eq]

theorem exists_lookup_eq_some
    [DecidableEq β]
    {wanted : β}
    (hKey : key (slots i) = wanted) :
    ∃ j, lookup key slots wanted = some j := by
  cases hLookup : lookup key slots wanted with
  | none => exact absurd hKey (lookup_eq_none_iff.mp hLookup i)
  | some j => exact ⟨j, rfl⟩

------------------------------------------------------------
-- Keys in Use
------------------------------------------------------------

/- The keys of the used slots. -/
def keys
    (used : α → Prop)
    (key : α → β)
    (slots : Fin n → α) :
    Set β :=
  {wanted | ∃ i, used (slots i) ∧ key (slots i) = wanted}

/- No two used slots have the same key. -/
def Distinct
    (used : α → Prop)
    (key : α → β)
    (slots : Fin n → α) :
    Prop :=
  ∀ i j, used (slots i) → used (slots j) →
    key (slots i) = key (slots j) → i = j

theorem mem_keys_of_used (hUsed : used (slots i)) :
    key (slots i) ∈ keys used key slots :=
  ⟨i, hUsed, rfl⟩

/-
  A slot whose key marks it as used is the one its own key
  finds.
-/
theorem Distinct.lookup_eq
    [DecidableEq β]
    (hDistinct : Distinct used key slots)
    (hUsed : ∀ j, key (slots j) = key (slots i) →
      used (slots j)) :
    lookup key slots (key (slots i)) = some i := by
  have hFound : ∃ j,
      lookup key slots (key (slots i)) = some j :=
    exists_lookup_eq_some rfl
  rcases hFound with ⟨j, hLookup⟩
  have hKey := key_of_lookup_eq_some hLookup
  have hSame := hDistinct j i (hUsed j hKey) (hUsed i rfl) hKey
  rw [hLookup, hSame]

/- A key in use is the key of exactly one slot. -/
theorem Distinct.existsUnique
    {wanted : β}
    (hDistinct : Distinct used key slots)
    (hMem : wanted ∈ keys used key slots)
    (hUsed : ∀ j, key (slots j) = wanted → used (slots j)) :
    ∃! i, key (slots i) = wanted := by
  rcases hMem with ⟨i, hUsedI, hKey⟩
  refine ⟨i, hKey, ?_⟩
  intro j hKeyJ
  apply hDistinct j i (hUsed j hKeyJ) hUsedI
  rw [hKeyJ, hKey]

------------------------------------------------------------
-- Updates
------------------------------------------------------------

/- A new item whose key no used slot has. -/
theorem Distinct.update_used
    (hDistinct : Distinct used key slots)
    (hFresh : key item ∉ keys used key slots) :
    Distinct used key (Function.update slots i item) := by
  intro j k hUsedJ hUsedK hKey
  by_cases hJ : j = i
  · by_cases hK : k = i
    · rw [hJ, hK]
    · rw [hJ, Function.update_self,
        Function.update_of_ne hK] at hKey
      rw [Function.update_of_ne hK] at hUsedK
      exact absurd ⟨k, hUsedK, hKey.symm⟩ hFresh
  · rw [Function.update_of_ne hJ] at hUsedJ hKey
    by_cases hK : k = i
    · rw [hK, Function.update_self] at hKey
      exact absurd ⟨j, hUsedJ, hKey⟩ hFresh
    · rw [Function.update_of_ne hK] at hUsedK hKey
      exact hDistinct j k hUsedJ hUsedK hKey

theorem Distinct.update_free
    (hDistinct : Distinct used key slots)
    (hFree : ¬used item) :
    Distinct used key (Function.update slots i item) := by
  intro j k hUsedJ hUsedK hKey
  have hNe : ∀ l, used (Function.update slots i item l) →
      l ≠ i := by
    intro l hUsed hSame
    rw [hSame, Function.update_self] at hUsed
    exact hFree hUsed
  have hJ := hNe j hUsedJ
  have hK := hNe k hUsedK
  rw [Function.update_of_ne hJ] at hUsedJ hKey
  rw [Function.update_of_ne hK] at hUsedK hKey
  exact hDistinct j k hUsedJ hUsedK hKey

/- An update that leaves use and key of every slot alone. -/
theorem Distinct.congr
    {slots' : Fin n → α}
    (hDistinct : Distinct used key slots)
    (hUsed : ∀ i, used (slots' i) → used (slots i))
    (hKey : ∀ i, key (slots' i) = key (slots i)) :
    Distinct used key slots' := by
  intro j k hUsedJ hUsedK hSame
  rw [hKey j, hKey k] at hSame
  exact hDistinct j k (hUsed j hUsedJ) (hUsed k hUsedK) hSame

theorem keys_congr
    {slots' : Fin n → α}
    (hUsed : ∀ i, used (slots' i) ↔ used (slots i))
    (hKey : ∀ i, key (slots' i) = key (slots i)) :
    keys used key slots' = keys used key slots := by
  ext wanted
  simp only [keys, hUsed, hKey]

theorem keys_update_used
    (hFree : ¬used (slots i))
    (hUsed : used item) :
    keys used key (Function.update slots i item) =
      insert (key item) (keys used key slots) := by
  ext wanted
  constructor
  · rintro ⟨j, hUsedJ, hKey⟩
    by_cases hJ : j = i
    · rw [hJ, Function.update_self] at hKey
      exact Or.inl hKey.symm
    · rw [Function.update_of_ne hJ] at hUsedJ hKey
      exact Or.inr ⟨j, hUsedJ, hKey⟩
  · rintro (hKey | ⟨j, hUsedJ, hKey⟩)
    · refine ⟨i, ?_, ?_⟩
      · rwa [Function.update_self]
      · rw [Function.update_self, hKey]
    · have hJ : j ≠ i := by
        rintro rfl
        exact hFree hUsedJ
      refine ⟨j, ?_, ?_⟩
      · rwa [Function.update_of_ne hJ]
      · rwa [Function.update_of_ne hJ]

theorem Distinct.keys_update_free
    (hDistinct : Distinct used key slots)
    (hUsed : used (slots i))
    (hFree : ¬used item) :
    keys used key (Function.update slots i item) =
      keys used key slots \ {key (slots i)} := by
  ext wanted
  constructor
  · rintro ⟨j, hUsedJ, hKey⟩
    have hJ : j ≠ i := by
      rintro rfl
      rw [Function.update_self] at hUsedJ
      exact hFree hUsedJ
    rw [Function.update_of_ne hJ] at hUsedJ hKey
    refine ⟨⟨j, hUsedJ, hKey⟩, ?_⟩
    intro hWanted
    apply hJ
    apply hDistinct j i hUsedJ hUsed
    rw [hKey, hWanted]
  · rintro ⟨⟨j, hUsedJ, hKey⟩, hNe⟩
    have hJ : j ≠ i := by
      rintro rfl
      exact hNe hKey.symm
    refine ⟨j, ?_, ?_⟩
    · rwa [Function.update_of_ne hJ]
    · rwa [Function.update_of_ne hJ]

/- Fewer keys than slots leave a slot free. -/
theorem Distinct.exists_free
    [DecidableEq β]
    {bound : Finset β}
    (hDistinct : Distinct used key slots)
    (hKeys : keys used key slots ⊆ bound)
    (hCard : bound.card < n) :
    ∃ i, ¬used (slots i) := by
  by_contra hFull
  push Not at hFull
  have hCard' : bound.card < (Finset.univ : Finset (Fin n)).card := by
    rwa [Finset.card_univ, Fintype.card_fin]
  have hMaps : ∀ i ∈ (Finset.univ : Finset (Fin n)),
      key (slots i) ∈ bound := by
    intro i _
    exact hKeys (mem_keys_of_used (hFull i))
  rcases Finset.exists_ne_map_eq_of_card_lt_of_maps_to hCard'
    hMaps with ⟨j, _, k, _, hNe, hSame⟩
  exact hNe (hDistinct j k (hFull j) (hFull k) hSame)

end SlotTable
