import Mathlib.Data.Set.Lattice

/-
  Counting loops over natural numbers and the footprints of
  their bodies.

  A body is described by a relation between the states
  before and after it, indexed by the set of cells it is
  responsible for. When the relation composes along unions,
  a loop is responsible for the union over its indices.

  Key definitions include:
    * `Loop.forLoop`
    * `Loop.visited`
    * `Loop.Footprint`

  Key theorems include:
    * `Loop.forLoop_rule`
    * `Loop.Footprint.forLoop`
    * `Loop.mem_visited_tiles`
-/

namespace Loop

variable {σ ι : Type}
variable {limit step : Nat}

------------------------------------------------------------
-- Loops
------------------------------------------------------------

/- `for (i = start; i < limit; i += step) body` -/
def forFrom
    (limit step : Nat)
    (hStep : 0 < step)
    (body : Nat → σ → σ)
    (start : Nat)
    (s : σ) : σ :=
  if start < limit then
    forFrom limit step hStep body (start + step)
      (body start s)
  else
    s
termination_by limit - start

/- `for (i = 0; i < limit; i += step) body` -/
def forLoop
    (limit step : Nat)
    (hStep : 0 < step)
    (body : Nat → σ → σ)
    (s : σ) : σ :=
  forFrom limit step hStep body 0 s

/- The least multiple of the step that reaches the limit. -/
def ceiling (limit step : Nat) : Nat :=
  (limit + step - 1) / step * step

/- The indices the body of a loop runs at. -/
def visited (limit step : Nat) : Set Nat :=
  {i | step ∣ i ∧ i < limit}

theorem lt_ceiling_iff
    {i : Nat}
    (hStep : 0 < step)
    (hDvd : step ∣ i) :
    i < ceiling limit step ↔ i < limit := by
  rcases hDvd with ⟨k, rfl⟩
  unfold ceiling
  rw [Nat.mul_comm step k]
  rw [Nat.mul_lt_mul_right hStep]
  rw [Nat.lt_div_iff_mul_lt hStep]
  omega

theorem dvd_ceiling : step ∣ ceiling limit step :=
  Nat.dvd_mul_left _ _

theorem ceiling_of_dvd
    (hStep : 0 < step)
    (hDvd : step ∣ limit) :
    ceiling limit step = limit := by
  apply Nat.le_antisymm
  · apply Nat.le_of_not_lt
    intro hLt
    exact absurd
      ((lt_ceiling_iff hStep hDvd).mp hLt) (Nat.lt_irrefl _)
  · apply Nat.le_of_not_lt
    intro hLt
    exact absurd
      ((lt_ceiling_iff hStep dvd_ceiling).mpr hLt)
      (Nat.lt_irrefl _)

theorem le_ceiling (hStep : 0 < step) :
    limit ≤ ceiling limit step := by
  apply Nat.le_of_not_lt
  intro hLt
  exact absurd
    ((lt_ceiling_iff hStep dvd_ceiling).mpr hLt)
    (Nat.lt_irrefl _)

------------------------------------------------------------
-- The Invariant Rule
------------------------------------------------------------

/-
  An invariant of the index and the state that every pass of
  the body moves one step on holds at the index where the
  loop ends.
-/
theorem forFrom_rule
    {hStep : 0 < step}
    {body : Nat → σ → σ}
    {start : Nat}
    {s : σ}
    (inv : Nat → σ → Prop)
    (hDvd : step ∣ start)
    (hLe : start ≤ ceiling limit step)
    (hStart : inv start s)
    (hBody :
      ∀ i s, i ∈ visited limit step → inv i s →
        inv (i + step) (body i s)) :
    inv (ceiling limit step)
      (forFrom limit step hStep body start s) := by
  fun_induction forFrom limit step hStep body start s with
  | case1 start s hLt ih =>
      apply ih
      · exact Nat.dvd_add hDvd (Nat.dvd_refl step)
      · -- The next multiple is still at most the ceiling.
        have hBelow :=
          (lt_ceiling_iff hStep hDvd).mpr hLt
        exact Nat.add_le_of_le_sub' hLe
          (Nat.le_of_dvd (Nat.sub_pos_of_lt hBelow)
            (Nat.dvd_sub dvd_ceiling hDvd))
      · exact hBody start s ⟨hDvd, hLt⟩ hStart
  | case2 start s hNot =>
      have hEq : start = ceiling limit step := by
        apply Nat.le_antisymm hLe
        apply Nat.le_of_not_lt
        intro hLt
        exact hNot ((lt_ceiling_iff hStep hDvd).mp hLt)
      rwa [← hEq]

theorem forLoop_rule
    {hStep : 0 < step}
    {body : Nat → σ → σ}
    {s : σ}
    (inv : Nat → σ → Prop)
    (hStart : inv 0 s)
    (hBody :
      ∀ i s, i ∈ visited limit step → inv i s →
        inv (i + step) (body i s)) :
    inv (ceiling limit step)
      (forLoop limit step hStep body s) :=
  forFrom_rule inv (Nat.dvd_zero step) (Nat.zero_le _)
    hStart hBody

------------------------------------------------------------
-- Footprints
------------------------------------------------------------

/-
  A relation between two states that says what was done to
  the cells of a set, and that the rest is left alone.
-/
structure Footprint (R : Set ι → σ → σ → Prop) : Prop where
  refl : ∀ s, R ∅ s s
  trans :
    ∀ c d s t u, R c s t → R d t u → R (c ∪ d) s u

/- The cells below an index and the cells at it. -/
theorem iUnion_below_add
    (cells : Nat → Set ι)
    {i : Nat}
    (hStep : 0 < step)
    (hMem : i ∈ visited limit step) :
    (⋃ k ∈ {k | k ∈ visited limit step ∧ k < i + step},
        cells k) =
      (⋃ k ∈ {k | k ∈ visited limit step ∧ k < i},
        cells k) ∪ cells i := by
  ext cell
  simp only [Set.mem_iUnion, Set.mem_union, Set.mem_ofPred_eq,
    exists_prop]
  constructor
  · rintro ⟨k, ⟨hVisited, hLt⟩, hCell⟩
    by_cases hBelow : k < i
    · exact Or.inl ⟨k, ⟨hVisited, hBelow⟩, hCell⟩
    · -- Between two multiples of the step there is no third.
      have hEq : k = i := by
        have hGap : k - i < step := by omega
        have hZero : k - i = 0 :=
          Nat.eq_zero_of_dvd_of_lt
            (Nat.dvd_sub hVisited.1 hMem.1) hGap
        omega
      exact Or.inr (hEq ▸ hCell)
  · rintro (⟨k, ⟨hVisited, hLt⟩, hCell⟩ | hCell)
    · exact ⟨k, ⟨hVisited, by omega⟩, hCell⟩
    · exact ⟨i, ⟨hMem, by omega⟩, hCell⟩

/-
  A loop whose body handles one set of cells at each index
  handles the union of these sets.
-/
theorem Footprint.forLoop
    {R : Set ι → σ → σ → Prop}
    {hStep : 0 < step}
    {body : Nat → σ → σ}
    (hR : Footprint R)
    (cells : Nat → Set ι)
    (hBody :
      ∀ i s, i ∈ visited limit step →
        R (cells i) s (body i s))
    (s : σ) :
    R (⋃ i ∈ visited limit step, cells i) s
      (forLoop limit step hStep body s) := by
  have hLoop :=
    @forLoop_rule _ limit step hStep body s
      (fun i t =>
        R (⋃ k ∈ {k | k ∈ visited limit step ∧ k < i},
          cells k) s t)
      (by simpa using hR.refl s)
      (fun i t hMem hSoFar => by
        rw [iUnion_below_add cells hStep hMem]
        exact hR.trans _ _ _ _ _ hSoFar (hBody i t hMem))
  have hAll :
      {k | k ∈ visited limit step ∧
        k < ceiling limit step} = visited limit step := by
    ext k
    constructor
    · exact fun hMem => hMem.1
    · intro hMem
      exact
        ⟨hMem, (lt_ceiling_iff hStep hMem.1).mpr hMem.2⟩
  rwa [hAll] at hLoop

------------------------------------------------------------
-- Tiles
------------------------------------------------------------

theorem mem_visited_one {i : Nat} :
    i ∈ visited limit 1 ↔ i < limit := by
  simp [visited]

/-
  A loop over tiles and a loop over the offsets in a tile
  reach every index below the ceiling, and no other.
-/
theorem mem_visited_tiles
    {i : Nat}
    (hStep : 0 < step) :
    (∃ mov ∈ visited limit step, ∃ off ∈ visited step 1,
      i = off + mov) ↔
      i < ceiling limit step := by
  constructor
  · rintro ⟨mov, hMov, off, hOff, rfl⟩
    rw [mem_visited_one] at hOff
    have hBelow :=
      (lt_ceiling_iff hStep hMov.1).mpr hMov.2
    -- The tile ends at a multiple of the step.
    have hTile : step ≤ ceiling limit step - mov :=
      Nat.le_of_dvd (Nat.sub_pos_of_lt hBelow)
        (Nat.dvd_sub dvd_ceiling hMov.1)
    omega
  · intro hLt
    have hFloor : step ∣ i - i % step :=
      Nat.dvd_sub_mod i
    have hMod : i % step ≤ i := Nat.mod_le i step
    refine
      ⟨i - i % step, ⟨hFloor, ?_⟩, i % step,
        mem_visited_one.mpr (Nat.mod_lt i hStep), by omega⟩
    exact (lt_ceiling_iff hStep hFloor).mp (by omega)

end Loop
