import CsappLabs.Cache.Accounting

/-
  Which line `WriteCache` overwrites at any age of the clock.

  The scan for the least stamp starts from a fixed bound.
  Once every stamp of a set has reached that bound, no line
  is ever below the least seen so far, and the last line of
  the set is overwritten whatever its stamp.

  Key definitions include:
    * `Overwrites`

  Key theorems include:
    * `victim_least`
    * `evicts_least_iff`
    * `evicts_newer_line`
-/

------------------------------------------------------------
-- The Overwritten Line
------------------------------------------------------------

namespace CsappLabs

namespace Cache

open Recency

variable {tag : Int} {set line l : Nat}
variable {sim : Simulator} {trace : List Access}

/-
  `WriteCache`, called for the tag on the last line of the
  set, changes this line of the set and nothing else.
-/
def Overwrites
    (tag : Int) (set line : Nat) (sim : Simulator) (l : Nat) :
    Prop :=
  l < line ∧
    ∀ target,
      (writeCache tag line (set * line + (line - 1))
          sim).lines target ≠ sim.lines target ↔
        target = set * line + l

/- A line that does not hold the tag is seen to change. -/
theorem overwrites_iff
    (hLine : 0 < line)
    (hNew :
      ∀ k, k < line → (sim.slot line set k).tag ≠ tag) :
    Overwrites tag set line sim l ↔
      l = victim line set sim := by
  have hLt : victim line set sim < line := victim_lt hLine
  have hChanged : ∀ target,
      (writeCache tag line (set * line + (line - 1))
          sim).lines target ≠ sim.lines target ↔
        target = set * line + victim line set sim := by
    intro target
    rw [writeCache_eq_victim hLine]
    simp only [Simulator.put]
    constructor
    · intro hChange
      by_contra hNe
      exact hChange (Function.update_of_ne hNe _ _)
    · rintro rfl hSame
      rw [Function.update_self] at hSame
      exact hNew _ hLt (congrArg Line.tag hSame).symm
  constructor
  · rintro ⟨hL, hOnly⟩
    have hPlace :=
      (hChanged _).mp ((hOnly (set * line + l)).mpr rfl)
    omega
  · rintro rfl
    exact ⟨hLt, hChanged⟩

------------------------------------------------------------
-- The Least Stamp
------------------------------------------------------------

/- With a stamp below the bound the scan is a true minimum. -/
theorem victim_least
    (hYoung :
      ∃ k, k < line ∧
        (sim.slot line set k).timer < maxTimer) :
    ∀ k, k < line →
      (sim.slot line set (victim line set sim)).timer ≤
        (sim.slot line set k).timer := by
  rcases hYoung with ⟨young, hYoungLt, hBelow⟩
  have hScan :=
    @leastScan_least
      (fun i =>
        (sim.lines (set * line + (line - 1) - i)).timer)
      maxTimer line
  have hSeen : ∀ k, k < line →
      (leastScan
        (fun i =>
          (sim.lines (set * line + (line - 1) - i)).timer)
        maxTimer line).1 ≤ (sim.slot line set k).timer := by
    intro k hK
    have hLeast := hScan.2.1 (line - 1 - k) (by omega)
    rw [scan_place (by omega),
      show line - 1 - (line - 1 - k) = k by omega] at hLeast
    exact hLeast
  have hFound :=
    hScan.2.2 (Nat.lt_of_le_of_lt (hSeen young hYoungLt) hBelow)
  intro k hK
  have hStands := hFound.2
  rw [scan_place hFound.1] at hStands
  have hLe := hSeen k hK
  rw [← hStands] at hLe
  exact hLe

/- Without one the scan never leaves the last line. -/
theorem victim_last
    (hOld :
      ∀ k, k < line →
        maxTimer ≤ (sim.slot line set k).timer) :
    victim line set sim = line - 1 := by
  unfold victim
  rw [leastScan_of_bound_le]
  · rfl
  · intro i hI
    rw [scan_place hI]
    exact hOld _ (by omega)

/-
  In every state a trace leads to, and for every tag that a
  full set does not hold: the line overwritten is the one
  with the least stamp exactly when some stamp of the set is
  below the bound or the last line has the least stamp.
-/
theorem evicts_least_iff
    (hLine : 0 < line)
    (hFull :
      ∀ k, k < line →
        ((simulate line trace).slot line set k).valid = true)
    (hNew :
      ∀ k, k < line →
        ((simulate line trace).slot line set k).tag ≠ tag) :
    (∃ l, Overwrites tag set line (simulate line trace) l ∧
        ∀ k, k < line → k ≠ l →
          ((simulate line trace).slot line set l).timer <
            ((simulate line trace).slot line set k).timer) ↔
      (∃ k, k < line ∧
          ((simulate line trace).slot line set k).timer <
            maxTimer) ∨
        ∀ k, k < line → k ≠ line - 1 →
          ((simulate line trace).slot line set
              (line - 1)).timer <
            ((simulate line trace).slot line set k).timer := by
  rcases @simulate_sound line trace hLine set with
    ⟨filled, hSound⟩
  have hFilled : ∀ k, k < line → k < filled :=
    fun k hK => (hSound.valid k hK).mp (hFull k hK)
  have hVictim :
      victim line set (simulate line trace) < line :=
    victim_lt hLine
  constructor
  · rintro ⟨l, hOver, hLeast⟩
    rw [overwrites_iff hLine hNew] at hOver
    by_cases hYoung :
        ∃ k, k < line ∧
          ((simulate line trace).slot line set k).timer <
            maxTimer
    · exact Or.inl hYoung
    · have hLast := @victim_last set line _ fun k hK =>
        Nat.le_of_not_lt fun hBelow => hYoung ⟨k, hK, hBelow⟩
      rw [← hLast, ← hOver]
      exact Or.inr hLeast
  · intro hCondition
    refine ⟨_, (overwrites_iff hLine hNew).mpr rfl, ?_⟩
    by_cases hYoung :
        ∃ k, k < line ∧
          ((simulate line trace).slot line set k).timer <
            maxTimer
    · intro k hK hNe
      have hLe := victim_least hYoung k hK
      have hDiffer :
          ((simulate line trace).slot line set
              (victim line set
                (simulate line trace))).timer ≠
            ((simulate line trace).slot line set k).timer :=
        fun hSame =>
          hNe (hSound.timers _ _ (hFilled _ hVictim)
            (hFilled k hK) hSame).symm
      exact Nat.lt_of_le_of_ne hLe hDiffer
    · have hLast := @victim_last set line _ fun k hK =>
        Nat.le_of_not_lt fun hBelow => hYoung ⟨k, hK, hBelow⟩
      rw [hLast]
      exact hCondition.resolve_left hYoung

/- The two lines of a set, one by one. -/
theorem forall_lt_two
    {p : Nat → Prop}
    (hFirst : p 0)
    (hSecond : p 1) :
    ∀ k, k < 2 → p k := by
  intro k hK
  match k, hK with
  | 0, _ => exact hFirst
  | 1, _ => exact hSecond

/- A young cache of two lines: the one not hit is the victim. -/
theorem evicts_least_iff_young :
    let sim :=
      simulate 2
        [⟨.load, 7, 0⟩, ⟨.load, 8, 0⟩, ⟨.load, 7, 0⟩]
    ∃ l, Overwrites 9 0 2 sim l ∧
      ∀ k, k < 2 → k ≠ l →
        (sim.slot 2 0 l).timer < (sim.slot 2 0 k).timer := by
  exact
    (evicts_least_iff (by decide)
      (forall_lt_two (by decide) (by decide))
      (forall_lt_two (by decide) (by decide))).mpr
      (.inl ⟨0, by decide, by decide⟩)

------------------------------------------------------------
-- An Old Cache
------------------------------------------------------------

/- Two tags in a set of two lines, with their stamps. -/
structure TwoLines
    (sim : Simulator) (first second : Nat) : Prop where
  first : sim.lines 0 = ⟨first, 7, true⟩
  second : sim.lines 1 = ⟨second, 8, true⟩

/- A hit on the first tag moves only its stamp. -/
theorem TwoLines.load_first
    {first second : Nat}
    (hLines : TwoLines sim first second) :
    TwoLines (access 2 sim ⟨.load, 7, 0⟩) sim.time second ∧
      (access 2 sim ⟨.load, 7, 0⟩).time = sim.time + 1 := by
  have hLoad :
      access 2 sim ⟨.load, 7, 0⟩ =
        { sim.put 0 ⟨sim.time, 7, true⟩ with
          hits := sim.hits + 1
          resChar := "hit"
          time := sim.time + 1 } := by
    simp [access, loadCache, loadLoop, List.range_succ,
      hLines.first, Simulator.put]
  rw [hLoad]
  refine ⟨⟨?_, ?_⟩, rfl⟩
  · simp [Simulator.put]
  · simp [Simulator.put, hLines.second]

theorem TwoLines.load_second
    {first second : Nat}
    (hLines : TwoLines sim first second) :
    TwoLines (access 2 sim ⟨.load, 8, 0⟩) first sim.time := by
  have hLoad :
      access 2 sim ⟨.load, 8, 0⟩ =
        { sim.put 1 ⟨sim.time, 8, true⟩ with
          hits := sim.hits + 1
          resChar := "hit"
          time := sim.time + 1 } := by
    simp [access, loadCache, loadLoop, List.range_succ,
      hLines.first, hLines.second, Simulator.put]
  rw [hLoad]
  refine ⟨?_, ?_⟩
  · simp [Simulator.put, hLines.first]
  · simp [Simulator.put]

/- Many hits on the first tag. -/
theorem TwoLines.load_many
    {first second : Nat}
    (hLines : TwoLines sim first second)
    (hTime : sim.time = first + 1)
    (count : Nat) :
    TwoLines
        ((List.replicate count ⟨.load, 7, 0⟩).foldl
          (access 2) sim)
        (first + count) second ∧
      ((List.replicate count ⟨.load, 7, 0⟩).foldl
          (access 2) sim).time = first + count + 1 := by
  induction count generalizing sim first with
  | zero => exact ⟨hLines, hTime⟩
  | succ count ih =>
      have hStep := hLines.load_first
      rw [hTime] at hStep
      have hRest := ih hStep.1 hStep.2
      rw [List.replicate_succ, List.foldl_cons,
        show first + (count + 1) = first + 1 + count by omega]
      exact hRest

/- Load two tags, hit the first for long, then the second. -/
def agedTrace (count : Nat) : List Access :=
  [⟨.load, 7, 0⟩, ⟨.load, 8, 0⟩, ⟨.load, 7, 0⟩] ++
    List.replicate count ⟨.load, 7, 0⟩ ++ [⟨.load, 8, 0⟩]

/- The first line is then the older one. -/
theorem aged_lines
    (count : Nat) :
    TwoLines (simulate 2 (agedTrace count)) (2 + count)
      (2 + count + 1) := by
  have hStart :
      TwoLines
        (simulate 2
          [⟨.load, 7, 0⟩, ⟨.load, 8, 0⟩, ⟨.load, 7, 0⟩])
        2 1 :=
    ⟨rfl, rfl⟩
  have hMany := hStart.load_many rfl count
  have hLast := hMany.1.load_second
  rw [hMany.2] at hLast
  unfold agedTrace simulate
  rw [List.foldl_append, List.foldl_append]
  exact hLast

/-
  A third tag then evicts the line used last, though the
  other one has the smaller stamp.
-/
theorem evicts_newer_line :
    ¬ ∀ (line set : Nat) (tag : Int) (trace : List Access),
      0 < line →
      (∀ k, k < line →
        ((simulate line trace).slot line set k).valid =
          true) →
      (∀ k, k < line →
        ((simulate line trace).slot line set k).tag ≠ tag) →
      ∃ l, Overwrites tag set line (simulate line trace) l ∧
        ∀ k, k < line → k ≠ l →
          ((simulate line trace).slot line set l).timer <
            ((simulate line trace).slot line set k).timer := by
  intro hClaim
  have hAged : ∃ trace first, maxTimer ≤ first ∧
      TwoLines (simulate 2 trace) first (first + 1) :=
    ⟨agedTrace 999997, _, by decide, aged_lines _⟩
  rcases hAged with ⟨trace, first, hAge, hLines⟩
  have hFirst :
      (simulate 2 trace).slot 2 0 0 = ⟨first, 7, true⟩ :=
    hLines.first
  have hSecond :
      (simulate 2 trace).slot 2 0 1 = ⟨first + 1, 8, true⟩ :=
    hLines.second
  have hEither : ∀ k, k < 2 → k = 0 ∨ k = 1 := by omega
  have hNew : ∀ k, k < 2 →
      ((simulate 2 trace).slot 2 0 k).tag ≠ 9 := by
    intro k hK
    rcases hEither k hK with rfl | rfl
    · rw [hFirst]
      exact (by decide : (7 : Int) ≠ 9)
    · rw [hSecond]
      exact (by decide : (8 : Int) ≠ 9)
  have hOld : ∀ k, k < 2 →
      maxTimer ≤ ((simulate 2 trace).slot 2 0 k).timer := by
    intro k hK
    rcases hEither k hK with rfl | rfl
    · rw [hFirst]
      exact hAge
    · rw [hSecond]
      exact Nat.le_succ_of_le hAge
  have hFull : ∀ k, k < 2 →
      ((simulate 2 trace).slot 2 0 k).valid = true := by
    intro k hK
    rcases hEither k hK with rfl | rfl
    · rw [hFirst]
    · rw [hSecond]
  rcases hClaim 2 0 9 trace (by decide) hFull hNew with
    ⟨l, hOver, hLeast⟩
  rw [overwrites_iff (by decide) hNew, victim_last hOld]
    at hOver
  subst hOver
  have hLess := hLeast 0 (by decide) (by decide)
  rw [hFirst, hSecond] at hLess
  exact absurd hLess (Nat.not_succ_lt_self)

end Cache

end CsappLabs
