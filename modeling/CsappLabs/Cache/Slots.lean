import CsappLabs.Cache.Simulator

/-
  One set of the cache, and what `LoadCache` does to it.

  The loop of `LoadCache` stops at the first line that holds
  the tag or is not valid. Where the valid lines of the set
  are a prefix of it with distinct tags, that is a hit, a
  fill of the next line, or, in a full set without the tag,
  an eviction.

  Key definitions include:
    * `SetSound`
    * `victim`

  Key theorems include:
    * `SetSound.put`
    * `SetSound.loadCache_cases`
-/

------------------------------------------------------------
-- The Lines Of A Set
------------------------------------------------------------

namespace CsappLabs

namespace Cache

open Recency

/- The lines of one set, by their place in the set. -/
def Simulator.slot
    (sim : Simulator) (line set l : Nat) : Line :=
  sim.lines (set * line + l)

variable {tag : Int} {set line l filled : Nat}
variable {sim : Simulator}

theorem slot_put_same {v : Line} :
    (sim.put (set * line + l) v).slot line set =
      Function.update (sim.slot line set) l v := by
  funext k
  change
    Function.update sim.lines (set * line + l) v
        (set * line + k) =
      Function.update (sim.slot line set) l v k
  by_cases hEq : k = l
  · rw [hEq, Function.update_self, Function.update_self]
  · rw [Function.update_of_ne hEq,
      Function.update_of_ne (by omega)]
    rfl

/- A line belongs to one set. -/
theorem slot_put_other
    {v : Line} {other k : Nat}
    (hSet : other ≠ set)
    (hL : l < line)
    (hK : k < line) :
    (sim.put (set * line + l) v).slot line other k =
      sim.slot line other k := by
  have hDivide : ∀ s i, i < line →
      (s * line + i) / line = s := by
    intro s i hI
    rw [Nat.add_comm, Nat.add_mul_div_right _ _ (by omega),
      Nat.div_eq_of_lt hI, Nat.zero_add]
  have hNe : other * line + k ≠ set * line + l := by
    intro hEq
    have hQuotient := congrArg (· / line) hEq
    simp only [hDivide _ _ hK, hDivide _ _ hL] at hQuotient
    exact hSet hQuotient
  exact Function.update_of_ne hNe _ _

------------------------------------------------------------
-- A Sound Set
------------------------------------------------------------

/-
  The valid lines of a set are its first `filled` lines. No
  two of them have the same tag or the same stamp, and their
  stamps lie in the past.
-/
structure SetSound
    (slot : Nat → Line) (line time filled : Nat) :
    Prop where
  fits : filled ≤ line
  valid :
    ∀ l, l < line → ((slot l).valid = true ↔ l < filled)
  tags :
    ∀ i j, i < filled → j < filled →
      (slot i).tag = (slot j).tag → i = j
  timers :
    ∀ i j, i < filled → j < filled →
      (slot i).timer = (slot j).timer → i = j
  below : ∀ l, l < filled → (slot l).timer < time

namespace SetSound

variable {slot slot' : Nat → Line} {time time' filled' : Nat}

/- What happens in other sets does not matter. -/
theorem congr
    (hSound : SetSound slot line time filled)
    (hSlot : ∀ l, l < line → slot' l = slot l)
    (hTime : time ≤ time') :
    SetSound slot' line time' filled := by
  have hFilled : ∀ l, l < filled → slot' l = slot l := by
    intro l hL
    exact hSlot l (Nat.lt_of_lt_of_le hL hSound.fits)
  refine ⟨hSound.fits, ?_, ?_, ?_, ?_⟩
  · intro l hL
    rw [hSlot l hL]
    exact hSound.valid l hL
  · intro i j hI hJ
    rw [hFilled i hI, hFilled j hJ]
    exact hSound.tags i j hI hJ
  · intro i j hI hJ
    rw [hFilled i hI, hFilled j hJ]
    exact hSound.timers i j hI hJ
  · intro l hL
    rw [hFilled l hL]
    exact Nat.lt_of_lt_of_le (hSound.below l hL) hTime

/-
  Stamp one line with the clock, and give it a tag that no
  other valid line has.
-/
theorem put
    (hSound : SetSound slot line time filled)
    (hL : l < filled')
    (hFits : filled' ≤ line)
    (hFilled : ∀ k, k ≠ l → (k < filled' ↔ k < filled))
    (hTag : ∀ k, k < filled → k ≠ l → (slot k).tag ≠ tag)
    (hTime : time < time') :
    SetSound (Function.update slot l ⟨time, tag, true⟩)
      line time' filled' := by
  have hOther : ∀ k, k ≠ l →
      Function.update slot l ⟨time, tag, true⟩ k =
        slot k :=
    fun k hNe => Function.update_of_ne hNe _ _
  have hSelf :
      Function.update slot l ⟨time, tag, true⟩ l =
        ⟨time, tag, true⟩ :=
    Function.update_self _ _ _
  refine ⟨hFits, ?_, ?_, ?_, ?_⟩
  · intro k hK
    by_cases hEq : k = l
    · rw [hEq, hSelf]
      exact iff_of_true rfl hL
    · rw [hOther k hEq, hFilled k hEq]
      exact hSound.valid k hK
  · intro i j hI hJ hSame
    by_cases hEqI : i = l
    · by_cases hEqJ : j = l
      · rw [hEqI, hEqJ]
      · rw [hEqI, hSelf, hOther j hEqJ] at hSame
        exact absurd hSame.symm
          (hTag j ((hFilled j hEqJ).mp hJ) hEqJ)
    · by_cases hEqJ : j = l
      · rw [hEqJ, hSelf, hOther i hEqI] at hSame
        exact absurd hSame
          (hTag i ((hFilled i hEqI).mp hI) hEqI)
      · rw [hOther i hEqI, hOther j hEqJ] at hSame
        exact hSound.tags i j ((hFilled i hEqI).mp hI)
          ((hFilled j hEqJ).mp hJ) hSame
  · intro i j hI hJ hSame
    by_cases hEqI : i = l
    · by_cases hEqJ : j = l
      · rw [hEqI, hEqJ]
      · rw [hEqI, hSelf, hOther j hEqJ] at hSame
        have hBelow :=
          hSound.below j ((hFilled j hEqJ).mp hJ)
        exact absurd hSame.symm (Nat.ne_of_lt hBelow)
    · by_cases hEqJ : j = l
      · rw [hEqJ, hSelf, hOther i hEqI] at hSame
        have hBelow :=
          hSound.below i ((hFilled i hEqI).mp hI)
        exact absurd hSame (Nat.ne_of_lt hBelow)
      · rw [hOther i hEqI, hOther j hEqJ] at hSame
        exact hSound.timers i j ((hFilled i hEqI).mp hI)
          ((hFilled j hEqJ).mp hJ) hSame
  · intro k hK
    by_cases hEq : k = l
    · rw [hEq, hSelf]
      exact hTime
    · rw [hOther k hEq]
      exact Nat.lt_trans
        (hSound.below k ((hFilled k hEq).mp hK)) hTime

end SetSound

------------------------------------------------------------
-- The Loop Of LoadCache
------------------------------------------------------------

/- Lines that do not stop the loop are passed over. -/
theorem loadLoop_append
    {before after : List Nat}
    (hPass :
      ∀ k ∈ before,
        (sim.slot line set k).valid = true ∧
          (sim.slot line set k).tag ≠ tag) :
    loadLoop tag set line sim (before ++ after) =
      loadLoop tag set line sim after := by
  induction before with
  | nil => rfl
  | cons k before ih =>
      rcases hPass k (by simp) with ⟨hValid, hTag⟩
      unfold Simulator.slot at hValid hTag
      rw [List.cons_append, loadLoop]
      simp only [hValid, hTag, and_false, ↓reduceIte,
        Bool.true_eq_false]
      exact ih fun k hK => hPass k (by simp [hK])

theorem range_split
    {n : Nat}
    (hLt : l < n) :
    ∃ after, List.range n = List.range l ++ l :: after := by
  refine ⟨(List.range (n - l - 1)).map (l + 1 + ·), ?_⟩
  have hSplit : n = l + 1 + (n - l - 1) := by omega
  conv => lhs; rw [hSplit]
  rw [List.range_add, List.range_succ, List.append_assoc]
  rfl

------------------------------------------------------------
-- The Victim
------------------------------------------------------------

/-
  The place in its set of the line that `WriteCache`
  overwrites.
-/
def victim (line set : Nat) (sim : Simulator) : Nat :=
  line - 1 -
    (leastScan
      (fun l =>
        (sim.lines (set * line + (line - 1) - l)).timer)
      maxTimer line).2

/- The scan reads the set from its last line down. -/
theorem scan_place
    (hL : l < line) :
    set * line + (line - 1) - l =
      set * line + (line - 1 - l) := by
  omega

theorem scan_lt
    (hLine : 0 < line)
    (value : Nat → Nat) :
    (leastScan value maxTimer line).2 < line := by
  have hScan := @leastScan_least value maxTimer line
  rcases Nat.lt_or_ge
      (leastScan value maxTimer line).1 maxTimer with
    hFound | hNone
  · exact (hScan.2.2 hFound).1
  · rw [leastScan_default hNone]
    exact hLine

theorem victim_lt
    (hLine : 0 < line) :
    victim line set sim < line := by
  unfold victim
  omega

/- `WriteCache`, called on the last line of a set. -/
theorem writeCache_eq_victim
    (hLine : 0 < line) :
    writeCache tag line (set * line + (line - 1)) sim =
      { sim.put (set * line + victim line set sim)
          { sim.slot line set (victim line set sim) with
            tag := tag
            timer := sim.time } with
        evictions := sim.evictions + 1
        time := sim.time + 1 } := by
  have hPlace :
      set * line + (line - 1) -
          (leastScan
            (fun l =>
              (sim.lines
                (set * line + (line - 1) - l)).timer)
            maxTimer line).2 =
        set * line + victim line set sim :=
    scan_place (scan_lt hLine _)
  unfold writeCache
  simp only [hPlace]
  rfl

/- A line with the least stamp below the bound is chosen. -/
theorem victim_eq
    (hL : l < line)
    (hBound : (sim.slot line set l).timer < maxTimer)
    (hLeast :
      ∀ k, k < line → k ≠ l →
        (sim.slot line set l).timer <
          (sim.slot line set k).timer) :
    victim line set sim = l := by
  have hPlace : line - 1 - (line - 1 - l) = l := by omega
  have hScan :
      (leastScan
        (fun i =>
          (sim.lines
            (set * line + (line - 1) - i)).timer)
        maxTimer line).2 =
          line - 1 - l := by
    apply leastScan_eq (by omega)
    · rw [scan_place (by omega), hPlace]
      exact hBound
    · intro i hI hNe
      rw [scan_place (by omega), scan_place hI, hPlace]
      exact hLeast _ (by omega) (by omega)
  unfold victim
  rw [hScan, hPlace]

------------------------------------------------------------
-- LoadCache On A Sound Set
------------------------------------------------------------

namespace SetSound

variable
  (hSound :
    SetSound (sim.slot line set) line sim.time filled)

include hSound

/- Every line before a used slot holds another tag. -/
theorem passes_before
    (hBelow : l ≤ filled)
    (hOther :
      ∀ k, k < l → (sim.slot line set k).tag ≠ tag) :
    ∀ k ∈ List.range l,
      (sim.slot line set k).valid = true ∧
        (sim.slot line set k).tag ≠ tag := by
  intro k hK
  rw [List.mem_range] at hK
  have hFits := hSound.fits
  exact
    ⟨(hSound.valid k (by omega)).mpr (by omega),
      hOther k hK⟩

theorem loadCache_hit
    (hLt : l < filled)
    (hTag : (sim.slot line set l).tag = tag) :
    loadCache tag set line sim =
      { sim.put (set * line + l) ⟨sim.time, tag, true⟩ with
        hits := sim.hits + 1
        resChar := "hit"
        time := sim.time + 1 } := by
  have hFits := hSound.fits
  have hValid := (hSound.valid l (by omega)).mpr hLt
  have hOther :
      ∀ k, k < l → (sim.slot line set k).tag ≠ tag := by
    intro k hK hSame
    have hEq :=
      hSound.tags k l (by omega) hLt
        (hSame.trans hTag.symm)
    omega
  rcases @range_split l line (by omega) with ⟨after, hRange⟩
  have hLine :
      { sim.slot line set l with timer := sim.time } =
        (⟨sim.time, tag, true⟩ : Line) := by
    rw [← hTag, ← hValid]
  have hPass :=
    hSound.passes_before (Nat.le_of_lt hLt) hOther
  unfold Simulator.slot at hValid hTag hLine
  unfold loadCache
  rw [hRange, loadLoop_append hPass, loadLoop]
  simp only
  rw [if_pos ⟨hValid, hTag⟩, hLine]
  rfl

theorem loadCache_miss
    (hNew :
      ∀ k, k < filled → (sim.slot line set k).tag ≠ tag)
    (hRoom : filled < line) :
    loadCache tag set line sim =
      { sim.put (set * line + filled)
          ⟨sim.time, tag, true⟩ with
        misses := sim.misses + 1
        resChar := "miss"
        time := sim.time + 1 } := by
  have hInvalid :
      (sim.slot line set filled).valid = false := by
    rw [← Bool.not_eq_true, hSound.valid _ hRoom]
    exact Nat.lt_irrefl _
  rcases range_split hRoom with ⟨after, hRange⟩
  have hPass :=
    hSound.passes_before (Nat.le_refl _) hNew
  unfold Simulator.slot at hInvalid
  unfold loadCache
  rw [hRange, loadLoop_append hPass, loadLoop]
  simp only [hInvalid, Bool.false_eq_true, false_and,
    ↓reduceIte]
  rfl

theorem loadCache_evict
    (hLine : 0 < line)
    (hNew :
      ∀ k, k < filled → (sim.slot line set k).tag ≠ tag)
    (hFull : filled = line) :
    loadCache tag set line sim =
      { sim.put (set * line + victim line set sim)
          ⟨sim.time, tag, true⟩ with
        misses := sim.misses + 1
        evictions := sim.evictions + 1
        resChar := "miss eviction"
        time := sim.time + 2 } := by
  subst hFull
  have hNone :
      loadLoop tag set filled sim (List.range filled) =
        none := by
    have hPassed :=
      @loadLoop_append tag set filled sim _ []
        (hSound.passes_before (Nat.le_refl _) hNew)
    rw [List.append_nil] at hPassed
    exact hPassed
  have hLt : victim filled set sim < filled :=
    victim_lt hLine
  have hSlot :
      { sim.slot filled set (victim filled set sim) with
        tag := tag
        timer := sim.time } =
        (⟨sim.time, tag, true⟩ : Line) := by
    rw [← (hSound.valid _ hLt).mpr hLt]
  unfold loadCache
  rw [hNone]
  simp only [writeCache_eq_victim hLine, hSlot]
  rfl

/- One use of a tag hits, fills the next line or evicts. -/
theorem loadCache_cases
    (hLine : 0 < line)
    (tag : Int) :
    (∃ l, l < filled ∧
      (sim.slot line set l).tag = tag ∧
      loadCache tag set line sim =
        { sim.put (set * line + l)
            ⟨sim.time, tag, true⟩ with
          hits := sim.hits + 1
          resChar := "hit"
          time := sim.time + 1 }) ∨
    (filled < line ∧
      (∀ k, k < filled →
        (sim.slot line set k).tag ≠ tag) ∧
      loadCache tag set line sim =
        { sim.put (set * line + filled)
            ⟨sim.time, tag, true⟩ with
          misses := sim.misses + 1
          resChar := "miss"
          time := sim.time + 1 }) ∨
    (filled = line ∧
      (∀ k, k < filled →
        (sim.slot line set k).tag ≠ tag) ∧
      loadCache tag set line sim =
        { sim.put (set * line + victim line set sim)
            ⟨sim.time, tag, true⟩ with
          misses := sim.misses + 1
          evictions := sim.evictions + 1
          resChar := "miss eviction"
          time := sim.time + 2 }) := by
  by_cases hHit :
      ∃ l, l < filled ∧ (sim.slot line set l).tag = tag
  · rcases hHit with ⟨l, hL, hTag⟩
    exact Or.inl ⟨l, hL, hTag, hSound.loadCache_hit hL hTag⟩
  · have hNew :
        ∀ k, k < filled →
          (sim.slot line set k).tag ≠ tag :=
      fun k hK hTag => hHit ⟨k, hK, hTag⟩
    rcases Nat.lt_or_eq_of_le hSound.fits with
      hRoom | hFull
    · exact Or.inr (Or.inl
        ⟨hRoom, hNew, hSound.loadCache_miss hNew hRoom⟩)
    · exact Or.inr (Or.inr
        ⟨hFull, hNew,
          hSound.loadCache_evict hLine hNew hFull⟩)

end SetSound

end Cache

end CsappLabs
