import CsappLabs.Cache.Lru

/-
  Two caches with the same sets and different numbers of
  lines, run on one trace.

  The recency list of the smaller cache is the front of the
  list of the larger one, so what is resident in the smaller
  cache is resident in the larger one.

  Key definitions include:
    * `Resident`
    * `FrontOf`

  Key theorems include:
    * `FrontOf.access`
    * `simulate_inclusion`
-/

------------------------------------------------------------
-- Reference Caches
------------------------------------------------------------

namespace CsappLabs

namespace Cache

open Recency

variable {line line' : Nat} {ref ref' : Reference}
variable {entry : Access} {trace : List Access}

/-
  Each list of the smaller cache is the front of the list of
  the larger one, which has hit more and missed less.
-/
structure FrontOf
    (line : Nat) (ref ref' : Reference) : Prop where
  sets : ∀ set, ref.sets set = (ref'.sets set).take line
  hits : ref.hits ≤ ref'.hits
  misses : ref'.misses ≤ ref.misses

theorem frontOf_start :
    FrontOf line Reference.start Reference.start where
  sets := fun _ => List.take_nil.symm
  hits := Nat.le_refl 0
  misses := Nat.le_refl 0

/- The counters and lists after one use of a tag. -/
theorem use_hits
    (tag : Int) (set : Nat) :
    (ref.use tag set line).hits =
      if tag ∈ ref.sets set then ref.hits + 1
      else ref.hits := by
  rw [Reference.use]
  split
  · rfl
  · split
    · rfl
    · rfl

theorem use_misses
    (tag : Int) (set : Nat) :
    (ref.use tag set line).misses =
      if tag ∈ ref.sets set then ref.misses
      else ref.misses + 1 := by
  rw [Reference.use]
  split
  · rfl
  · split
    · rfl
    · rfl

theorem use_sets
    (tag : Int) (set : Nat) :
    (ref.use tag set line).sets =
      Function.update ref.sets set
        (touch line tag (ref.sets set)) := by
  rw [Reference.use]
  split
  · rfl
  · split
    · rfl
    · rfl

/- A hit in the smaller cache is a hit in the larger one. -/
theorem FrontOf.use
    (hFront : FrontOf line ref ref')
    (hLine : 0 < line)
    (hMore : line ≤ line')
    (tag : Int) (set : Nat) :
    FrontOf line (ref.use tag set line)
      (ref'.use tag set line') := by
  have hMember : tag ∈ ref.sets set → tag ∈ ref'.sets set := by
    intro hMem
    rw [hFront.sets] at hMem
    exact List.mem_of_mem_take hMem
  have hHits := hFront.hits
  have hMisses := hFront.misses
  refine ⟨?_, ?_, ?_⟩
  · intro other
    rw [use_sets, use_sets]
    by_cases hSame : other = set
    · rw [hSame, Function.update_self, Function.update_self,
        hFront.sets, touch_take hLine hMore]
    · rw [Function.update_of_ne hSame,
        Function.update_of_ne hSame]
      exact hFront.sets other
  · rw [use_hits, use_hits]
    split
    · rename_i hHit
      rw [if_pos (hMember hHit)]
      omega
    · split
      · omega
      · exact hHits
  · rw [use_misses, use_misses]
    split
    · split
      · exact hMisses
      · omega
    · rename_i hMiss
      rw [if_neg (fun hHit => hMiss (hMember hHit))]
      omega

theorem FrontOf.access
    (hFront : FrontOf line ref ref')
    (hLine : 0 < line)
    (hMore : line ≤ line') :
    FrontOf line (ref.access line entry)
      (ref'.access line' entry) := by
  have hClear : FrontOf line { ref with text := "" }
      { ref' with text := "" } :=
    { hFront with }
  have hUse := hClear.use hLine hMore entry.tag entry.set
  unfold Reference.access
  cases entry.op with
  | modify =>
      exact
        { sets := hUse.sets
          hits := Nat.succ_le_succ hUse.hits
          misses := hUse.misses }
  | load => exact hUse
  | store => exact hUse

theorem FrontOf.run
    (hLine : 0 < line)
    (hMore : line ≤ line') :
    FrontOf line (Reference.run line trace)
      (Reference.run line' trace) := by
  induction trace using List.reverseRecOn with
  | nil => exact frontOf_start
  | append_singleton before entry ih =>
      unfold Reference.run at ih ⊢
      rw [List.foldl_append, List.foldl_append]
      exact ih.access hLine hMore

------------------------------------------------------------
-- Caches Without Lines
------------------------------------------------------------

section Counts

variable {tag : Int} {set : Nat} {sim : Simulator}

theorem loadLoop_counts
    {slots : List Nat} {sim' : Simulator}
    (hStop : loadLoop tag set line sim slots = some sim') :
    sim'.misses ≤ sim.misses + 1 ∧ sim.hits ≤ sim'.hits := by
  induction slots with
  | nil => cases hStop
  | cons l rest ih =>
      rw [loadLoop] at hStop
      simp only at hStop
      split at hStop
      · cases hStop
        exact ⟨Nat.le_succ _, Nat.le_succ _⟩
      · split at hStop
        · cases hStop
          exact ⟨Nat.le_refl _, Nat.le_refl _⟩
        · exact ih hStop

/- One use of a tag misses at most once and loses no hit. -/
theorem loadCache_counts :
    (loadCache tag set line sim).misses ≤ sim.misses + 1 ∧
      sim.hits ≤ (loadCache tag set line sim).hits := by
  unfold loadCache
  cases hStop :
      loadLoop tag set line sim (List.range line) with
  | some stopped =>
      have hCounts := loadLoop_counts hStop
      exact hCounts
  | none => exact ⟨Nat.le_refl _, Nat.le_refl _⟩

/- Without lines every use of a tag misses. -/
theorem loadCache_zero :
    (loadCache tag set 0 sim).misses = sim.misses + 1 ∧
      (loadCache tag set 0 sim).hits = sim.hits :=
  ⟨rfl, rfl⟩

theorem simulate_counts_zero :
    (simulate line trace).misses ≤ (simulate 0 trace).misses ∧
      (simulate 0 trace).hits ≤ (simulate line trace).hits := by
  induction trace using List.reverseRecOn with
  | nil => exact ⟨Nat.le_refl _, Nat.le_refl _⟩
  | append_singleton before entry ih =>
      unfold simulate at ih ⊢
      rw [List.foldl_append, List.foldl_append]
      rcases ih with ⟨hMisses, hHits⟩
      simp only [List.foldl_cons, List.foldl_nil]
      generalize hSmall :
        before.foldl (Cache.access 0) Simulator.start = small
        at hMisses hHits ⊢
      generalize hLarge :
        before.foldl (Cache.access line) Simulator.start = large
        at hMisses hHits ⊢
      have hLoad := @loadCache_counts line entry.tag entry.set
        { large with resChar := "" }
      have hZero := @loadCache_zero entry.tag entry.set
        { small with resChar := "" }
      simp only at hLoad hZero
      unfold Cache.access
      cases entry.op with
      | modify =>
          simp only
          omega
      | load =>
          simp only
          omega
      | store =>
          simp only
          omega

end Counts

------------------------------------------------------------
-- Inclusion
------------------------------------------------------------

/- A valid line of the set holds the tag. -/
def Resident
    (line : Nat) (sim : Simulator) (set : Nat) (tag : Int) :
    Prop :=
  ∃ l, l < line ∧
    (sim.lines (set * line + l)).valid = true ∧
    (sim.lines (set * line + l)).tag = tag

theorem Agrees.resident_iff
    {sim : Simulator} {set : Nat} {tag : Int}
    (hAgrees : Agrees line sim ref) :
    Resident line sim set tag ↔ tag ∈ ref.sets set := by
  rcases hAgrees.sets set with ⟨order, hSet⟩
  exact hSet.resident_iff

/-
  After every prefix of a trace what is resident with fewer
  lines is resident with more, which hit no less and miss no
  more.
-/
theorem simulate_inclusion
    {before : List Access}
    (hMore : line ≤ line')
    (hClock : ClockBelow line trace)
    (hClock' : ClockBelow line' trace)
    (hPrefix : before <+: trace) :
    (∀ set tag,
        Resident line (simulate line before) set tag →
        Resident line' (simulate line' before) set tag) ∧
      (simulate line' before).misses ≤
        (simulate line before).misses ∧
      (simulate line before).hits ≤
        (simulate line' before).hits := by
  rcases Nat.eq_zero_or_pos line with rfl | hLine
  · refine ⟨?_, simulate_counts_zero⟩
    rintro set tag ⟨l, hL, _⟩
    exact absurd hL (Nat.not_lt_zero l)
  · have hAgrees :=
      simulate_agrees hLine (hClock.of_prefix hPrefix)
    have hAgrees' :=
      simulate_agrees (Nat.lt_of_lt_of_le hLine hMore)
        (hClock'.of_prefix hPrefix)
    have hFront : FrontOf line (Reference.run line before)
        (Reference.run line' before) :=
      .run hLine hMore
    refine ⟨?_, ?_, ?_⟩
    · intro set tag hResident
      rw [hAgrees.resident_iff, hFront.sets] at hResident
      exact hAgrees'.resident_iff.mpr
        (List.mem_of_mem_take hResident)
    · rw [hAgrees.misses, hAgrees'.misses]
      exact hFront.misses
    · rw [hAgrees.hits, hAgrees'.hits]
      exact hFront.hits

/- Two tags that alternate in one set. -/
theorem simulate_inclusion_alternating :
    (∀ set tag,
        Resident 1
          (simulate 1
            [⟨.load, 7, 0⟩, ⟨.store, 8, 0⟩, ⟨.load, 7, 0⟩])
          set tag →
        Resident 2
          (simulate 2
            [⟨.load, 7, 0⟩, ⟨.store, 8, 0⟩, ⟨.load, 7, 0⟩])
          set tag) ∧
      (simulate 2
          [⟨.load, 7, 0⟩, ⟨.store, 8, 0⟩,
            ⟨.load, 7, 0⟩]).misses ≤
        (simulate 1
          [⟨.load, 7, 0⟩, ⟨.store, 8, 0⟩,
            ⟨.load, 7, 0⟩]).misses ∧
      (simulate 1
          [⟨.load, 7, 0⟩, ⟨.store, 8, 0⟩,
            ⟨.load, 7, 0⟩]).hits ≤
        (simulate 2
          [⟨.load, 7, 0⟩, ⟨.store, 8, 0⟩,
            ⟨.load, 7, 0⟩]).hits :=
  simulate_inclusion (by decide)
    (clockBelow_of_length (by decide))
    (clockBelow_of_length (by decide))
    (List.prefix_refl _)

end Cache

end CsappLabs
