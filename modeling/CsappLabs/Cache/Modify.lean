import CsappLabs.Cache.Inclusion

/-
  An M is a load followed by a store to the same address.

  The two runs have different clocks and stamps from the
  first M on, but both encode the same recency lists: the
  second use of an M finds its tag in front and leaves the
  list as it is.

  Key definitions include:
    * `expand`
    * `SameCache`

  Key theorems include:
    * `SameCache.access`
    * `run_expand`
    * `simulate_modify`
-/

------------------------------------------------------------
-- Using The Front Item Again
------------------------------------------------------------

namespace CsappLabs

namespace Cache

open Recency

variable {tag : Int} {set line : Nat}
variable {ref ref' : Reference} {entry : Access}
variable {trace : List Access}

/- Reference caches that differ in the printed text only. -/
structure SameCache (ref ref' : Reference) : Prop where
  sets : ref.sets = ref'.sets
  hits : ref.hits = ref'.hits
  misses : ref.misses = ref'.misses
  evictions : ref.evictions = ref'.evictions

theorem use_evictions
    (tag : Int) (set : Nat) :
    (ref.use tag set line).evictions =
      if tag ∈ ref.sets set ∨ (ref.sets set).length < line
      then ref.evictions
      else ref.evictions + 1 := by
  rw [Reference.use]
  by_cases hHit : tag ∈ ref.sets set
  · simp [hHit]
  · by_cases hRoom : (ref.sets set).length < line
    · simp [hHit, hRoom]
    · simp [hHit, hRoom]

/- One use reads the lists and counters only. -/
theorem SameCache.use
    (hSame : SameCache ref ref')
    (tag : Int) (set : Nat) :
    SameCache (ref.use tag set line)
      (ref'.use tag set line) where
  sets := by rw [use_sets, use_sets, hSame.sets]
  hits := by rw [use_hits, use_hits, hSame.sets, hSame.hits]
  misses := by
    rw [use_misses, use_misses, hSame.sets, hSame.misses]
  evictions := by
    rw [use_evictions, use_evictions, hSame.sets,
      hSame.evictions]

/- A second use of the tag only counts one more hit. -/
theorem use_again :
    SameCache
      ((ref.use tag set line).use tag set line)
      { ref.use tag set line with
        hits := (ref.use tag set line).hits + 1 } := by
  have hFront : ∃ rest,
      (ref.use tag set line).sets set = tag :: rest := by
    rw [use_sets, Function.update_self]
    exact touch_front
  rcases hFront with ⟨rest, hRecent⟩
  have hMember : tag ∈ (ref.use tag set line).sets set := by
    rw [hRecent]
    exact List.mem_cons_self
  have hTouch :
      touch line tag ((ref.use tag set line).sets set) =
        (ref.use tag set line).sets set := by
    rw [hRecent]
    exact @touch_of_mem _ _ [] rest tag line List.not_mem_nil
  refine ⟨?_, ?_, ?_, ?_⟩
  · rw [use_sets, hTouch]
    exact Function.update_eq_self _ _
  · rw [use_hits, if_pos hMember]
  · rw [use_misses, if_pos hMember]
  · rw [use_evictions, if_pos (Or.inl hMember)]

------------------------------------------------------------
-- Expanded Traces
------------------------------------------------------------

/- An M as two accesses; L and S as they are. -/
def expandAccess (entry : Access) : List Access :=
  match entry.op with
  | .modify =>
      [{ entry with op := .load }, { entry with op := .store }]
  | .load | .store => [entry]

/- Replace every M of a trace by a load and a store. -/
def expand (trace : List Access) : List Access :=
  trace.flatMap expandAccess

/- One access, and the one or two it is replaced by. -/
theorem SameCache.access
    (hSame : SameCache ref ref')
    (entry : Access) :
    SameCache (ref.access line entry)
      ((expandAccess entry).foldl
        (Reference.access line) ref') := by
  have hClear :
      SameCache { ref with text := "" }
        { ref' with text := "" } :=
    ⟨hSame.sets, hSame.hits, hSame.misses, hSame.evictions⟩
  have hUse :=
    @SameCache.use line _ _ hClear entry.tag entry.set
  unfold expandAccess
  cases hOp : entry.op with
  | load =>
      rw [List.foldl_cons, List.foldl_nil]
      unfold Reference.access
      rw [hOp]
      exact hUse
  | store =>
      rw [List.foldl_cons, List.foldl_nil]
      unfold Reference.access
      rw [hOp]
      exact hUse
  | modify =>
      -- the store of the pair is the second use of the tag
      have hAgain :=
        @use_again entry.tag entry.set line
          { ref' with text := "" }
      have hStored :=
        @SameCache.use line
          (Reference.use entry.tag entry.set line
            { ref' with text := "" })
          { Reference.use entry.tag entry.set line
              { ref' with text := "" } with text := "" }
          ⟨rfl, rfl, rfl, rfl⟩ entry.tag entry.set
      simp only [List.foldl_cons, List.foldl_nil]
      unfold Reference.access
      rw [hOp]
      exact
        { sets :=
            hUse.sets.trans
              (hAgain.sets.symm.trans hStored.sets)
          hits :=
            (congrArg (· + 1) hUse.hits).trans
              (hAgain.hits.symm.trans hStored.hits)
          misses :=
            hUse.misses.trans
              (hAgain.misses.symm.trans hStored.misses)
          evictions :=
            hUse.evictions.trans
              (hAgain.evictions.symm.trans
                hStored.evictions) }

/- The reference cache does not tell the traces apart. -/
theorem run_expand :
    SameCache (Reference.run line trace)
      (Reference.run line (expand trace)) := by
  induction trace using List.reverseRecOn with
  | nil => exact ⟨rfl, rfl, rfl, rfl⟩
  | append_singleton before entry ih =>
      have hStep := @SameCache.access line _ _ ih entry
      unfold expand Reference.run at hStep ⊢
      rw [List.flatMap_append, List.foldl_append,
        List.foldl_append, List.flatMap_singleton]
      exact hStep

/-
  While both clocks are below the bound, the simulator counts
  the same hits, misses and evictions for a trace and for the
  trace with every M replaced by a load and a store.
-/
theorem simulate_modify
    (hLine : 0 < line)
    (hClock : ClockBelow line trace)
    (hClock' : ClockBelow line (expand trace)) :
    (simulate line trace).hits =
        (simulate line (expand trace)).hits ∧
      (simulate line trace).misses =
        (simulate line (expand trace)).misses ∧
      (simulate line trace).evictions =
        (simulate line (expand trace)).evictions := by
  have hAgrees := simulate_agrees hLine hClock
  have hAgrees' := simulate_agrees hLine hClock'
  have hSame := @run_expand line trace
  rw [hAgrees.hits, hAgrees'.hits, hAgrees.misses,
    hAgrees'.misses, hAgrees.evictions, hAgrees'.evictions]
  exact ⟨hSame.hits, hSame.misses, hSame.evictions⟩

theorem simulate_modify_evict :
    (simulate 1 [⟨.modify, 7, 0⟩, ⟨.modify, 8, 0⟩]).hits =
        (simulate 1
          [⟨.load, 7, 0⟩, ⟨.store, 7, 0⟩, ⟨.load, 8, 0⟩,
            ⟨.store, 8, 0⟩]).hits :=
  (@simulate_modify 1 [⟨.modify, 7, 0⟩, ⟨.modify, 8, 0⟩]
    (by decide) (clockBelow_of_length (by decide))
    (clockBelow_of_length (by decide))).1

end Cache

end CsappLabs
