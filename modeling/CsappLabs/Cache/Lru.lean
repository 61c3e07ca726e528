import CsappLabs.Cache.Slots
import Mathlib.Data.List.Induction

/-
  The simulator refines a cache that keeps each set as a
  recency list.

  As long as the clock stays below the initial bound of the
  victim scan, the lines of a set encode the recency list of
  the set: the valid lines are a prefix, their tags are
  distinct, and their stamps fall along the list.

  Key definitions include:
    * `Reference`, `Reference.access`
    * `SetEncodes`
    * `Agrees`

  Key theorems include:
    * `loadCache_agrees`
    * `access_agrees`
    * `simulate_refines_lru`
-/

------------------------------------------------------------
-- The Reference Cache
------------------------------------------------------------

namespace CsappLabs

namespace Cache

open Recency

/- A cache of recency lists, with the same counters. -/
structure Reference where
  sets : Nat → List Int
  hits : Nat
  misses : Nat
  evictions : Nat
  text : String

def Reference.start : Reference where
  sets := fun _ => []
  hits := 0
  misses := 0
  evictions := 0
  text := ""

/- One use of a tag in a set of at most `line` tags. -/
def Reference.use
    (tag : Int) (set line : Nat) (ref : Reference) :
    Reference :=
  let recent := ref.sets set
  let ref :=
    { ref with
      sets :=
        Function.update ref.sets set
          (touch line tag recent) }
  if tag ∈ recent then
    { ref with hits := ref.hits + 1, text := "hit" }
  else if recent.length < line then
    { ref with misses := ref.misses + 1, text := "miss" }
  else
    { ref with
      misses := ref.misses + 1
      evictions := ref.evictions + 1
      text := "miss eviction" }

/- M is one use and one more hit. -/
def Reference.access
    (line : Nat) (ref : Reference) (entry : Access) :
    Reference :=
  let ref := { ref with text := "" }
  let ref := ref.use entry.tag entry.set line
  match entry.op with
  | .modify =>
      { ref with
        hits := ref.hits + 1
        text := ref.text ++ " hit" }
  | .load | .store => ref

/- The reference cache after a trace. -/
def Reference.run (line : Nat) (trace : List Access) :
    Reference :=
  trace.foldl (Reference.access line) Reference.start

------------------------------------------------------------
-- One Set
------------------------------------------------------------

/-
  The lines of a set encode a recency list. The slots in use
  are the valid ones, and they are a prefix of the set.
-/
structure SetEncodes
    (slot : Nat → Line) (line time : Nat)
    (order : List Nat) (recent : List Int) : Prop where
  encodes :
    Encodes (fun l => (slot l).tag)
      (fun l => (slot l).timer) time order recent
  filled : order.Perm (List.range order.length)
  fits : order.length ≤ line
  valid :
    ∀ l, l < line →
      ((slot l).valid = true ↔ l < order.length)

namespace SetEncodes

variable {slot slot' : Nat → Line}
variable {line time time' l : Nat} {tag : Int}
variable {order kept : List Nat} {recent : List Int}

theorem mem_order_iff
    (hSet : SetEncodes slot line time order recent) :
    l ∈ order ↔ l < order.length := by
  rw [hSet.filled.mem_iff, List.mem_range]

theorem length_recent
    (hSet : SetEncodes slot line time order recent) :
    recent.length = order.length := by
  rw [← hSet.encodes.keys, List.length_map]

/- What happens in other sets does not matter. -/
theorem congr
    (hSet : SetEncodes slot line time order recent)
    (hSlot : ∀ l, l < line → slot' l = slot l)
    (hTime : time ≤ time') :
    SetEncodes slot' line time' order recent := by
  have hOrder : ∀ l ∈ order, slot' l = slot l := by
    intro l hL
    have hLt := hSet.mem_order_iff.mp hL
    have hFits := hSet.fits
    exact hSlot l (by omega)
  refine ⟨?_, hSet.filled, hSet.fits, ?_⟩
  · exact hSet.encodes.congr
      (fun l hL => by rw [hOrder l hL])
      (fun l hL => by rw [hOrder l hL]) hTime
  · intro l hL
    rw [hSlot l hL]
    exact hSet.valid l hL

/- Write one line, and keep some of the others. -/
theorem put
    (hSet : SetEncodes slot line time order recent)
    (hKept : kept.Sublist order)
    (hSlot : l ∉ kept)
    (hTag : tag ∉ kept.map fun k => (slot k).tag)
    (hFilled :
      (l :: kept).Perm (List.range (kept.length + 1)))
    (hFits : kept.length + 1 ≤ line)
    (hValid :
      ∀ k, k < line → k ≠ l →
        ((slot k).valid = true ↔ k < kept.length + 1))
    (hTime : time < time') :
    SetEncodes (Function.update slot l ⟨time, tag, true⟩)
      line time' (l :: kept)
      (tag :: kept.map fun k => (slot k).tag) := by
  have hPush :=
    hSet.encodes.push hKept hSlot hTag hTime
  have hTags :
      (fun k =>
          (Function.update slot l ⟨time, tag, true⟩ k).tag) =
        Function.update (fun k => (slot k).tag) l tag :=
    Function.comp_update Line.tag slot l _
  have hTimers :
      (fun k =>
          (Function.update slot l ⟨time, tag, true⟩
            k).timer) =
        Function.update (fun k => (slot k).timer) l time :=
    Function.comp_update Line.timer slot l _
  refine ⟨?_, ?_, by simpa using hFits, ?_⟩
  · rw [hTags, hTimers]
    exact hPush
  · simpa using hFilled
  · intro k hK
    by_cases hEq : k = l
    · have hMem :=
        hFilled.mem_iff.mp (List.mem_cons_self (a := l))
      rw [List.mem_range] at hMem
      rw [hEq, Function.update_self]
      simpa using hMem
    · rw [Function.update_of_ne hEq, List.length_cons]
      exact hValid k hK hEq

/- A hit moves the slot to the front. -/
theorem hit
    {front back : List Nat}
    (hSet :
      SetEncodes slot line time (front ++ l :: back) recent)
    (hTag : (slot l).tag = tag)
    (hTime : time < time') :
    SetEncodes (Function.update slot l ⟨time, tag, true⟩)
      line time' (l :: (front ++ back))
      (touch line tag recent) := by
  have hNodup : (front ++ l :: back).Nodup :=
    hSet.filled.nodup_iff.mpr List.nodup_range
  have hLength :
      (front ++ l :: back).length =
        (front ++ back).length + 1 := by
    simp only [List.length_append, List.length_cons]
    omega
  have hRecent := hSet.encodes.keys
  have hTags := hSet.encodes.nodup
  rw [← hRecent] at hTags ⊢
  rw [List.map_append, List.map_cons, hTag,
    List.nodup_middle, List.nodup_cons] at hTags
  rw [List.nodup_middle, List.nodup_cons] at hNodup
  have hFront : tag ∉ front.map fun k => (slot k).tag :=
    fun hMember =>
      hTags.1 (List.mem_append_left _ hMember)
  rw [List.map_append, List.map_cons, hTag,
    touch_of_mem hFront, ← List.map_append]
  refine hSet.put ?_ hNodup.1 ?_ ?_ ?_ ?_ hTime
  · exact (List.Sublist.refl front).append
      (List.sublist_cons_self l back)
  · rw [List.map_append]
    exact hTags.1
  · rw [← hLength]
    exact List.perm_middle.symm.trans hSet.filled
  · rw [← hLength]
    exact hSet.fits
  · intro k hK _
    rw [hSet.valid k hK, hLength]

/- A miss with room fills the next slot. -/
theorem miss
    (hSet : SetEncodes slot line time order recent)
    (hNew : tag ∉ recent)
    (hRoom : order.length < line)
    (hTime : time < time') :
    SetEncodes
      (Function.update slot order.length ⟨time, tag, true⟩)
      line time' (order.length :: order)
      (touch line tag recent) := by
  rw [touch_of_room hNew (by rw [hSet.length_recent]; exact hRoom),
    ← hSet.encodes.keys]
  rw [← hSet.encodes.keys] at hNew
  refine hSet.put (List.Sublist.refl _) ?_ hNew ?_ hRoom ?_
    hTime
  · intro hMember
    exact Nat.lt_irrefl _ (hSet.mem_order_iff.mp hMember)
  · rw [List.range_succ]
    exact (hSet.filled.cons _).trans
      (List.perm_append_singleton _ _).symm
  · intro k hK hNe
    rw [hSet.valid k hK]
    omega

/- A miss in a full set replaces the slot used last. -/
theorem evict
    {front : List Nat}
    (hSet :
      SetEncodes slot line time (front ++ [l]) recent)
    (hNew : tag ∉ recent)
    (hFull : (front ++ [l]).length = line)
    (hTime : time < time') :
    SetEncodes (Function.update slot l ⟨time, tag, true⟩)
      line time' (l :: front) (touch line tag recent) := by
  have hNodup : (front ++ [l]).Nodup :=
    hSet.filled.nodup_iff.mpr List.nodup_range
  have hLength :
      (front ++ [l]).length = front.length + 1 := by
    simp
  have hFits : line ≤ recent.length := by
    rw [hSet.length_recent]
    omega
  rw [touch_of_full hNew hFits, ← hSet.encodes.keys,
    List.map_append, List.map_cons, List.map_nil,
    List.dropLast_concat]
  rw [← hSet.encodes.keys, List.map_append] at hNew
  refine hSet.put (List.sublist_append_left _ _) ?_ ?_ ?_ ?_
    ?_ hTime
  · intro hMember
    exact (List.nodup_append.mp hNodup).2.2 l hMember l
      (by simp) rfl
  · exact fun hMember =>
      hNew (List.mem_append_left _ hMember)
  · rw [← hLength]
    exact (List.perm_append_singleton _ _).symm.trans
      hSet.filled
  · omega
  · intro k hK _
    rw [hSet.valid k hK, hLength]

end SetEncodes

------------------------------------------------------------
-- The Code On One Set
------------------------------------------------------------

variable {tag : Int} {set line l : Nat} {sim : Simulator}
variable {order : List Nat} {recent : List Int}

/- The slots that encode a recency list are sound. -/
theorem SetEncodes.sound
    {slot : Nat → Line} {time : Nat}
    (hSet : SetEncodes slot line time order recent) :
    SetSound slot line time order.length where
  fits := hSet.fits
  valid := hSet.valid
  tags := fun _ _ hI hJ hSame =>
    hSet.encodes.slot_unique (hSet.mem_order_iff.mpr hI)
      (hSet.mem_order_iff.mpr hJ) hSame
  timers := fun _ _ hI hJ hSame =>
    hSet.encodes.stamp_unique (hSet.mem_order_iff.mpr hI)
      (hSet.mem_order_iff.mpr hJ) hSame
  below := fun l hL =>
    hSet.encodes.below l (hSet.mem_order_iff.mpr hL)

/- A tag off the list is in none of its slots. -/
theorem SetEncodes.tag_ne
    {slot : Nat → Line} {time : Nat}
    (hSet : SetEncodes slot line time order recent)
    (hNew : tag ∉ recent) :
    ∀ k, k < order.length → (slot k).tag ≠ tag := by
  intro k hK hSame
  apply hNew
  rw [← hSet.encodes.keys]
  exact List.mem_map.mpr
    ⟨k, hSet.mem_order_iff.mpr hK, hSame⟩

/- The scan of a full set ends at the slot used last. -/
theorem SetEncodes.victim_eq
    {front : List Nat}
    (hSet :
      SetEncodes (sim.slot line set) line sim.time
        (front ++ [l]) recent)
    (hFull : (front ++ [l]).length = line)
    (hTime : sim.time < maxTimer) :
    victim line set sim = l := by
  have hLt : l < line := by
    rw [← hFull]
    exact hSet.mem_order_iff.mp (by simp)
  have hBelow :
      (sim.slot line set l).timer < sim.time :=
    hSet.encodes.below l (by simp)
  apply Cache.victim_eq hLt (Nat.lt_trans hBelow hTime)
  intro k hK hNe
  apply hSet.encodes.stamp_last_lt
  have hMember : k ∈ front ++ [l] :=
    hSet.mem_order_iff.mpr (by omega)
  rcases List.mem_append.mp hMember with hFront | hLast
  · exact hFront
  · exact absurd (List.mem_singleton.mp hLast) hNe

------------------------------------------------------------
-- The Whole Cache
------------------------------------------------------------

/-
  The counters agree, and every set encodes its recency
  list.
-/
structure Agrees
    (line : Nat) (sim : Simulator) (ref : Reference) :
    Prop where
  hits : sim.hits = ref.hits
  misses : sim.misses = ref.misses
  evictions : sim.evictions = ref.evictions
  text : sim.resChar = ref.text
  sets :
    ∀ set, ∃ order,
      SetEncodes (sim.slot line set) line sim.time order
        (ref.sets set)

variable {ref : Reference}

/- Writing one line of a set touches its recency list. -/
theorem sets_put
    {time' : Nat} {order' : List Nat} {v : Line}
    (hSets :
      ∀ set, ∃ order,
        SetEncodes (sim.slot line set) line sim.time order
          (ref.sets set))
    (hL : l < line)
    (hNew :
      SetEncodes
        (Function.update (sim.slot line set) l v) line
        time' order' (touch line tag (ref.sets set)))
    (hTime : sim.time ≤ time') :
    ∀ other, ∃ order,
      SetEncodes
        ((sim.put (set * line + l) v).slot line other) line
        time' order
        (Function.update ref.sets set
          (touch line tag (ref.sets set)) other) := by
  intro other
  by_cases hEq : other = set
  · rw [hEq, slot_put_same, Function.update_self]
    exact ⟨order', hNew⟩
  · rcases hSets other with ⟨order, hOld⟩
    rw [Function.update_of_ne hEq]
    exact ⟨order, hOld.congr
      (fun k hK => slot_put_other hEq hL hK) hTime⟩

/- `LoadCache` is one use of the tag. -/
theorem loadCache_agrees
    (hLine : 0 < line)
    (hTime : sim.time < maxTimer)
    (hAgrees : Agrees line sim ref) :
    Agrees line (loadCache tag set line sim)
      (ref.use tag set line) := by
  rcases hAgrees.sets set with ⟨order, hSet⟩
  have hLength := hSet.length_recent
  have hFits := hSet.fits
  unfold Reference.use
  by_cases hMember : tag ∈ ref.sets set
  · have hSlot := hMember
    rw [← hSet.encodes.keys] at hSlot
    rcases List.mem_map.mp hSlot with ⟨l, hL, hTag⟩
    have hLt := hSet.mem_order_iff.mp hL
    rw [hSet.sound.loadCache_hit hLt hTag]
    rcases List.append_of_mem hL with ⟨front, back, rfl⟩
    simp only
    rw [if_pos hMember]
    exact
      { hits := congrArg (· + 1) hAgrees.hits
        misses := hAgrees.misses
        evictions := hAgrees.evictions
        text := rfl
        sets :=
          sets_put hAgrees.sets (by omega)
            (hSet.hit hTag (Nat.lt_succ_self _))
            (Nat.le_succ _) }
  · rcases Nat.lt_or_ge order.length line with
      hRoom | hFull
    · rw [hSet.sound.loadCache_miss (hSet.tag_ne hMember)
        hRoom]
      simp only
      rw [if_neg hMember, if_pos (by omega)]
      exact
        { hits := hAgrees.hits
          misses := congrArg (· + 1) hAgrees.misses
          evictions := hAgrees.evictions
          text := rfl
          sets :=
            sets_put hAgrees.sets hRoom
              (hSet.miss hMember hRoom (Nat.lt_succ_self _))
              (Nat.le_succ _) }
    · rcases List.eq_nil_or_concat' order with
        rfl | ⟨front, l, rfl⟩
      · exact absurd hFull (Nat.not_le_of_lt hLine)
      · have hExact : (front ++ [l]).length = line := by
          omega
        have hLt : l < line := by
          rw [← hExact]
          exact hSet.mem_order_iff.mp (by simp)
        rw [hSet.sound.loadCache_evict hLine
            (hSet.tag_ne hMember) hExact,
          hSet.victim_eq hExact hTime]
        simp only
        rw [if_neg hMember, if_neg (by omega)]
        exact
          { hits := hAgrees.hits
            misses := congrArg (· + 1) hAgrees.misses
            evictions := congrArg (· + 1) hAgrees.evictions
            text := rfl
            sets :=
              sets_put hAgrees.sets hLt
                (hSet.evict hMember hExact
                  (Nat.lt_add_of_pos_right (by decide)))
                (Nat.le_add_right _ _) }

/- One turn of the loop is one access of the reference. -/
theorem access_agrees
    {entry : Access}
    (hLine : 0 < line)
    (hTime : sim.time < maxTimer)
    (hAgrees : Agrees line sim ref) :
    Agrees line (access line sim entry)
      (ref.access line entry) := by
  have hClear :
      Agrees line { sim with resChar := "" }
        { ref with text := "" } :=
    { hAgrees with text := rfl }
  have hLoad :
      Agrees line
        (loadCache entry.tag entry.set line
          { sim with resChar := "" })
        (Reference.use entry.tag entry.set line
          { ref with text := "" }) :=
    loadCache_agrees hLine hTime hClear
  unfold access Reference.access
  cases entry.op with
  | modify =>
      exact
        { hits := congrArg (· + 1) hLoad.hits
          misses := hLoad.misses
          evictions := hLoad.evictions
          text := congrArg (· ++ " hit") hLoad.text
          sets := hLoad.sets }
  | load => exact hLoad
  | store => exact hLoad

------------------------------------------------------------
-- Whole Traces
------------------------------------------------------------

variable {trace : List Access}

/- The clock has not reached the bound before an access. -/
def ClockBelow (line : Nat) (trace : List Access) : Prop :=
  ∀ before entry after,
    trace = before ++ entry :: after →
      (simulate line before).time < maxTimer

theorem ClockBelow.of_prefix
    {before : List Access}
    (hClock : ClockBelow line trace)
    (hPrefix : before <+: trace) :
    ClockBelow line before := by
  rcases hPrefix with ⟨rest, rfl⟩
  intro front entry after hEq
  apply hClock front entry (after ++ rest)
  rw [hEq, List.append_assoc, List.cons_append]

theorem start_agrees :
    Agrees line Simulator.start Reference.start := by
  refine
    { hits := rfl
      misses := rfl
      evictions := rfl
      text := rfl
      sets := fun set => ⟨[], ?_⟩ }
  refine
    { encodes := ⟨rfl, List.nodup_nil, .nil, by simp⟩
      filled := List.Perm.refl _
      fits := Nat.zero_le _
      valid := fun l _ => ?_ }
  simp [Simulator.slot, Simulator.start]

theorem simulate_agrees
    (hLine : 0 < line)
    (hClock : ClockBelow line trace) :
    Agrees line (simulate line trace)
      (Reference.run line trace) := by
  induction trace using List.reverseRecOn with
  | nil => exact start_agrees
  | append_singleton before entry ih =>
      have hBefore :=
        ih (hClock.of_prefix (List.prefix_append _ _))
      have hTime := hClock before entry [] rfl
      unfold simulate at hBefore hTime ⊢
      unfold Reference.run at hBefore ⊢
      rw [List.foldl_append, List.foldl_append]
      exact access_agrees hLine hTime hBefore

------------------------------------------------------------
-- Short Traces
------------------------------------------------------------

theorem loadLoop_time
    {slots : List Nat} {sim' : Simulator}
    (hStop : loadLoop tag set line sim slots = some sim') :
    sim'.time = sim.time := by
  induction slots with
  | nil => cases hStop
  | cons l rest ih =>
      rw [loadLoop] at hStop
      simp only at hStop
      split at hStop
      · cases hStop
        rfl
      · split at hStop
        · cases hStop
          rfl
        · exact ih hStop

/- An access moves the clock by at most two. -/
theorem access_time_le
    {entry : Access} :
    (access line sim entry).time ≤ sim.time + 2 := by
  have hLoad : ∀ tag set (sim : Simulator),
      (loadCache tag set line sim).time ≤ sim.time + 2 := by
    intro tag set sim
    unfold loadCache
    cases hStop :
        loadLoop tag set line sim (List.range line) with
    | some stopped =>
        have hTime := loadLoop_time hStop
        simp only
        omega
    | none => exact Nat.le_refl _
  unfold access
  cases entry.op with
  | modify => exact hLoad _ _ _
  | load => exact hLoad _ _ _
  | store => exact hLoad _ _ _

theorem simulate_time_le :
    (simulate line trace).time ≤ 2 * trace.length := by
  induction trace using List.reverseRecOn with
  | nil => exact Nat.le_refl _
  | append_singleton before entry ih =>
      have hStep :=
        @access_time_le line (simulate line before) entry
      unfold simulate at ih hStep ⊢
      rw [List.foldl_append, List.length_append]
      simp only [List.foldl_cons, List.foldl_nil,
        List.length_cons, List.length_nil]
      omega

/- No trace of half a million accesses reaches the bound. -/
theorem clockBelow_of_length
    (hLength : 2 * trace.length < maxTimer) :
    ClockBelow line trace := by
  intro before entry after hEq
  have hTime := @simulate_time_le line before
  rw [hEq, List.length_append] at hLength
  omega

------------------------------------------------------------
-- Refinement
------------------------------------------------------------

/- The valid lines of a set hold the tags of its list. -/
theorem SetEncodes.resident_iff
    {slot : Nat → Line} {time : Nat}
    (hSet : SetEncodes slot line time order recent) :
    (∃ l, l < line ∧ (slot l).valid = true ∧
        (slot l).tag = tag) ↔
      tag ∈ recent := by
  rw [← hSet.encodes.keys, List.mem_map]
  have hFits := hSet.fits
  constructor
  · rintro ⟨l, hL, hValid, hTag⟩
    exact
      ⟨l, hSet.mem_order_iff.mpr ((hSet.valid l hL).mp hValid),
        hTag⟩
  · rintro ⟨l, hL, hTag⟩
    have hLt := hSet.mem_order_iff.mp hL
    exact
      ⟨l, by omega, (hSet.valid l (by omega)).mpr hLt, hTag⟩

/-
  After every prefix of a trace the simulator has the
  counters of the reference cache, and the valid lines of
  each set hold the tags of its recency list.
-/
theorem simulate_refines_lru
    {before : List Access}
    (hLine : 0 < line)
    (hClock : ClockBelow line trace)
    (hPrefix : before <+: trace) :
    (simulate line before).hits =
        (Reference.run line before).hits ∧
      (simulate line before).misses =
        (Reference.run line before).misses ∧
      (simulate line before).evictions =
        (Reference.run line before).evictions ∧
      ∀ set tag,
        (∃ l, l < line ∧
          ((simulate line before).lines
            (set * line + l)).valid = true ∧
          ((simulate line before).lines
            (set * line + l)).tag = tag) ↔
          tag ∈ (Reference.run line before).sets set := by
  have hAgrees :=
    simulate_agrees hLine (hClock.of_prefix hPrefix)
  refine ⟨hAgrees.hits, hAgrees.misses, hAgrees.evictions,
    fun set tag => ?_⟩
  rcases hAgrees.sets set with ⟨order, hSet⟩
  exact hSet.resident_iff

/- Two lines: a hit on one tag, and the other is evicted. -/
theorem simulate_refines_lru_two :
    let trace : List Access :=
      [⟨.load, 7, 0⟩, ⟨.load, 8, 0⟩, ⟨.load, 7, 0⟩,
       ⟨.load, 9, 0⟩]
    (simulate 2 trace).hits = 1 ∧
      (simulate 2 trace).misses = 3 ∧
      (simulate 2 trace).evictions = 1 ∧
      (∃ l, l < 2 ∧
        ((simulate 2 trace).lines (0 * 2 + l)).valid = true ∧
        ((simulate 2 trace).lines (0 * 2 + l)).tag = 7) := by
  intro trace
  rcases
      @simulate_refines_lru 2 trace trace (by decide)
        (clockBelow_of_length (by decide))
        (List.prefix_refl _) with
    ⟨hHits, hMisses, hEvictions, hResident⟩
  rw [hHits, hMisses, hEvictions, hResident]
  decide

end Cache

end CsappLabs
