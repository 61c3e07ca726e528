import CsappLabs.Cache.Slots
import CsappLabs.Cache.Decode
import Mathlib.Data.Finset.Card
import Mathlib.Data.Finset.Lattice.Fold
import Mathlib.Data.Finset.Range
import Mathlib.Data.List.Induction

/-
  What the counters and the lines of the simulator say about
  each other after any trace.

  Every use of the cache hits or misses, and every miss
  fills a line that was not valid or evicts. None of this
  depends on which line is evicted, so it holds at any age
  of the clock.

  Key definitions include:
    * `Simulator.validLines`
    * `Balanced`

  Key theorems include:
    * `Balanced.loadCache`
    * `simulate_balanced`
    * `simulate_accounting`
-/

------------------------------------------------------------
-- Valid Lines
------------------------------------------------------------

namespace CsappLabs

namespace Cache

variable {tag : Int} {set sets line : Nat}
variable {sim : Simulator} {entry : Access}
variable {trace : List Access}

/- The valid lines of a cache with the given sets. -/
def Simulator.validLines
    (sim : Simulator) (sets line : Nat) : Finset Nat :=
  (Finset.range (sets * line)).filter
    fun target => (sim.lines target).valid = true

theorem mem_validLines
    {target : Nat} :
    target ∈ sim.validLines sets line ↔
      target < sets * line ∧
        (sim.lines target).valid = true := by
  unfold Simulator.validLines
  rw [Finset.mem_filter, Finset.mem_range]

/- Writing a valid line makes its place a valid one. -/
theorem mem_validLines_put
    {target other : Nat} {v : Line}
    (hValid : v.valid = true) :
    other ∈ (sim.put target v).validLines sets line ↔
      other < sets * line ∧
        (other = target ∨ (sim.lines other).valid = true) := by
  rw [mem_validLines]
  change
    _ ∧ (Function.update sim.lines target v other).valid = _ ↔ _
  by_cases hEq : other = target
  · rw [hEq, Function.update_self]
    simp [hValid]
  · rw [Function.update_of_ne hEq]
    simp [hEq]

theorem validLines_put_valid
    {target : Nat} {v : Line}
    (hOld : (sim.lines target).valid = true)
    (hValid : v.valid = true) :
    (sim.put target v).validLines sets line =
      sim.validLines sets line := by
  ext other
  rw [mem_validLines_put hValid, mem_validLines]
  constructor
  · rintro ⟨hLt, rfl | hOther⟩
    · exact ⟨hLt, hOld⟩
    · exact ⟨hLt, hOther⟩
  · rintro ⟨hLt, hOther⟩
    exact ⟨hLt, Or.inr hOther⟩

theorem card_validLines_put_new
    {target : Nat} {v : Line}
    (hLt : target < sets * line)
    (hOld : (sim.lines target).valid = false)
    (hValid : v.valid = true) :
    ((sim.put target v).validLines sets line).card =
      (sim.validLines sets line).card + 1 := by
  have hInsert :
      (sim.put target v).validLines sets line =
        insert target (sim.validLines sets line) := by
    ext other
    rw [mem_validLines_put hValid, Finset.mem_insert,
      mem_validLines]
    constructor
    · rintro ⟨hOther, hEq | hMember⟩
      · exact Or.inl hEq
      · exact Or.inr ⟨hOther, hMember⟩
    · rintro (rfl | ⟨hOther, hMember⟩)
      · exact ⟨hLt, Or.inl rfl⟩
      · exact ⟨hOther, Or.inr hMember⟩
  have hNew : target ∉ sim.validLines sets line := by
    rw [mem_validLines, hOld]
    simp
  rw [hInsert, Finset.card_insert_of_notMem hNew]

/- The lines of a set lie inside the cache. -/
theorem line_in_cache
    {l : Nat}
    (hSet : set < sets)
    (hL : l < line) :
    set * line + l < sets * line := by
  have hNext : (set + 1) * line ≤ sets * line :=
    Nat.mul_le_mul_right line hSet
  rw [Nat.add_mul, Nat.one_mul] at hNext
  omega

------------------------------------------------------------
-- One Use Of The Cache
------------------------------------------------------------

/-
  The misses that did not evict are the valid lines, and
  every set is sound.
-/
structure Balanced
    (sets line : Nat) (sim : Simulator) : Prop where
  resident :
    sim.misses =
      sim.evictions + (sim.validLines sets line).card
  sound :
    ∀ set, ∃ filled,
      SetSound (sim.slot line set) line sim.time filled

/- Writing one line of a set keeps all sets sound. -/
theorem sound_put
    {time' filled' l : Nat} {v : Line}
    (hSound :
      ∀ set, ∃ filled,
        SetSound (sim.slot line set) line sim.time filled)
    (hL : l < line)
    (hNew :
      SetSound (Function.update (sim.slot line set) l v)
        line time' filled')
    (hTime : sim.time ≤ time') :
    ∀ other, ∃ filled,
      SetSound
        ((sim.put (set * line + l) v).slot line other) line
        time' filled := by
  intro other
  by_cases hEq : other = set
  · rw [hEq, slot_put_same]
    exact ⟨filled', hNew⟩
  · rcases hSound other with ⟨filled, hOld⟩
    exact ⟨filled, hOld.congr
      (fun k hK => slot_put_other hEq hL hK) hTime⟩

/- One use of a tag keeps the balance and is counted once. -/
theorem Balanced.loadCache
    (hBalanced : Balanced sets line sim)
    (hLine : 0 < line)
    (hSet : set < sets) :
    Balanced sets line (loadCache tag set line sim) ∧
      (Cache.loadCache tag set line sim).hits +
          (Cache.loadCache tag set line sim).misses =
        sim.hits + sim.misses + 1 := by
  have hResident := hBalanced.resident
  rcases hBalanced.sound set with ⟨filled, hSound⟩
  have hFits := hSound.fits
  rcases hSound.loadCache_cases hLine tag with
    ⟨l, hL, hTag, hLoad⟩ | ⟨hRoom, hNew, hLoad⟩ |
      ⟨hFull, hNew, hLoad⟩
  · -- a hit: the line is valid and stays so
    have hLt : l < line := by omega
    have hValid := (hSound.valid l hLt).mpr hL
    have hPut :=
      hSound.put hL hFits (fun _ _ => Iff.rfl)
        (fun k hK hNe hSame =>
          hNe (hSound.tags k l hK hL
            (hSame.trans hTag.symm)))
        (Nat.lt_succ_self sim.time)
    rw [hLoad]
    refine ⟨⟨?_, ?_⟩, ?_⟩
    · have hSame :=
        congrArg Finset.card
          (@validLines_put_valid sets line sim
            (set * line + l) ⟨sim.time, tag, true⟩ hValid rfl)
      change sim.misses = sim.evictions +
        ((sim.put (set * line + l)
          ⟨sim.time, tag, true⟩).validLines sets line).card
      omega
    · exact sound_put hBalanced.sound hLt hPut
        (Nat.le_succ _)
    · simp only [Simulator.put]
      omega
  · -- a miss with room: one more line is valid
    have hInvalid :
        (sim.slot line set filled).valid = false := by
      rw [← Bool.not_eq_true, hSound.valid _ hRoom]
      exact Nat.lt_irrefl _
    have hPut :=
      hSound.put (Nat.lt_succ_self filled) hRoom
        (fun k hNe => by omega)
        (fun k hK _ => hNew k hK)
        (Nat.lt_succ_self sim.time)
    rw [hLoad]
    refine ⟨⟨?_, ?_⟩, ?_⟩
    · have hCard :=
        @card_validLines_put_new sets line sim
          (set * line + filled) ⟨sim.time, tag, true⟩
          (line_in_cache hSet hRoom) hInvalid rfl
      change sim.misses + 1 = sim.evictions +
        ((sim.put (set * line + filled)
          ⟨sim.time, tag, true⟩).validLines sets line).card
      omega
    · exact sound_put hBalanced.sound hRoom hPut
        (Nat.le_succ _)
    · simp only [Simulator.put]
      omega
  · -- an eviction: the line was valid, whichever it is
    have hVictim : victim line set sim < line :=
      victim_lt hLine
    have hValid :=
      (hSound.valid _ hVictim).mpr (by omega)
    have hFilled : victim line set sim < filled := by omega
    have hPut :=
      hSound.put hFilled hFits
        (fun _ _ => Iff.rfl) (fun k hK _ => hNew k hK)
        (Nat.lt_add_of_pos_right (by decide : 0 < 2))
    rw [hLoad]
    refine ⟨⟨?_, ?_⟩, ?_⟩
    · have hSame :=
        congrArg Finset.card
          (@validLines_put_valid sets line sim
            (set * line + victim line set sim)
            ⟨sim.time, tag, true⟩ hValid rfl)
      change sim.misses + 1 = sim.evictions + 1 +
        ((sim.put (set * line + victim line set sim)
          ⟨sim.time, tag, true⟩).validLines sets line).card
      omega
    · exact sound_put hBalanced.sound hVictim hPut
        (Nat.le_add_right _ _)
    · simp only [Simulator.put]
      omega

------------------------------------------------------------
-- Whole Traces
------------------------------------------------------------

deriving instance DecidableEq for Op

/- The number of accesses of one kind. -/
def countOp (op : Op) (trace : List Access) : Nat :=
  trace.countP fun entry => entry.op == op

/- M counts twice. -/
def useCount (trace : List Access) : Nat :=
  countOp .load trace + countOp .store trace +
    2 * countOp .modify trace

theorem useCount_concat :
    useCount (trace ++ [entry]) =
      useCount trace +
        match entry.op with
        | .modify => 2
        | .load | .store => 1 := by
  unfold useCount countOp
  simp only [List.countP_append, List.countP_singleton]
  cases entry.op with
  | load => simp; omega
  | store => simp; omega
  | modify => simp; omega

/- One turn of the loop keeps the balance. -/
theorem Balanced.access
    (hBalanced : Balanced sets line sim)
    (hLine : 0 < line)
    (hSet : entry.set < sets) :
    Balanced sets line (access line sim entry) ∧
      (Cache.access line sim entry).hits +
          (Cache.access line sim entry).misses =
        sim.hits + sim.misses +
          match entry.op with
          | .modify => 2
          | .load | .store => 1 := by
  have hClear :
      Balanced sets line { sim with resChar := "" } :=
    ⟨hBalanced.resident, hBalanced.sound⟩
  rcases @Balanced.loadCache entry.tag entry.set _ _ _
      hClear hLine hSet with ⟨hLoad, hCount⟩
  unfold Cache.access
  cases entry.op with
  | modify =>
      refine ⟨⟨hLoad.resident, hLoad.sound⟩, ?_⟩
      simp only at hCount ⊢
      omega
  | load => exact ⟨hLoad, hCount⟩
  | store => exact ⟨hLoad, hCount⟩

theorem start_balanced :
    Balanced sets line Simulator.start where
  resident := by
    have hNone :
        Simulator.start.validLines sets line = ∅ := by
      ext target
      rw [mem_validLines]
      simp [Simulator.start]
    rw [hNone]
    rfl
  sound := fun set => by
    refine ⟨0, Nat.zero_le _, fun l hL => ?_, ?_, ?_, ?_⟩
    · simp [Simulator.slot, Simulator.start]
    · exact fun i j hI => absurd hI (Nat.not_lt_zero i)
    · exact fun i j hI => absurd hI (Nat.not_lt_zero i)
    · exact fun l hL => absurd hL (Nat.not_lt_zero l)

theorem simulate_balanced
    (hLine : 0 < line)
    (hSets : ∀ entry ∈ trace, entry.set < sets) :
    Balanced sets line (simulate line trace) ∧
      (simulate line trace).hits +
          (simulate line trace).misses =
        useCount trace := by
  induction trace using List.reverseRecOn with
  | nil => exact ⟨start_balanced, rfl⟩
  | append_singleton before entry ih =>
      rcases ih fun other hOther =>
          hSets other (List.mem_append_left _ hOther) with
        ⟨hBefore, hUses⟩
      have hStep :=
        hBefore.access hLine (hSets entry (by simp))
      rw [useCount_concat, ← hUses]
      unfold simulate at hStep ⊢
      rw [List.foldl_append]
      exact hStep

/- Every set is sound, whatever sets the trace names. -/
theorem simulate_sound
    (hLine : 0 < line)
    (set : Nat) :
    ∃ filled,
      SetSound ((simulate line trace).slot line set) line
        (simulate line trace).time filled := by
  have hSets : ∀ entry ∈ trace,
      entry.set <
        (trace.map Access.set).toFinset.sup id + 1 := by
    intro entry hEntry
    have hMember :
        entry.set ∈ (trace.map Access.set).toFinset :=
      List.mem_toFinset.mpr (List.mem_map_of_mem hEntry)
    exact Nat.lt_succ_of_le
      (@Finset.le_sup _ _ _ _ _ id _ hMember)
  exact (simulate_balanced hLine hSets).1.sound set

------------------------------------------------------------
-- Decoded Addresses
------------------------------------------------------------

/- A line of the trace, as the loop decodes it. -/
def decodeAccess
    (set block : Nat) (op : Op) (addr : BitVec 64) :
    Access where
  op := op
  tag := (decode set block addr).1.toInt
  set := (decode set block addr).2.toNat

/- A decoded address names one of the `2 ^ set` sets. -/
theorem decodeAccess_set_lt
    {block : Nat} {op : Op} {addr : BitVec 64}
    (hSet : set ≤ 30) :
    (decodeAccess set block op addr).set < 2 ^ set := by
  have hMask := @mask_toNat set (by omega)
  have hPositive := Nat.two_pow_pos set
  have hShift :
      (getDecimalBit addr (optionCI set block)).toNat ≤
        2 ^ set - 1 := by
    unfold getDecimalBit optionCI
    simp only
    rw [show set % 32 = set by omega, BitVec.toNat_ushiftRight,
      Nat.shiftRight_eq_div_pow, BitVec.toNat_and,
      BitVec.toNat_shiftLeft, Nat.shiftLeft_eq]
    rw [← hMask]
    apply Nat.div_le_of_le_mul
    rw [Nat.mul_comm]
    exact Nat.le_trans Nat.and_le_right (Nat.mod_le _ _)
  have hLe :
      (decodeAccess set block op addr).set ≤
        (getDecimalBit addr (optionCI set block)).toNat := by
    unfold decodeAccess decode
    simp only
    rw [BitVec.toNat_setWidth]
    exact Nat.mod_le _ _
  omega

------------------------------------------------------------
-- Accounting
------------------------------------------------------------

/-
  After every prefix of a trace the counters add up to the
  uses of the cache and to its valid lines, and in every set
  the valid lines are a prefix with distinct tags and
  distinct past stamps.
-/
theorem simulate_accounting
    {before : List Access}
    (hLine : 0 < line)
    (hSets : ∀ entry ∈ trace, entry.set < sets)
    (hPrefix : before <+: trace) :
    (simulate line before).hits +
          (simulate line before).misses =
        countOp .load before + countOp .store before +
          2 * countOp .modify before ∧
      (simulate line before).evictions ≤
        (simulate line before).misses ∧
      (simulate line before).misses -
          (simulate line before).evictions =
        ((simulate line before).validLines sets line).card ∧
      ∀ set, ∃ filled,
        SetSound ((simulate line before).slot line set) line
          (simulate line before).time filled := by
  rcases simulate_balanced hLine fun entry hEntry =>
      hSets entry (hPrefix.subset hEntry) with
    ⟨hBalanced, hUses⟩
  have hResident := hBalanced.resident
  exact ⟨hUses, by omega, by omega, hBalanced.sound⟩

/- A fill, two hits and an eviction. -/
theorem simulate_accounting_evict :
    (simulate 1 [⟨.modify, 7, 0⟩, ⟨.load, 8, 0⟩]).hits +
          (simulate 1
            [⟨.modify, 7, 0⟩, ⟨.load, 8, 0⟩]).misses =
        3 ∧
      (simulate 1
          [⟨.modify, 7, 0⟩, ⟨.load, 8, 0⟩]).misses -
        (simulate 1
          [⟨.modify, 7, 0⟩, ⟨.load, 8, 0⟩]).evictions =
        1 := by
  have hAccounting :=
    @simulate_accounting 1 1
      [⟨.modify, 7, 0⟩, ⟨.load, 8, 0⟩]
      [⟨.modify, 7, 0⟩, ⟨.load, 8, 0⟩]
      (by decide) (by simp) (List.prefix_refl _)
  exact ⟨hAccounting.1, by decide⟩

end Cache

end CsappLabs
