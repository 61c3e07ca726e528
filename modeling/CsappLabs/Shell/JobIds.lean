import CsappLabs.Shell.JobTable

/-
  Job ids as names of jobs.

  addjob hands out nextjid and wraps it to 1 after MAXJOBS,
  whether or not a live job still has the id 1. Job ids name
  jobs in every table of a history exactly when each addjob
  of the history finds nextjid positive and not in use.

  Key definitions include:
    * `TableCall`
    * `tableAfter`
    * `JidsAreNames`
    * `TakesNewJid`

  Key theorems include:
    * `WellFormed.run`
    * `jidsDistinct_run_iff`
    * `jids_are_names_iff`
-/

namespace CsappLabs

namespace Shell

open SlotTable

------------------------------------------------------------
-- Histories of the Table
------------------------------------------------------------

/- The calls that change which jobs are in the table. -/
inductive TableCall where
| addjob (pid : Int) (state : JobState) (cmdline : String)
| deletejob (pid : Int)
deriving DecidableEq, Repr

def TableCall.run
    (call : TableCall)
    (table : JobTable) :
    JobTable :=
  match call with
  | .addjob pid state cmdline =>
      (Shell.addjob table pid state cmdline).2
  | .deletejob pid => (Shell.deletejob table pid).2

/- The table after some calls, starting from initjobs. -/
def tableAfter (calls : List TableCall) : JobTable :=
  calls.foldl (fun table call => call.run table) initjobs

/- A condition met by each call at the table it finds. -/
def EachCall
    (ok : JobTable → TableCall → Prop)
    (table : JobTable) :
    List TableCall → Prop
| [] => True
| call :: calls =>
    ok table call ∧ EachCall ok (call.run table) calls

instance EachCall.decidable
    (ok : JobTable → TableCall → Prop)
    [∀ table call, Decidable (ok table call)] :
    ∀ table calls, Decidable (EachCall ok table calls)
| _, [] => inferInstanceAs (Decidable True)
| table, call :: calls =>
    have : Decidable (EachCall ok (call.run table) calls) :=
      EachCall.decidable ok (call.run table) calls
    inferInstanceAs (Decidable (_ ∧ _))

/- addjob is given a pid that is not in the table. -/
def PidIsNew
    (table : JobTable) :
    TableCall → Prop
| .addjob pid _ _ => getjobpid table.jobs pid = none
| .deletejob _ => True

/- addjob will fill a slot. -/
def FillsSlot
    (table : JobTable)
    (pid : Int) :
    Prop :=
  0 < pid ∧ ∃ i, ¬Occupied (table.jobs i)

/-
  When addjob fills a slot, nextjid is positive and no job
  has it.
-/
def TakesNewJid
    (table : JobTable) :
    TableCall → Prop
| .addjob pid _ _ =>
    FillsSlot table pid →
      1 ≤ table.nextjid ∧
        getjobjid table.jobs table.nextjid = none
| .deletejob _ => True

instance (table : JobTable) (call : TableCall) :
    Decidable (PidIsNew table call) := by
  cases call with
  | addjob pid state cmdline =>
      exact inferInstanceAs
        (Decidable (getjobpid table.jobs pid = none))
  | deletejob pid => exact inferInstanceAs (Decidable True)

------------------------------------------------------------
-- Names
------------------------------------------------------------

/- Job ids are positive, and no two jobs share one. -/
structure JidsDistinct
    (jobs : Fin maxJobs → Job) :
    Prop where
  positive : ∀ i, Occupied (jobs i) → 1 ≤ (jobs i).jid
  distinct : Distinct Occupied Job.jid jobs

/-
  Job ids are positive and distinct, a live job is found by
  its job id, and the way from a pid over the job id leads to
  the job that the pid itself finds.
-/
structure JidsAreNames
    (jobs : Fin maxJobs → Job) :
    Prop where
  jids : JidsDistinct jobs
  byJid :
    ∀ i, Occupied (jobs i) →
      getjobjid jobs (jobs i).jid = some i
  byPid :
    ∀ i, Occupied (jobs i) →
      getjobjid jobs (pid2jid jobs (jobs i).pid) =
        getjobpid jobs (jobs i).pid

/- What holds of the table whatever ids addjob hands out. -/
structure WellFormed (table : JobTable) : Prop where
  distinctPids : DistinctPids table.jobs
  pidPositive :
    ∀ i, Occupied (table.jobs i) → 0 < (table.jobs i).pid
  freeJid :
    ∀ i, ¬Occupied (table.jobs i) → (table.jobs i).jid = 0

variable {table : JobTable} {call : TableCall}

theorem wellFormed_initjobs : WellFormed initjobs where
  distinctPids := distinctPids_initjobs
  pidPositive := by
    intro i hOccupied
    exact absurd hOccupied not_occupied_clearjob
  freeJid := by
    intro i _
    rfl

theorem jidsDistinct_initjobs :
    JidsDistinct initjobs.jobs where
  positive := by
    intro i hOccupied
    exact absurd hOccupied not_occupied_clearjob
  distinct := by
    intro i j hOccupied
    exact absurd hOccupied not_occupied_clearjob

/- In a well-formed table distinct ids are names. -/
theorem WellFormed.jidsAreNames_iff
    (hTable : WellFormed table) :
    JidsAreNames table.jobs ↔ JidsDistinct table.jobs := by
  constructor
  · intro hNames
    exact hNames.jids
  · intro hJids
    have hByJid : ∀ i, Occupied (table.jobs i) →
        getjobjid table.jobs (table.jobs i).jid = some i := by
      intro i hOccupied
      have hPositive := hJids.positive i hOccupied
      rw [getjobjid, if_neg (by omega)]
      apply hJids.distinct.lookup_eq
      intro j hSame
      by_contra hFree
      have hZero := hTable.freeJid j hFree
      omega
    refine ⟨hJids, hByJid, ?_⟩
    intro i hOccupied
    have hPositive := hTable.pidPositive i hOccupied
    have hLookup : lookup Job.pid table.jobs
        (table.jobs i).pid = some i := by
      apply hTable.distinctPids.lookup_eq
      intro j hSame
      rw [Occupied, hSame]
      exact hOccupied
    rw [pid2jid, getjobpid, if_neg (by omega),
      if_neg (by omega), hLookup]
    exact hByJid i hOccupied

------------------------------------------------------------
-- One Call
------------------------------------------------------------

section Fill

variable {job : Job} {nextjid : Int} {i : Fin maxJobs}

theorem WellFormed.fill
    (hTable : WellFormed table)
    (hPid : 0 < job.pid)
    (hNew : job.pid ∉ pids table.jobs) :
    WellFormed
      ⟨Function.update table.jobs i job, nextjid⟩ where
  distinctPids := hTable.distinctPids.update_used hNew
  pidPositive := by
    intro j hOccupied
    by_cases hJ : j = i
    · rw [hJ]
      simpa using hPid
    · simp only [Function.update_of_ne hJ] at hOccupied ⊢
      exact hTable.pidPositive j hOccupied
  freeJid := by
    intro j hFree
    by_cases hJ : j = i
    · simp only [hJ, Function.update_self, Occupied] at hFree
      omega
    · simp only [Function.update_of_ne hJ] at hFree ⊢
      exact hTable.freeJid j hFree

theorem WellFormed.clear
    (hTable : WellFormed table) :
    WellFormed
      ⟨Function.update table.jobs i clearjob, nextjid⟩ where
  distinctPids :=
    hTable.distinctPids.update_free not_occupied_clearjob
  pidPositive := by
    intro j hOccupied
    by_cases hJ : j = i
    · simp only [hJ, Function.update_self] at hOccupied
      exact absurd hOccupied not_occupied_clearjob
    · simp only [Function.update_of_ne hJ] at hOccupied ⊢
      exact hTable.pidPositive j hOccupied
  freeJid := by
    intro j hFree
    by_cases hJ : j = i
    · simp only [hJ, Function.update_self]
      rfl
    · simp only [Function.update_of_ne hJ] at hFree ⊢
      exact hTable.freeJid j hFree

/- Filling a free slot keeps ids distinct if its id is new. -/
theorem jidsDistinct_fill_iff
    (hJids : JidsDistinct table.jobs)
    (hFree : ¬Occupied (table.jobs i))
    (hOccupied : Occupied job) :
    JidsDistinct (Function.update table.jobs i job) ↔
      1 ≤ job.jid ∧
        ∀ j, Occupied (table.jobs j) →
          (table.jobs j).jid ≠ job.jid := by
  constructor
  · intro hFilled
    refine ⟨?_, ?_⟩
    · have hPositive := hFilled.positive i
      simp only [Function.update_self] at hPositive
      exact hPositive hOccupied
    · intro j hOccupiedJ hSame
      have hJ : j ≠ i := by
        rintro rfl
        exact hFree hOccupiedJ
      apply hJ
      apply hFilled.distinct j i
      · rwa [Function.update_of_ne hJ]
      · rwa [Function.update_self]
      · rwa [Function.update_of_ne hJ, Function.update_self]
  · rintro ⟨hPositive, hNew⟩
    refine ⟨?_, ?_⟩
    · intro j hOccupiedJ
      by_cases hJ : j = i
      · rwa [hJ, Function.update_self]
      · rw [Function.update_of_ne hJ] at hOccupiedJ ⊢
        exact hJids.positive j hOccupiedJ
    · apply hJids.distinct.update_used
      rintro ⟨j, hOccupiedJ, hSame⟩
      exact hNew j hOccupiedJ hSame

theorem JidsDistinct.clear
    (hJids : JidsDistinct table.jobs) :
    JidsDistinct
      (Function.update table.jobs i clearjob) where
  positive := by
    intro j hOccupied
    by_cases hJ : j = i
    · rw [hJ, Function.update_self] at hOccupied
      exact absurd hOccupied not_occupied_clearjob
    · rw [Function.update_of_ne hJ] at hOccupied ⊢
      exact hJids.positive j hOccupied
  distinct := hJids.distinct.update_free not_occupied_clearjob

end Fill

theorem WellFormed.run
    (hTable : WellFormed table)
    (hNew : PidIsNew table call) :
    WellFormed (call.run table) := by
  cases call with
  | addjob pid state cmdline =>
      rw [TableCall.run]
      rcases addjob_cases table pid state cmdline with
        ⟨hAdd, _⟩ | ⟨i, hPid, _, hAdd⟩
      · rwa [hAdd]
      · rw [hAdd]
        exact hTable.fill hPid
          ((getjobpid_eq_none_iff hPid).mp hNew)
  | deletejob pid =>
      rw [TableCall.run]
      rcases deletejob_cases table pid with
        ⟨hDelete, _⟩ | ⟨i, _, _, hDelete⟩
      · rwa [hDelete]
      · rw [hDelete]
        exact hTable.clear

/- In a well-formed table a positive id is free or a job's. -/
theorem WellFormed.getjobjid_eq_none_iff
    (hTable : WellFormed table)
    {jid : Int}
    (hJid : 1 ≤ jid) :
    getjobjid table.jobs jid = none ↔
      ∀ i, Occupied (table.jobs i) →
        (table.jobs i).jid ≠ jid := by
  rw [getjobjid, if_neg (by omega), lookup_eq_none_iff]
  constructor
  · intro hNone i _
    exact hNone i
  · intro hOccupied i hSame
    by_cases hOccupiedI : Occupied (table.jobs i)
    · exact hOccupied i hOccupiedI hSame
    · have hZero := hTable.freeJid i hOccupiedI
      omega

/-
  One call keeps the ids distinct exactly when it takes a new
  id. deletejob takes none.
-/
theorem jidsDistinct_run_iff
    (hTable : WellFormed table)
    (hJids : JidsDistinct table.jobs) :
    JidsDistinct (call.run table).jobs ↔
      TakesNewJid table call := by
  cases call with
  | addjob pid state cmdline =>
      rw [TableCall.run, TakesNewJid]
      rcases addjob_cases table pid state cmdline with
        ⟨hAdd, hNoSlot⟩ | ⟨i, hPid, hFree, hAdd⟩
      · rw [hAdd]
        refine ⟨?_, fun _ => hJids⟩
        rintro _ ⟨hPid, i, hFree⟩
        rcases hNoSlot with hLess | hFull
        · omega
        · exact absurd (hFull i) hFree
      · have hFills : FillsSlot table pid := ⟨hPid, i, hFree⟩
        have hOccupied : Occupied
            ⟨pid, table.nextjid, state, cmdline⟩ := by
          rw [Occupied]
          simp only
          omega
        rw [hAdd, jidsDistinct_fill_iff hJids hFree hOccupied]
        constructor
        · rintro ⟨hPositive, hNew⟩ _
          exact ⟨hPositive,
            (hTable.getjobjid_eq_none_iff hPositive).mpr hNew⟩
        · intro hTakes
          rcases hTakes hFills with ⟨hPositive, hNone⟩
          exact ⟨hPositive,
            (hTable.getjobjid_eq_none_iff hPositive).mp hNone⟩
  | deletejob pid =>
      rw [TableCall.run, TakesNewJid]
      refine ⟨fun _ => trivial, fun _ => ?_⟩
      rcases deletejob_cases table pid with
        ⟨hDelete, _⟩ | ⟨i, _, _, hDelete⟩
      · rwa [hDelete]
      · rw [hDelete]
        exact hJids.clear

------------------------------------------------------------
-- Whole Histories
------------------------------------------------------------

/-
  The ids stay distinct through a history exactly when each of
  its calls takes a new id: a call that does not leaves a table
  in which they are not.
-/
theorem jidsDistinct_history_iff
    (calls : List TableCall)
    (hTable : WellFormed table)
    (hJids : JidsDistinct table.jobs)
    (hNew : EachCall PidIsNew table calls) :
    (∀ before, before <+: calls →
      JidsAreNames
        (before.foldl (fun t call => call.run t) table).jobs) ↔
      EachCall TakesNewJid table calls := by
  induction calls generalizing table with
  | nil =>
      refine ⟨fun _ => trivial, ?_⟩
      intro _ before hBefore
      rw [List.prefix_nil.mp hBefore]
      exact hTable.jidsAreNames_iff.mpr hJids
  | cons call calls ih =>
      rcases hNew with ⟨hNewHere, hNewLater⟩
      have hNext := hTable.run hNewHere
      constructor
      · intro hNames
        have hHere := hNames [call] (by simp)
        have hJidsNext := hNext.jidsAreNames_iff.mp hHere
        refine ⟨?_, ?_⟩
        · exact (jidsDistinct_run_iff hTable hJids).mp hJidsNext
        · apply (ih hNext hJidsNext hNewLater).mp
          intro before hBefore
          apply hNames (call :: before)
          exact (List.prefix_cons_inj call).mpr hBefore
      · rintro ⟨hTakes, hTakesLater⟩ before hBefore
        have hJidsNext :=
          (jidsDistinct_run_iff hTable hJids).mpr hTakes
        rcases List.prefix_cons_iff.mp hBefore with
          rfl | ⟨later, rfl, hLater⟩
        · exact hTable.jidsAreNames_iff.mpr hJids
        · exact (ih hNext hJidsNext hNewLater).mpr
            hTakesLater later hLater

/-
  From initjobs and nextjid = 1 on, job ids name the jobs in
  every table of a history exactly when each addjob that fills
  a slot finds nextjid positive and not in use.
-/
theorem jids_are_names_iff
    (calls : List TableCall)
    (hNew : EachCall PidIsNew initjobs calls) :
    (∀ before, before <+: calls →
      JidsAreNames (tableAfter before).jobs) ↔
      EachCall TakesNewJid initjobs calls :=
  jidsDistinct_history_iff calls wellFormed_initjobs
    jidsDistinct_initjobs hNew

/- One job that is added and deleted. -/
theorem jids_are_names_iff_one :
    (∀ before,
      before <+: [.addjob 7 .fg "ls\n", .deletejob 7] →
        JidsAreNames (tableAfter before).jobs) ↔
      EachCall TakesNewJid initjobs
        [.addjob 7 .fg "ls\n", .deletejob 7] :=
  jids_are_names_iff _ (by decide)

/- Jobs 101 to 116 fill the table, and nextjid wraps to 1. -/
def fillTable : List TableCall :=
  (List.range maxJobs).map fun n =>
    .addjob (101 + n) .bg "sleep 9 &\n"

/-
  Two of the jobs 1 to 16 end, so that nextjid is 17. The next
  job takes 17, nextjid wraps to 1 again, and the one after it
  takes 1, which job 1 still has.
-/
def wrapTwice : List TableCall :=
  fillTable ++
    [.deletejob 105, .deletejob 106,
      .addjob 117 .bg "sleep 9 &\n",
      .addjob 118 .bg "sleep 9 &\n"]

theorem jid_taken_twice :
    ¬∀ calls, EachCall PidIsNew initjobs calls →
      JidsAreNames (tableAfter calls).jobs := by
  intro hNames
  have hNew : EachCall PidIsNew initjobs wrapTwice := by
    decide +kernel
  have hSame := (hNames wrapTwice hNew).jids.distinct 0 5
    (by decide +kernel) (by decide +kernel) (by decide +kernel)
  exact absurd hSame (by decide)

end Shell

end CsappLabs
