import CsappLabs.Lib.SlotTable
import Mathlib.Algebra.Group.Int.Defs
import Mathlib.Algebra.Group.Nat.Defs

/-
  The job table of the tiny shell (tsh.c): the slots of
  `jobs`, the counter `nextjid`, and the helper routines that
  manipulate them.

  A pointer to a job is the index of its slot, and NULL is
  `none`. `nextjid` is a 32-bit int that wraps.

  Key definitions include:
    * `Job`
    * `JobTable`
    * `addjob`
    * `deletejob`
    * `fgpid`
    * `getjobpid`
    * `getjobjid`

  Key theorems include:
    * `addjob_cases`
    * `deletejob_cases`
-/

namespace CsappLabs

namespace Shell

open SlotTable

------------------------------------------------------------
-- Jobs
------------------------------------------------------------

/- MAXJOBS -/
abbrev maxJobs : Nat := 16

/- UNDEF, FG, BG and ST -/
inductive JobState where
| undef
| fg
| bg
| st
deriving DecidableEq, Repr

/- struct job_t -/
structure Job where
  pid : Int
  jid : Int
  state : JobState
  cmdline : String
deriving DecidableEq, Repr

/- The globals jobs and nextjid. -/
structure JobTable where
  jobs : Fin maxJobs → Job
  nextjid : Int

/- A 32-bit int in two's complement. -/
def int32 (n : Int) : Int :=
  Int.bmod n (2 ^ 32)

/- The job that clearjob leaves in a slot. -/
def clearjob : Job :=
  { pid := 0, jid := 0, state := .undef, cmdline := "" }

/- initjobs, with the initial value of nextjid. -/
def initjobs : JobTable :=
  { jobs := fun _ => clearjob, nextjid := 1 }

------------------------------------------------------------
-- Lookup
------------------------------------------------------------

def getjobpid
    (jobs : Fin maxJobs → Job)
    (pid : Int) :
    Option (Fin maxJobs) :=
  if pid < 1 then
    none
  else
    lookup Job.pid jobs pid

def getjobjid
    (jobs : Fin maxJobs → Job)
    (jid : Int) :
    Option (Fin maxJobs) :=
  if jid < 1 then
    none
  else
    lookup Job.jid jobs jid

def pid2jid
    (jobs : Fin maxJobs → Job)
    (pid : Int) :
    Int :=
  if pid < 1 then
    0
  else
    match lookup Job.pid jobs pid with
    | some i => (jobs i).jid
    | none => 0

def fgpid (jobs : Fin maxJobs → Job) : Int :=
  match lookup Job.state jobs .fg with
  | some i => (jobs i).pid
  | none => 0

def maxjid (jobs : Fin maxJobs → Job) : Int :=
  (List.finRange maxJobs).foldl
    (fun max i =>
      if max < (jobs i).jid then (jobs i).jid else max) 0

------------------------------------------------------------
-- Changes
------------------------------------------------------------

def addjob
    (table : JobTable)
    (pid : Int)
    (state : JobState)
    (cmdline : String) :
    Bool × JobTable :=
  if pid < 1 then
    (false, table)
  else
    match lookup Job.pid table.jobs 0 with
    | some i =>
        let next := int32 (table.nextjid + 1)
        (true,
          { jobs := Function.update table.jobs i
              { pid := pid
                jid := table.nextjid
                state := state
                cmdline := cmdline }
            nextjid := if maxJobs < next then 1 else next })
    | none => (false, table)

def deletejob
    (table : JobTable)
    (pid : Int) :
    Bool × JobTable :=
  if pid < 1 then
    (false, table)
  else
    match lookup Job.pid table.jobs pid with
    | some i =>
        let jobs := Function.update table.jobs i clearjob
        (true,
          { jobs := jobs
            nextjid := int32 (maxjid jobs + 1) })
    | none => (false, table)

/- An assignment to the state field of a job. -/
def setState
    (jobs : Fin maxJobs → Job)
    (i : Fin maxJobs)
    (state : JobState) :
    Fin maxJobs → Job :=
  Function.update jobs i { jobs i with state := state }

------------------------------------------------------------
-- Occupied Slots
------------------------------------------------------------

/- A slot is free when its pid is 0. -/
def Occupied (job : Job) : Prop :=
  job.pid ≠ 0

instance (job : Job) : Decidable (Occupied job) :=
  inferInstanceAs (Decidable (job.pid ≠ 0))

/- The non-zero pids of the table. -/
def pids (jobs : Fin maxJobs → Job) : Set Int :=
  keys Occupied Job.pid jobs

/- No pid stands in two slots. -/
def DistinctPids (jobs : Fin maxJobs → Job) : Prop :=
  Distinct Occupied Job.pid jobs

theorem not_occupied_clearjob : ¬Occupied clearjob := by
  intro hOccupied
  exact hOccupied rfl

theorem pids_initjobs : pids initjobs.jobs = ∅ := by
  apply Set.eq_empty_of_forall_notMem
  rintro pid ⟨i, hOccupied, _⟩
  exact not_occupied_clearjob hOccupied

theorem distinctPids_initjobs :
    DistinctPids initjobs.jobs := by
  intro i j hOccupied
  exact absurd hOccupied not_occupied_clearjob

variable {table : JobTable} {pid : Int} {state : JobState}
variable {cmdline : String} {i : Fin maxJobs}

theorem mem_pids_iff {jobs : Fin maxJobs → Job} :
    pid ∈ pids jobs ↔ pid ≠ 0 ∧ ∃ i, (jobs i).pid = pid := by
  constructor
  · rintro ⟨i, hOccupied, rfl⟩
    exact ⟨hOccupied, i, rfl⟩
  · rintro ⟨hPid, i, rfl⟩
    exact ⟨i, hPid, rfl⟩

theorem getjobpid_eq_none_iff
    {jobs : Fin maxJobs → Job}
    (hPid : 0 < pid) :
    getjobpid jobs pid = none ↔ pid ∉ pids jobs := by
  rw [getjobpid, if_neg (by omega), lookup_eq_none_iff,
    mem_pids_iff]
  constructor
  · rintro hNone ⟨_, i, hKey⟩
    exact hNone i hKey
  · intro hNot i hKey
    exact hNot ⟨by omega, i, hKey⟩

/- fgpid without a foreground job, and with a first one. -/
theorem fgpid_of_lookup_none
    {jobs : Fin maxJobs → Job}
    (hLookup : lookup Job.state jobs .fg = none) :
    fgpid jobs = 0 := by
  delta fgpid
  rw [hLookup]

theorem fgpid_of_lookup_some
    {jobs : Fin maxJobs → Job}
    (hLookup : lookup Job.state jobs .fg = some i) :
    fgpid jobs = (jobs i).pid := by
  delta fgpid
  rw [hLookup]

------------------------------------------------------------
-- What Each Change Does
------------------------------------------------------------

/-
  addjob fills a free slot with the next job id, or changes
  nothing when the pid is not positive or no slot is free.
-/
theorem addjob_cases
    (table : JobTable)
    (pid : Int)
    (state : JobState)
    (cmdline : String) :
    (addjob table pid state cmdline = (false, table) ∧
        (pid < 1 ∨ ∀ i, Occupied (table.jobs i))) ∨
      ∃ i, 0 < pid ∧ ¬Occupied (table.jobs i) ∧
        addjob table pid state cmdline =
          (true,
            { jobs := Function.update table.jobs i
                ⟨pid, table.nextjid, state, cmdline⟩
              nextjid :=
                if maxJobs < int32 (table.nextjid + 1) then 1
                else int32 (table.nextjid + 1) }) := by
  by_cases hPid : pid < 1
  · left
    exact ⟨by rw [addjob, if_pos hPid], Or.inl hPid⟩
  · cases hLookup : lookup Job.pid table.jobs 0 with
    | none =>
        left
        refine ⟨by rw [addjob, if_neg hPid, hLookup], ?_⟩
        exact Or.inr (lookup_eq_none_iff.mp hLookup)
    | some i =>
        right
        have hFree := key_of_lookup_eq_some hLookup
        refine ⟨i, by omega, fun hOccupied => hOccupied hFree, ?_⟩
        rw [addjob, if_neg hPid, hLookup]

/-
  deletejob clears the first slot with the pid and resets the
  next job id, or changes nothing when no slot has it.
-/
theorem deletejob_cases
    (table : JobTable)
    (pid : Int) :
    (deletejob table pid = (false, table) ∧
        (pid < 1 ∨ pid ∉ pids table.jobs)) ∨
      ∃ i, 0 < pid ∧ (table.jobs i).pid = pid ∧
        deletejob table pid =
          (true,
            { jobs := Function.update table.jobs i clearjob
              nextjid :=
                int32 (maxjid
                  (Function.update table.jobs i clearjob)
                    + 1) }) := by
  by_cases hPid : pid < 1
  · left
    exact ⟨by rw [deletejob, if_pos hPid], Or.inl hPid⟩
  · cases hLookup : lookup Job.pid table.jobs pid with
    | none =>
        left
        refine ⟨by rw [deletejob, if_neg hPid, hLookup], ?_⟩
        right
        intro hMem
        rcases mem_pids_iff.mp hMem with ⟨_, i, hKey⟩
        exact lookup_eq_none_iff.mp hLookup i hKey
    | some i =>
        right
        have hKey := key_of_lookup_eq_some hLookup
        refine ⟨i, by omega, hKey, ?_⟩
        rw [deletejob, if_neg hPid, hLookup]

/- addjob with a free slot adds its pid to the table. -/
theorem pids_addjob
    (hPid : 0 < pid)
    (hFree : ∃ i, ¬Occupied (table.jobs i)) :
    pids (addjob table pid state cmdline).2.jobs =
      insert pid (pids table.jobs) := by
  rcases addjob_cases table pid state cmdline with
    ⟨_, hLess | hFull⟩ | ⟨i, _, hFreeI, hAdd⟩
  · omega
  · rcases hFree with ⟨i, hFreeI⟩
    exact absurd (hFull i) hFreeI
  · rw [hAdd]
    apply keys_update_used hFreeI
    intro hZero
    simp only at hZero
    omega

theorem distinctPids_addjob
    (hDistinct : DistinctPids table.jobs)
    (hFresh : pid ∉ pids table.jobs) :
    DistinctPids (addjob table pid state cmdline).2.jobs := by
  rcases addjob_cases table pid state cmdline with
    ⟨hAdd, _⟩ | ⟨i, _, _, hAdd⟩
  · rwa [hAdd]
  · rw [hAdd]
    exact hDistinct.update_used hFresh

/- deletejob takes its pid out of the table. -/
theorem pids_deletejob
    (hDistinct : DistinctPids table.jobs)
    (hPid : 0 < pid) :
    pids (deletejob table pid).2.jobs =
      pids table.jobs \ {pid} := by
  rcases deletejob_cases table pid with
    ⟨hDelete, hLess | hNot⟩ | ⟨i, _, hKey, hDelete⟩
  · omega
  · rw [hDelete]
    exact (Set.sdiff_singleton_eq_self hNot).symm
  · rw [hDelete]
    have hOccupied : Occupied (table.jobs i) := by
      rw [Occupied, hKey]
      omega
    have hKeys := hDistinct.keys_update_free hOccupied
      not_occupied_clearjob
    rwa [hKey] at hKeys

theorem distinctPids_deletejob
    (hDistinct : DistinctPids table.jobs) :
    DistinctPids (deletejob table pid).2.jobs := by
  rcases deletejob_cases table pid with
    ⟨hDelete, _⟩ | ⟨i, _, _, hDelete⟩
  · rwa [hDelete]
  · rw [hDelete]
    exact hDistinct.update_free not_occupied_clearjob

variable {jobs : Fin maxJobs → Job}

/- Assigning a state moves no pid. -/
theorem pid_setState (j : Fin maxJobs) :
    (setState jobs i state j).pid = (jobs j).pid := by
  by_cases hJ : j = i
  · rw [hJ, setState, Function.update_self]
  · rw [setState, Function.update_of_ne hJ]

theorem occupied_setState (j : Fin maxJobs) :
    Occupied (setState jobs i state j) ↔
      Occupied (jobs j) := by
  rw [Occupied, Occupied, pid_setState]

theorem pids_setState :
    pids (setState jobs i state) = pids jobs :=
  keys_congr occupied_setState pid_setState

theorem distinctPids_setState
    (hDistinct : DistinctPids jobs) :
    DistinctPids (setState jobs i state) :=
  hDistinct.congr (fun j => (occupied_setState j).mp)
    pid_setState

end Shell

end CsappLabs
