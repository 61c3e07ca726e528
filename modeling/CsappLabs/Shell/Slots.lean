import CsappLabs.Shell.Tracking

/-
  Slots that are either empty or occupied.

  doBgfg keeps a pointer to a slot while the handler may run,
  and assigns to its state field without looking again. Every
  slot stays consistent exactly when each such assignment
  still finds its job.

  Key definitions include:
    * `JobConsistent`
    * `SlotsConsistent`
    * `FindsJob`

  Key theorems include:
    * `jobsConsistent_step_iff`
    * `slots_consistent_iff`
-/

namespace CsappLabs

namespace Shell

open Transition SlotTable

------------------------------------------------------------
-- Consistent Slots
------------------------------------------------------------

/- Completely empty, or completely occupied. -/
def JobConsistent (job : Job) : Prop :=
  (job.pid = 0 ∧ job.jid = 0 ∧ job.state = .undef) ∨
    (0 < job.pid ∧ 0 < job.jid ∧ job.state ≠ .undef)

instance (job : Job) : Decidable (JobConsistent job) :=
  inferInstanceAs (Decidable (_ ∨ _))

/-
  Every slot is consistent, and fgpid answers 0 exactly when
  no slot is in the foreground.
-/
structure SlotsConsistent
    (jobs : Fin maxJobs → Job) :
    Prop where
  slot : ∀ i, JobConsistent (jobs i)
  fgpid_eq_zero_iff :
    fgpid jobs = 0 ↔ ∀ i, (jobs i).state ≠ .fg

/-
  The step does not assign to a slot that has been cleared,
  and it does not hand out a job id below 1.
-/
def FindsJob (s : Tsh) (event : Event) : Prop :=
  match s.pc, event with
  | .assign _ slot _, .flow => Occupied (s.table.jobs slot)
  | .addjob .., .addjob _ room =>
      room = true → 1 ≤ s.table.nextjid
  | _, _ => True

variable {jobs : Fin maxJobs → Job}

theorem jobConsistent_clearjob : JobConsistent clearjob :=
  Or.inl ⟨rfl, rfl, rfl⟩

theorem slotsConsistent_iff :
    SlotsConsistent jobs ↔ ∀ i, JobConsistent (jobs i) := by
  constructor
  · intro hSlots
    exact hSlots.slot
  · intro hJobs
    refine ⟨hJobs, ?_⟩
    cases hLookup : lookup Job.state jobs .fg with
    | none =>
        exact ⟨fun _ => lookup_eq_none_iff.mp hLookup,
          fun _ => fgpid_of_lookup_none hLookup⟩
    | some slot =>
        have hFgpid := fgpid_of_lookup_some hLookup
        have hFg := key_of_lookup_eq_some hLookup
        constructor
        · intro hZero
          rw [hFgpid] at hZero
          rcases hJobs slot with ⟨_, _, hUndef⟩ | ⟨hPid, _⟩
          · rw [hFg] at hUndef
            cases hUndef
          · omega
        · intro hNone
          exact absurd hFg (hNone slot)

/- Updating one slot asks for no more than the new job. -/
theorem jobsConsistent_update_iff
    (hJobs : ∀ i, JobConsistent (jobs i))
    {slot : Fin maxJobs}
    {job : Job} :
    (∀ i, JobConsistent (Function.update jobs slot job i)) ↔
      JobConsistent job := by
  constructor
  · intro hUpdate
    have hSlot := hUpdate slot
    rwa [Function.update_self] at hSlot
  · intro hJob i
    by_cases hSame : i = slot
    · rwa [hSame, Function.update_self]
    · rw [Function.update_of_ne hSame]
      exact hJobs i

/- A state other than UNDEF belongs into an occupied slot. -/
theorem jobsConsistent_setState_iff
    (hJobs : ∀ i, JobConsistent (jobs i))
    {slot : Fin maxJobs}
    {state : JobState}
    (hState : state ≠ .undef) :
    (∀ i, JobConsistent (setState jobs slot state i)) ↔
      Occupied (jobs slot) := by
  rw [setState, jobsConsistent_update_iff hJobs]
  constructor
  · rintro (⟨_, _, hUndef⟩ | ⟨hPid, _⟩)
    · exact absurd hUndef hState
    · intro hZero
      simp only at hPid
      omega
  · intro hOccupied
    rcases hJobs slot with ⟨hPid, _⟩ | ⟨hPid, hJid, _⟩
    · exact absurd hPid hOccupied
    · exact Or.inr ⟨hPid, hJid, hState⟩

------------------------------------------------------------
-- Steps
------------------------------------------------------------

section Steps

variable {table : JobTable} {pid : Int}

theorem jobsConsistent_deletejob
    (hJobs : ∀ i, JobConsistent (table.jobs i)) :
    ∀ i, JobConsistent ((deletejob table pid).2.jobs i) := by
  rcases deletejob_cases table pid with
    ⟨hDelete, _⟩ | ⟨slot, _, _, hDelete⟩
  · rwa [hDelete]
  · rw [hDelete]
    exact (jobsConsistent_update_iff hJobs).mpr
      jobConsistent_clearjob

theorem jobsConsistent_addjob_iff
    (hJobs : ∀ i, JobConsistent (table.jobs i))
    (hPid : 0 < pid)
    {state : JobState}
    (hState : state ≠ .undef)
    {cmdline : String} :
    (∀ i, JobConsistent
        ((addjob table pid state cmdline).2.jobs i)) ↔
      (HasRoom table → 1 ≤ table.nextjid) := by
  rcases addjob_cases table pid state cmdline with
    ⟨hAdd, hNoSlot⟩ | ⟨slot, _, hFree, hAdd⟩
  · rw [hAdd]
    refine ⟨?_, fun _ => hJobs⟩
    rintro _ ⟨i, hFree⟩
    rcases hNoSlot with hLess | hFull
    · omega
    · exact absurd (hFull i) hFree
  · rw [hAdd, jobsConsistent_update_iff hJobs]
    constructor
    · rintro (⟨_, _, hUndef⟩ | ⟨_, hJid, _⟩) _
      · exact absurd hUndef hState
      · exact hJid
    · intro hJid
      exact Or.inr ⟨hPid, hJid ⟨slot, hFree⟩, hState⟩

theorem jobsConsistent_handlerBody
    (hJobs : ∀ i, JobConsistent (table.jobs i))
    (hPid : 0 < pid)
    {status : WaitStatus}
    {table' : JobTable}
    (hBody : handlerBody table pid status = some table') :
    ∀ i, JobConsistent (table'.jobs i) := by
  cases status with
  | exited code =>
      cases hBody
      exact jobsConsistent_deletejob hJobs
  | stopped signal =>
      rw [handlerBody] at hBody
      cases hLookup : getjobpid table.jobs pid with
      | none =>
          rw [hLookup] at hBody
          cases hBody
      | some slot =>
          rw [hLookup] at hBody
          cases hBody
          apply (jobsConsistent_setState_iff hJobs (by simp)).mpr
          rw [getjobpid, if_neg (by omega)] at hLookup
          rw [Occupied, key_of_lookup_eq_some hLookup]
          omega
  | signaled signal =>
      rw [handlerBody] at hBody
      cases hLookup : getjobpid table.jobs pid with
      | none =>
          rw [hLookup] at hBody
          cases hBody
      | some slot =>
          rw [hLookup] at hBody
          cases hBody
          exact jobsConsistent_deletejob hJobs
  | continued =>
      cases hBody
      exact hJobs

variable {events : List Event} {s t : Tsh} {event : Event}

/-
  From consistent slots a step leads to consistent slots
  exactly when it finds the job it works on.
-/
theorem jobsConsistent_step_iff
    (hTracked : Tracked events s)
    (hJobs : ∀ i, JobConsistent (s.table.jobs i))
    (hStep : Step s event t) :
    (∀ i, JobConsistent (t.table.jobs i)) ↔
      FindsJob s event := by
  cases hStep with
  | statement hIdle hNext =>
      rcases table_of_statement hNext with
        ⟨hTable, hPc⟩ | ⟨verb, slot, pid, hPc, hTable⟩
      · rw [hTable]
        refine ⟨fun _ => ?_, fun _ => hJobs⟩
        cases hHere : s.pc with
        | assign verb slot pid =>
            exact absurd hHere (hPc verb slot pid)
        | _ => simp only [FindsJob, hHere]
      · simp only [FindsJob, hPc, hTable]
        apply jobsConsistent_setState_iff hJobs
        cases verb with
        | fg => simp [Verb.state]
        | bg => simp [Verb.state]
  | eval hIdle hPc hJid => simpa [FindsJob, hPc] using hJobs
  | endOfFile hIdle hPc => simpa [FindsJob, hPc] using hJobs
  | fork hIdle hPc hPid hNew =>
      simpa [FindsJob, hPc] using hJobs
  | forkFails hIdle hPc => simpa [FindsJob, hPc] using hJobs
  | @addjob cmdline bg prevOne pid hIdle hPc =>
      have hPid := hTracked.positive pid (Or.inl
        (hTracked.forkedChild pid (by
          rw [hPc]
          rfl)))
      simp only [FindsJob, hPc, decide_eq_true_eq]
      apply jobsConsistent_addjob_iff hJobs hPid
      cases bg with
      | true => simp
      | false => simp
  | kill hIdle hPc => simpa [FindsJob, hPc] using hJobs
  | @handled pid status table hHandler hBody =>
      have hPid := hTracked.positive pid (Or.inr (by
        rw [hHandler]
        rfl))
      simpa [FindsJob] using
        jobsConsistent_handlerBody hJobs hPid hBody
  | deliver hIdle hBlocked hRunning =>
      simpa [FindsJob] using hJobs
  | report hHandler hMem hReport =>
      simpa [FindsJob] using hJobs
  | handlerReturn hHandler hNone =>
      simpa [FindsJob] using hJobs
  | fault hHandler hBody => simpa [FindsJob] using hJobs
  | child hMem hChange => simpa [FindsJob] using hJobs

end Steps

------------------------------------------------------------
-- Runs
------------------------------------------------------------

variable {events : List Event} {s : Tsh}

/-
  A run keeps all slots consistent in every state it reaches
  exactly when each of its steps finds the job it works on.
-/
theorem slots_consistent_iff :
    Run (fun s event t =>
        Step s event t ∧ SlotsConsistent t.table.jobs)
      tshStart events s ↔
      Run (fun s event t => Step s event t ∧ FindsJob s event)
        tshStart events s := by
  have hStart : ∀ i, JobConsistent (tshStart.table.jobs i) :=
    fun _ => jobConsistent_clearjob
  constructor
  · intro hRun
    have hAll := hRun.history
      (fun events s =>
        Tracked events s ∧
          (∀ i, JobConsistent (s.table.jobs i)) ∧
          Run (fun s event t =>
            Step s event t ∧ FindsJob s event)
            tshStart events s)
      ⟨tracked_tshStart, hStart, .nil⟩ (by
        rintro events s event t ⟨hTracked, hJobs, hFinds⟩
          ⟨hStep, hSlots⟩
        refine ⟨hTracked.step hStep, hSlots.slot, ?_⟩
        exact hFinds.snoc ⟨hStep,
          (jobsConsistent_step_iff hTracked hJobs hStep).mp
            hSlots.slot⟩)
    exact hAll.2.2
  · intro hRun
    have hAll := hRun.history
      (fun events s =>
        Tracked events s ∧
          (∀ i, JobConsistent (s.table.jobs i)) ∧
          Run (fun s event t =>
            Step s event t ∧ SlotsConsistent t.table.jobs)
            tshStart events s)
      ⟨tracked_tshStart, hStart, .nil⟩ (by
        rintro events s event t ⟨hTracked, hJobs, hSlots⟩
          ⟨hStep, hFinds⟩
        have hNext :=
          (jobsConsistent_step_iff hTracked hJobs hStep).mpr
            hFinds
        refine ⟨hTracked.step hStep, hNext, ?_⟩
        exact hSlots.snoc
          ⟨hStep, slotsConsistent_iff.mpr hNext⟩)
    exact hAll.2.2

/- The table with job 1, which has pid 7. -/
def oneJob : JobTable :=
  (addjob initjobs 7 .bg "./myspin 9 &\n").2

/- The shell with job 1 somewhere in `fg %1`. -/
def inFg (pc : Pc) : Tsh :=
  ⟨oneJob, false, [⟨7, .running⟩], false, pc, .idle⟩

/- `fg %1` up to the assignment of the state. -/
theorem run_fg :
    Run Step (inFg .prompt) [.flow, .flow, .flow, .flow]
      (inFg (.assign .fg 0 7)) := by
  have hCommand : eval "fg %1\n" ["fg", "%1"] false 1 =
      .getjobjid .fg 1 0 := by
    decide
  have hJid : ReadsJid ["fg", "%1"] 1 := by
    rintro name argument rest hArgv _
    cases hArgv
    decide
  have hEval : Step (inFg .prompt) .flow
      (inFg (.getjobjid .fg 1 0)) := by
    rw [← hCommand]
    exact .eval rfl rfl hJid
  have hFound : Step (inFg (.getjobjid .fg 1 0)) .flow
      (inFg (.readPid .fg 0)) :=
    .statement rfl rfl
  have hPid : Step (inFg (.readPid .fg 0)) .flow
      (inFg (.testState .fg 0 7)) :=
    .statement rfl rfl
  have hTest : Step (inFg (.testState .fg 0 7)) .flow
      (inFg (.assign .fg 0 7)) :=
    .statement rfl rfl
  exact (((Run.nil.snoc hEval).snoc hFound).snoc hPid).snoc hTest

/-
  Job 1 exits and is deleted between the test of its state and
  the assignment, which then marks a free slot as FG.
-/
theorem fg_marks_free_slot :
    ¬∀ events s, Run Step tshStart events s →
      SlotsConsistent s.table.jobs := by
  intro hSlots
  have hLaunch : Run Step tshStart
      (backgroundEvents tshStart 7) (inFg .prompt) := by
    apply run_background "./myspin 9 &\n" _ rfl rfl
    · decide
    · decide
    · exact fun _ _ _ hStep _ _ => hStep
  have hChange : Life.Change .running (.exited 0) := .exit
  have hRunning : ⟨7, .running⟩ ∈
      (inFg (.assign .fg 0 7)).children :=
    List.mem_singleton_self _
  have hExit : Step (inFg (.assign .fg 0 7)) (.child 7)
      { inFg (.assign .fg 0 7) with
        children := [⟨7, .exited 0⟩] } :=
    Step.child hRunning hChange
  have hDeliver : Step
      { inFg (.assign .fg 0 7) with
        children := [⟨7, .exited 0⟩] }
      .deliver
      { inFg (.assign .fg 0 7) with
        children := [⟨7, .exited 0⟩]
        handler := .waitpid } :=
    .deliver rfl rfl (by simp [inFg])
  have hReport : Step
      { inFg (.assign .fg 0 7) with
        children := [⟨7, .exited 0⟩]
        handler := .waitpid }
      (.report 7 (.exited 0))
      { inFg (.assign .fg 0 7) with
        children := []
        handler := .body 7 (.exited 0) } := by
    have hZombie : (⟨7, .exited 0⟩ : Child) ∈
        [(⟨7, .exited 0⟩ : Child)] :=
      List.mem_singleton_self _
    have hStatus : Life.report (.exited 0) =
        some (.exited 0) :=
      rfl
    exact Step.report
      (s :=
        { inFg (.assign .fg 0 7) with
          children := [⟨7, .exited 0⟩]
          handler := .waitpid })
      rfl hZombie hStatus
  have hHandled : Step
      { inFg (.assign .fg 0 7) with
        children := []
        handler := .body 7 (.exited 0) }
      (.handled 7 (.exited 0))
      { inFg (.assign .fg 0 7) with
        table := (deletejob oneJob 7).2
        children := []
        handler := .waitpid } :=
    .handled rfl rfl
  have hReturn : Step
      { inFg (.assign .fg 0 7) with
        table := (deletejob oneJob 7).2
        children := []
        handler := .waitpid }
      .handlerReturn
      { inFg (.assign .fg 0 7) with
        table := (deletejob oneJob 7).2
        children := [] } :=
    .handlerReturn rfl (by simp)
  have hAssign : Step
      { inFg (.assign .fg 0 7) with
        table := (deletejob oneJob 7).2
        children := [] }
      .flow
      { inFg (.kill .fg 7) with
        table :=
          { (deletejob oneJob 7).2 with
            jobs :=
              setState (deletejob oneJob 7).2.jobs 0 .fg }
        children := [] } :=
    .statement rfl rfl
  have hRun :=
    ((((((hLaunch.append run_fg).snoc hExit).snoc
      hDeliver).snoc hReport).snoc hHandled).snoc
        hReturn).snoc hAssign
  have hSlot := (hSlots _ _ hRun).slot 0
  exact absurd hSlot (by decide)

end Shell

end CsappLabs
