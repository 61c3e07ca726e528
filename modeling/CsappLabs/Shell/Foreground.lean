import CsappLabs.Shell.Launch

/-
  At most one foreground job.

  The handler runs here between commands and in the loop of
  waitfg only. Then a job comes to the foreground only when
  none is there, and waitfg stays until it has left.

  Key definitions include:
    * `CalmStep`
    * `ForegroundAt`

  Key theorems include:
    * `Foreground.step`
    * `one_foreground_job`
-/

namespace CsappLabs

namespace Shell

open Transition SlotTable

------------------------------------------------------------
-- The Foreground
------------------------------------------------------------

variable {jobs jobs' : Fin maxJobs → Job} {pid : Int}

def NoForeground (jobs : Fin maxJobs → Job) : Prop :=
  ∀ i, (jobs i).state ≠ .fg

/- At most one slot is in the foreground, the one of a pid. -/
def OnlyForeground
    (jobs : Fin maxJobs → Job)
    (pid : Int) :
    Prop :=
  ∃ slot, ∀ i, (jobs i).state = .fg →
    i = slot ∧ (jobs i).pid = pid

def AtMostOneForeground
    (jobs : Fin maxJobs → Job) :
    Prop :=
  ∀ i j, (jobs i).state = .fg → (jobs j).state = .fg → i = j

/- Between commands, or in the loop of waitfg. -/
def Pc.polls : Pc → Bool
| .prompt => true
| .fgpid .. => true
| .fgpidReturn .. => true
| _ => false

/- A step in which the handler starts at such a point only. -/
def CalmStep (s : Tsh) (event : Event) (t : Tsh) : Prop :=
  Step s event t ∧ (event = .deliver → s.pc.polls = true)

/-
  The jobs in the foreground at each point: waitfg knows the
  pid of the only one, and its loop has passed none.
-/
def ForegroundAt (jobs : Fin maxJobs → Job) : Pc → Prop
| .waitfg pid _ => OnlyForeground jobs pid
| .unmask pid _ => OnlyForeground jobs pid
| .fgpid pid _ _ slot =>
    OnlyForeground jobs pid ∧
      ∀ i, i.val < slot → (jobs i).state ≠ .fg
| .fgpidReturn pid _ _ slot =>
    ∀ i, (jobs i).state = .fg → i = slot ∧ (jobs i).pid = pid
| .testState _ slot pid =>
    NoForeground jobs ∧ (jobs slot).pid = pid
| .assign _ slot pid =>
    NoForeground jobs ∧ (jobs slot).pid = pid
| .kill .fg pid => OnlyForeground jobs pid
| _ => NoForeground jobs

structure Foreground (s : Tsh) : Prop where
  suspended : s.handler ≠ .idle → s.pc.polls = true
  jobs : ForegroundAt s.table.jobs s.pc

theorem NoForeground.only
    (hNone : NoForeground jobs) :
    OnlyForeground jobs pid :=
  ⟨0, fun i hFg => absurd hFg (hNone i)⟩

theorem OnlyForeground.atMostOne
    (hOnly : OnlyForeground jobs pid) :
    AtMostOneForeground jobs := by
  rcases hOnly with ⟨slot, hSlot⟩
  intro i j hI hJ
  rw [(hSlot i hI).1, (hSlot j hJ).1]

theorem NoForeground.atMostOne
    (hNone : NoForeground jobs) :
    AtMostOneForeground jobs :=
  (hNone.only : OnlyForeground jobs 0).atMostOne

theorem ForegroundAt.atMostOne
    {pc : Pc}
    (hAt : ForegroundAt jobs pc) :
    AtMostOneForeground jobs := by
  cases pc with
  | waitfg pid caller => exact OnlyForeground.atMostOne hAt
  | unmask pid caller => exact OnlyForeground.atMostOne hAt
  | fgpid pid caller prevMask slot => exact hAt.1.atMostOne
  | fgpidReturn pid caller prevMask slot =>
      exact OnlyForeground.atMostOne ⟨slot, hAt⟩
  | testState verb slot pid => exact hAt.1.atMostOne
  | assign verb slot pid => exact hAt.1.atMostOne
  | kill verb pid =>
      cases verb with
      | fg => exact OnlyForeground.atMostOne hAt
      | bg => exact NoForeground.atMostOne hAt
  | _ => exact NoForeground.atMostOne hAt

------------------------------------------------------------
-- Changes of the Table
------------------------------------------------------------

/- No job comes to the foreground, and none there moves. -/
def FewerForeground (jobs jobs' : Fin maxJobs → Job) : Prop :=
  ∀ i, (jobs' i).state = .fg →
    (jobs i).state = .fg ∧ (jobs' i).pid = (jobs i).pid

theorem FewerForeground.refl : FewerForeground jobs jobs :=
  fun _ hFg => ⟨hFg, rfl⟩

theorem FewerForeground.update
    {slot : Fin maxJobs}
    {job : Job}
    (hState : job.state ≠ .fg) :
    FewerForeground jobs (Function.update jobs slot job) := by
  intro i hFg
  by_cases hSame : i = slot
  · rw [hSame, Function.update_self] at hFg
    exact absurd hFg hState
  · rw [Function.update_of_ne hSame] at hFg ⊢
    exact ⟨hFg, rfl⟩

theorem FewerForeground.none
    (hFewer : FewerForeground jobs jobs')
    (hNone : NoForeground jobs) :
    NoForeground jobs' :=
  fun i hFg => hNone i (hFewer i hFg).1

theorem FewerForeground.only
    (hFewer : FewerForeground jobs jobs')
    (hOnly : OnlyForeground jobs pid) :
    OnlyForeground jobs' pid := by
  rcases hOnly with ⟨slot, hSlot⟩
  refine ⟨slot, ?_⟩
  intro i hFg
  rcases hFewer i hFg with ⟨hFgOld, hPid⟩
  rw [hPid]
  exact hSlot i hFgOld

/- The points where the handler runs stand fewer jobs. -/
theorem FewerForeground.at_polls
    (hFewer : FewerForeground jobs jobs')
    {pc : Pc}
    (hPolls : pc.polls = true)
    (hAt : ForegroundAt jobs pc) :
    ForegroundAt jobs' pc := by
  cases pc with
  | prompt => exact hFewer.none hAt
  | fgpid pid caller prevMask slot =>
      refine ⟨hFewer.only hAt.1, ?_⟩
      intro i hLess hFg
      exact hAt.2 i hLess (hFewer i hFg).1
  | fgpidReturn pid caller prevMask slot =>
      intro i hFg
      rcases hFewer i hFg with ⟨hFgOld, hPid⟩
      rw [hPid]
      exact hAt i hFgOld
  | _ => cases hPolls

theorem FewerForeground.deletejob
    {table : JobTable} :
    FewerForeground table.jobs
      (deletejob table pid).2.jobs := by
  rcases deletejob_cases table pid with
    ⟨hDelete, _⟩ | ⟨slot, _, _, hDelete⟩
  · rw [hDelete]
    exact .refl
  · rw [hDelete]
    exact .update (by simp [clearjob])

theorem FewerForeground.handlerBody
    {table table' : JobTable}
    {status : WaitStatus}
    (hBody : handlerBody table pid status = some table') :
    FewerForeground table.jobs table'.jobs := by
  cases status with
  | exited code =>
      cases hBody
      exact .deletejob
  | stopped signal =>
      rw [Shell.handlerBody] at hBody
      cases hLookup : getjobpid table.jobs pid with
      | none =>
          rw [hLookup] at hBody
          cases hBody
      | some slot =>
          rw [hLookup] at hBody
          cases hBody
          exact .update (by simp)
  | signaled signal =>
      rw [Shell.handlerBody] at hBody
      cases hLookup : getjobpid table.jobs pid with
      | none =>
          rw [hLookup] at hBody
          cases hBody
      | some slot =>
          rw [hLookup] at hBody
          cases hBody
          exact .deletejob
  | continued =>
      cases hBody
      exact .refl

/- A job that comes to an empty foreground is the only one. -/
theorem NoForeground.update_only
    (hNone : NoForeground jobs)
    (slot : Fin maxJobs)
    {job : Job} :
    OnlyForeground (Function.update jobs slot job) job.pid := by
  refine ⟨slot, ?_⟩
  intro i hFg
  by_cases hSame : i = slot
  · rw [hSame, Function.update_self]
    exact ⟨rfl, rfl⟩
  · rw [Function.update_of_ne hSame] at hFg
    exact absurd hFg (hNone i)

theorem NoForeground.addjob_fg
    {table : JobTable}
    (hNone : NoForeground table.jobs)
    (pid : Int)
    (cmdline : String) :
    OnlyForeground
      (addjob table pid .fg cmdline).2.jobs pid := by
  rcases addjob_cases table pid .fg cmdline with
    ⟨hAdd, _⟩ | ⟨slot, _, _, hAdd⟩
  · rw [hAdd]
    exact hNone.only
  · rw [hAdd]
    exact hNone.update_only slot

theorem NoForeground.addjob_bg
    {table : JobTable}
    (hNone : NoForeground table.jobs)
    (pid : Int)
    (cmdline : String) :
    NoForeground (addjob table pid .bg cmdline).2.jobs := by
  rcases addjob_cases table pid .bg cmdline with
    ⟨hAdd, _⟩ | ⟨slot, _, _, hAdd⟩
  · rwa [hAdd]
  · rw [hAdd]
    exact FewerForeground.none (.update (by simp)) hNone

------------------------------------------------------------
-- Steps
------------------------------------------------------------

theorem foregroundAt_doBgfg
    (hNone : NoForeground jobs)
    (verb : Verb)
    (argument : Option String)
    (jid : Int) :
    ForegroundAt jobs (doBgfg verb argument jid) := by
  cases argument with
  | none => exact hNone
  | some word =>
      rw [doBgfg]
      repeat' split
      all_goals exact hNone

theorem foregroundAt_eval
    (hNone : NoForeground jobs)
    (cmdline : String)
    (argv : List String)
    (bg : Bool)
    (jid : Int) :
    ForegroundAt jobs (eval cmdline argv bg jid) := by
  cases argv with
  | nil => exact hNone
  | cons name arguments =>
      rw [eval]
      repeat' split
      all_goals first
        | exact hNone
        | exact foregroundAt_doBgfg hNone _ _ _

theorem foregroundAt_resume
    (hNone : NoForeground jobs)
    (caller : Caller) :
    ForegroundAt jobs caller.resume := by
  cases caller with
  | eval prevOne => exact hNone
  | doBgfg => exact hNone

variable {s t : Tsh} {event : Event} {events : List Event}

/- Each statement keeps what is known at its point. -/
theorem foregroundAt_statement
    (hAt : ForegroundAt s.table.jobs s.pc)
    (hStatement : statement s = some t) :
    ForegroundAt t.table.jobs t.pc := by
  rw [statement] at hStatement
  split at hStatement
  case h_1 hPc =>
    rw [hPc] at hAt
    cases hStatement
    exact hAt
  case h_2 hPc =>
    rw [hPc] at hAt
    cases hStatement
    exact hAt
  case h_3 hPc =>
    rw [hPc] at hAt
    cases hStatement
    exact hAt
  case h_4 hPc =>
    rw [hPc] at hAt
    cases hStatement
    exact ⟨hAt, fun i hLess => absurd hLess (Nat.not_lt_zero i)⟩
  case h_5 pid caller prevMask slot hPc =>
    rw [hPc] at hAt
    split at hStatement
    case isTrue hSlot =>
      split at hStatement
      case isTrue hFg =>
        cases hStatement
        rcases hAt.1 with ⟨only, hOnly⟩
        intro i hFgI
        have hHere := (hOnly _ hFg).1
        rw [hHere]
        exact hOnly i hFgI
      case isFalse hNot =>
        cases hStatement
        refine ⟨hAt.1, ?_⟩
        intro i hLess
        rcases Nat.lt_succ_iff_lt_or_eq.mp hLess with
          hBelow | hHere
        · exact hAt.2 i hBelow
        · have hSame : i = ⟨slot, hSlot⟩ := Fin.ext hHere
          rwa [hSame]
    case isFalse hEnd =>
      -- the loop has passed every slot
      have hNone : NoForeground s.table.jobs := by
        intro i
        apply hAt.2 i
        omega
      split at hStatement
      · cases hStatement
        exact ⟨hAt.1,
          fun i hLess => absurd hLess (Nat.not_lt_zero i)⟩
      · cases hStatement
        exact hNone
  case h_6 pid caller prevMask slot hPc =>
    rw [hPc] at hAt
    split at hStatement
    case isTrue hSame =>
      cases hStatement
      exact ⟨⟨slot, hAt⟩,
        fun i hLess => absurd hLess (Nat.not_lt_zero i)⟩
    case isFalse hLeft =>
      cases hStatement
      intro i hFg
      rcases hAt i hFg with ⟨hHere, hPid⟩
      rw [hHere] at hPid
      exact hLeft hPid.symm
  case h_7 caller prevMask hPc =>
    rw [hPc] at hAt
    cases hStatement
    exact foregroundAt_resume hAt caller
  case h_8 verb jid slot hPc =>
    rw [hPc] at hAt
    split at hStatement
    · split at hStatement
      · cases hStatement
        exact hAt
      · cases hStatement
        exact hAt
    · cases hStatement
      exact hAt
  case h_9 verb slot hPc =>
    rw [hPc] at hAt
    cases hStatement
    exact ⟨hAt, rfl⟩
  case h_10 verb slot pid hPc =>
    rw [hPc] at hAt
    split at hStatement
    · cases hStatement
      exact hAt
    · cases hStatement
      exact hAt.1
  case h_11 verb slot pid hPc =>
    rw [hPc] at hAt
    cases hStatement
    rcases hAt with ⟨hNone, rfl⟩
    cases verb with
    | fg => exact hNone.update_only slot
    | bg => exact FewerForeground.none (.update (by simp [Verb.state])) hNone
  all_goals cases hStatement

theorem Foreground.step
    (hForeground : Foreground s)
    (hStep : CalmStep s event t) :
    Foreground t := by
  rcases hStep with ⟨hStep, hCalm⟩
  have hAt := hForeground.jobs
  cases hStep with
  | statement hIdle hNext =>
      have hKeeps := KeepsPids.of_statement hNext
      refine ⟨?_, foregroundAt_statement hAt hNext⟩
      rw [hKeeps.handler, hIdle]
      exact fun hNot => absurd rfl hNot
  | eval hIdle hPc hJid =>
      rw [hPc] at hAt
      exact ⟨fun hNot => absurd hIdle hNot,
        foregroundAt_eval hAt _ _ _ _⟩
  | endOfFile hIdle hPc =>
      rw [hPc] at hAt
      exact ⟨fun hNot => absurd hIdle hNot, hAt⟩
  | fork hIdle hPc hPid hNew =>
      rw [hPc] at hAt
      exact ⟨fun hNot => absurd hIdle hNot, hAt⟩
  | forkFails hIdle hPc =>
      rw [hPc] at hAt
      exact ⟨fun hNot => absurd hIdle hNot, hAt⟩
  | @addjob cmdline bg prevOne pid hIdle hPc =>
      rw [hPc] at hAt
      refine ⟨fun hNot => absurd hIdle hNot, ?_⟩
      cases bg with
      | true => exact NoForeground.addjob_bg hAt pid cmdline
      | false => exact NoForeground.addjob_fg hAt pid cmdline
  | @kill verb pid hIdle hPc =>
      rw [hPc] at hAt
      refine ⟨fun hNot => absurd hIdle hNot, ?_⟩
      cases verb with
      | fg => exact hAt
      | bg => exact hAt
  | deliver hIdle hBlocked hRunning =>
      exact ⟨fun _ => hCalm rfl, hAt⟩
  | report hHandler hMem hReport =>
      refine ⟨fun _ => hForeground.suspended ?_, hAt⟩
      rw [hHandler]
      simp
  | handlerReturn hHandler hNone =>
      exact ⟨fun hNot => absurd rfl hNot, hAt⟩
  | handled hHandler hBody =>
      have hPolls := hForeground.suspended (by
        rw [hHandler]
        simp)
      exact ⟨fun _ => hPolls,
        (FewerForeground.handlerBody hBody).at_polls hPolls hAt⟩
  | fault hHandler hBody =>
      refine ⟨fun _ => hForeground.suspended ?_, hAt⟩
      rw [hHandler]
      simp
  | child hMem hChange =>
      exact ⟨hForeground.suspended, hAt⟩

------------------------------------------------------------
-- Runs
------------------------------------------------------------

/-
  In every run whose handler starts between commands or in the
  loop of waitfg, at most one job is in the foreground, and
  none when eval has returned.
-/
theorem one_foreground_job
    (hRun : Run CalmStep tshStart events s) :
    AtMostOneForeground s.table.jobs ∧
      (s.pc = .prompt → NoForeground s.table.jobs) := by
  have hStart : Foreground tshStart := by
    refine ⟨fun hNot => absurd rfl hNot, ?_⟩
    intro i hFg
    cases hFg
  have hForeground := hRun.invariant Foreground hStart
    (fun _ _ _ hBefore hStep => hBefore.step hStep)
  refine ⟨hForeground.jobs.atMostOne, ?_⟩
  intro hPc
  have hAt := hForeground.jobs
  rwa [hPc] at hAt

theorem maxJobs_pos : 0 < maxJobs := by decide

/- A foreground job, stopped by ctrl-z. -/
def stoppedForeground : Tsh :=
  handled (foreground tshStart 7 "./myspin 9\n") 7
    (.stopped 20 false)
    { (addjob initjobs 7 .fg "./myspin 9\n").2 with
      jobs :=
        setState (addjob initjobs 7 .fg "./myspin 9\n").2.jobs
          ⟨0, maxJobs_pos⟩ .st }

/-
  A foreground command is stopped by ctrl-z while waitfg
  polls, and eval returns to the prompt.
-/
theorem one_foreground_job_stopped :
    (foreground tshStart 7 "./myspin 9\n").table.jobs 0 =
        ⟨7, 1, .fg, "./myspin 9\n"⟩ ∧
      ∃ events s,
        Run CalmStep
            (foreground tshStart 7 "./myspin 9\n") events s ∧
          s.pc = .prompt ∧
          (s.table.jobs 0).state = .st ∧
          NoForeground s.table.jobs := by
  have hLaunch :
      Run CalmStep tshStart (foregroundEvents tshStart 7)
        (foreground tshStart 7 "./myspin 9\n") := by
    apply run_foreground "./myspin 9\n" _ rfl rfl
    · decide
    · decide
    · exact fun _ _ _ hStep hNot =>
        ⟨hStep, fun hDeliver => absurd hDeliver hNot⟩
  have hStop :
      Run CalmStep (foreground tshStart 7 "./myspin 9\n")
        [.child 7, .deliver, .report 7 (.stopped 20),
          .handled 7 (.stopped 20), .handlerReturn]
        stoppedForeground := by
    refine run_handled ?_ rfl rfl (by simp [foreground])
      (.head _) .stop rfl ?_ rfl
    · intro a event b hStep hPc _
      refine ⟨hStep, fun _ => ?_⟩
      rw [hPc]
      rfl
    · intro child hMem
      cases List.mem_singleton.mp hMem
      rfl
  have hReturn :
      Run CalmStep stoppedForeground (List.replicate 19 .flow)
        { stoppedForeground with pc := .prompt } := by
    refine run_statements ?_ rfl rfl
    intro a b hStep
    exact ⟨hStep, fun hDeliver => by cases hDeliver⟩
  have hRun := (hLaunch.append hStop).append hReturn
  exact ⟨rfl, _, _, hStop.append hReturn, rfl, rfl,
    (one_foreground_job hRun).2 rfl⟩

end Shell

end CsappLabs
