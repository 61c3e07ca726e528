import CsappLabs.Shell.Tracking

/-
  ctrl-c and ctrl-z: sigint_handler and sigtstp_handler of the
  tiny shell.

  The two handlers may start between any two statements of the
  shell, of sigchld_handler, and of each other; each blocks
  its own signal only, and sigchld_handler may start on top of
  them.  While one of them runs, what it interrupted waits.
  They read the job table slot by slot and change nothing.

  What SIGTSTP does to the shell itself while its action is
  SIG_DFL is left out: the signal is blocked then.

  Key definitions include:
    * `Frame`, `Terminal`
    * `TerminalStep`
    * `quiet`

  Key theorems include:
    * `Aims.handled`
    * `Guarded.step`
    * `signals_reach_the_foreground`
-/

namespace CsappLabs

namespace Shell

open SlotTable Transition

------------------------------------------------------------
-- The Handlers
------------------------------------------------------------

inductive TtySignal where
| sigint
| sigtstp
deriving DecidableEq, Repr

/-
  Where a handler is: fgpid is about to test a slot, or to
  return the pid of one; or kill is about to be called.
-/
inductive Scan where
| slot (i : Nat)
| found (i : Fin maxJobs)
| kill (pid : Int)
deriving DecidableEq, Repr

/-
  A handler that has not returned. `onMain` tells that
  sigchld_handler was not running when it started.
-/
structure Frame where
  signal : TtySignal
  scan : Scan
  onMain : Bool
deriving DecidableEq, Repr

/- The shell, and the handlers, the one on top first. -/
structure Terminal where
  shell : Tsh
  frames : List Frame

inductive TtyEvent where
| shell (event : Event)
| arrive (signal : TtySignal)
| look (signal : TtySignal)
| sent (signal : TtySignal) (pid : Int)
| dropped (signal : TtySignal)
deriving DecidableEq, Repr

/- The handler on top runs: nothing is on top of it. -/
def Frame.Runs (frame : Frame) (s : Tsh) : Prop :=
  frame.onMain = true → s.handler = .idle

/-
  A step of the shell while no handler of the terminal runs,
  of sigchld_handler on top of one, or of a child; a signal of
  the terminal; or a statement of the handler on top.
-/
inductive TerminalStep :
    Terminal → TtyEvent → Terminal → Prop
| shell {s t : Tsh} {event : Event} :
    Step s event t →
    TerminalStep ⟨s, []⟩ (.shell event) ⟨t, []⟩
| child {s t : Tsh} {frames : List Frame} {pid : Int} :
    Step s (.child pid) t →
    TerminalStep ⟨s, frames⟩ (.shell (.child pid))
      ⟨t, frames⟩
| deliver {s t : Tsh} {frame : Frame} {frames : List Frame} :
    frame.onMain = true →
    Step s .deliver t →
    TerminalStep ⟨s, frame :: frames⟩ (.shell .deliver)
      ⟨t, frame :: frames⟩
| handler {s t : Tsh} {frame : Frame} {frames : List Frame}
    {event : Event} :
    frame.onMain = true →
    s.handler ≠ .idle →
    Step s event t →
    TerminalStep ⟨s, frame :: frames⟩ (.shell event)
      ⟨t, frame :: frames⟩
| arrive {s : Tsh} {frames : List Frame}
    {signal : TtySignal} :
    (∀ frame ∈ frames, frame.signal ≠ signal) →
    s.pc ≠ .exited →
    s.handler ≠ .faulted →
    TerminalStep ⟨s, frames⟩ (.arrive signal)
      ⟨s, ⟨signal, .slot 0, s.handler = .idle⟩ :: frames⟩
| skip {s : Tsh} {frames : List Frame} {frame : Frame}
    {i : Fin maxJobs} :
    frame.Runs s →
    frame.scan = .slot i →
    (s.table.jobs i).state ≠ .fg →
    TerminalStep ⟨s, frame :: frames⟩ (.look frame.signal)
      ⟨s, { frame with scan := .slot (i + 1) } :: frames⟩
| find {s : Tsh} {frames : List Frame} {frame : Frame}
    {i : Fin maxJobs} :
    frame.Runs s →
    frame.scan = .slot i →
    (s.table.jobs i).state = .fg →
    TerminalStep ⟨s, frame :: frames⟩ (.look frame.signal)
      ⟨s, { frame with scan := .found i } :: frames⟩
| aim {s : Tsh} {frames : List Frame} {frame : Frame}
    {i : Fin maxJobs} :
    frame.Runs s →
    frame.scan = .found i →
    0 < (s.table.jobs i).pid →
    TerminalStep ⟨s, frame :: frames⟩ (.look frame.signal)
      ⟨s, { frame with
        scan := .kill (s.table.jobs i).pid } :: frames⟩
-- fgpid returned 0, from no slot or from a slot just cleared
| none {s : Tsh} {frames : List Frame} {frame : Frame} :
    frame.Runs s →
    frame.scan = .slot maxJobs →
    TerminalStep ⟨s, frame :: frames⟩
      (.dropped frame.signal) ⟨s, frames⟩
| cleared {s : Tsh} {frames : List Frame} {frame : Frame}
    {i : Fin maxJobs} :
    frame.Runs s →
    frame.scan = .found i →
    ¬0 < (s.table.jobs i).pid →
    TerminalStep ⟨s, frame :: frames⟩
      (.dropped frame.signal) ⟨s, frames⟩
| kill {s : Tsh} {frames : List Frame} {frame : Frame}
    {pid : Int} :
    frame.Runs s →
    frame.scan = .kill pid →
    TerminalStep ⟨s, frame :: frames⟩
      (.sent frame.signal pid) ⟨s, frames⟩

------------------------------------------------------------
-- Histories
------------------------------------------------------------

/- The steps of the shell and its children. -/
def shellEvents (events : List TtyEvent) : List Event :=
  events.filterMap fun event =>
    match event with
    | .shell event => some event
    | _ => none

/-
  sigchld_handler has changed no job since the last signal of
  this kind arrived.
-/
def quiet
    (signal : TtySignal)
    (events : List TtyEvent) :
    Bool :=
  events.foldl
    (fun calm event =>
      match event with
      | .arrive arrived => arrived = signal || calm
      | .shell (.handled _ _) => false
      | _ => calm)
    true

variable {events : List TtyEvent} {event : Event}
variable {signal : TtySignal}

theorem shellEvents_shell :
    shellEvents (events ++ [.shell event]) =
      shellEvents events ++ [event] := by
  simp [shellEvents]

theorem shellEvents_other
    {other : TtyEvent}
    (hOther : ∀ event, other ≠ .shell event) :
    shellEvents (events ++ [other]) = shellEvents events := by
  cases other with
  | shell event => exact absurd rfl (hOther event)
  | _ => simp [shellEvents]

theorem quiet_arrive
    {arrived : TtySignal}
    (hOther : signal ≠ arrived) :
    quiet signal (events ++ [.arrive arrived]) =
      quiet signal events := by
  simp [quiet, List.foldl_append, hOther.symm]

theorem not_quiet_handled
    {pid : Int}
    {status : WaitStatus} :
    quiet signal
        (events ++ [.shell (.handled pid status)]) =
      false := by
  simp [quiet, List.foldl_append]

theorem quiet_shell
    (hEvent : ∀ pid status, event ≠ .handled pid status) :
    quiet signal (events ++ [.shell event]) =
      quiet signal events := by
  cases event with
  | handled pid status => exact absurd rfl (hEvent pid status)
  | _ => simp [quiet, List.foldl_append]

theorem quiet_look
    {looked : TtySignal} :
    quiet signal (events ++ [.look looked]) =
      quiet signal events := by
  simp [quiet, List.foldl_append]

------------------------------------------------------------
-- What a Handler Has Found
------------------------------------------------------------

/- A job that runs in the foreground, or did until it stopped. -/
def FgOrStopped (job : Job) : Prop :=
  job.state = .fg ∨ job.state = .st

/- The pid was forked by the shell. -/
def Forked (events : List TtyEvent) (pid : Int) : Prop :=
  Event.fork pid ∈ shellEvents events

/-
  What the handler knows of the table at each of its points,
  and what it knows besides as long as it is quiet.
-/
def Aims
    (events : List TtyEvent)
    (table : JobTable)
    (frame : Frame) :
    Prop :=
  match frame.scan with
  | .slot i =>
      quiet frame.signal events = true →
        ∀ j : Fin maxJobs, j < i →
          (table.jobs j).state ≠ .fg
  | .found i =>
      (Occupied (table.jobs i) →
          FgOrStopped (table.jobs i)) ∧
        (quiet frame.signal events = true →
          lookup Job.state table.jobs .fg = some i)
  | .kill pid =>
      0 < pid ∧ Forked events pid ∧
        (∀ i, (table.jobs i).pid = pid →
          FgOrStopped (table.jobs i)) ∧
          (quiet frame.signal events = true →
            pid = fgpid table.jobs ∧ pid ∈ pids table.jobs)

variable {s t : Tsh} {table table' : JobTable}
variable {frame : Frame} {pid : Int} {status : WaitStatus}

/- What the handler body leaves in a slot. -/
theorem handlerBody_slot
    (hBody : handlerBody table pid status = some table')
    (i : Fin maxJobs) :
    table'.jobs i = table.jobs i ∨
      table'.jobs i = clearjob ∨
        table'.jobs i = { table.jobs i with state := .st } := by
  have hDelete :
      (deletejob table pid).2.jobs i = table.jobs i ∨
        (deletejob table pid).2.jobs i = clearjob := by
    rcases deletejob_cases table pid with
      ⟨hSame, _⟩ | ⟨j, _, _, hUpdate⟩
    · rw [hSame]
      exact Or.inl rfl
    · rw [hUpdate]
      by_cases hSlot : i = j
      · right
        rw [hSlot]
        exact Function.update_self _ _ _
      · left
        exact Function.update_of_ne hSlot _ _
  cases status with
  | exited code =>
      cases hBody
      exact hDelete.imp_right Or.inl
  | stopped signal =>
      rw [handlerBody] at hBody
      cases hFound : getjobpid table.jobs pid with
      | none =>
          rw [hFound] at hBody
          cases hBody
      | some j =>
          rw [hFound] at hBody
          cases hBody
          by_cases hSlot : i = j
          · right
            right
            rw [hSlot]
            exact Function.update_self _ _ _
          · left
            exact Function.update_of_ne hSlot _ _
  | signaled signal =>
      rw [handlerBody] at hBody
      cases hFound : getjobpid table.jobs pid with
      | none =>
          rw [hFound] at hBody
          cases hBody
      | some j =>
          rw [hFound] at hBody
          cases hBody
          exact hDelete.imp_right Or.inl
  | continued =>
      cases hBody
      exact Or.inl rfl

/- No job comes to the foreground through the handler body. -/
theorem fgOrStopped_handlerBody
    (hBody : handlerBody table pid status = some table')
    {i : Fin maxJobs}
    (hOccupied : Occupied (table'.jobs i)) :
    (table'.jobs i).pid = (table.jobs i).pid ∧
      (FgOrStopped (table.jobs i) →
        FgOrStopped (table'.jobs i)) := by
  rcases handlerBody_slot hBody i with hSame | hClear | hStop
  · rw [hSame]
    exact ⟨rfl, id⟩
  · rw [hClear] at hOccupied
    exact absurd hOccupied not_occupied_clearjob
  · rw [hStop]
    exact ⟨rfl, fun _ => Or.inr rfl⟩

theorem Forked.append
    (hForked : Forked events pid)
    (other : TtyEvent) :
    Forked (events ++ [other]) pid := by
  unfold Forked shellEvents at hForked ⊢
  rw [List.filterMap_append]
  exact List.mem_append_left _ hForked

/- A step that leaves the table alone. -/
theorem Aims.same
    {other : TtyEvent}
    (hAims : Aims events table frame)
    (hQuiet :
      quiet frame.signal (events ++ [other]) =
        quiet frame.signal events) :
    Aims (events ++ [other]) table frame := by
  unfold Aims at hAims ⊢
  rw [hQuiet]
  cases hScan : frame.scan with
  | slot i =>
      rw [hScan] at hAims
      exact hAims
  | found i =>
      rw [hScan] at hAims
      exact hAims
  | kill target =>
      rw [hScan] at hAims
      rcases hAims with ⟨hPid, hForked, hJobs, hCalm⟩
      exact ⟨hPid, hForked.append other, hJobs, hCalm⟩

/- The body of sigchld_handler. -/
theorem Aims.handled
    (hAims : Aims events table frame)
    (hBody : handlerBody table pid status = some table') :
    Aims (events ++ [.shell (.handled pid status)]) table'
      frame := by
  unfold Aims at hAims ⊢
  rw [not_quiet_handled]
  cases hScan : frame.scan with
  | slot i => exact fun hQuiet => Bool.noConfusion hQuiet
  | found i =>
      rw [hScan] at hAims
      refine ⟨?_, fun hQuiet => Bool.noConfusion hQuiet⟩
      intro hOccupied
      rcases fgOrStopped_handlerBody hBody hOccupied with
        ⟨hPid, hForeground⟩
      apply hForeground
      apply hAims.1
      unfold Occupied at hOccupied ⊢
      rw [← hPid]
      exact hOccupied
  | kill target =>
      rw [hScan] at hAims
      rcases hAims with ⟨hTarget, hForked, hJobs, _⟩
      refine
        ⟨hTarget, hForked.append _, ?_,
          fun hQuiet => Bool.noConfusion hQuiet⟩
      intro i hI
      have hOccupied : Occupied (table'.jobs i) := by
        unfold Occupied
        omega
      rcases fgOrStopped_handlerBody hBody hOccupied with
        ⟨hPid, hForeground⟩
      exact hForeground (hJobs i (hPid ▸ hI))

------------------------------------------------------------
-- The Invariant
------------------------------------------------------------

/-
  The table tracks the children, all of them were forked, and
  the handlers aim at jobs of the foreground.
-/
structure Guarded
    (events : List TtyEvent)
    (s : Terminal) :
    Prop where
  tracked : Tracked (shellEvents events) s.shell
  forked :
    ∀ pid,
      IsChild s.shell.children pid ∨
          s.shell.handler.inHand = some pid →
        Forked events pid
  aims :
    ∀ frame ∈ s.frames, Aims events s.shell.table frame

/- A child after a step was one before it, or is forked. -/
theorem child_of_step
    (hStep : Step s event t)
    {pid : Int}
    (hChild :
      IsChild t.children pid ∨ t.handler.inHand = some pid) :
    (IsChild s.children pid ∨
        s.handler.inHand = some pid) ∨
      event = .fork pid := by
  cases hStep with
  | statement hIdle hNext =>
      have hKeeps := KeepsPids.of_statement hNext
      rw [hKeeps.children, hKeeps.handler] at hChild
      exact Or.inl hChild
  | fork hIdle hPc hPid hNew =>
      rcases hChild with hChild | hInHand
      · rcases isChild_append.mp hChild with hOld | rfl
        · exact Or.inl (Or.inl hOld)
        · exact Or.inr rfl
      · exact Or.inl (Or.inr hInHand)
  | @report child status hHandler hMem hReport =>
      left
      left
      rcases hChild with hChild | hInHand
      · by_cases hSame : pid = child.pid
        · rw [hSame]
          exact isChild_of_mem hMem
        · exact (isChild_afterWaitpid_of_ne hSame).mp hChild
      · cases hInHand
        exact isChild_of_mem hMem
  | child hMem hChange =>
      rw [isChild_changeChild] at hChild
      exact Or.inl hChild
  | deliver hIdle _ _ =>
      rcases hChild with hChild | hInHand
      · exact Or.inl (Or.inl hChild)
      · cases hInHand
  | handlerReturn _ _ =>
      rcases hChild with hChild | hInHand
      · exact Or.inl (Or.inl hChild)
      · cases hInHand
  | handled _ _ =>
      rcases hChild with hChild | hInHand
      · exact Or.inl (Or.inl hChild)
      · cases hInHand
  | fault _ _ =>
      rcases hChild with hChild | hInHand
      · exact Or.inl (Or.inl hChild)
      · cases hInHand
  | _ => exact Or.inl hChild

/- Only the body of sigchld_handler changes the table. -/
theorem Aims.step
    (hStep : Step s event t)
    (hRuns :
      s.handler ≠ .idle ∨ event = .deliver ∨
        ∃ pid, event = .child pid)
    (hAims : Aims events s.table frame) :
    Aims (events ++ [.shell event]) t.table frame := by
  cases hStep with
  | handled hHandler hBody => exact hAims.handled hBody
  | deliver => exact hAims.same (quiet_shell (by simp))
  | report => exact hAims.same (quiet_shell (by simp))
  | handlerReturn =>
      exact hAims.same (quiet_shell (by simp))
  | fault => exact hAims.same (quiet_shell (by simp))
  | child => exact hAims.same (quiet_shell (by simp))
  | statement hIdle => simp [hIdle] at hRuns
  | eval hIdle => simp [hIdle] at hRuns
  | endOfFile hIdle => simp [hIdle] at hRuns
  | fork hIdle => simp [hIdle] at hRuns
  | forkFails hIdle => simp [hIdle] at hRuns
  | addjob hIdle => simp [hIdle] at hRuns
  | kill hIdle => simp [hIdle] at hRuns

/- A step of the shell, whatever it interrupts. -/
theorem Guarded.shell
    {frames : List Frame}
    (hGuarded : Guarded events ⟨s, frames⟩)
    (hStep : Step s event t)
    (hRuns :
      frames = [] ∨ s.handler ≠ .idle ∨ event = .deliver ∨
        ∃ pid, event = .child pid) :
    Guarded (events ++ [.shell event]) ⟨t, frames⟩ where
  tracked := by
    rw [shellEvents_shell]
    exact hGuarded.tracked.step hStep
  forked := by
    intro pid hChild
    rcases child_of_step hStep hChild with hOld | rfl
    · exact (hGuarded.forked pid hOld).append _
    · unfold Forked
      rw [shellEvents_shell]
      simp
  aims := by
    intro frame hFrame
    rcases hRuns with hNone | hRuns
    · rw [hNone] at hFrame
      cases hFrame
    · exact (hGuarded.aims frame hFrame).step hStep hRuns

/- A step of a terminal handler leaves the shell alone. -/
theorem Guarded.look
    {frames frames' : List Frame}
    {other : TtyEvent}
    (hGuarded : Guarded events ⟨s, frames⟩)
    (hOther : ∀ event, other ≠ .shell event)
    (hAims :
      ∀ frame ∈ frames',
        Aims (events ++ [other]) s.table frame) :
    Guarded (events ++ [other]) ⟨s, frames'⟩ where
  tracked := by
    rw [shellEvents_other hOther]
    exact hGuarded.tracked
  forked := fun pid hChild =>
    (hGuarded.forked pid hChild).append other
  aims := hAims

/- The handler on top gets one statement further. -/
theorem Guarded.advance
    {frames : List Frame}
    {scan : Scan}
    (hGuarded : Guarded events ⟨s, frame :: frames⟩)
    (hAims :
      Aims (events ++ [.look frame.signal]) s.table
        { frame with scan := scan }) :
    Guarded (events ++ [.look frame.signal])
      ⟨s, { frame with scan := scan } :: frames⟩ := by
  refine hGuarded.look (by simp) ?_
  intro other hOther
  rcases List.mem_cons.mp hOther with rfl | hOther
  · exact hAims
  · exact
      (hGuarded.aims other
        (List.mem_cons_of_mem _ hOther)).same quiet_look

/- The handler on top returns. -/
theorem Guarded.leave
    {frames : List Frame}
    {other : TtyEvent}
    (hGuarded : Guarded events ⟨s, frame :: frames⟩)
    (hOther : ∀ event, other ≠ .shell event)
    (hQuiet :
      ∀ signal,
        quiet signal (events ++ [other]) =
          quiet signal events) :
    Guarded (events ++ [other]) ⟨s, frames⟩ :=
  hGuarded.look hOther fun rest hRest =>
    (hGuarded.aims rest (List.mem_cons_of_mem _ hRest)).same
      (hQuiet rest.signal)

/- The slots before one that is found, and it, for fgpid. -/
theorem lookup_of_slots
    {jobs : Fin maxJobs → Job}
    {i : Fin maxJobs}
    (hFound : (jobs i).state = .fg)
    (hBefore : ∀ j, j < i → (jobs j).state ≠ .fg) :
    lookup Job.state jobs .fg = some i := by
  apply find_eq_some_iff.mpr
  constructor
  · exact decide_eq_true hFound
  · intro j hJ
    exact decide_eq_false (hBefore j hJ)

/- A pid that fgpid returns is that of a child. -/
theorem Guarded.aim
    {frames : List Frame}
    {i : Fin maxJobs}
    (hGuarded : Guarded events ⟨s, frame :: frames⟩)
    (hScan : frame.scan = .found i)
    (hPid : 0 < (s.table.jobs i).pid) :
    Aims (events ++ [.look frame.signal]) s.table
      { frame with scan := .kill (s.table.jobs i).pid } := by
  have hAims := hGuarded.aims frame List.mem_cons_self
  unfold Aims at hAims
  rw [hScan] at hAims
  rcases hAims with ⟨hForeground, hQuiet⟩
  have hOccupied : Occupied (s.table.jobs i) := by
    unfold Occupied
    omega
  have hMem : (s.table.jobs i).pid ∈ pids s.table.jobs :=
    ⟨i, hOccupied, rfl⟩
  have hChild :=
    ((hGuarded.tracked.pids _).mp hMem).1
  have hForked := hGuarded.forked _ hChild
  unfold Aims
  simp only
  refine ⟨hPid, hForked.append _, ?_, ?_⟩
  · intro j hJ
    have hOccupiedJ : Occupied (s.table.jobs j) := by
      unfold Occupied at hOccupied ⊢
      rw [hJ]
      exact hOccupied
    have hSame :=
      hGuarded.tracked.distinct j i hOccupiedJ hOccupied hJ
    rw [hSame]
    exact hForeground hOccupied
  · intro hCalm
    rw [quiet_look] at hCalm
    exact ⟨(fgpid_of_lookup_some (hQuiet hCalm)).symm, hMem⟩

theorem Guarded.step
    {u v : Terminal}
    {event : TtyEvent}
    (hGuarded : Guarded events u)
    (hStep : TerminalStep u event v) :
    Guarded (events ++ [event]) v := by
  cases hStep with
  | shell hStep => exact hGuarded.shell hStep (.inl rfl)
  | child hStep =>
      exact hGuarded.shell hStep
        (.inr (.inr (.inr ⟨_, rfl⟩)))
  | deliver _ hStep =>
      exact hGuarded.shell hStep (.inr (.inr (.inl rfl)))
  | handler _ hHandler hStep =>
      exact hGuarded.shell hStep (.inr (.inl hHandler))
  | @arrive s frames signal hFree _ _ =>
      refine hGuarded.look (by simp) ?_
      intro frame hFrame
      rcases List.mem_cons.mp hFrame with rfl | hFrame
      · intro _ j hJ
        exact absurd hJ (Nat.not_lt_zero j)
      · exact
          (hGuarded.aims frame hFrame).same
            (quiet_arrive (hFree frame hFrame))
  | @skip s frames frame i hRuns hScan hState =>
      refine hGuarded.advance ?_
      have hAims := hGuarded.aims frame List.mem_cons_self
      unfold Aims at hAims ⊢
      rw [hScan] at hAims
      intro hCalm j hJ
      rw [quiet_look] at hCalm
      rcases Nat.lt_or_eq_of_le (Nat.le_of_lt_succ hJ) with
        hLess | hEq
      · exact hAims hCalm j hLess
      · rw [Fin.ext hEq]
        exact hState
  | @find s frames frame i hRuns hScan hState =>
      refine hGuarded.advance ?_
      have hAims := hGuarded.aims frame List.mem_cons_self
      unfold Aims at hAims ⊢
      rw [hScan] at hAims
      refine ⟨fun _ => Or.inl hState, ?_⟩
      intro hCalm
      rw [quiet_look] at hCalm
      exact lookup_of_slots hState (hAims hCalm)
  | aim hRuns hScan hPid =>
      exact hGuarded.advance (hGuarded.aim hScan hPid)
  | none => exact hGuarded.leave (by simp) (by simp [quiet])
  | cleared =>
      exact hGuarded.leave (by simp) (by simp [quiet])
  | kill => exact hGuarded.leave (by simp) (by simp [quiet])

end Shell

end CsappLabs
