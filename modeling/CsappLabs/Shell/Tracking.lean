import CsappLabs.Shell.Launch

/-
  The job table follows the children.

  SIGCHLD is blocked from before fork until after addjob, and
  the handler deletes a job only after waitpid reported its
  child, so the pids in the table are those of the children
  that are forked and not reaped, less the ones that addjob
  found no slot for.

  Key definitions include:
    * `Tracked`
    * `TracksChildren`

  Key theorems include:
    * `Tracked.step`
    * `job_table_tracks_children`
-/

namespace CsappLabs

namespace Shell

open Transition

------------------------------------------------------------
-- The Invariant
------------------------------------------------------------

/-
  Whatever the order of steps: the table holds the children
  that are forked and not yet deleted, less the one on its way
  to addjob and the ones addjob had no room for.
-/
structure Tracked (events : List Event) (s : Tsh) : Prop where
  distinct : DistinctPids s.table.jobs
  nodup : (s.children.map Child.pid).Nodup
  positive :
    ∀ pid, IsChild s.children pid ∨
      s.handler.inHand = some pid → 0 < pid
  forkedChild :
    ∀ pid, s.pc.forked = some pid → IsChild s.children pid
  masked : s.pc.forking = true → s.blocked = true
  suspended : s.handler ≠ .idle → s.pc.forking = false
  inHand :
    ∀ pid status, s.handler = .body pid status →
      (IsChild s.children pid ↔ status.ends = false)
  pids :
    ∀ pid, pid ∈ pids s.table.jobs ↔
      (IsChild s.children pid ∨
          s.handler.inHand = some pid) ∧
        s.pc.forked ≠ some pid ∧
        unlisted events pid = false

theorem tracked_tshStart : Tracked [] tshStart where
  distinct := distinctPids_initjobs
  nodup := List.nodup_nil
  positive := by
    rintro pid (⟨child, hMem, _⟩ | hInHand)
    · cases hMem
    · cases hInHand
  forkedChild := by
    intro pid hForked
    cases hForked
  masked := by
    intro hForking
    cases hForking
  suspended := by
    intro hHandler
    exact absurd rfl hHandler
  inHand := by
    intro pid status hBody
    cases hBody
  pids := by
    intro pid
    rw [tshStart, pids_initjobs]
    constructor
    · intro hMem
      cases hMem
    · rintro ⟨⟨child, hMem, _⟩ | hInHand, _⟩
      · cases hMem
      · cases hInHand

section Steps

variable {events : List Event} {s t : Tsh} {event : Event}

/- The pids that stay when only the control moves. -/
theorem Tracked.move
    (hTracked : Tracked events s)
    (hKeeps : KeepsPids s t)
    (hIdle : s.handler = .idle)
    (hEvent : ∀ added room, event ≠ .addjob added room) :
    Tracked (events ++ [event]) t where
  distinct := by
    apply hTracked.distinct.congr
    · intro i
      rw [Occupied, Occupied, hKeeps.pid]
      exact id
    · exact hKeeps.pid
  nodup := by
    rw [hKeeps.children]
    exact hTracked.nodup
  positive := by
    intro pid
    rw [hKeeps.children, hKeeps.handler]
    exact hTracked.positive pid
  forkedChild := by
    intro pid hForked
    rw [hKeeps.after] at hForked
    cases hForked
  masked := hKeeps.masked
  suspended := by
    intro hHandler
    rw [hKeeps.handler] at hHandler
    exact absurd hIdle hHandler
  inHand := by
    intro pid status hBody
    rw [hKeeps.handler, hIdle] at hBody
    cases hBody
  pids := by
    intro pid
    have hSame : pid ∈ Shell.pids t.table.jobs ↔
        pid ∈ Shell.pids s.table.jobs := by
      simp only [mem_pids_iff, hKeeps.pid]
    rw [hSame, hTracked.pids, hKeeps.children, hKeeps.handler,
      hKeeps.before, hKeeps.after,
      unlisted_other events pid hEvent]

theorem KeepsPids.of_pc
    {pc : Pc}
    (hBefore : s.pc.forked = none)
    (hAfter : pc.forking = false) :
    KeepsPids s { s with pc := pc } where
  pid := fun _ => rfl
  children := rfl
  handler := rfl
  before := hBefore
  after := forked_of_forking_eq_false hAfter
  masked := by simp [hAfter]

variable {cmdline : String} {bg prevOne : Bool} {pid : Int}
variable {status : WaitStatus}

theorem Tracked.fork
    (hTracked : Tracked events s)
    (hIdle : s.handler = .idle)
    (hPc : s.pc = .fork cmdline bg prevOne)
    (hPid : 0 < pid)
    (hNew : ∀ child ∈ s.children, child.pid ≠ pid) :
    Tracked (events ++ [.fork pid])
      { s with
        children := s.children ++ [⟨pid, .running⟩]
        pc := .addjob cmdline bg prevOne pid } where
  distinct := hTracked.distinct
  nodup := by
    rw [List.map_append, List.map_cons, List.map_nil]
    apply List.nodup_append.mpr
    refine ⟨hTracked.nodup, List.nodup_singleton pid, ?_⟩
    intro old hOld new hMem hSame
    rw [List.mem_singleton.mp hMem] at hSame
    rw [hSame] at hOld
    rcases isChild_iff_mem_map.mpr hOld with ⟨c, hMemC, hPidC⟩
    exact hNew c hMemC hPidC
  positive := by
    intro other hOther
    rw [isChild_append] at hOther
    rcases hOther with (hChild | rfl) | hInHand
    · exact hTracked.positive other (Or.inl hChild)
    · exact hPid
    · exact hTracked.positive other (Or.inr hInHand)
  forkedChild := by
    intro other hForked
    cases hForked
    exact isChild_append.mpr (Or.inr rfl)
  masked := by
    intro _
    apply hTracked.masked
    rw [hPc]
    rfl
  suspended := by
    intro hHandler
    exact absurd hIdle hHandler
  inHand := by
    intro other status hBody
    rw [hIdle] at hBody
    cases hBody
  pids := by
    intro other
    have hFresh : ¬IsChild s.children pid := by
      rintro ⟨c, hMem, hPidC⟩
      exact hNew c hMem hPidC
    rw [hTracked.pids, isChild_append, hPc, hIdle,
      unlisted_other events other (by simp)]
    simp only [Pc.forked, Handler.inHand, Option.some_inj,
      reduceCtorEq, or_false, ne_eq, not_false_eq_true,
      true_and]
    constructor
    · rintro ⟨hChild, hListed⟩
      refine ⟨Or.inl hChild, ?_, hListed⟩
      rintro rfl
      exact hFresh hChild
    · rintro ⟨hChild | rfl, hNe, hListed⟩
      · exact ⟨hChild, hListed⟩
      · exact absurd rfl hNe

theorem Tracked.addjob
    (hTracked : Tracked events s)
    (hPc : s.pc = .addjob cmdline bg prevOne pid)
    {state : JobState}
    {pc : Pc}
    (hNext : pc.forking = false) :
    Tracked
      (events ++ [.addjob pid (decide (HasRoom s.table))])
      { s with
        table := (Shell.addjob s.table pid state cmdline).2
        pc := pc } := by
  have hForked : s.pc.forked = some pid := by
    rw [hPc]
    rfl
  have hChild := hTracked.forkedChild pid hForked
  have hPid := hTracked.positive pid (Or.inl hChild)
  have hNew : pid ∉ Shell.pids s.table.jobs := by
    intro hMem
    exact ((hTracked.pids pid).mp hMem).2.1 hForked
  have hMem : ∀ other,
      other ∈ Shell.pids
          (Shell.addjob s.table pid state cmdline).2.jobs ↔
        (other = pid ∧ HasRoom s.table) ∨
          other ∈ Shell.pids s.table.jobs :=
    fun other => mem_pids_addjob hPid
  refine
    { distinct := distinctPids_addjob hTracked.distinct hNew
      nodup := hTracked.nodup
      positive := hTracked.positive
      forkedChild := ?_
      masked := ?_
      suspended := fun _ => hNext
      inHand := hTracked.inHand
      pids := ?_ }
  · intro other hForkedNext
    rw [forked_of_forking_eq_false hNext] at hForkedNext
    cases hForkedNext
  · intro hForking
    rw [hNext] at hForking
    cases hForking
  · intro other
    simp only [hMem, unlisted_addjob,
      forked_of_forking_eq_false hNext, hTracked.pids, hForked]
    by_cases hOther : other = pid
    · subst hOther
      simp [hChild]
    · have hOther' : ¬pid = other := fun h => hOther h.symm
      simp [hOther, hOther']

theorem Tracked.deliver
    (hTracked : Tracked events s)
    (hIdle : s.handler = .idle)
    (hBlocked : s.blocked = false) :
    Tracked (events ++ [.deliver])
      { s with handler := .waitpid } where
  distinct := hTracked.distinct
  nodup := hTracked.nodup
  positive := by
    rintro other (hChild | hInHand)
    · exact hTracked.positive other (Or.inl hChild)
    · cases hInHand
  forkedChild := hTracked.forkedChild
  masked := hTracked.masked
  suspended := by
    intro _
    by_contra hForking
    rw [Bool.not_eq_false] at hForking
    have hMasked := hTracked.masked hForking
    rw [hBlocked] at hMasked
    cases hMasked
  inHand := by
    intro other status hBody
    cases hBody
  pids := by
    intro other
    have hPids := hTracked.pids other
    rw [hIdle] at hPids
    rw [unlisted_other events other (by simp)]
    exact hPids

theorem Tracked.report
    (hTracked : Tracked events s)
    (hHandler : s.handler = .waitpid)
    {child : Child}
    (hMem : child ∈ s.children)
    (hReport : child.life.report = some status) :
    Tracked (events ++ [.report child.pid status])
      { s with
        children := afterWaitpid s.children child.pid
        handler := .body child.pid status } := by
  have hNotForking : s.pc.forking = false := by
    apply hTracked.suspended
    rw [hHandler]
    simp
  have hSame : ∀ other,
      (IsChild (afterWaitpid s.children child.pid) other ∨
          child.pid = other) ↔
        IsChild s.children other := by
    intro other
    by_cases hOther : other = child.pid
    · rw [hOther]
      simp only [or_true, true_iff]
      exact isChild_of_mem hMem
    · rw [isChild_afterWaitpid_of_ne hOther]
      constructor
      · rintro (hChild | rfl)
        · exact hChild
        · exact absurd rfl hOther
      · exact Or.inl
  refine
    { distinct := hTracked.distinct
      nodup :=
        hTracked.nodup.sublist map_pid_afterWaitpid_sublist
      positive := ?_
      forkedChild := ?_
      masked := hTracked.masked
      suspended := fun _ => hNotForking
      inHand := ?_
      pids := ?_ }
  · intro other hOther
    simp only [Handler.inHand, Option.some_inj] at hOther
    exact hTracked.positive other (Or.inl ((hSame other).mp hOther))
  · intro other hForked
    rw [forked_of_forking_eq_false hNotForking] at hForked
    cases hForked
  · intro other status' hBody
    cases hBody
    rw [isChild_afterWaitpid_self hTracked.nodup hMem, ne_eq,
      afterReport_eq_none_iff hReport, Bool.not_eq_true]
  · intro other
    rw [unlisted_other events other (by simp)]
    simp only [Handler.inHand, Option.some_inj]
    rw [hSame, hTracked.pids, hHandler]
    simp [Handler.inHand]

theorem Tracked.handlerReturn
    (hTracked : Tracked events s)
    (hHandler : s.handler = .waitpid) :
    Tracked (events ++ [.handlerReturn])
      { s with handler := .idle } where
  distinct := hTracked.distinct
  nodup := hTracked.nodup
  positive := by
    rintro other (hChild | hInHand)
    · exact hTracked.positive other (Or.inl hChild)
    · cases hInHand
  forkedChild := hTracked.forkedChild
  masked := hTracked.masked
  suspended := by
    intro hIdle
    exact absurd rfl hIdle
  inHand := by
    intro other status hBody
    cases hBody
  pids := by
    intro other
    have hPids := hTracked.pids other
    rw [hHandler] at hPids
    rw [unlisted_other events other (by simp)]
    exact hPids

/-
  After its body the handler has no child in hand. The child
  leaves the table when its status ends it, and a child that
  is stopped is still there.
-/
theorem Tracked.leaveBody
    (hTracked : Tracked events s)
    (hHandler : s.handler = .body pid status)
    (hEvent : ∀ added room, event ≠ .addjob added room)
    {table : JobTable}
    (hDistinct : DistinctPids table.jobs)
    (hMem : ∀ other, other ∈ Shell.pids table.jobs ↔
      other ∈ Shell.pids s.table.jobs ∧
        ¬(status.ends = true ∧ other = pid))
    {fgExit : Bool}
    {handler : Handler}
    (hInHand : handler.inHand = none) :
    Tracked (events ++ [event])
      { s with
        table := table
        fgExit := fgExit
        handler := handler } := by
  have hNotForking : s.pc.forking = false := by
    apply hTracked.suspended
    rw [hHandler]
    simp
  have hGone := hTracked.inHand pid status hHandler
  refine
    { distinct := hDistinct
      nodup := hTracked.nodup
      positive := ?_
      forkedChild := hTracked.forkedChild
      masked := hTracked.masked
      suspended := fun _ => hNotForking
      inHand := ?_
      pids := ?_ }
  · intro other hOther
    simp only [hInHand, reduceCtorEq, or_false] at hOther
    exact hTracked.positive other (Or.inl hOther)
  · intro other status' hBody
    simp only at hBody
    rw [hBody] at hInHand
    cases hInHand
  · intro other
    simp only [hInHand, reduceCtorEq, or_false]
    rw [hMem, hTracked.pids, hHandler,
      unlisted_other events other hEvent]
    simp only [Handler.inHand, Option.some_inj]
    by_cases hOther : other = pid
    · subst hOther
      rw [hGone]
      cases status.ends with
      | true => simp
      | false => simp
    · have hOther' : ¬pid = other := fun h => hOther h.symm
      simp [hOther, hOther']

theorem Tracked.child
    (hTracked : Tracked events s)
    {life : Life} :
    Tracked (events ++ [.child pid])
      { s with
        children := changeChild s.children pid life } where
  distinct := hTracked.distinct
  nodup := by
    rw [map_pid_changeChild]
    exact hTracked.nodup
  positive := by
    intro other
    rw [isChild_changeChild]
    exact hTracked.positive other
  forkedChild := by
    intro other
    rw [isChild_changeChild]
    exact hTracked.forkedChild other
  masked := hTracked.masked
  suspended := hTracked.suspended
  inHand := by
    intro other status hBody
    rw [isChild_changeChild]
    exact hTracked.inHand other status hBody
  pids := by
    intro other
    rw [isChild_changeChild,
      unlisted_other events other (by simp)]
    exact hTracked.pids other

theorem Tracked.step
    (hTracked : Tracked events s)
    (hStep : Step s event t) :
    Tracked (events ++ [event]) t := by
  cases hStep with
  | statement hIdle hNext =>
      exact hTracked.move (.of_statement hNext) hIdle (by simp)
  | eval hIdle hPc hJid =>
      apply hTracked.move _ hIdle (by simp)
      apply KeepsPids.of_pc
      · rw [hPc]
        rfl
      · exact forking_eval _ _ _ _
  | endOfFile hIdle hPc =>
      apply hTracked.move _ hIdle (by simp)
      apply KeepsPids.of_pc
      · rw [hPc]
        rfl
      · rfl
  | fork hIdle hPc hPid hNew =>
      exact hTracked.fork hIdle hPc hPid hNew
  | forkFails hIdle hPc =>
      apply hTracked.move _ hIdle (by simp)
      apply KeepsPids.of_pc
      · rw [hPc]
        rfl
      · rfl
  | @addjob cmdline bg prevOne pid hIdle hPc =>
      apply hTracked.addjob hPc
      cases bg with
      | true => rfl
      | false => rfl
  | @kill verb pid hIdle hPc =>
      apply hTracked.move _ hIdle (by simp)
      apply KeepsPids.of_pc
      · rw [hPc]
        rfl
      · cases verb with
        | fg => rfl
        | bg => rfl
  | deliver hIdle hBlocked hRunning =>
      exact hTracked.deliver hIdle hBlocked
  | report hHandler hMem hReport =>
      exact hTracked.report hHandler hMem hReport
  | handlerReturn hHandler hNone =>
      exact hTracked.handlerReturn hHandler
  | @handled pid status table hHandler hBody =>
      have hPid := hTracked.positive pid (Or.inr (by
        rw [hHandler]
        rfl))
      apply hTracked.leaveBody hHandler (by simp)
      · exact distinctPids_handlerBody hTracked.distinct hBody
      · intro other
        exact mem_pids_handlerBody hTracked.distinct hPid hBody
      · rfl
  | @fault pid status hHandler hBody =>
      have hPid := hTracked.positive pid (Or.inr (by
        rw [hHandler]
        rfl))
      have hNot := not_mem_pids_of_handlerBody_eq_none hPid hBody
      apply hTracked.leaveBody hHandler (by simp)
        hTracked.distinct
      · intro other
        refine ⟨fun hMem => ⟨hMem, ?_⟩, And.left⟩
        rintro ⟨_, rfl⟩
        exact hNot hMem
      · rfl
  | child hMem hChange => exact hTracked.child

/- What each event does to the pids of the table. -/
theorem Tracked.mem_pids_step
    (hTracked : Tracked events s)
    (hStep : Step s event t)
    (pid : Int) :
    pid ∈ Shell.pids t.table.jobs ↔
      match event with
      | .addjob added room =>
          (pid = added ∧ room = true) ∨
            pid ∈ Shell.pids s.table.jobs
      | .handled ended status =>
          pid ∈ Shell.pids s.table.jobs ∧
            ¬(status.ends = true ∧ pid = ended)
      | _ => pid ∈ Shell.pids s.table.jobs := by
  cases hStep with
  | statement hIdle hNext =>
      have hKeeps := KeepsPids.of_statement hNext
      simp only [mem_pids_iff, hKeeps.pid]
  | @addjob cmdline bg prevOne added hIdle hPc =>
      have hChild := hTracked.forkedChild added (by
        rw [hPc]
        rfl)
      have hPid := hTracked.positive added (Or.inl hChild)
      rw [mem_pids_addjob hPid]
      simp only [decide_eq_true_eq]
  | @handled ended status table hHandler hBody =>
      have hPid := hTracked.positive ended (Or.inr (by
        rw [hHandler]
        rfl))
      exact mem_pids_handlerBody hTracked.distinct hPid hBody
  | _ => rfl

end Steps

------------------------------------------------------------
-- Every Run
------------------------------------------------------------

variable {events : List Event} {s t : Tsh} {event : Event}

theorem tracked_of_run
    (hRun : Run Step tshStart events s) :
    Tracked events s :=
  hRun.history Tracked tracked_tshStart
    (fun _ _ _ _ hTracked hStep => hTracked.step hStep)

/-
  The handler finds the job of a reported child exactly when
  the table had room for it, whatever happened in between.
-/
theorem Tracked.mem_pids_inHand_iff
    (hTracked : Tracked events s)
    {pid : Int}
    {status : WaitStatus}
    (hBody : s.handler = .body pid status) :
    pid ∈ Shell.pids s.table.jobs ↔
      unlisted events pid = false := by
  have hNotForking : s.pc.forking = false := by
    apply hTracked.suspended
    rw [hBody]
    simp
  rw [hTracked.pids, hBody,
    forked_of_forking_eq_false hNotForking]
  simp [Handler.inHand]

------------------------------------------------------------
-- Runs with Few Children
------------------------------------------------------------

/- A step after which at most MAXJOBS children are unreaped. -/
def BoundedStep (s : Tsh) (event : Event) (t : Tsh) : Prop :=
  Step s event t ∧ t.children.length ≤ maxJobs

/- An event in which addjob runs for a pid. -/
def Event.addsJob (pid : Int) : Event → Bool
| .addjob added _ => added = pid
| _ => false

/- An event in which deletejob runs for a pid. -/
def Event.deletesJob (pid : Int) : Event → Bool
| .handled ended status => status.ends && ended = pid
| _ => false

/-
  With at most MAXJOBS children addjob always has room. Then a
  pid in the table is one addjob ahead of deletejob, and every
  other pid has had as many of one as of the other.
-/
structure Listed (events : List Event) (s : Tsh) : Prop where
  tracked : Tracked events s
  few : s.children.length ≤ maxJobs
  listed : ∀ pid, unlisted events pid = false
  balance :
    ∀ pid,
      (pid ∈ pids s.table.jobs →
        events.countP (Event.addsJob pid) =
          events.countP (Event.deletesJob pid) + 1) ∧
      (pid ∉ pids s.table.jobs →
        events.countP (Event.addsJob pid) =
          events.countP (Event.deletesJob pid))

theorem listed_tshStart : Listed [] tshStart where
  tracked := tracked_tshStart
  few := Nat.zero_le _
  listed := fun _ => rfl
  balance := by
    intro pid
    refine ⟨?_, fun _ => rfl⟩
    intro hMem
    rw [tshStart, pids_initjobs] at hMem
    cases hMem

/- The child that waits for addjob leaves it a free slot. -/
theorem Tracked.hasRoom
    (hTracked : Tracked events s)
    (hFew : s.children.length ≤ maxJobs)
    (hIdle : s.handler = .idle)
    {pid : Int}
    (hForked : s.pc.forked = some pid) :
    HasRoom s.table := by
  have hChild := hTracked.forkedChild pid hForked
  have hMem : pid ∈ (s.children.map Child.pid).toFinset :=
    List.mem_toFinset.mpr (isChild_iff_mem_map.mp hChild)
  have hKeys : Shell.pids s.table.jobs ⊆
      ((s.children.map Child.pid).toFinset.erase pid :
        Finset Int) := by
    intro other hOther
    rcases (hTracked.pids other).mp hOther with
      ⟨hOrigin, hNe, _⟩
    rw [hIdle] at hOrigin
    rcases hOrigin with hChildOther | hInHand
    · rw [Finset.mem_coe, Finset.mem_erase, List.mem_toFinset]
      refine ⟨?_, isChild_iff_mem_map.mp hChildOther⟩
      rintro rfl
      exact hNe hForked
    · cases hInHand
  apply hTracked.distinct.exists_free hKeys
  have hCard := Finset.card_erase_lt_of_mem hMem
  rw [List.toFinset_card_of_nodup hTracked.nodup,
    List.length_map] at hCard
  omega

theorem Listed.step
    (hListed : Listed events s)
    (hStep : BoundedStep s event t) :
    Listed (events ++ [event]) t := by
  have hTracked := hListed.tracked
  have hInner := hStep.1
  have hRoom : ∀ added room, event = .addjob added room →
      room = true ∧ added ∉ pids s.table.jobs := by
    rintro added room rfl
    cases hInner with
    | addjob hIdle hPc =>
        have hForked : s.pc.forked = some added := by
          rw [hPc]
          rfl
        refine ⟨?_, ?_⟩
        · rw [decide_eq_true_eq]
          exact hTracked.hasRoom hListed.few hIdle hForked
        · intro hMem
          exact ((hTracked.pids added).mp hMem).2.1 hForked
  have hHand : ∀ ended status, event = .handled ended status →
      ended ∈ pids s.table.jobs := by
    rintro ended status rfl
    cases hInner with
    | handled hHandler hBody =>
        rw [hTracked.mem_pids_inHand_iff hHandler]
        exact hListed.listed ended
  refine ⟨hTracked.step hInner, hStep.2, ?_, ?_⟩
  · intro pid
    cases event with
    | addjob added room =>
        rw [unlisted_addjob, (hRoom added room rfl).1,
          hListed.listed]
        simp
    | _ =>
        rw [unlisted_other events pid (by simp)]
        exact hListed.listed pid
  · intro pid
    have hPids := hTracked.mem_pids_step hInner pid
    have hBalance := hListed.balance pid
    rw [List.countP_append, List.countP_append,
      List.countP_singleton, List.countP_singleton]
    cases event with
    | addjob added room =>
        rcases hRoom added room rfl with ⟨rfl, hNew⟩
        simp only [and_true] at hPids
        by_cases hSame : added = pid
        · subst hSame
          simp only [hPids, Event.addsJob, Event.deletesJob]
          simpa using hBalance.2 hNew
        · have hSame' : ¬pid = added := fun h => hSame h.symm
          simpa [hPids, Event.addsJob, Event.deletesJob, hSame,
            hSame'] using hBalance
    | handled ended status =>
        have hMem := hHand ended status rfl
        simp only at hPids
        by_cases hEnds : status.ends = true ∧ pid = ended
        · rcases hEnds with ⟨hEnds, rfl⟩
          have hCount := hBalance.1 hMem
          simp only [hPids, Event.addsJob, Event.deletesJob,
            hEnds]
          simpa using hCount
        · have hDeletes :
              Event.deletesJob pid (.handled ended status) =
                false := by
            rw [Event.deletesJob, Bool.and_eq_false_iff]
            by_contra hBoth
            push Not at hBoth
            apply hEnds
            rcases hBoth with ⟨hStatus, hPid⟩
            refine ⟨by simpa using hStatus, ?_⟩
            simpa [eq_comm] using hPid
          simpa [hPids, hDeletes, hEnds, Event.addsJob]
            using hBalance
    | _ =>
        simpa [hPids, Event.addsJob, Event.deletesJob]
          using hBalance

/-
  The children that are forked and not reaped are the pids of
  the table, and each of them stands in one slot.
-/
structure TracksChildren (s : Tsh) : Prop where
  child :
    ∀ i, Occupied (s.table.jobs i) →
      IsChild s.children (s.table.jobs i).pid
  once :
    ∀ pid, IsChild s.children pid →
      ∃! i, (s.table.jobs i).pid = pid

theorem Tracked.existsUnique
    (hTracked : Tracked events s)
    {pid : Int}
    (hMem : pid ∈ Shell.pids s.table.jobs) :
    ∃! i, (s.table.jobs i).pid = pid := by
  apply hTracked.distinct.existsUnique hMem
  intro i hPid
  rw [Occupied, hPid]
  exact (mem_pids_iff.mp hMem).1

/-
  In a run with at most MAXJOBS children the table tracks the
  children outside the window from fork to addjob and outside
  the body of the handler. deletejob runs only for a pid that
  stands in one slot, and in no history more often than addjob
  has run for it.
-/
theorem job_table_tracks_children
    (hRun : Run BoundedStep tshStart events s) :
    (s.pc.forked = none →
        s.handler.inHand = none →
        TracksChildren s) ∧
      (∀ pid status,
        s.handler = .body pid status →
        status.ends = true →
        ∃! i, (s.table.jobs i).pid = pid) ∧
      ∀ pid,
        events.countP (Event.deletesJob pid) ≤
          events.countP (Event.addsJob pid) := by
  have hListed : Listed events s :=
    hRun.history Listed listed_tshStart
      (fun _ _ _ _ hListed hStep => hListed.step hStep)
  have hTracked := hListed.tracked
  refine ⟨?_, ?_, ?_⟩
  · intro hForked hInHand
    have hPids : ∀ pid, pid ∈ pids s.table.jobs ↔
        IsChild s.children pid := by
      intro pid
      rw [hTracked.pids, hForked, hInHand]
      simp [hListed.listed]
    refine ⟨?_, ?_⟩
    · intro i hOccupied
      exact (hPids _).mp ⟨i, hOccupied, rfl⟩
    · intro pid hChild
      exact hTracked.existsUnique ((hPids pid).mpr hChild)
  · intro pid status hBody _
    apply hTracked.existsUnique
    rw [hTracked.mem_pids_inHand_iff hBody]
    exact hListed.listed pid
  · intro pid
    have hBalance := hListed.balance pid
    by_cases hMem : pid ∈ pids s.table.jobs
    · have hCount := hBalance.1 hMem
      omega
    · have hCount := hBalance.2 hMem
      omega

/- The prompt after two background jobs. -/
def twoBackground : Tsh :=
  background (background tshStart 7 "./myspin 9 &\n") 8
    "./myspin 9 &\n"

/- The events of two background jobs, and the end of one. -/
def reapEvents : List Event :=
  backgroundEvents tshStart 7 ++
      backgroundEvents
        (background tshStart 7 "./myspin 9 &\n") 8 ++
    [.child 7, .deliver, .report 7 (.exited 0),
      .handled 7 (.exited 0), .handlerReturn]

/- Two background jobs, the first of which has been reaped. -/
theorem job_table_tracks_children_two :
    let s :=
      handled twoBackground 7 (.exited 0)
        (deletejob twoBackground.table 7).2
    s.children = [⟨8, .running⟩] ∧
      TracksChildren s ∧
      ∀ pid,
        reapEvents.countP (Event.deletesJob pid) ≤
          reapEvents.countP (Event.addsJob pid) := by
  intro s
  have hFirst :
      Run BoundedStep tshStart (backgroundEvents tshStart 7)
        (background tshStart 7 "./myspin 9 &\n") := by
    apply run_background "./myspin 9 &\n" _ rfl rfl
    · decide
    · decide
    · intro a event b hStep _ hFew
      exact ⟨hStep, hFew.trans (by decide)⟩
  have hSecond :
      Run BoundedStep
        (background tshStart 7 "./myspin 9 &\n")
        (backgroundEvents
          (background tshStart 7 "./myspin 9 &\n") 8)
        twoBackground := by
    apply run_background "./myspin 9 &\n" _ rfl rfl
    · decide
    · rintro ⟨child, hMem, hPid⟩
      cases List.mem_singleton.mp hMem
      cases hPid
    · intro a event b hStep _ hFew
      exact ⟨hStep, hFew.trans (by decide)⟩
  have hReap :
      Run BoundedStep twoBackground
        [.child 7, .deliver, .report 7 (.exited 0),
          .handled 7 (.exited 0), .handlerReturn] s := by
    refine run_handled ?_ rfl rfl (by simp [twoBackground,
      background, tshStart]) (.head _) .exit rfl ?_ rfl
    · intro a event b hStep _ hFew
      exact ⟨hStep, hFew.trans (by decide)⟩
    · intro child hMem
      cases List.mem_singleton.mp hMem
      rfl
  have hRun := (hFirst.append hSecond).append hReap
  rcases job_table_tracks_children hRun with
    ⟨hTracks, _, hBalance⟩
  exact ⟨rfl, hTracks rfl rfl, hBalance⟩

end Shell

end CsappLabs
