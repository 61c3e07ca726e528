import CsappLabs.Shell.Machine

/-
  What the parts of a step do to the children and to the pids
  of the job table.

  Key definitions include:
    * `IsChild`
    * `unlisted`
    * `KeepsPids`

  Key theorems include:
    * `isChild_afterWaitpid_self`
    * `mem_pids_handlerBody`
    * `KeepsPids.of_statement`
-/

namespace CsappLabs

namespace Shell

------------------------------------------------------------
-- Control Points
------------------------------------------------------------

/- eval is between its sigprocmask and the end of addjob. -/
def Pc.forking : Pc → Bool
| .fork .. => true
| .addjob .. => true
| _ => false

/- The child that is forked and not yet given to addjob. -/
def Pc.forked : Pc → Option Int
| .addjob _ _ _ pid => some pid
| _ => none

/- The child whose report the handler is treating. -/
def Handler.inHand : Handler → Option Int
| .body pid _ => some pid
| _ => none

/- The status of a child that is gone. -/
def WaitStatus.ends : WaitStatus → Bool
| .exited _ => true
| .signaled _ => true
| _ => false

/- Forked and not reaped. -/
def IsChild (children : List Child) (pid : Int) : Prop :=
  ∃ child ∈ children, child.pid = pid

instance (children : List Child) (pid : Int) :
    Decidable (IsChild children pid) :=
  inferInstanceAs
    (Decidable (∃ child ∈ children, child.pid = pid))

/-
  The pid was last given to addjob when every slot of the
  table was occupied.
-/
def unlisted (events : List Event) (pid : Int) : Bool :=
  events.foldl
    (fun without event =>
      match event with
      | .addjob added room =>
          if added = pid then !room else without
      | _ => without)
    false

theorem unlisted_addjob
    (events : List Event)
    (pid added : Int)
    (room : Bool) :
    unlisted (events ++ [.addjob added room]) pid =
      if added = pid then !room else unlisted events pid := by
  simp only [unlisted, List.foldl_append, List.foldl_cons,
    List.foldl_nil]

theorem unlisted_other
    (events : List Event)
    (pid : Int)
    {event : Event}
    (hEvent : ∀ added room, event ≠ .addjob added room) :
    unlisted (events ++ [event]) pid =
      unlisted events pid := by
  cases event with
  | addjob added room => exact absurd rfl (hEvent added room)
  | _ =>
      simp only [unlisted, List.foldl_append, List.foldl_cons,
        List.foldl_nil]

------------------------------------------------------------
-- Children
------------------------------------------------------------

section Children

variable {children : List Child} {pid other : Int}
variable {child : Child} {life : Life}

theorem isChild_of_mem (hMem : child ∈ children) :
    IsChild children child.pid :=
  ⟨child, hMem, rfl⟩

theorem isChild_append :
    IsChild (children ++ [⟨pid, life⟩]) other ↔
      IsChild children other ∨ other = pid := by
  simp only [IsChild, List.mem_append, List.mem_singleton]
  constructor
  · rintro ⟨c, hMem | rfl, rfl⟩
    · exact Or.inl ⟨c, hMem, rfl⟩
    · exact Or.inr rfl
  · rintro (⟨c, hMem, rfl⟩ | rfl)
    · exact ⟨c, Or.inl hMem, rfl⟩
    · exact ⟨⟨other, life⟩, Or.inr rfl, rfl⟩

theorem map_pid_changeChild :
    (changeChild children pid life).map Child.pid =
      children.map Child.pid := by
  rw [changeChild, List.map_map]
  apply List.map_congr_left
  intro c _
  by_cases hPid : c.pid = pid
  · simp [hPid]
  · simp [hPid]

theorem isChild_iff_mem_map :
    IsChild children pid ↔ pid ∈ children.map Child.pid := by
  rw [IsChild, List.mem_map]

theorem isChild_changeChild :
    IsChild (changeChild children pid life) other ↔
      IsChild children other := by
  rw [isChild_iff_mem_map, isChild_iff_mem_map,
    map_pid_changeChild]

theorem isChild_afterWaitpid_of_ne (hNe : other ≠ pid) :
    IsChild (afterWaitpid children pid) other ↔
      IsChild children other := by
  simp only [IsChild, afterWaitpid, List.mem_filterMap]
  constructor
  · rintro ⟨c, ⟨d, hMem, hAfter⟩, rfl⟩
    by_cases hPid : d.pid = pid
    · rw [if_pos hPid, Option.map_eq_some_iff] at hAfter
      rcases hAfter with ⟨_, _, rfl⟩
      exact absurd rfl hNe
    · rw [if_neg hPid, Option.some_inj] at hAfter
      exact ⟨d, hMem, by rw [hAfter]⟩
  · rintro ⟨c, hMem, rfl⟩
    exact ⟨c, ⟨c, hMem, if_neg hNe⟩, rfl⟩

theorem isChild_afterWaitpid_self
    (hNodup : (children.map Child.pid).Nodup)
    (hMem : child ∈ children) :
    IsChild (afterWaitpid children child.pid) child.pid ↔
      child.life.afterReport ≠ none := by
  simp only [IsChild, afterWaitpid, List.mem_filterMap]
  constructor
  · rintro ⟨c, ⟨d, hMemD, hAfter⟩, hPid⟩ hNone
    have hPidD : d.pid = child.pid := by
      by_cases hSame : d.pid = child.pid
      · exact hSame
      · rw [if_neg hSame, Option.some_inj] at hAfter
        rw [hAfter, hPid]
    have hSame : d = child :=
      List.inj_on_of_nodup_map hNodup hMemD hMem hPidD
    rw [if_pos hPidD, hSame, hNone] at hAfter
    cases hAfter
  · intro hSome
    rcases Option.ne_none_iff_exists'.mp hSome with
      ⟨life, hLife⟩
    refine ⟨⟨child.pid, life⟩, ⟨child, hMem, ?_⟩, rfl⟩
    rw [if_pos rfl, hLife]
    rfl

theorem map_pid_afterWaitpid_sublist :
    ((afterWaitpid children pid).map Child.pid).Sublist
      (children.map Child.pid) := by
  induction children with
  | nil => exact List.Sublist.refl _
  | cons c children ih =>
      rw [afterWaitpid, List.filterMap_cons]
      by_cases hPid : c.pid = pid
      · rw [if_pos hPid]
        cases hAfter : c.life.afterReport with
        | none => exact ih.cons _
        | some life =>
            simp only [Option.map_some, List.map_cons]
            rw [hPid]
            exact ih.cons_cons _
      · rw [if_neg hPid]
        exact ih.cons_cons _

/- A reported child is gone exactly when its status ends it. -/
theorem afterReport_eq_none_iff
    {status : WaitStatus}
    (hReport : life.report = some status) :
    life.afterReport = none ↔ status.ends = true := by
  cases life with
  | running => cases hReport
  | stopped signal reported =>
      cases reported with
      | true => cases hReport
      | false =>
          cases hReport
          simp [Life.afterReport, WaitStatus.ends]
  | exited code =>
      cases hReport
      simp [Life.afterReport, WaitStatus.ends]
  | killed signal =>
      cases hReport
      simp [Life.afterReport, WaitStatus.ends]

end Children

------------------------------------------------------------
-- addjob, the Handler and the Table
------------------------------------------------------------

/- addjob puts its pid into the table if there is room. -/
theorem mem_pids_addjob
    {table : JobTable}
    {pid other : Int}
    {state : JobState}
    {cmdline : String}
    (hPid : 0 < pid) :
    other ∈ pids (addjob table pid state cmdline).2.jobs ↔
      (other = pid ∧ HasRoom table) ∨
        other ∈ pids table.jobs := by
  by_cases hRoom : HasRoom table
  · rw [pids_addjob hPid hRoom, Set.mem_insert_iff]
    simp only [hRoom, and_true]
  · rcases addjob_cases table pid state cmdline with
      ⟨hAdd, _⟩ | ⟨i, _, hFree, _⟩
    · rw [hAdd]
      simp only [hRoom, and_false, false_or]
    · exact absurd ⟨i, hFree⟩ hRoom

section HandlerBody

variable {table table' : JobTable} {pid other : Int}
variable {status : WaitStatus}

/- The handler body takes a pid out if its child is gone. -/
theorem mem_pids_handlerBody
    (hDistinct : DistinctPids table.jobs)
    (hPid : 0 < pid)
    (hBody : handlerBody table pid status = some table') :
    other ∈ pids table'.jobs ↔
      other ∈ pids table.jobs ∧
        ¬(status.ends = true ∧ other = pid) := by
  have hDelete : other ∈ pids (deletejob table pid).2.jobs ↔
      other ∈ pids table.jobs ∧ ¬(True ∧ other = pid) := by
    rw [pids_deletejob hDistinct hPid]
    simp
  cases status with
  | exited code =>
      cases hBody
      simpa [WaitStatus.ends] using hDelete
  | stopped signal =>
      rw [handlerBody] at hBody
      cases hLookup : getjobpid table.jobs pid with
      | none =>
          rw [hLookup] at hBody
          cases hBody
      | some slot =>
          rw [hLookup] at hBody
          cases hBody
          simp [WaitStatus.ends, pids_setState]
  | signaled signal =>
      rw [handlerBody] at hBody
      cases hLookup : getjobpid table.jobs pid with
      | none =>
          rw [hLookup] at hBody
          cases hBody
      | some slot =>
          rw [hLookup] at hBody
          cases hBody
          simpa [WaitStatus.ends] using hDelete
  | continued =>
      cases hBody
      simp [WaitStatus.ends]

theorem distinctPids_handlerBody
    (hDistinct : DistinctPids table.jobs)
    (hBody : handlerBody table pid status = some table') :
    DistinctPids table'.jobs := by
  cases status with
  | exited code =>
      cases hBody
      exact distinctPids_deletejob hDistinct
  | stopped signal =>
      rw [handlerBody] at hBody
      cases hLookup : getjobpid table.jobs pid with
      | none =>
          rw [hLookup] at hBody
          cases hBody
      | some slot =>
          rw [hLookup] at hBody
          cases hBody
          exact distinctPids_setState hDistinct
  | signaled signal =>
      rw [handlerBody] at hBody
      cases hLookup : getjobpid table.jobs pid with
      | none =>
          rw [hLookup] at hBody
          cases hBody
      | some slot =>
          rw [hLookup] at hBody
          cases hBody
          exact distinctPids_deletejob hDistinct
  | continued =>
      cases hBody
      exact hDistinct

/- The handler body faults only on a pid without a job. -/
theorem not_mem_pids_of_handlerBody_eq_none
    (hPid : 0 < pid)
    (hBody : handlerBody table pid status = none) :
    pid ∉ pids table.jobs := by
  cases status with
  | exited code => cases hBody
  | stopped signal =>
      rw [handlerBody] at hBody
      cases hLookup : getjobpid table.jobs pid with
      | none => exact (getjobpid_eq_none_iff hPid).mp hLookup
      | some slot =>
          rw [hLookup] at hBody
          cases hBody
  | signaled signal =>
      rw [handlerBody] at hBody
      cases hLookup : getjobpid table.jobs pid with
      | none => exact (getjobpid_eq_none_iff hPid).mp hLookup
      | some slot =>
          rw [hLookup] at hBody
          cases hBody
  | continued => cases hBody

end HandlerBody

------------------------------------------------------------
-- Statements of the Main Flow
------------------------------------------------------------

/-
  A statement moves no pid and touches no child. It leads to
  fork only with SIGCHLD blocked, and never up to addjob.
-/
structure KeepsPids (s t : Tsh) : Prop where
  pid : ∀ i, (t.table.jobs i).pid = (s.table.jobs i).pid
  children : t.children = s.children
  handler : t.handler = s.handler
  before : s.pc.forked = none
  after : t.pc.forked = none
  masked : t.pc.forking = true → t.blocked = true

theorem forked_resume (caller : Caller) :
    caller.resume.forked = none := by
  cases caller with
  | eval prevOne => rfl
  | doBgfg => rfl

theorem forking_resume (caller : Caller) :
    caller.resume.forking = false := by
  cases caller with
  | eval prevOne => rfl
  | doBgfg => rfl

theorem KeepsPids.of_statement
    {s t : Tsh}
    (hStatement : statement s = some t) :
    KeepsPids s t := by
  have hBefore : s.pc.forked = none := by
    cases hPc : s.pc with
    | addjob cmdline bg prevOne pid =>
        simp [statement, hPc] at hStatement
    | _ => rfl
  rw [statement] at hStatement
  repeat' split at hStatement
  all_goals cases hStatement
  -- the assignment of doBgfg is the one that writes a slot
  case h_11.refl =>
    refine ⟨?_, rfl, rfl, hBefore, rfl, ?_⟩
    · exact fun i => pid_setState i
    · simp [Pc.forking]
  case h_7.refl caller prevMask hPc =>
    refine ⟨fun _ => rfl, rfl, rfl, hBefore, ?_, ?_⟩
    · exact forked_resume caller
    · simp [forking_resume]
  all_goals
    refine ⟨fun _ => rfl, rfl, rfl, hBefore, rfl, ?_⟩
    simp [Pc.forking]

/- The assignment of doBgfg is what a statement writes. -/
theorem table_of_statement
    {s t : Tsh}
    (hStatement : statement s = some t) :
    (t.table = s.table ∧
        ∀ verb slot pid, s.pc ≠ .assign verb slot pid) ∨
      ∃ verb slot pid,
        s.pc = .assign verb slot pid ∧
          t.table = { s.table with
            jobs := setState s.table.jobs slot verb.state } := by
  cases hPc : s.pc with
  | assign verb slot pid =>
      right
      simp only [statement, hPc, Option.some_inj] at hStatement
      refine ⟨verb, slot, pid, rfl, ?_⟩
      rw [← hStatement]
  | _ =>
      left
      refine ⟨?_, by simp⟩
      simp only [statement, hPc] at hStatement
      repeat' split at hStatement
      all_goals cases hStatement
      all_goals rfl

theorem forking_doBgfg
    (verb : Verb)
    (argument : Option String)
    (jid : Int) :
    (doBgfg verb argument jid).forking = false := by
  cases argument with
  | none => rfl
  | some word =>
      rw [doBgfg]
      repeat' split
      all_goals rfl

/- eval leads to no fork before SIGCHLD is blocked. -/
theorem forking_eval
    (cmdline : String)
    (argv : List String)
    (bg : Bool)
    (jid : Int) :
    (eval cmdline argv bg jid).forking = false := by
  cases argv with
  | nil => rfl
  | cons name arguments =>
      rw [eval]
      repeat' split
      all_goals first | rfl | exact forking_doBgfg _ _ _

theorem forked_of_forking_eq_false
    {pc : Pc}
    (hForking : pc.forking = false) :
    pc.forked = none := by
  cases pc with
  | addjob cmdline bg prevOne pid => cases hForking
  | _ => rfl

end Shell

end CsappLabs
