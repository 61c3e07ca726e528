import CsappLabs.Shell.Children

/-
  Undisturbed pieces of a run: a background and a foreground
  command, statements in a row, and the report of a child that
  stops or ends.

  Key definitions include:
    * `background`, `foreground`
    * `handled`, `stopReported`

  Key theorems include:
    * `run_background`, `run_foreground`
    * `run_handled`, `run_stop`
-/

namespace CsappLabs

namespace Shell

open Transition

variable {s : Tsh}

------------------------------------------------------------
-- Background Commands
------------------------------------------------------------

/- The shell at its prompt after one more background job. -/
def background
    (s : Tsh)
    (pid : Int)
    (cmdline : String) :
    Tsh :=
  { s with
    table := (addjob s.table pid .bg cmdline).2
    children := s.children ++ [⟨pid, .running⟩] }

/- What eval does for a background job, undisturbed. -/
def backgroundEvents (s : Tsh) (pid : Int) : List Event :=
  [.flow, .flow, .fork pid,
    .addjob pid (decide (HasRoom s.table)), .flow]

/-
  eval runs a background command in any system that allows its
  steps: it delivers no signal and forks one child.
-/
theorem run_background
    {step : Tsh → Event → Tsh → Prop}
    {pid : Int}
    (cmdline : String)
    (hAllowed : ∀ a event b, Step a event b →
      event ≠ .deliver →
      b.children.length ≤ s.children.length + 1 →
      step a event b)
    (hIdle : s.handler = .idle)
    (hPc : s.pc = .prompt)
    (hPid : 0 < pid)
    (hNew : ¬IsChild s.children pid) :
    Run step s (backgroundEvents s pid)
      (background s pid cmdline) := by
  rcases s with ⟨table, fgExit, children, blocked, pc, handler⟩
  simp only at hIdle hPc hNew hAllowed
  subst hIdle hPc
  have hFresh : ∀ child ∈ children, child.pid ≠ pid := by
    intro child hMem hSame
    exact hNew ⟨child, hMem, hSame⟩
  have hCommand : Step
      ⟨table, fgExit, children, blocked, .prompt, .idle⟩ .flow
      ⟨table, fgExit, children, blocked,
        eval cmdline ["./myspin"] true 0, .idle⟩ :=
    .eval rfl rfl (by simp [ReadsJid])
  have hEval := hAllowed _ _ _ hCommand (by simp) (by simp)
  have hBlock := hAllowed _ _ _
    (Step.statement
      (s := ⟨table, fgExit, children, blocked,
        .block cmdline true, .idle⟩)
      rfl rfl)
    (by simp) (by simp)
  have hFork := hAllowed _ _ _
    (Step.fork
      (s := ⟨table, fgExit, children, true,
        .fork cmdline true blocked, .idle⟩)
      rfl rfl hPid hFresh)
    (by simp) (by simp)
  have hAdd := hAllowed _ _ _
    (Step.addjob
      (s := ⟨table, fgExit, children ++ [⟨pid, .running⟩], true,
        .addjob cmdline true blocked pid, .idle⟩)
      rfl rfl)
    (by simp) (by simp)
  have hRestore := hAllowed _ _ _
    (Step.statement
      (s := ⟨(addjob table pid .bg cmdline).2, fgExit,
        children ++ [⟨pid, .running⟩], true,
        .restore blocked, .idle⟩)
      rfl rfl)
    (by simp) (by simp)
  exact ((((Run.nil.snoc hEval).snoc hBlock).snoc hFork).snoc
    hAdd).snoc hRestore

------------------------------------------------------------
-- Foreground Commands
------------------------------------------------------------

/- The shell in the loop of waitfg, with one more job. -/
def foreground
    (s : Tsh)
    (pid : Int)
    (cmdline : String) :
    Tsh :=
  { s with
    table := (addjob s.table pid .fg cmdline).2
    fgExit := false
    children := s.children ++ [⟨pid, .running⟩]
    blocked := false
    pc := .fgpid pid (.eval s.blocked) true 0 }

/- What eval does for a foreground job, undisturbed. -/
def foregroundEvents (s : Tsh) (pid : Int) : List Event :=
  [.flow, .flow, .fork pid,
    .addjob pid (decide (HasRoom s.table)), .flow, .flow]

theorem run_foreground
    {step : Tsh → Event → Tsh → Prop}
    {pid : Int}
    (cmdline : String)
    (hAllowed : ∀ a event b, Step a event b →
      event ≠ .deliver → step a event b)
    (hIdle : s.handler = .idle)
    (hPc : s.pc = .prompt)
    (hPid : 0 < pid)
    (hNew : ¬IsChild s.children pid) :
    Run step s (foregroundEvents s pid)
      (foreground s pid cmdline) := by
  rcases s with ⟨table, fgExit, children, blocked, pc, handler⟩
  simp only at hIdle hPc hNew
  subst hIdle hPc
  have hFresh : ∀ child ∈ children, child.pid ≠ pid := by
    intro child hMem hSame
    exact hNew ⟨child, hMem, hSame⟩
  have hCommand : Step
      ⟨table, fgExit, children, blocked, .prompt, .idle⟩ .flow
      ⟨table, fgExit, children, blocked,
        eval cmdline ["./myspin"] false 0, .idle⟩ :=
    .eval rfl rfl (by simp [ReadsJid])
  have hEval := hAllowed _ _ _ hCommand (by simp)
  have hBlock := hAllowed _ _ _
    (Step.statement
      (s := ⟨table, fgExit, children, blocked,
        .block cmdline false, .idle⟩)
      rfl rfl)
    (by simp)
  have hFork := hAllowed _ _ _
    (Step.fork
      (s := ⟨table, fgExit, children, true,
        .fork cmdline false blocked, .idle⟩)
      rfl rfl hPid hFresh)
    (by simp)
  have hAdd := hAllowed _ _ _
    (Step.addjob
      (s := ⟨table, fgExit, children ++ [⟨pid, .running⟩], true,
        .addjob cmdline false blocked pid, .idle⟩)
      rfl rfl)
    (by simp)
  have hWaitfg := hAllowed _ _ _
    (Step.statement
      (s := ⟨(addjob table pid .fg cmdline).2, fgExit,
        children ++ [⟨pid, .running⟩], true,
        .waitfg pid (.eval blocked), .idle⟩)
      rfl rfl)
    (by simp)
  have hUnmask := hAllowed _ _ _
    (Step.statement
      (s := ⟨(addjob table pid .fg cmdline).2, false,
        children ++ [⟨pid, .running⟩], true,
        .unmask pid (.eval blocked), .idle⟩)
      rfl rfl)
    (by simp)
  exact (((((Run.nil.snoc hEval).snoc hBlock).snoc
    hFork).snoc hAdd).snoc hWaitfg).snoc hUnmask

/- Statements of the main flow, one after another. -/
def statements : Nat → Tsh → Option Tsh
| 0, s => some s
| n + 1, s => (statement s).bind (statements n)

theorem run_statements
    {step : Tsh → Event → Tsh → Prop}
    {n : Nat}
    {t : Tsh}
    (hAllowed : ∀ a b, Step a .flow b → step a .flow b)
    (hIdle : s.handler = .idle)
    (hStatements : statements n s = some t) :
    Run step s (List.replicate n .flow) t := by
  induction n generalizing s with
  | zero =>
      cases hStatements
      exact .nil
  | succ n ih =>
      rcases Option.bind_eq_some_iff.mp hStatements with
        ⟨a, hFirst, hRest⟩
      have hStep := hAllowed _ _ (.statement hIdle hFirst)
      have hTail :=
        ih ((KeepsPids.of_statement hFirst).handler.trans
          hIdle) hRest
      exact (Run.nil.snoc hStep).append hTail

------------------------------------------------------------
-- A Report
------------------------------------------------------------

/- The shell after the handler has treated one report. -/
def handled
    (s : Tsh)
    (pid : Int)
    (life : Life)
    (table : JobTable) :
    Tsh :=
  { s with
    table := table
    fgExit := s.fgExit || pid == fgpid s.table.jobs
    children :=
      afterWaitpid (changeChild s.children pid life) pid }

/-
  A running child may end or stop, and the handler treats it
  as the only report there is.
-/
theorem run_handled
    {step : Tsh → Event → Tsh → Prop}
    {pid : Int}
    {life : Life}
    {status : WaitStatus}
    {table : JobTable}
    (hAllowed : ∀ a event b, Step a event b →
      a.pc = s.pc →
      b.children.length ≤ s.children.length →
      step a event b)
    (hIdle : s.handler = .idle)
    (hBlocked : s.blocked = false)
    (hPc : s.pc ≠ .exited)
    (hMem : ⟨pid, .running⟩ ∈ s.children)
    (hChange : Life.Change .running life)
    (hStatus : life.report = some status)
    (hOthers :
      ∀ child ∈ (handled s pid life table).children,
        child.life.report = none)
    (hBody : handlerBody s.table pid status = some table) :
    Run step s
      [.child pid, .deliver, .report pid status,
        .handled pid status, .handlerReturn]
      (handled s pid life table) := by
  rcases s with ⟨jobs, fgExit, children, blocked, pc, handler⟩
  simp only at hIdle hBlocked hPc hMem hBody hAllowed
  subst hIdle hBlocked
  have hChanged :
      (changeChild children pid life).length =
        children.length := by
    simp [changeChild]
  have hWaited :
      (afterWaitpid (changeChild children pid life)
        pid).length ≤ children.length := by
    rw [← hChanged]
    exact List.length_filterMap_le _ _
  have hThere : ⟨pid, life⟩ ∈ changeChild children pid life := by
    rw [changeChild, List.mem_map]
    exact ⟨⟨pid, .running⟩, hMem, if_pos rfl⟩
  have hStop := hAllowed _ _ _
    (Step.child
      (s := ⟨jobs, fgExit, children, false, pc, .idle⟩)
      hMem hChange)
    rfl (Nat.le_of_eq hChanged)
  have hDeliver := hAllowed _ _ _
    (Step.deliver
      (s := ⟨jobs, fgExit, changeChild children pid life,
        false, pc, .idle⟩)
      rfl rfl hPc)
    rfl (Nat.le_of_eq hChanged)
  have hReport := hAllowed _ _ _
    (Step.report
      (s := ⟨jobs, fgExit, changeChild children pid life,
        false, pc, .waitpid⟩)
      rfl hThere hStatus)
    rfl hWaited
  have hHandled := hAllowed _ _ _
    (Step.handled
      (s := ⟨jobs, fgExit,
        afterWaitpid (changeChild children pid life) pid,
        false, pc, .body pid status⟩)
      rfl hBody)
    rfl hWaited
  have hReturn := hAllowed _ _ _
    (Step.handlerReturn
      (s := ⟨table, fgExit || pid == fgpid jobs.jobs,
        afterWaitpid (changeChild children pid life) pid,
        false, pc, .waitpid⟩)
      rfl hOthers)
    rfl hWaited
  exact ((((Run.nil.snoc hStop).snoc hDeliver).snoc
    hReport).snoc hHandled).snoc hReturn

------------------------------------------------------------
-- A Stop
------------------------------------------------------------

/- The shell when the stop of a child was just reported. -/
def stopReported
    (s : Tsh)
    (pid signal : Int) :
    Tsh :=
  { s with
    children := afterWaitpid
      (changeChild s.children pid (.stopped signal false)) pid
    handler := .body pid (.stopped signal) }

/- A running child may stop and be reported at the prompt. -/
theorem run_stop
    {pid : Int}
    (signal : Int)
    (hIdle : s.handler = .idle)
    (hPc : s.pc = .prompt)
    (hBlocked : s.blocked = false)
    (hMem : ⟨pid, .running⟩ ∈ s.children) :
    Run Step s
      [.child pid, .deliver, .report pid (.stopped signal)]
      (stopReported s pid signal) := by
  rcases s with ⟨table, fgExit, children, blocked, pc, handler⟩
  simp only at hIdle hPc hBlocked hMem
  subst hIdle hPc hBlocked
  have hStopped : ⟨pid, .stopped signal false⟩ ∈
      changeChild children pid (.stopped signal false) := by
    rw [changeChild, List.mem_map]
    exact ⟨⟨pid, .running⟩, hMem, if_pos rfl⟩
  have hChange : Life.Change .running (.stopped signal false) :=
    .stop
  have hStop := Step.child
    (s := ⟨table, fgExit, children, false, .prompt, .idle⟩)
    hMem hChange
  have hDeliver := Step.deliver
    (s := ⟨table, fgExit,
      changeChild children pid (.stopped signal false), false,
      .prompt, .idle⟩)
    rfl rfl (by simp)
  have hStatus : Life.report (.stopped signal false) =
      some (.stopped signal) :=
    rfl
  have hReport := Step.report
    (s := ⟨table, fgExit,
      changeChild children pid (.stopped signal false), false,
      .prompt, .waitpid⟩)
    rfl hStopped hStatus
  exact ((Run.nil.snoc hStop).snoc hDeliver).snoc hReport

end Shell

end CsappLabs
