import CsappLabs.Lib.Transition
import CsappLabs.Shell.JobTable

/-
  The tiny shell as a machine: the main flow of eval, doBgfg
  and waitfg one statement at a time, the children the kernel
  keeps for it, and sigchld_handler, which may start between
  any two statements while SIGCHLD is not blocked.

  The loops of getjobjid and fgpid are taken one slot at a
  time where the handler may run between two slots. What is
  printed is left out.

  Key definitions include:
    * `Tsh`
    * `statement`
    * `handlerBody`
    * `Step`
-/

namespace CsappLabs

namespace Shell

------------------------------------------------------------
-- Children
------------------------------------------------------------

/- The status word that waitpid stores. -/
inductive WaitStatus where
| exited (code : Int)
| stopped (signal : Int)
| signaled (signal : Int)
| continued
deriving DecidableEq, Repr

/-
  A child as the kernel sees it. A stop is reported once; an
  exited or killed child is a zombie until it is reported.
-/
inductive Life where
| running
| stopped (signal : Int) (reported : Bool)
| exited (code : Int)
| killed (signal : Int)
deriving DecidableEq, Repr

structure Child where
  pid : Int
  life : Life
deriving DecidableEq, Repr

/- What may happen to a child at any moment. -/
inductive Life.Change : Life → Life → Prop
| exit {code : Int} :
    Change .running (.exited code)
| stop {signal : Int} :
    Change .running (.stopped signal false)
| continue {signal : Int} {reported : Bool} :
    Change (.stopped signal reported) .running
| kill {signal : Int} :
    Change .running (.killed signal)
| killStopped {signal signal' : Int} {reported : Bool} :
    Change (.stopped signal reported) (.killed signal')

/-
  What waitpid(-1, &status, WNOHANG|WUNTRACED) reports about a
  child, if anything.
-/
def Life.report : Life → Option WaitStatus
| .running => none
| .stopped signal reported =>
    if reported then none else some (.stopped signal)
| .exited code => some (.exited code)
| .killed signal => some (.signaled signal)

/- A child after its report: a zombie is gone. -/
def Life.afterReport : Life → Option Life
| .running => some .running
| .stopped signal _ => some (.stopped signal true)
| .exited _ => none
| .killed _ => none

/- The children after waitpid returned a pid. -/
def afterWaitpid
    (children : List Child)
    (pid : Int) :
    List Child :=
  children.filterMap fun child =>
    if child.pid = pid then
      child.life.afterReport.map (Child.mk pid)
    else
      some child

/- The children after a change to one of them. -/
def changeChild
    (children : List Child)
    (pid : Int)
    (life : Life) :
    List Child :=
  children.map fun child =>
    if child.pid = pid then ⟨pid, life⟩ else child

------------------------------------------------------------
-- Control
------------------------------------------------------------

/- The two commands of doBgfg. -/
inductive Verb where
| fg
| bg
deriving DecidableEq, Repr

/- Who called waitfg; eval keeps prev_one. -/
inductive Caller where
| eval (prevOne : Bool)
| doBgfg
deriving DecidableEq, Repr

/-
  The next statement of the main flow. A signal mask is kept
  as whether it blocks SIGCHLD.
-/
inductive Pc where
-- main: fgets, then eval up to builtin_cmd
| prompt
-- eval: sigprocmask, Fork, addjob, sigprocmask
| block (cmdline : String) (bg : Bool)
| fork (cmdline : String) (bg prevOne : Bool)
| addjob (cmdline : String) (bg prevOne : Bool) (pid : Int)
| restore (prevOne : Bool)
-- waitfg: fg_exit = 0, sigprocmask, the loop, sigprocmask
| waitfg (pid : Int) (caller : Caller)
| unmask (pid : Int) (caller : Caller)
| fgpid (pid : Int) (caller : Caller) (prevMask : Bool)
    (slot : Nat)
| fgpidReturn (pid : Int) (caller : Caller) (prevMask : Bool)
    (slot : Fin maxJobs)
| remask (caller : Caller) (prevMask : Bool)
-- doBgfg: getjobjid, pid = .., the test, state = .., kill
| getjobjid (verb : Verb) (jid : Int) (slot : Nat)
| readPid (verb : Verb) (slot : Fin maxJobs)
| testState (verb : Verb) (slot : Fin maxJobs) (pid : Int)
| assign (verb : Verb) (slot : Fin maxJobs) (pid : Int)
| kill (verb : Verb) (pid : Int)
| exited
deriving DecidableEq, Repr

/-
  sigchld_handler: not running, about to call waitpid, about
  to treat a reported child, or stopped by a NULL pointer.
-/
inductive Handler where
| idle
| waitpid
| body (pid : Int) (status : WaitStatus)
| faulted
deriving DecidableEq, Repr

structure Tsh where
  table : JobTable
  fgExit : Bool
  children : List Child
  blocked : Bool
  pc : Pc
  handler : Handler

/- main after initjobs. -/
def tshStart : Tsh where
  table := initjobs
  fgExit := false
  children := []
  blocked := false
  pc := .prompt
  handler := .idle

------------------------------------------------------------
-- The Main Flow
------------------------------------------------------------

/- The characters that isspace accepts. -/
def isSpace (c : Char) : Bool :=
  c = ' ' || (9 ≤ c.toNat && c.toNat ≤ 13)

/- The number that leading digits spell; 0 without any. -/
def digitsValue (text : List Char) : Int :=
  (text.takeWhile Char.isDigit).foldl
    (fun value digit => 10 * value + (digit.toNat - 48)) 0

/- atoi: strtol, which stops at the ends of long, cut to int. -/
def atoi (text : List Char) : Int :=
  let value :=
    match text.dropWhile isSpace with
    | '-' :: digits => -digitsValue digits
    | '+' :: digits => digitsValue digits
    | digits => digitsValue digits
  int32 (max (-2 ^ 63) (min value (2 ^ 63 - 1)))

/-
  A value of atoi(argv[1]+1). Behind the NUL of an empty
  argv[1] it may find anything.
-/
def ReadsJid (argv : List String) (jid : Int) : Prop :=
  ∀ name argument rest,
    argv = name :: argument :: rest →
      argument ≠ "" →
        jid = atoi (argument.toList.drop 1)

/- doBgfg up to getjobjid, with the value of atoi. -/
def doBgfg
    (verb : Verb)
    (argument : Option String)
    (jid : Int) :
    Pc :=
  match argument with
  | none => .prompt
  | some _ =>
      if jid = 0 then
        .prompt
      else if 9999999 ≤ jid then
        .prompt
      else if jid < 1 then
        .prompt
      else
        .getjobjid verb jid 0

/- eval up to the first sigprocmask, and builtin_cmd. -/
def eval
    (cmdline : String)
    (argv : List String)
    (bg : Bool)
    (jid : Int) :
    Pc :=
  match argv with
  | [] => .prompt
  | name :: arguments =>
      if name = "quit" then
        .exited
      else if name = "jobs" then
        .prompt
      else if name = "fg" then
        doBgfg .fg arguments.head? jid
      else if name = "bg" then
        doBgfg .bg arguments.head? jid
      else
        .block cmdline bg

/- The states on which doBgfg acts, and the one it assigns. -/
def Verb.applies : Verb → JobState → Bool
| .fg, state => state = .bg || state = .st
| .bg, state => state = .fg || state = .st

def Verb.state : Verb → JobState
| .fg => .fg
| .bg => .bg

/- Where waitfg returns to. -/
def Caller.resume : Caller → Pc
| .eval prevOne => .restore prevOne
| .doBgfg => .prompt

/-
  One statement of the main flow, where it has one next state.
  The calls of Fork, addjob and kill are steps of their own.
-/
def statement (s : Tsh) : Option Tsh :=
  match s.pc with
  | .block cmdline bg =>
      some { s with
        blocked := true
        pc := .fork cmdline bg s.blocked }
  | .restore prevOne =>
      some { s with blocked := prevOne, pc := .prompt }
  | .waitfg pid caller =>
      some { s with fgExit := false, pc := .unmask pid caller }
  | .unmask pid caller =>
      some { s with
        blocked := false
        pc := .fgpid pid caller s.blocked 0 }
  | .fgpid pid caller prevMask slot =>
      if hSlot : slot < maxJobs then
        if (s.table.jobs ⟨slot, hSlot⟩).state = .fg then
          some { s with
            pc := .fgpidReturn pid caller prevMask
              ⟨slot, hSlot⟩ }
        else
          some { s with
            pc := .fgpid pid caller prevMask (slot + 1) }
      else if pid = 0 then
        some { s with pc := .fgpid pid caller prevMask 0 }
      else
        some { s with pc := .remask caller prevMask }
  | .fgpidReturn pid caller prevMask slot =>
      if pid = (s.table.jobs slot).pid then
        some { s with pc := .fgpid pid caller prevMask 0 }
      else
        some { s with pc := .remask caller prevMask }
  | .remask caller prevMask =>
      some { s with blocked := prevMask, pc := caller.resume }
  | .getjobjid verb jid slot =>
      if hSlot : slot < maxJobs then
        if (s.table.jobs ⟨slot, hSlot⟩).jid = jid then
          some { s with pc := .readPid verb ⟨slot, hSlot⟩ }
        else
          some { s with pc := .getjobjid verb jid (slot + 1) }
      else
        some { s with pc := .prompt }
  | .readPid verb slot =>
      some { s with
        pc := .testState verb slot (s.table.jobs slot).pid }
  | .testState verb slot pid =>
      if verb.applies (s.table.jobs slot).state then
        some { s with pc := .assign verb slot pid }
      else
        some { s with pc := .prompt }
  | .assign verb slot pid =>
      some { s with
        table := { s.table with
          jobs := setState s.table.jobs slot verb.state }
        pc := .kill verb pid }
  | .prompt => none
  | .fork .. => none
  | .addjob .. => none
  | .kill .. => none
  | .exited => none

------------------------------------------------------------
-- The Handler
------------------------------------------------------------

/-
  What sigchld_handler does with one report. It follows the
  pointer that getjobpid returns for a stopped or killed
  child, and `none` is the fault when that is NULL.
-/
def handlerBody
    (table : JobTable)
    (pid : Int) :
    WaitStatus → Option JobTable
| .exited _ => some (deletejob table pid).2
| .stopped _ =>
    match getjobpid table.jobs pid with
    | some slot =>
        some { table with
          jobs := setState table.jobs slot .st }
    | none => none
| .signaled _ =>
    match getjobpid table.jobs pid with
    | some _ => some (deletejob table pid).2
    | none => none
| .continued => some table

------------------------------------------------------------
-- Steps
------------------------------------------------------------

/-
  What a step does, for the history of a run. An addjob event
  tells whether the table had a free slot before the call.
-/
inductive Event where
| flow
| fork (pid : Int)
| addjob (pid : Int) (room : Bool)
| sigcont (pid : Int)
| deliver
| report (pid : Int) (status : WaitStatus)
| handled (pid : Int) (status : WaitStatus)
| fault
| handlerReturn
| child (pid : Int)
deriving DecidableEq, Repr

/- Some slot of the table is free. -/
def HasRoom (table : JobTable) : Prop :=
  ∃ i, ¬Occupied (table.jobs i)

instance (table : JobTable) : Decidable (HasRoom table) :=
  inferInstanceAs (Decidable (∃ i, ¬Occupied (table.jobs i)))

/-
  A step of the main flow while the handler is not running, a
  step of the handler, or a change of a child. The kernel
  blocks SIGCHLD while its handler runs. The signal of kill
  takes effect as a change of the child.
-/
inductive Step : Tsh → Event → Tsh → Prop
| statement {s t : Tsh} :
    s.handler = .idle →
    statement s = some t →
    Step s .flow t
-- any command line, as parseline may leave it in argv
| eval {s : Tsh} {cmdline : String} {argv : List String}
    {bg : Bool} {jid : Int} :
    s.handler = .idle →
    s.pc = .prompt →
    ReadsJid argv jid →
    Step s .flow { s with pc := eval cmdline argv bg jid }
| endOfFile {s : Tsh} :
    s.handler = .idle →
    s.pc = .prompt →
    Step s .flow { s with pc := .exited }
| fork {s : Tsh} {cmdline : String} {bg prevOne : Bool}
    {pid : Int} :
    s.handler = .idle →
    s.pc = .fork cmdline bg prevOne →
    0 < pid →
    (∀ child ∈ s.children, child.pid ≠ pid) →
    Step s (.fork pid)
      { s with
        children := s.children ++ [⟨pid, .running⟩]
        pc := .addjob cmdline bg prevOne pid }
| forkFails {s : Tsh} {cmdline : String} {bg prevOne : Bool} :
    s.handler = .idle →
    s.pc = .fork cmdline bg prevOne →
    Step s .flow { s with pc := .exited }
| addjob {s : Tsh} {cmdline : String} {bg prevOne : Bool}
    {pid : Int} :
    s.handler = .idle →
    s.pc = .addjob cmdline bg prevOne pid →
    Step s (.addjob pid (decide (HasRoom s.table)))
      { s with
        table := (Shell.addjob s.table pid
          (if bg then .bg else .fg) cmdline).2
        pc :=
          if bg then .restore prevOne
          else .waitfg pid (.eval prevOne) }
| kill {s : Tsh} {verb : Verb} {pid : Int} :
    s.handler = .idle →
    s.pc = .kill verb pid →
    Step s (.sigcont pid)
      { s with
        pc :=
          match verb with
          | .fg => .waitfg pid .doBgfg
          | .bg => .prompt }
| deliver {s : Tsh} :
    s.handler = .idle →
    s.blocked = false →
    s.pc ≠ .exited →
    Step s .deliver { s with handler := .waitpid }
| report {s : Tsh} {child : Child} {status : WaitStatus} :
    s.handler = .waitpid →
    child ∈ s.children →
    child.life.report = some status →
    Step s (.report child.pid status)
      { s with
        children := afterWaitpid s.children child.pid
        handler := .body child.pid status }
| handlerReturn {s : Tsh} :
    s.handler = .waitpid →
    (∀ child ∈ s.children, child.life.report = none) →
    Step s .handlerReturn { s with handler := .idle }
| handled {s : Tsh} {pid : Int} {status : WaitStatus}
    {table : JobTable} :
    s.handler = .body pid status →
    handlerBody s.table pid status = some table →
    Step s (.handled pid status)
      { s with
        table := table
        fgExit := s.fgExit || pid == fgpid s.table.jobs
        handler := .waitpid }
| fault {s : Tsh} {pid : Int} {status : WaitStatus} :
    s.handler = .body pid status →
    handlerBody s.table pid status = none →
    Step s .fault { s with handler := .faulted }
| child {s : Tsh} {child : Child} {life : Life} :
    child ∈ s.children →
    child.life.Change life →
    Step s (.child child.pid)
      { s with
        children := changeChild s.children child.pid life }

end Shell

end CsappLabs
