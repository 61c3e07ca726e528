import CsappLabs.Shell.Tracking

/-
  The jobs that the handler looks up.

  eval ignores that addjob found no slot, and the handler
  follows the pointer of getjobpid for a stopped or killed
  child without a test.

  Key definitions include:
    * `WaitStatus.follows`

  Key theorems include:
    * `handler_lookup_iff`
-/

namespace CsappLabs

namespace Shell

open Transition

variable {events : List Event} {s : Tsh}

------------------------------------------------------------
-- Missing Jobs
------------------------------------------------------------

/- The handler follows the job that getjobpid returns. -/
def WaitStatus.follows : WaitStatus → Bool
| .stopped _ => true
| .signaled _ => true
| _ => false

/-
  In every run each pointer that the handler follows, for a
  stopped or killed child, is not NULL exactly when addjob
  found a free slot for that child.
-/
theorem handler_lookup_iff
    {pid : Int}
    {status : WaitStatus}
    (hRun : Run Step tshStart events s)
    (hBody : s.handler = .body pid status) :
    (status.follows = true →
        getjobpid s.table.jobs pid ≠ none) ↔
      (status.follows = true →
        unlisted events pid = false) := by
  have hTracked := tracked_of_run hRun
  have hPid := hTracked.positive pid (Or.inr (by
    rw [hBody]
    rfl))
  rw [ne_eq, getjobpid_eq_none_iff hPid, not_not,
    hTracked.mem_pids_inHand_iff hBody]

/- One background job that stops. -/
theorem handler_lookup_iff_stopped :
    (WaitStatus.follows (.stopped 20) = true →
        getjobpid
          (stopReported (background tshStart 7 "./myspin 9 &\n")
            7 20).table.jobs 7 ≠ none) ↔
      (WaitStatus.follows (.stopped 20) = true →
        unlisted
          (backgroundEvents tshStart 7 ++
            [.child 7, .deliver, .report 7 (.stopped 20)])
          7 = false) := by
  have hLaunch : Run Step tshStart
      (backgroundEvents tshStart 7)
      (background tshStart 7 "./myspin 9 &\n") := by
    apply run_background "./myspin 9 &\n" _ rfl rfl
    · decide
    · decide
    · exact fun _ _ _ hStep _ _ => hStep
  have hMem : ⟨7, .running⟩ ∈
      (background tshStart 7 "./myspin 9 &\n").children :=
    List.mem_singleton_self _
  have hStop := run_stop 20 rfl rfl rfl hMem
  exact handler_lookup_iff (hLaunch.append hStop) rfl

/- The shell after n background jobs with pids from 101 on. -/
def backgrounds : Nat → Tsh
| 0 => tshStart
| n + 1 => background (backgrounds n) (101 + n) "./myspin 9 &\n"

def backgroundsEvents : Nat → List Event
| 0 => []
| n + 1 =>
    backgroundsEvents n ++
      backgroundEvents (backgrounds n) (101 + n)

theorem backgrounds_children (n : Nat) :
    (backgrounds n).children =
      (List.range n).map fun (k : Nat) =>
        ⟨101 + (k : Int), .running⟩ := by
  induction n with
  | zero => rfl
  | succ n ih =>
      rw [backgrounds, background, ih, List.range_succ,
        List.map_append]
      rfl

theorem backgrounds_prompt (n : Nat) :
    (backgrounds n).pc = .prompt ∧
      (backgrounds n).handler = .idle ∧
      (backgrounds n).blocked = false := by
  induction n with
  | zero => exact ⟨rfl, rfl, rfl⟩
  | succ n ih => exact ih

theorem run_backgrounds (n : Nat) :
    Run Step tshStart (backgroundsEvents n)
      (backgrounds n) := by
  induction n with
  | zero => exact .nil
  | succ n ih =>
      rcases backgrounds_prompt n with ⟨hPc, hIdle, _⟩
      apply ih.append
      apply run_background _ _ hIdle hPc (by omega)
      · rintro ⟨child, hMem, hPid⟩
        rw [backgrounds_children, List.mem_map] at hMem
        rcases hMem with ⟨k, hK, rfl⟩
        have hLess := List.mem_range.mp hK
        simp only at hPid
        omega
      · exact fun _ _ _ hStep _ _ => hStep

/-
  With 17 background jobs addjob has no room for the last one,
  and the handler follows NULL when that one is stopped.
-/
theorem handler_follows_null :
    ¬∀ events s pid status, Run Step tshStart events s →
      s.handler = .body pid status →
      status.follows = true →
      getjobpid s.table.jobs pid ≠ none := by
  intro hLookup
  rcases backgrounds_prompt 17 with ⟨hPc, hIdle, hBlocked⟩
  have hMem : (⟨117, .running⟩ : Child) ∈
      (backgrounds 17).children := by
    rw [backgrounds_children]
    decide
  have hRun := (run_backgrounds 17).append
    (run_stop 20 hIdle hPc hBlocked hMem)
  apply hLookup _ (stopReported (backgrounds 17) 117 20) 117
    (.stopped 20) hRun rfl rfl
  decide +kernel

end Shell

end CsappLabs
