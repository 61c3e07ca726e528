import CsappLabs.Lib.Recency

/-
  The cache simulator of `helper.c`.

  The cache is one array of lines; the lines of a set lie
  side by side. A logical clock stamps the lines, and the
  stamps choose the line to evict.

  Key definitions include:
    * `Line`, `Simulator`
    * `writeCache`, `loadCache`
    * `access`, `simulate`
-/

------------------------------------------------------------
-- State
------------------------------------------------------------

namespace CsappLabs

namespace Cache

/- `unit`: one line of the cache. -/
structure Line where
  timer : Nat
  tag : Int
  valid : Bool

/-
  The variables of `cacheSimulator` that its loop changes:
  the cache, the counters of `resStruct`, the clock, and the
  text printed for an access.
-/
structure Simulator where
  lines : Nat → Line
  hits : Nat
  misses : Nat
  evictions : Nat
  time : Nat
  resChar : String

/- The state before the loop: the cache is all zero. -/
def Simulator.start : Simulator where
  lines := fun _ => ⟨0, 0, false⟩
  hits := 0
  misses := 0
  evictions := 0
  time := 0
  resChar := ""

/- Overwrite one line of the cache. -/
def Simulator.put
    (sim : Simulator) (target : Nat) (line : Line) :
    Simulator :=
  { sim with lines := Function.update sim.lines target line }

------------------------------------------------------------
-- One Access
------------------------------------------------------------

/- The initial `LeastRecentUsed` of `WriteCache`. -/
def maxTimer : Nat := 999999

/-
  `WriteCache`: the loop walks down from the last line of the
  set, at `target`, and the line with the least timer is
  overwritten.
-/
def writeCache
    (tag : Int) (line target : Nat) (sim : Simulator) :
    Simulator :=
  let lruIdx :=
    (Recency.leastScan
      (fun l => (sim.lines (target - l)).timer)
      maxTimer line).2
  let newTarget := target - lruIdx
  let sim :=
    sim.put newTarget
      { sim.lines newTarget with
        tag := tag
        timer := sim.time }
  { sim with
    evictions := sim.evictions + 1
    time := sim.time + 1 }

/-
  The loop of `LoadCache` over the given lines of the set.
  It has no value where no line stops it.
-/
def loadLoop
    (tag : Int) (set line : Nat) (sim : Simulator) :
    List Nat → Option Simulator
| [] => none
| l :: rest =>
    let target := set * line + l
    let block := sim.lines target
    if block.valid = true ∧ block.tag = tag then
      some
        { sim.put target { block with timer := sim.time } with
          hits := sim.hits + 1
          resChar := "hit" }
    else if block.valid = false then
      some
        { sim.put target ⟨sim.time, tag, true⟩ with
          misses := sim.misses + 1
          resChar := "miss" }
    else
      loadLoop tag set line sim rest

/- `LoadCache`. -/
def loadCache
    (tag : Int) (set line : Nat) (sim : Simulator) :
    Simulator :=
  match loadLoop tag set line sim (List.range line) with
  | some sim => { sim with time := sim.time + 1 }
  | none =>
      let sim :=
        writeCache tag line (set * line + (line - 1)) sim
      { sim with
        misses := sim.misses + 1
        resChar := "miss eviction"
        time := sim.time + 1 }

------------------------------------------------------------
-- The Trace Loop
------------------------------------------------------------

/- The letters of a trace that reach the cache: L, S and M. -/
inductive Op where
| load
| store
| modify

/- One line of a trace, its address already decoded. -/
structure Access where
  op : Op
  tag : Int
  set : Nat

/- One turn of the loop of `cacheSimulator`. -/
def access
    (line : Nat) (sim : Simulator) (entry : Access) :
    Simulator :=
  let sim := { sim with resChar := "" }
  match entry.op with
  | .modify =>
      let sim := loadCache entry.tag entry.set line sim
      { sim with
        resChar := sim.resChar ++ " hit"
        hits := sim.hits + 1 }
  | .load | .store => loadCache entry.tag entry.set line sim

/- The state after a trace. -/
def simulate (line : Nat) (trace : List Access) : Simulator :=
  trace.foldl (access line) Simulator.start

end Cache

end CsappLabs
