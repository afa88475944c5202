import Std.Data.TreeMap
import Interleaving.ClockTable
import Interleaving.Schedule.Basic

/-!
# Tables of the race analysis

The analysis walks a schedule from its first step to its last and gives every step a clock. It
keeps, for each thread and each target, the last steps that later ones are ordered after.

## Main definitions

* `Analysis` — the tables, which are reset before every walk.
* `Workspace` — the tables, the schedule under analysis, and the generator in random mode.
* `Analysis.begin`, `Analysis.quiesce`, `Analysis.access` — the changes that one step makes.
-/

namespace Interleaving

structure Analysis where
  clocks : ClockTable := ClockTable.empty
  /-- The last step of each thread. -/
  lastStep : List (Option Step) := []
  /-- The last step in the life of each thread. -/
  lastLifecycle : Std.TreeMap Nat Step := ∅
  /-- The last send to each target. -/
  lastSend : Std.TreeMap Nat Step := ∅
  /-- The first send to each target. -/
  firstSend : Std.TreeMap Nat Step := ∅
  races : List Race := []
  /-- The threads that the reversal of a race does not create, in increasing order. -/
  missing : List ThreadId := []

namespace Analysis

/-- Fresh tables for a number of steps and threads. -/
def reset (a : Analysis) (steps threads : Nat) : Analysis :=
  { clocks := a.clocks.reset steps threads, lastStep := List.replicate threads none }

/-- Step `i` of the thread `t` starts from the clock of the thread's step before it. -/
def begin (a : Analysis) (i : Step) (t : ThreadId) : Analysis :=
  let clocks := match a.lastStep[t]?.join with
    | some previous => a.clocks.copy previous i
    | none => a.clocks.clear i
  { a with clocks := clocks.stamp i ⟨t, i⟩, lastStep := a.lastStep.set t (some i) }

/-- Step `i` of the thread `t` is ordered after the last steps of all other threads. -/
def quiesce (a : Analysis) (i : Step) (t : ThreadId) : Analysis :=
  let others := a.lastStep.zipIdx.filterMap fun (last, u) => if u = t then none else last
  { a with clocks := others.foldl (fun clocks last => clocks.join i last) a.clocks }

/-- Enters step `i` as the last access to a target of an operation, and gives the step that it is
to be ordered after. -/
def access (a : Analysis) (i : Step) (op : Operation) (target : Nat) (sendStep : Option Step) :
    Analysis × Option Step :=
  match op with
  | .start | .stop | .create | .join =>
    ({ a with lastLifecycle := a.lastLifecycle.insert target i }, a.lastLifecycle[target]?)
  | .send =>
    ({ a with
        firstSend := a.firstSend.insertIfNew target i
        lastSend := a.lastSend.insert target i }, a.lastSend[target]?)
  | .receive => (a, sendStep)
  | .quiesce | .yield => (a, none)

/-- What happens before step `source` happens before step `i`, too. -/
def join (a : Analysis) (i source : Step) : Analysis :=
  { a with clocks := a.clocks.join i source }

def happensBefore (a : Analysis) (e : Event) (step : Step) : Bool :=
  a.clocks.happensBefore e step

end Analysis

/-- What an analysis reads and changes. -/
structure Workspace where
  analysis : Analysis := {}
  schedule : Schedule := {}
  /-- Given in random mode only. -/
  generator : Option Pcg := none

namespace Workspace

/-- In random mode all races are recorded, and sends stay unordered. -/
def randomized (w : Workspace) : Bool := w.generator.isSome

/-- The number of steps to analyse. The last level has no selection if nothing could run there. -/
def steps (w : Workspace) : Nat :=
  match w.schedule.last? with
  | some l => if l.selected.isNone then w.schedule.size - 1 else w.schedule.size
  | none => w.schedule.size

/-- The largest number of threads at a level. -/
def threads (w : Workspace) : Nat :=
  (w.schedule.levels.map (·.entries.length)).foldl max 0

def modifyAnalysis (w : Workspace) (f : Analysis → Analysis) : Workspace :=
  { w with analysis := f w.analysis }

def modifySchedule (w : Workspace) (f : Schedule → Schedule) : Workspace :=
  { w with schedule := f w.schedule }

def addRace (w : Workspace) (race : Race) : Workspace :=
  w.modifyAnalysis fun a => { a with races := a.races ++ [race] }

/-- The entry that was selected at a step. -/
def executed (w : Workspace) (step : Step) : Except Fault Entry := do
  (← w.schedule.level step).selectedEntry

end Workspace

end Interleaving
