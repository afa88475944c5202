import Interleaving.Analysis.Basic

/-!
# The scheduler

At every visible operation a program shows the scheduler what all its threads are about to do and
is told which one to run. Between two iterations the scheduler analyses the finished schedule and
prepares the next one.

## Main definitions

* `Scheduler` — the schedule, with what is needed to go on.
* `Scheduler.new` — a scheduler with given options.
* `Scheduler.stats` — what it counted.
-/

namespace Interleaving

structure Scheduler where
  schedule : Schedule
  /-- Missing if every enabled thread is to be explored. -/
  analysis : Option Analysis
  /-- Given in random mode. -/
  generator : Option Pcg
  sleepSets : Bool
  stepLimit : Option Nat
  reversalLimit : Option Nat
  /-- The number of reversals since the last fresh start. -/
  reversals : Nat := 0
  /-- The directives for reversing a race, and how many of them were followed. -/
  replay : List Directive := []
  replayed : Nat := 0
  iterations : Nat := 0
  counters : Counters := ∅

namespace Scheduler

def new (c : Config) : Scheduler where
  schedule := { randomized := c.mode == .random }
  analysis := if c.reduction then some {} else none
  generator := if c.mode = .random then some (Pcg.ofSeed c.seed) else none
  sleepSets := c.sleepSets && c.mode != .random
  stepLimit := c.stepLimit
  reversalLimit := c.reversalLimit

def randomized (s : Scheduler) : Bool := s.generator.isSome

def description (s : Scheduler) : String := if s.randomized then "DPOR (random)" else "DPOR"

/-- The number of decisions made in this iteration. -/
def steps (s : Scheduler) : Nat := s.schedule.visited

/-- The steps of this iteration are used up. -/
def atStepLimit (s : Scheduler) : Bool := s.stepLimit.any fun limit => limit ≤ s.steps

/-- No thread is promised a turn: what the schedule asks for runs. -/
def isFair (_ : Scheduler) : Bool := false

/-- The directives still to be followed. -/
def pending (s : Scheduler) : List Directive := s.replay.drop s.replayed

def stats (s : Scheduler) : Stats where
  finished := s.counters.get (.ended .allFinished)
  blocked := s.counters.get (.ended .deadlock)
  allAsleep := s.counters.get (.ended .allAsleep)
  races := s.counters.get .races
  stepLimit := s.counters.get (.ended .stepLimit)
  iterations := s.iterations

/-- Adds to a counter. -/
def count (c : Counter) (n : Nat) : Action Scheduler Unit :=
  Action.modify fun s => { s with counters := s.counters.add c n }

/-- An action on the schedule. -/
def onSchedule {α : Type} : Action Schedule α → Action Scheduler α :=
  Action.within schedule fun schedule s => { s with schedule }

end Scheduler

end Interleaving
