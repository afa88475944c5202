import Std.Data.TreeMap

/-!
# Counters of an exploration

A counter is there once it was touched, if only by adding zero.
-/

namespace Interleaving

/-- How one execution of the program ended. -/
inductive Ending where
  | allFinished
  /-- Nothing could run. -/
  | deadlock
  /-- All that could run was asleep. -/
  | allAsleep
  | stepLimit
deriving DecidableEq, Repr

namespace Ending

def all : List Ending := [allFinished, deadlock, allAsleep, stepLimit]

def name : Ending → String
  | allFinished => "AllFinished"
  | deadlock => "Deadlock"
  | allAsleep => "SleepSetBlocked"
  | stepLimit => "StepLimit"

end Ending

inductive Counter where
  | ended (ending : Ending)
  | iterations
  | races
  /-- The largest number of steps of an execution. -/
  | steps
  | forced
deriving DecidableEq, Repr

def Counter.name : Counter → String
  | .ended .allFinished => "complete_executions"
  | .ended .deadlock => "blocked_executions"
  | .ended .allAsleep => "sleep_set_blocked"
  | .ended .stepLimit => "step_limit_reached"
  | .iterations => "iterations"
  | .races => "races"
  | .steps => "scheduled_steps"
  | .forced => "forced_choices"

/-- The values of the counters that were touched, by their names. -/
abbrev Counters := Std.TreeMap String Nat

namespace Counters

/-- The value of a counter, zero if it was never touched. -/
def get (counters : Counters) (c : Counter) : Nat := counters.getD c.name 0

def add (counters : Counters) (c : Counter) (n : Nat) : Counters :=
  counters.insert c.name (counters.get c + n)

/-- Raises a counter to `n` at least. -/
def raise (counters : Counters) (c : Counter) (n : Nat) : Counters :=
  counters.insert c.name (max (counters.get c) n)

end Counters

/-- The numbers that an exploration reports. -/
structure Stats where
  finished : Nat
  blocked : Nat
  allAsleep : Nat
  races : Nat
  stepLimit : Nat
  iterations : Nat
deriving DecidableEq, Repr

end Interleaving
