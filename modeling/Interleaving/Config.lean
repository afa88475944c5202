import Interleaving.Json.Printer
import Interleaving.Json.Record

/-!
# Options of an exploration
-/

namespace Interleaving

inductive Mode where
  /-- Goes through the schedules in order, and ends when none is left. -/
  | depthFirst
  /-- Each iteration reverses a random race of the one before; it never ends by itself. -/
  | random
deriving DecidableEq, Repr, Inhabited

namespace Mode

def all : List Mode := [depthFirst, random]

def name : Mode → String
  | depthFirst => "Dfs"
  | random => "Random"

def toJson (mode : Mode) : Json := .str mode.name

def ofJson? : Json → Option Mode := Json.named? all name

end Mode

structure Config where
  mode : Mode := .depthFirst
  seed : Nat := 0
  /-- Whether threads that need not be run again are put to sleep; in depth-first mode only. -/
  sleepSets : Bool := true
  /-- Whether only races are reversed; without it, every enabled thread is explored everywhere. -/
  reduction : Bool := true
  /-- The number of steps after which an execution counts as too long. -/
  stepLimit : Option Nat := none
  /-- In random mode, the number of reversals after which a fresh execution starts. -/
  reversalLimit : Option Nat := none
  /-- The number of iterations after which the exploration stops. -/
  maxIterations : Option Nat := none
  /-- Progress is reported after every so many iterations, and ever more rarely if it is zero. -/
  progressReport : Nat := 0
deriving DecidableEq, Repr, Inhabited

namespace Config

def fieldNames : List String :=
  ["mode", "seed", "sleep_sets", "dpor", "step_limit", "race_reversal_limit", "max_iterations",
    "progress_report"]

def toJson (c : Config) : Json :=
  .obj [("mode", c.mode.toJson), ("seed", .nat c.seed), ("sleep_sets", .bool c.sleepSets),
    ("dpor", .bool c.reduction), ("step_limit", .option Json.nat c.stepLimit),
    ("race_reversal_limit", .option Json.nat c.reversalLimit),
    ("max_iterations", .option Json.nat c.maxIterations),
    ("progress_report", .nat c.progressReport)]

def ofJson? (j : Json) : Option Config :=
  match j.fields? fieldNames with
  | some [mode, seed, sleepSets, reduction, stepLimit, reversalLimit, maxIterations,
      progressReport] => do
    return {
      mode := ← Json.required? Mode.ofJson? mode
      seed := ← Json.required? (Json.natBelow? longBound) seed
      sleepSets := ← Json.required? Json.bool? sleepSets
      reduction := ← Json.required? Json.bool? reduction
      stepLimit := ← Json.optional? (Json.natBelow? longBound) stepLimit
      reversalLimit := ← Json.optional? (Json.natBelow? longBound) reversalLimit
      maxIterations := ← Json.optional? (Json.natBelow? longBound) maxIterations
      progressReport := ← Json.required? (Json.natBelow? longBound) progressReport }
  | _ => none

/-- The options that `changes` names, and the usual ones for the rest. -/
def ofChanges? (changes : List (String × Json)) : Option Config :=
  ofJson? ((default : Config).toJson.amend changes)

/-- The written options. -/
def text (c : Config) : String := c.toJson.render

/-- The mode in quotes, and the seed. -/
def summary (c : Config) : String := c.mode.toJson.render ++ " " ++ Nat.repr c.seed

/-- A number above zero of whose digits only the first is not zero. -/
def isRound (n : Nat) : Bool :=
  match Nat.toDigits 10 n with
  | first :: rest => first != '0' && rest.all (· == '0')
  | [] => false

/-- Whether progress is reported after `n` iterations. -/
def reportsAt (c : Config) (n : Nat) : Bool :=
  if c.progressReport = 0 then isRound n else n % c.progressReport == 0

end Config

end Interleaving
