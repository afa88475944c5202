import Interleaving.Config
import Interleaving.Counters
import Interleaving.Level.Text
import Interleaving.Race

/-!
# Notices

What an exploration tells about its course. A notice is kept as what it tells of; `Notice.text`
gives its wording.
-/

namespace Interleaving

inductive Severity where
  | info
  | debug
  | trace
deriving DecidableEq, Repr

namespace Severity

def rank : Severity → Nat
  | info => 0
  | debug => 1
  | trace => 2

def name : Severity → String
  | info => "INFO"
  | debug => "DEBUG"
  | trace => "TRACE"

end Severity

inductive Notice where
  | pushed (level : Level)
  | replayed (level : Level)
  | decided (level : Level)
  | staysAsleep (thread : ThreadId) (step : Step)
  | raceFound (race : Race) (first second : ThreadId)
  | marked (thread : ThreadId) (step : Step)
  | allAsleep (steps : Nat)
  | noRace
  | reversing (race : Race) (thread : ThreadId) (races : Nat)
  | reversalLimit (limit : Nat)
  | complete (iterations : Nat)
  | exploring (description : String) (seed : Nat)
  | options (config : Config)
  | progress (stats : Stats)
  | iterationLimit
  | counter (name : String) (value : Nat)
deriving DecidableEq, Repr

namespace Notice

def severity : Notice → Severity
  | pushed _ | replayed _ | decided _ | staysAsleep _ _ => .trace
  | raceFound _ _ _ | marked _ _ | allAsleep _ | options _ => .debug
  | _ => .info

def text : Notice → String
  | pushed level => "push " ++ level.text
  | replayed level => "replay " ++ level.text
  | decided level => level.text
  | staysAsleep thread step => thread.text ++ " stays asleep at step " ++ step.text
  | raceFound race first second =>
    "race " ++ race.text ++ " between " ++ first.text ++ " and " ++ second.text
  | marked thread step => "backtrack point " ++ thread.text ++ " added at step " ++ step.text
  | allAsleep steps => "all enabled schedulables are asleep at step " ++ Nat.repr steps
  | noRace => "no race to reverse, starting from scratch"
  | reversing race thread races =>
    "reversing race " ++ race.text ++ " (" ++ thread.text ++ " of " ++ Nat.repr races ++ ")"
  | reversalLimit limit => Nat.repr limit ++ " race reversals done, starting from scratch"
  | complete iterations =>
    "exploration complete after " ++ Nat.repr iterations ++ " iterations"
  | exploring description seed => description ++ " exploration with seed " ++ Nat.repr seed
  | options config => "config: " ++ config.text
  | progress stats =>
    Nat.repr stats.iterations ++ " iterations: " ++ Nat.repr stats.finished ++ " complete, " ++
      Nat.repr stats.blocked ++ " blocked, " ++ Nat.repr stats.allAsleep ++
      " sleep-set blocked, " ++ Nat.repr stats.stepLimit ++ " step-limited"
  | iterationLimit => "Stopping exploration because max_iterations was reached."
  | counter name value => name ++ ": " ++ Nat.repr value

/-- The severity and the wording. -/
def line (n : Notice) : String := n.severity.name ++ " " ++ n.text

/-- The lines of the notices that are as severe as `least` or more so. -/
def lines (least : Severity) (notices : List Notice) : List String :=
  (notices.filter fun n => n.severity.rank ≤ least.rank).map line

end Notice

end Interleaving
