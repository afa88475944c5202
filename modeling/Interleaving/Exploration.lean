import Interleaving.Scheduler.Call

/-!
# Explorations

An exploration executes a program again and again, each time under another schedule, until none
is left or enough iterations were made. The program is an action that executes it once and tells
how it ended; it may keep a state of its own.

## Main definitions

* `Exploration.iterate` — one iteration, and whether there is to be another.
* `Exploration.run` — iterations until there is to be no other.
* `explore` — a whole exploration.
-/

namespace Interleaving

namespace Exploration

variable {ω α : Type}

/-- An action of the scheduler. -/
def onScheduler : Action Scheduler α → Action (Scheduler × ω) α :=
  Action.within Prod.fst fun s w => (s, w.2)

/-- Reports the progress of an exploration after some iterations. -/
def report (c : Config) : Action (Scheduler × ω) Unit := do
  let (s, _) ← Action.get
  if c.reportsAt s.iterations then Action.notify [.progress s.stats]

/-- Executes the program once and prepares the next iteration. Tells whether there is to be one. -/
def iterate (c : Config) (program : Action (Scheduler × ω) Ending) :
    Action (Scheduler × ω) Bool := do
  let ending ← program
  onScheduler (Scheduler.count (.ended ending) 1)
  let more ← onScheduler Scheduler.prepare
  report c
  let (s, _) ← Action.get
  if !more then return false
  else if c.maxIterations.any fun limit => limit ≤ s.iterations then
    Action.notify [.iterationLimit]
    return false
  else return true

/-- Iterates until there is to be no other iteration, and gives `false` if `fuel` of them are not
enough. -/
def run (c : Config) (program : Action (Scheduler × ω) Ending) :
    Nat → Action (Scheduler × ω) Bool
  | 0 => return false
  | fuel + 1 => do
    if ← iterate c program then run c program fuel else return true

/-- The counters with their values, in the order of their names. -/
def counterNotices (counters : Counters) : List Notice :=
  counters.toList.map fun (name, value) => .counter name value

end Exploration

/-- Explores a program under the options `c`. If `fuel` iterations do not come to an end, there is
no result. -/
def explore {ω : Type} (c : Config) (program : Action (Scheduler × ω) Ending) (fuel : Nat) :
    Action ω (Option Stats) := fun w =>
  let body : Action (Scheduler × ω) (Option Stats) := do
    let (s, _) ← Action.get
    Action.notify [.exploring s.description c.seed, .options c]
    if ← Exploration.run c program fuel then
      let (s, _) ← Action.get
      Action.notify (Exploration.counterNotices s.counters)
      return some s.stats
    else return none
  let o := body (Scheduler.new c, w)
  ⟨o.result, o.state.2, o.notices⟩

end Interleaving
