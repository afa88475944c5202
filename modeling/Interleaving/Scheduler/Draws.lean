import Interleaving.Scheduler.Decision

/-!
# Draws of the running thread

## Main definitions

* `Scheduler.drawBool`, `Scheduler.drawInt` — a value for the thread that runs.
* `Scheduler.forceDraw` — a given value for it.
-/

namespace Interleaving

namespace Scheduler

/-- The next value of the given kind, replayed or fresh. -/
def draw (kind : DrawKind) (bound : Nat) : Action Scheduler Nat := do
  let s ← Action.get
  let top ← Action.lift s.schedule.top
  let (v, top, generator) ← Action.lift (top.draw kind bound s.generator)
  Action.set { s with schedule := s.schedule.modifyTop fun _ => top, generator }
  return v

def drawBool : Action Scheduler Bool := do return (← draw .bool 2) == 1

/-- A number below `bound`, or zero if that is the bound. -/
def drawInt (bound : Nat) : Action Scheduler Nat := draw .int bound

/-- Makes a given value the next one drawn. -/
def forceDraw (d : Draw) : Action Scheduler Unit := do
  abandon true
  onSchedule (Schedule.onTop fun top => return ((), top.record d))
  count .forced 1

end Scheduler

end Interleaving
