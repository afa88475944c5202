import Interleaving.Level.Draws
import Interleaving.Schedule.Sleep
import Interleaving.Scheduler.Basic

/-!
# Decisions

## Main definitions

* `Scheduler.abandon` — drops what is left to be replayed.
* `Scheduler.markTop` — marks what to explore at a new level.
* `Scheduler.settle` — selects the thread to run.
* `Scheduler.next` — decides which thread runs.
* `Scheduler.force` — makes a given thread run.
-/

namespace Interleaving

inductive Decision where
  | run (t : ThreadId)
  /-- Nothing is enabled. -/
  | deadlock
  /-- Something is enabled, but all of it is asleep. -/
  | allAsleep
deriving DecidableEq, Repr

def Decision.text : Decision → String
  | .run t => t.text
  | .deadlock => "Deadlock"
  | .allAsleep => "SleepSetBlocked"

namespace Scheduler

/-- Drops what is left to be replayed, so that the level visited last is the last one. With
`draws`, its draws that were not replayed are dropped, too. -/
def abandon (draws : Bool) : Action Scheduler Unit := do
  let s ← Action.get
  if s.randomized then
    if draws then onSchedule (Schedule.onTop fun top => return ((), top.dropDraws))
    Action.modify fun s =>
      { s with schedule := s.schedule.dropUnvisited, replay := [], replayed := 0 }
  else Action.fail .forcingUnsupported

/-- Follows a directive at a new level. -/
def follow (d : Directive) : Action Scheduler Unit := do
  onSchedule (Action.modify (·.modifyTop (·.restoreDraws d.draws)))
  onSchedule (Schedule.onTop fun top => do
    let e ← top.entry d.thread
    if e.runnable then return ((), top.modifyEntry d.thread Entry.mark)
    else throw (.reversalStuck d.thread e))
  Action.modify fun s => { s with replayed := s.replayed + 1 }

/-- Marks what to explore at a level that was just added. -/
def markTop (forced : Option ThreadId) (current : ThreadId) : Action Scheduler Unit := do
  let s ← Action.get
  let top ← Action.lift s.schedule.top
  match s.analysis, s.replay[s.replayed]?, forced, s.generator with
  | none, _, _, _ => onSchedule (Action.modify (·.modifyTop Level.markEnabled))
  | some _, some d, _, _ => follow d
  | some _, none, some t, _ =>
    onSchedule (Schedule.onTop fun top => return ((), ← top.markThread t))
  | some _, none, none, some g =>
    let (top, g) := top.markRandom g
    Action.set { s with schedule := s.schedule.modifyTop fun _ => top, generator := some g }
  | some _, none, none, none => onSchedule (Action.modify (·.modifyTop (·.markFirst current)))

/-- Visits the next level, and prepares it for the decision. -/
def visit (forced : Option ThreadId) (choices : Snapshot) (current : ThreadId) :
    Action Scheduler Unit := do
  let added ← onSchedule (Schedule.push choices.unstick)
  if added then
    let s ← Action.get
    if s.sleepSets then onSchedule Schedule.inheritSleep
    markTop forced current
  else onSchedule (Schedule.onTop fun top => return ((), top.rewindDraws))

/-- Selects the thread to run at the level visited last. -/
def settle (current : ThreadId) : Action Scheduler Decision := do
  let s ← Action.get
  match ← Action.lift (s.schedule.choose current) with
  | .allAsleep =>
    Action.notify [.allAsleep s.steps]
    return .allAsleep
  | .nothing => return .deadlock
  | .thread t =>
    let top ← Action.lift s.schedule.top
    if top.selected ≠ some t then onSchedule (Schedule.select t)
    let s ← Action.get
    let top ← Action.lift s.schedule.top
    let e ← Action.lift (top.entry t)
    if e.runnable then
      Action.notify [.decided top]
      return .run t
    else Action.fail (.notEnabled t)

/-- Decides which thread runs. Operation `i` of `choices` is that of thread `i`, and `current`
ran last. -/
def next (choices : Snapshot) (current : ThreadId) : Action Scheduler Decision := do
  visit none choices current
  settle current

/-- Makes the thread `t` run, whatever was to be replayed. -/
def force (t : ThreadId) (choices : Snapshot) (current : ThreadId) : Action Scheduler Unit := do
  abandon false
  visit (some t) choices current
  if (← settle current) = .run t then count .forced 1 else Action.fail (.forcingRefused t)

end Scheduler

end Interleaving
