import Interleaving.Analysis.Reversal
import Interleaving.Schedule.Rewind
import Interleaving.Scheduler.Decision

/-!
# From one iteration to the next

## Main definitions

* `Scheduler.prepare` — ends an iteration, and tells whether there is another.
* `Scheduler.reset` — forgets what was explored.
-/

namespace Interleaving

namespace Scheduler

/-- Analyses the finished schedule. Without analysis nothing of a random schedule is kept. -/
def analyse : Action Scheduler Unit := do
  let s ← Action.get
  match s.analysis with
  | some analysis =>
    let replay ← Action.within (fun s => ⟨analysis, s.schedule, s.generator⟩)
      (fun w s => { s with
        analysis := some w.analysis, schedule := w.schedule, generator := w.generator })
      Workspace.analyse
    Action.modify fun s => { s with replay, replayed := 0 }
    let s ← Action.get
    count .races (s.analysis.elim 0 (·.races.length))
  | none => if s.randomized then onSchedule (Action.modify Schedule.clear)

/-- In random mode, starts afresh when there were enough reversals in a row. -/
def limitReversals : Action Scheduler Unit := do
  let s ← Action.get
  match s.generator, s.reversalLimit with
  | some _, some limit =>
    if limit ≤ s.reversals + 1 then
      Action.notify [.reversalLimit limit]
      Action.set { s with reversals := 0 }
      abandon false
    else Action.set { s with reversals := s.reversals + 1 }
  | _, _ => return ()

/-- Ends an iteration, and tells whether there is anything left to explore. -/
def prepare : Action Scheduler Bool := do
  Action.modify fun s =>
    { s with
      iterations := s.iterations + 1
      counters := (s.counters.add .iterations 1).raise .steps s.steps }
  analyse
  onSchedule Schedule.rewind
  limitReversals
  let s ← Action.get
  let more := s.randomized || s.schedule.size != 0
  if !more then Action.notify [.complete s.iterations]
  return more

/-- Forgets what was explored. The generator goes on from where it is. -/
def reset (s : Scheduler) : Scheduler :=
  { s with
    schedule := s.schedule.clear
    replay := []
    replayed := 0
    reversals := 0
    iterations := 0
    counters := ∅ }

end Scheduler

end Interleaving
