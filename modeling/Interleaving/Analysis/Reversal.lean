import Interleaving.Analysis.Walk

/-!
# Reversal of a race

In random mode one of the races is picked. The schedule is cut back to before its earlier step,
and the directives for what follows run what does not happen after that step, then the later step
of the race, then the earlier. Threads whose creation falls away are missing from there on, so
the threads after them are numbered anew.

## Main definitions

* `Analysis.directive` — one step of the schedule as a directive.
* `Workspace.reverse` — picks a race and gives the directives that reverse it.
* `Workspace.analyse` — the whole analysis.
-/

namespace Interleaving

namespace Analysis

/-- The number that a thread has when the missing threads are not created. -/
def renumber (a : Analysis) (t : ThreadId) : ThreadId := t - a.missing.countP (· ≤ t)

/-- Runs the thread selected at a level, under its new number and with the values it drew. -/
def directive (a : Analysis) (l : Level) : Except Fault Directive := do
  return ⟨a.renumber (← l.selection), l.draws⟩

/-- Adds a thread to those that are missing. -/
def addMissing (a : Analysis) (t : ThreadId) : Except Fault Analysis :=
  if t ∈ a.missing then .error (.alreadyMissing t)
  else .ok { a with missing := a.missing.takeWhile (· < t) ++ t :: a.missing.dropWhile (· < t) }

end Analysis

namespace Workspace

/-- Adds the directive for a step to `kept`, unless the step happens after the event `first`. Then
the step falls away, and with it the thread that it would create. -/
def keep (first : Event) : List Step → List Directive → Action Workspace (List Directive)
  | [], kept => return kept
  | i :: rest, kept => do
    let w ← Action.get
    let l ← Action.lift (w.schedule.level i)
    if w.analysis.happensBefore first i then
      let e ← Action.lift l.selectedEntry
      if e.op = .create then
        let analysis ← Action.lift (w.analysis.addMissing l.entries.length)
        Action.set { w with analysis }
      keep first rest kept
    else
      let d ← Action.lift (w.analysis.directive l)
      keep first rest (kept ++ [d])

/-- The directives that run the later step of a race before the earlier one. -/
def reversal (race : Race) : Action Workspace (List Directive) := do
  let w ← Action.get
  let t ← Action.lift (do (← w.schedule.level race.earlier).selection)
  Action.notify [.reversing race t w.analysis.races.length]
  let kept ← keep ⟨t, race.earlier⟩ (List.range' race.earlier (race.later - race.earlier)) []
  let w ← Action.get
  let later ← Action.lift (do w.analysis.directive (← w.schedule.level race.later))
  let earlier ← Action.lift (do w.analysis.directive (← w.schedule.level race.earlier))
  Action.set (w.modifySchedule (·.cut race.earlier.position))
  return kept ++ [later, earlier]

/-- Picks one of the races found and gives the directives that reverse it; the schedule is cut
back to before the race. If there is no race, nothing of the schedule is kept. -/
def reverse (g : Pcg) : Action Workspace (List Directive) := do
  let w ← Action.get
  if w.analysis.races.isEmpty then
    Action.notify [.noRace]
    Action.set (w.modifySchedule (·.clear))
    return []
  else
    let (i, g) := g.below 64 w.analysis.races.length
    Action.set { w with generator := some g }
    match w.analysis.races[i]? with
    | some race => reversal race
    | none => return []

/-- Analyses the schedule. In depth-first mode this marks backtrack points; in random mode it
gives the directives of the next iteration. -/
def analyse : Action Workspace (List Directive) := do
  walk
  let w ← Action.get
  match w.generator with
  | some g => reverse g
  | none => return []

end Workspace

end Interleaving
