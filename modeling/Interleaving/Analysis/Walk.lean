import Interleaving.Analysis.Backtracking

/-!
# The walk over a schedule

A step is ordered after

* the step before it of its own thread,
* the last step in the life of its target, if it is one in that life itself,
* the last send to its target, if it is a send and the mode is depth-first,
* the send of the message, if it is a receive,
* the last step of every thread, if it waits for quiescence.

Where a send would be ordered after a send of another thread that does not happen before it, the
two race. In depth-first mode a race adds a backtrack point; in random mode a send races with
every earlier send to its target that does not happen before it.

## Main definitions

* `Workspace.visit` — one step of the walk.
* `Workspace.walk` — the walk, from fresh tables.
-/

namespace Interleaving

namespace Workspace

/-- In random mode: the races of a send with those before it to the same target. -/
def addRaces (b : Step) (e : Entry) (a : Step) : Action Workspace Unit := do
  let w ← Action.get
  let first := (e.target.bind (w.analysis.firstSend[·]?)).getD a
  Action.each (fun j => do
    let w ← Action.get
    let d ← Action.lift (w.executed j)
    if d.op = .send ∧ d.target = e.target ∧ d.thread ≠ e.thread ∧
        !w.analysis.happensBefore ⟨d.thread, j⟩ b then
      Action.notify [.raceFound ⟨j, b⟩ d.thread e.thread]
      Action.set (w.addRace ⟨j, b⟩)) (List.range' first (b - first))

/-- Deals with the race of step `b`, which runs `e`, and the step `a` that it is to be ordered
after. They race only if both are sends and `a` does not happen before `b`. -/
def detect (b : Step) (e : Entry) (a : Step) : Action Workspace Unit := do
  let w ← Action.get
  let d ← Action.lift (w.executed a)
  if w.analysis.happensBefore ⟨d.thread, a⟩ b || !(d.op == .send && e.op == .send) then return ()
  else if w.randomized then addRaces b e a
  else
    Action.notify [.raceFound ⟨a, b⟩ d.thread e.thread]
    Action.set (w.addRace ⟨a, b⟩)
    addBacktrackPoint ⟨a, b⟩ d.thread e.thread

/-- The target of the operation run at step `i`. A thread that is created is the next to appear. -/
def target? (w : Workspace) (i : Step) (l : Level) (e : Entry) : Option Nat :=
  if e.op = .create ∧ i < w.schedule.size then some l.entries.length else e.target

/-- Orders step `b`, which runs `e`, after step `a`, and deals with the race if they race. -/
def order (b : Step) (e : Entry) (a : Step) : Action Workspace Unit := do
  if b ≤ a then Action.fail (.stepOutOfRange a)
  else
    detect b e a
    Action.modify fun w =>
      if w.randomized && e.op == .send then w else w.modifyAnalysis (·.join b a)

/-- Gives step `i` its clock. -/
def visit (i : Step) : Action Workspace Unit := do
  let w ← Action.get
  let l ← Action.lift (w.schedule.level i)
  let e ← Action.lift l.selectedEntry
  let w := w.modifyAnalysis (·.begin i e.thread)
  if e.op = .quiesce then Action.set (w.modifyAnalysis (·.quiesce i e.thread))
  else
    match w.target? i l e with
    | none => Action.set w
    | some target =>
      let (analysis, last) := w.analysis.access i e.op target e.sendStep
      Action.set { w with analysis }
      match last with
      | none => return ()
      | some a => order i e a

/-- Gives every step of the schedule its clock. -/
def walk : Action Workspace Unit := do
  let w ← Action.get
  Action.set (w.modifyAnalysis (·.reset w.steps w.threads))
  Action.each visit (List.range' 1 w.steps)

end Workspace

end Interleaving
