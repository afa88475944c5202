import Interleaving.Analysis.Basic

/-!
# Backtrack points of races

To reverse the race of a step with a later one in depth-first mode, one thread is marked at the
earlier step: a thread that could have run there and whose first step from there on does not
happen after the earlier step or after another such step.

## Main definitions

* `Workspace.candidates` — the threads that could reverse a race.
* `Workspace.preferred?` — the one among them that is taken.
* `Workspace.addBacktrackPoint` — marks it, unless a candidate is marked already.
-/

namespace Interleaving

/-- The state of the search for candidates. -/
structure Search where
  /-- The threads whose first step was not met yet. -/
  sought : List ThreadId
  /-- The steps that a candidate must not happen after. -/
  seen : List Event
  candidates : List ThreadId

namespace Search

/-- Meets step `k` of the thread `t`. -/
def meet (search : Search) (a : Analysis) (t : ThreadId) (k : Step) : Search :=
  if t ∈ search.sought then
    { sought := search.sought.filter (· ≠ t)
      seen := search.seen ++ [⟨t, k⟩]
      candidates :=
        if search.seen.any (a.happensBefore · k) then search.candidates
        else search.candidates ++ [t] }
  else search

/-- Meets the steps of a list until no thread is sought any more. -/
def run (w : Workspace) (search : Search) : List Step → Except Fault Search
  | [] => .ok search
  | k :: rest =>
    if search.sought.isEmpty then .ok search
    else do
      let t ← (← w.schedule.level k).selection
      run w (search.meet w.analysis t k) rest

end Search

namespace Workspace

/-- Whether the thread `t` is to be sought from a level on: it could have run there, and it is
neither of the two that race. -/
def seeks (l : Level) (first second t : ThreadId) : Bool :=
  (l.entries.findRev? (·.thread == t)).any fun e =>
    e.thread != first && e.thread != second && e.runnable

/-- The threads that could run at the earlier step of a race to reverse it: the thread of the
later step if it could run there, and every thread that could run there whose first step after it
does not happen after the earlier step or the first step of a thread met before. -/
def candidates (w : Workspace) (race : Race) (first second : ThreadId) :
    Except Fault (List ThreadId) := do
  let l ← w.schedule.level race.earlier
  let own := if l.entries[second]?.any (·.runnable) then [second] else []
  let sought := (List.range w.analysis.clocks.width).filter (seeks l first second)
  let between := List.range' (race.earlier + 1) (race.later - (race.earlier + 1))
  let search ← Search.run w ⟨sought, [⟨first, race.earlier⟩], own⟩ between
  return search.candidates

/-- Of the candidates, in turn from `start`, a sleeping one, or else an enabled one, or else any.
A disabled one is a yield. -/
def preferred? (l : Level) (width : Nat) (candidates : List ThreadId) (start : ThreadId) :
    Option (Nat × Entry) :=
  let inTurn := (Level.turn start width).filterMap fun position =>
    l.entries[position]?.map fun e => (position, e)
  let fitting := inTurn.filter fun (_, e) => e.thread ∈ candidates
  (fitting.find? fun (_, e) => e.asleep) <|> (fitting.find? fun (_, e) => e.enabled) <|>
    fitting.head?

/-- Marks a candidate at the earlier step of a race, unless one is marked there. -/
def addBacktrackPoint (race : Race) (first second : ThreadId) : Action Workspace Unit := do
  let w ← Action.get
  let candidates ← Action.lift (w.candidates race first second)
  if candidates.isEmpty then Action.fail (.noCandidates race.earlier race.later)
  else
    let l ← Action.lift (w.schedule.level race.earlier)
    if l.entries.any fun e => e.thread ∈ candidates && e.marked then return ()
    else
      match preferred? l w.analysis.clocks.width candidates second with
      | some (position, e) =>
        Action.notify [.marked e.thread race.earlier]
        Action.set (w.modifySchedule
          (·.modifyLevel (·.modifyEntry position Entry.mark) race.earlier))
      | none => Action.fail (.notMarked race.earlier)

end Workspace

end Interleaving
