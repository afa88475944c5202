import Interleaving.Schedule.Basic

/-!
# Inherited sleep

A thread is put to sleep at a level once what it leads to was explored there. It stays asleep at
the levels above as long as nothing is run there that its operation depends on.
-/

namespace Interleaving

namespace Schedule

/-- The positions of the sleeping entries of a level that do not depend on the operation that was
run there. -/
def sleepers (l : Level) (executed : Entry) : List Nat :=
  (l.entries.zipIdx.filter fun (e, _) =>
    e.asleep && !e.toPending.dependent executed.toPending).map (·.2)

/-- A thread that is asleep at a level stays asleep at the next one as long as the operation run
in between is independent of its own: to run it there leads only to what was explored before. -/
def inheritSleep : Action Schedule Unit := do
  let s ← Action.get
  match s.below? with
  | none => return ()
  | some below =>
    let executed ← Action.lift below.selectedEntry
    let top ← Action.lift s.top
    let positions := sleepers below executed
    Action.notify (positions.filterMap fun i =>
      top.entries[i]?.map fun e => Notice.staysAsleep e.thread top.step)
    Action.set (s.modifyTop (·.putToSleep positions))

end Schedule

end Interleaving
