import Interleaving.Level.Draws
import Interleaving.Schedule.Basic

/-!
# The next schedule

After an iteration the levels with nothing left to explore are dropped from the end. The next
iteration replays the levels that stay and takes another alternative at the last of them.
-/

namespace Interleaving

namespace Schedule

/-- Of levels, the last one first: drops those with nothing left to explore, and goes on to the
next alternative of the first that has one. -/
def dropExplored : List Level → List Level × Except Fault Unit
  | [] => ([], .ok ())
  | l :: rest =>
    match l.advance with
    | (_, .ok false) => dropExplored rest
    | (l, .ok true) => (l :: rest, .ok ())
    | (l, .error fault) => (l :: rest, .error fault)

/-- Of levels, the last one first: drops the first if nothing was selected there. -/
def dropUnselected : List Level → List Level
  | [] => []
  | l :: rest => if l.selected.isNone then rest else l :: rest

/-- Goes back to the start so that the next iteration replays the levels and then takes an
alternative that was not explored. At random, the levels were cut back before and stay. -/
def rewind : Action Schedule Unit := fun s =>
  if s.randomized then ⟨.ok (), { s with visited := 0 }, []⟩
  else
    match dropExplored (dropUnselected s.levels.reverse) with
    | (levels, .ok ()) => ⟨.ok (), { s with levels := levels.reverse, visited := 0 }, []⟩
    | (levels, .error fault) => ⟨.error fault, { s with levels := levels.reverse }, []⟩

end Schedule

end Interleaving
