import Interleaving.Actors.Machine

/-!
# Explorations of actors

The iterations of an exploration may run different scripts: iteration `k` runs the `k`-th list of
scripts, and the last list is run by all later ones.

## Main definitions

* `Campaign` — the scripts, and the threads to be forced.
* `Campaign.explore` — the exploration with all its executions.
-/

namespace Interleaving

namespace Actors

structure Campaign where
  variants : List (List Script)
  forces : List Force := []

namespace Campaign

/-- The scripts of an iteration, counted from zero. -/
def scripts (c : Campaign) (iteration : Nat) : List Script :=
  c.variants[min iteration (c.variants.length - 1)]?.getD []

/-- The machine of an iteration, counted from zero; forces count iterations from one. -/
def machine (c : Campaign) (iteration : Nat) : Machine :=
  { actors := c.scripts iteration
    forces := c.forces.filter (·.iteration == iteration + 1) }

/-- Executes the scripts of one iteration after the other. -/
def program (c : Campaign) : Action (Scheduler × Array (Execution Machine)) Ending :=
  Machine.client.program c.machine Machine.budget

/-- Explores the scripts; no more than `fuel` iterations are made. -/
def explore (c : Campaign) (config : Config) (fuel : Nat) :
    Outcome (Array (Execution Machine)) (Option Stats) :=
  Interleaving.explore config c.program fuel #[]

end Campaign

end Actors

end Interleaving
