import Interleaving.Proofs.ActorRuns

/-!
# What the actors of a run do

The number of an actor says when it was created, and differs from run to run. Its origin says by
whom: it was one of the first actors, or it is the first, second, … that another one created. A deed
is a move with the origin of the actor that makes it.

## Main definitions

* `Origin` — how an actor came about.
* `deeds` — the moves of a run with the origins of their actors.

## Main statements

* `getElem?_deeds` — the deed of a step.
-/

namespace Interleaving

namespace Actors

/-- How an actor came about. -/
inductive Origin where
  /-- It was there at the start, at a place among the first actors. -/
  | initial (place : Nat)
  /-- Another one created it, after so many others. -/
  | created (creator : Origin) (place : Nat)
deriving DecidableEq, Repr

/-- The origin of an actor, and the number of actors that it created. -/
structure Lineage where
  origin : Origin
  children : Nat := 0
deriving DecidableEq, Repr

namespace Lineage

/-- The lineage of an actor after it ran an instruction. -/
def after (l : Lineage) : Instruction → Lineage
  | .create _ => { l with children := l.children + 1 }
  | _ => l

/-- The lineages of the actors that an actor creates by an instruction. -/
def offspring (l : Lineage) : Instruction → List Lineage
  | .create _ => [⟨.created l.origin l.children, 0⟩]
  | _ => []

theorem length_offspring (l : Lineage) (i : Instruction) :
    (l.offspring i).length = i.created.length := by
  cases i <;> rfl

end Lineage

/-- The lineages of the first actors. -/
def founders (n : Nat) : List Lineage := (List.range n).map fun place => ⟨.initial place, 0⟩

/-- The lineages of the actors after a move. -/
def enrol (lines : List Lineage) (x : Move) : List Lineage :=
  match lines[x.thread]? with
  | some l => lines.set x.thread (l.after x.instruction) ++ l.offspring x.instruction
  | none => lines

/-- The lineages of the actors after some moves. -/
def lineages (lines : List Lineage) (xs : List Move) : List Lineage := xs.foldl enrol lines

/-- What an actor does in one step. -/
structure Deed where
  actor : Option Origin
  instruction : Instruction
  toss : Option Bool

/-- The deed of a move. -/
def deed (lines : List Lineage) (x : Move) : Deed :=
  ⟨lines[x.thread]?.map Lineage.origin, x.instruction, x.toss⟩

/-- The deeds of a run. -/
def deeds (lines : List Lineage) : List Move → List Deed
  | [] => []
  | x :: xs => deed lines x :: deeds (enrol lines x) xs

variable {lines : List Lineage}

theorem length_deeds (lines : List Lineage) (xs : List Move) :
    (deeds lines xs).length = xs.length := by
  induction xs generalizing lines with
  | nil => rfl
  | cons x xs ih => simp [deeds, ih]

theorem lineages_append (xs ys : List Move) :
    lineages lines (xs ++ ys) = lineages (lineages lines xs) ys := List.foldl_append

theorem deeds_append (xs ys : List Move) :
    deeds lines (xs ++ ys) = deeds lines xs ++ deeds (lineages lines xs) ys := by
  induction xs generalizing lines with
  | nil => rfl
  | cons x xs ih => simp [deeds, lineages, ih]

theorem deeds_snoc (xs : List Move) (x : Move) :
    deeds lines (xs ++ [x]) = deeds lines xs ++ [deed (lineages lines xs) x] := deeds_append xs [x]

theorem getElem?_deeds (xs : List Move) (k : Nat) :
    (deeds lines xs)[k]? = xs[k]?.map (deed (lineages lines (xs.take k))) := by
  induction xs generalizing lines k with
  | nil => simp [deeds]
  | cons x xs ih =>
    cases k with
    | zero => rfl
    | succ k => simpa [deeds, lineages] using ih k

theorem deeds_isPrefix {xs ys : List Move} (h : xs <+: ys) : deeds lines xs <+: deeds lines ys := by
  obtain ⟨rest, rfl⟩ := h
  rw [deeds_append]
  exact List.prefix_append _ _

theorem enrol_eq {x : Move} {l : Lineage} (h : lines[x.thread]? = some l) :
    enrol lines x = lines.set x.thread (l.after x.instruction) ++ l.offspring x.instruction := by
  simp [enrol, h]

/-- Every actor of a run has a lineage. -/
theorem length_lineages {m : Machine} (orderly : m.Orderly) (hm : lines.length = m.actors.length)
    {xs : List Move} (h : m.Executes xs) :
    (lineages lines xs).length = (m.moves xs).actors.length := by
  induction xs generalizing m lines with
  | nil => exact hm
  | cons x xs ih =>
    obtain ⟨rest, hadvanced⟩ := h.1.advanced orderly
    have hlt := (List.getElem?_eq_some_iff.1 hadvanced.next).1
    have hl : lines[x.thread]? = some lines[x.thread] := List.getElem?_eq_getElem (hm ▸ hlt)
    refine ih hadvanced.orderly ?_ h.2
    simp [enrol_eq hl, hadvanced.actors, hm, Lineage.length_offspring]

end Actors

end Interleaving
