import Interleaving.Draw

/-!
# Races and their reversal

## Main definitions

* `Event` — a step with the thread that made it.
* `Race` — two steps of different threads whose order could have been the other one.
* `Directive` — one decision of the schedule that reverses a race.
-/

namespace Interleaving

structure Event where
  thread : ThreadId
  index : Step
deriving DecidableEq, Repr, Inhabited

namespace Event

def text (e : Event) : String := "(" ++ e.thread.text ++ ", " ++ e.index.text ++ ")"

def fieldNames : List String := ["thread", "index"]

def toJson (e : Event) : Json := .obj [("thread", e.thread.toJson), ("index", e.index.toJson)]

def ofJson? (j : Json) : Option Event :=
  match j.fields? fieldNames with
  | some [thread, index] => do
    return {
      thread := ← Json.required? ThreadId.ofJson? thread
      index := ← Json.required? Step.ofJson? index }
  | _ => none

end Event

/-- Two steps of different threads that act on the same object and are not ordered by what
happens between them: the earlier could have come after the later. -/
structure Race where
  earlier : Step
  later : Step
deriving DecidableEq, Repr, Inhabited

namespace Race

def text (r : Race) : String := r.earlier.text ++ " <-> " ++ r.later.text

def fieldNames : List String := ["earlier", "later"]

def toJson (r : Race) : Json := .obj [("earlier", r.earlier.toJson), ("later", r.later.toJson)]

def ofJson? (j : Json) : Option Race :=
  match j.fields? fieldNames with
  | some [earlier, later] => do
    return {
      earlier := ← Json.required? Step.ofJson? earlier
      later := ← Json.required? Step.ofJson? later }
  | _ => none

end Race

/-- The thread to run, and the values it drew when it ran before. -/
structure Directive where
  thread : ThreadId
  draws : List Draw
deriving DecidableEq, Repr, Inhabited

namespace Directive

def text (d : Directive) : String := d.thread.text ++ ":" ++ Draw.listText d.draws

def fieldNames : List String := ["thread", "nondet_choices"]

def toJson (d : Directive) : Json :=
  .obj [("thread", d.thread.toJson), ("nondet_choices", .arr (d.draws.map Draw.toJson))]

def ofJson? (j : Json) : Option Directive :=
  match j.fields? fieldNames with
  | some [thread, draws] => do
    return {
      thread := ← Json.required? ThreadId.ofJson? thread
      draws := ← Json.required? (Json.list? Draw.ofJson?) draws }
  | _ => none

end Directive

end Interleaving
