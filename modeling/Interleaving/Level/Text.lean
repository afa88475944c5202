import Interleaving.Level.Basic

/-!
# Written levels

## Main definitions

* `Level.text` — what a level shows in notices.
* `Level.toJson`, `Level.ofJson?` — its written form.
* `Level.summary` — one letter or number for each thing it holds.
-/

namespace Interleaving

namespace Level

/-- The entries that `keep` keeps, the selected one starred. -/
def showEntries (l : Level) (keep : Entry → Bool) : String :=
  let one (e : Entry) := (if l.selected = some e.thread then "*" else "") ++ e.text ++ " "
  "[" ++ String.join ((l.entries.filter keep).map one) ++ "]"

/-- What is enabled, selected and marked at a level, and what was drawn. -/
def text (l : Level) : String :=
  l.step.text ++ ": enabled " ++ l.showEntries (·.enabled) ++ " selected " ++
    (match l.selected.bind (l.entries[·]?) with
      | some e => e.text
      | none => "-") ++
    " backtrack " ++ l.showEntries (·.marked) ++
    (if l.draws.isEmpty then ""
      else " nondet [" ++ ", ".intercalate (l.draws.map fun d => Nat.repr d.value) ++ "]")

def fieldNames : List String := ["step", "entries", "selected", "nondet", "next_nondet"]

def toJson (l : Level) : Json :=
  .obj [("step", l.step.toJson), ("entries", .arr (l.entries.map Entry.toJson)),
    ("selected", .option ThreadId.toJson l.selected), ("nondet", .arr (l.draws.map Draw.toJson)),
    ("next_nondet", .nat l.cursor)]

def ofJson? (j : Json) : Option Level :=
  match j.fields? fieldNames with
  | some [step, entries, selected, draws, cursor] => do
    return {
      step := ← Json.required? Step.ofJson? step
      entries := ← Json.required? (Json.list? Entry.ofJson?) entries
      selected := ← Json.optional? ThreadId.ofJson? selected
      draws := ← Json.required? (Json.list? Draw.ofJson?) draws
      cursor := ← Json.required? (Json.natBelow? longBound) cursor }
  | _ => none

/-- The level with some fields of its written form replaced, if that is the form of a level. -/
def amend? (changes : List (String × Json)) (l : Level) : Option Level :=
  ofJson? (l.toJson.amend changes)

end Level

/-- The letters of what holds of an entry: enabled, asleep, marked. -/
def Entry.flags (e : Entry) : String :=
  let letters := (if e.enabled then "e" else "") ++ (if e.asleep then "s" else "") ++
    (if e.marked then "b" else "")
  if letters.isEmpty then "-" else letters

/-- The step, the selected thread, the flags of the entries, the draws and the cursor. -/
def Level.summary (l : Level) : String :=
  "|".intercalate [l.step.text, (match l.selected with
    | some t => t.text
    | none => "-"), ",".intercalate (l.entries.map Entry.flags), Draw.listText l.draws,
    Nat.repr l.cursor]

end Interleaving
