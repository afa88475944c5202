import Interleaving.Snapshot

/-!
# Entries

An entry is what a decision keeps of one thread: the operation seen there, and whether the thread
is still to be explored.

## Main definitions

* `Entry` — a pending operation with the two marks of the exploration.
* `Entry.awake` — to be explored and not asleep.
-/

namespace Interleaving

structure Entry extends Pending where
  /-- Not to be run here: what it leads to was explored, or is explored elsewhere. -/
  asleep : Bool := false
  /-- To be run here by some iteration. -/
  marked : Bool := false
deriving DecidableEq, Repr, Inhabited

namespace Entry

/-- The entry of an operation just seen. -/
def capture (p : Pending) : Entry := { toPending := p }

/-- Marked for exploration and not asleep. -/
def awake (e : Entry) : Bool := e.marked && !e.asleep

/-- Enabled and not asleep. -/
def available (e : Entry) : Bool := e.enabled && !e.asleep

def mark (e : Entry) : Entry := { e with marked := true }

def putToSleep (e : Entry) : Entry := { e with asleep := true }

def text (e : Entry) : String := e.toPending.text

def fieldNames : List String :=
  ["id", "enabled", "sleep", "backtrack", "op", "target_type", "target_id", "send_step"]

def toJson (e : Entry) : Json :=
  .obj [("id", e.thread.toJson), ("enabled", .bool e.enabled), ("sleep", .bool e.asleep),
    ("backtrack", .bool e.marked), ("op", e.op.toJson), ("target_type", e.kind.toJson),
    ("target_id", .option Json.nat e.target), ("send_step", .option Step.toJson e.sendStep)]

def ofJson? (j : Json) : Option Entry :=
  match j.fields? fieldNames with
  | some [thread, enabled, asleep, marked, op, kind, target, sendStep] => do
    return {
      thread := ← Json.required? ThreadId.ofJson? thread
      enabled := ← Json.required? Json.bool? enabled
      asleep := ← Json.required? Json.bool? asleep
      marked := ← Json.required? Json.bool? marked
      op := ← Json.required? Operation.ofJson? op
      kind := ← Json.required? TargetKind.ofJson? kind
      target := ← Json.optional? (Json.natBelow? wordBound) target
      sendStep := ← Json.optional? Step.ofJson? sendStep }
  | _ => none

/-- The entry with some fields of its written form replaced, if that is the form of an entry. -/
def amend? (changes : List (String × Json)) (e : Entry) : Option Entry :=
  ofJson? (e.toJson.amend changes)

@[simp] theorem toPending_capture (p : Pending) : (capture p).toPending = p := rfl

@[simp] theorem asleep_capture (p : Pending) : (capture p).asleep = false := rfl

@[simp] theorem marked_capture (p : Pending) : (capture p).marked = false := rfl

@[simp] theorem toPending_mark (e : Entry) : e.mark.toPending = e.toPending := rfl

@[simp] theorem toPending_putToSleep (e : Entry) : e.putToSleep.toPending = e.toPending := rfl

end Entry

end Interleaving
