import Interleaving.Operation

/-!
# Snapshots

At every decision the program shows the next operation of each of its threads.

## Main definitions

* `Pending` — the next operation of one thread.
* `Pending.dependent` — whether the order of two operations may matter.
* `Snapshot` — the next operations of all threads, that of thread `i` at position `i`.
* `Snapshot.unstick` — enables the operations that may run when nothing else can.
-/

namespace Interleaving

/-- The next operation of one thread. -/
structure Pending where
  thread : ThreadId
  enabled : Bool
  op : Operation
  kind : TargetKind := .thread
  /-- Missing where the object does not exist yet, as for a thread to be created. -/
  target : Option Nat := none
  /-- Of a receive: the step that sent the message to be received. -/
  sendStep : Option Step := none
deriving DecidableEq, Repr, Inhabited

namespace Pending

/-- Enabled, or a yield, which gets enabled when nothing else can run. -/
def runnable (p : Pending) : Bool := p.enabled || p.op == .yield

/-- Whether two sightings of a thread show the same operation. Whether a yield is enabled hangs on
the other threads, so it is not compared. -/
def agrees (p q : Pending) : Bool :=
  p.thread == q.thread && p.op == q.op && p.kind == q.kind && p.target == q.target &&
    p.sendStep == q.sendStep && (p.op == .yield || p.enabled == q.enabled)

/-- Whether swapping two operations may change what the program observes.

Waiting for quiescence depends on everything. Apart from it, operations depend on each other only
if they act on the same object, and then two sends do, two receives do, and two operations of a
thread's life do. A send and a receive do not: what is received was sent before. -/
def dependent (p q : Pending) : Bool :=
  if p.op = .quiesce ∨ q.op = .quiesce then true
  else
    match p.target, q.target with
    | some a, some b =>
      a == b && p.kind == q.kind &&
        ((p.op == .send && q.op == .send) || (p.op == .receive && q.op == .receive) ||
          (p.op.isLifecycle && q.op.isLifecycle))
    | _, _ => false

/-- A thread, what it is about to do to which object, and what else is to be known of it. -/
def text (p : Pending) : String :=
  "(" ++ p.thread.text ++ ", " ++ p.op.name ++ ", " ++ p.kind.name ++ "-" ++
    (match p.target with
      | some target => Nat.repr target
      | none => "_") ++
    (match p.sendStep with
      | some step => ", send@" ++ step.text
      | none => "") ++
    (if p.enabled then "" else ", disabled") ++ ")"

def fieldNames : List String := ["id", "enabled", "op", "target_type", "target_id", "send_step"]

def toJson (p : Pending) : Json :=
  .obj [("id", p.thread.toJson), ("enabled", .bool p.enabled), ("op", p.op.toJson),
    ("target_type", p.kind.toJson), ("target_id", .option Json.nat p.target),
    ("send_step", .option Step.toJson p.sendStep)]

def ofJson? (j : Json) : Option Pending :=
  match j.fields? fieldNames with
  | some [thread, enabled, op, kind, target, sendStep] => do
    return {
      thread := ← Json.required? ThreadId.ofJson? thread
      enabled := ← Json.required? Json.bool? enabled
      op := ← Json.required? Operation.ofJson? op
      kind := ← Json.required? TargetKind.ofJson? kind
      target := ← Json.optional? (Json.natBelow? wordBound) target
      sendStep := ← Json.optional? Step.ofJson? sendStep }
  | _ => none

end Pending

/-- The next operations of all threads. -/
abbrev Snapshot := List Pending

namespace Snapshot

/-- Enables every operation of the kind `op`. -/
def enable (op : Operation) (snapshot : Snapshot) : Snapshot :=
  snapshot.map fun p => if p.op = op then { p with enabled := true } else p

/-- If nothing is enabled, enables the yields, or failing these the waits for quiescence, so that
the program has something to go on with. -/
def unstick (snapshot : Snapshot) : Snapshot :=
  if snapshot.any (·.enabled) then snapshot
  else if snapshot.any (·.op == .yield) then snapshot.enable .yield
  else if snapshot.any (·.op == .quiesce) then snapshot.enable .quiesce
  else snapshot

end Snapshot

end Interleaving
