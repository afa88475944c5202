import Interleaving.Actors.Script
import Interleaving.Client

/-!
# The machine that runs actors

Actor `i` is thread `i`. The machine shows what every actor is about to do, and executes one
instruction of the actor that is to run.

## Main definitions

* `Machine` — the actors, the messages under way, and what was seen so far.
* `Machine.snapshot` — the next operations of the actors.
* `Machine.step` — one instruction of an actor.
* `Machine.client` — the machine as a client of the scheduler.
-/

namespace Interleaving

namespace Actors

structure Message where
  inbox : Nat
  step : Step
  sender : ThreadId
deriving DecidableEq, Repr

/-- What an execution shows. -/
inductive Observation where
  | received (receiver sender : ThreadId)
  | tossed (thread : ThreadId) (value : Bool)
  | rolled (thread : ThreadId) (value : Nat)
deriving DecidableEq, Repr

def Observation.text : Observation → String
  | .received receiver sender => Nat.repr receiver ++ "<" ++ Nat.repr sender
  | .tossed thread value => Nat.repr thread ++ "=" ++ (if value then "true" else "false")
  | .rolled thread value => Nat.repr thread ++ "=" ++ Nat.repr value

/-- Makes a thread run at a step of an iteration. -/
structure Force where
  iteration : Nat
  step : Step
  thread : ThreadId
deriving DecidableEq, Repr

/-- What the instruction just run has still to ask for. -/
inductive Demand where
  | toss
  | roll (bound : Nat)
  | record (d : Draw)
deriving DecidableEq, Repr

structure Machine where
  /-- What is left of the scripts. -/
  actors : List Script
  /-- The messages that were sent and not received, the oldest first. -/
  messages : List Message := []
  /-- The threads forced in this execution, by their steps. -/
  forces : List Force := []
  /-- The thread that ran last. -/
  current : ThreadId := ThreadId.first
  demand : Option Demand := none
  /-- The threads that were run. -/
  order : List ThreadId := []
  observed : List Observation := []

namespace Machine

def finished (m : Machine) (actor : ThreadId) : Bool := m.actors[actor]?.any (·.isEmpty)

/-- The oldest message in an inbox. -/
def front? (m : Machine) (inbox : Nat) : Option Message :=
  m.messages.find? (·.inbox == inbox)

/-- What an actor is about to do. -/
def pending (m : Machine) (thread : ThreadId) : Script → Pending
  | [] => { thread, enabled := false, op := .stop, target := some thread }
  | instruction :: _ =>
    match instruction with
    | .send inbox => { thread, enabled := true, op := .send, kind := .inbox, target := some inbox }
    | .receive inbox =>
      let front := m.front? inbox
      { thread, enabled := front.isSome, op := .receive, kind := .inbox, target := some inbox
        sendStep := front.map (·.step) }
    | .create _ => { thread, enabled := true, op := .create }
    | .join actor => { thread, enabled := m.finished actor, op := .join, target := some actor }
    | .yield | .toss | .roll _ | .forceToss _ | .forceRoll _ =>
      { thread, enabled := true, op := .yield }
    | .idle => { thread, enabled := false, op := .yield }
    | .quiesce => { thread, enabled := false, op := .quiesce }
    | .start => { thread, enabled := true, op := .start, target := some thread }
    | .stop => { thread, enabled := true, op := .stop, target := some thread }
    | .raw enabled op kind target sendStep => { thread, enabled, op, kind, target, sendStep }

def snapshot (m : Machine) : Snapshot :=
  m.actors.zipIdx.map fun (script, thread) => m.pending thread script

/-- The effect of an instruction that the thread `t` runs at a step. -/
def effect (m : Machine) (t : ThreadId) (step : Step) : Instruction → Machine
  | .send inbox => { m with messages := m.messages ++ [⟨inbox, step, t⟩] }
  | .receive inbox =>
    match m.front? inbox with
    | some message =>
      { m with
        messages := m.messages.eraseP (·.inbox == inbox)
        observed := m.observed ++ [.received t message.sender] }
    | none => m
  | .create script => { m with actors := m.actors ++ [.start :: script] }
  | .toss => { m with demand := some .toss }
  | .roll bound => { m with demand := some (.roll bound) }
  | .forceToss value => { m with demand := some (.record (.ofBool value)) }
  | .forceRoll value => { m with demand := some (.record (.ofNat value)) }
  | _ => m

/-- Runs the next instruction of the thread `t`, if it has one left. -/
def step (m : Machine) (t : ThreadId) (step : Step) : Machine :=
  let moved := { m with order := m.order ++ [t], current := t }
  match m.actors[t]? with
  | some (instruction :: rest) =>
    { moved with actors := moved.actors.set t rest }.effect t step instruction
  | _ => moved

/-- The thread that is forced now. -/
def forced? (m : Machine) : Option ThreadId :=
  (m.forces.find? (·.step == m.order.length + 1)).map (·.thread)

def request (m : Machine) : Request :=
  match m.demand with
  | some .toss => .drawBool
  | some (.roll bound) => .drawInt bound
  | some (.record d) => .forceDraw d
  | none =>
    if m.actors.all (·.isEmpty) then .finish
    else
      match m.forced? with
      | some t => .force t m.snapshot m.current
      | none => .next m.snapshot m.current

def resume (answer : Answer) (m : Machine) : Machine :=
  match answer with
  | .run t step => m.step t step
  | .bool b => { m with demand := none, observed := m.observed ++ [.tossed m.current b] }
  | .int n => { m with demand := none, observed := m.observed ++ [.rolled m.current n] }
  | .recorded => { m with demand := none }

def client : Client Machine := ⟨request, resume⟩

/-- A bound on the requests of an execution: each instruction asks to run and may ask for a draw,
and the last request is to finish. -/
def budget (m : Machine) : Nat := 2 * Script.work m.actors.flatten + 1

end Machine

end Actors

end Interleaving
