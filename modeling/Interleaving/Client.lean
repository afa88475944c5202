import Interleaving.Exploration

/-!
# Clients of the scheduler

A client is a deterministic program that the scheduler drives: its state says what it asks for
next, and what it is told brings it to its next state. All that varies between two executions is
what the scheduler tells it.

## Main definitions

* `Client` — a program with states of type `σ`.
* `Client.execute` — one execution under the scheduler.
* `Client.program` — one execution after the other, each of which is kept.
-/

namespace Interleaving

/-- What a client asks for. -/
inductive Request where
  /-- Nothing more. -/
  | finish
  /-- A thread to run. -/
  | next (choices : Snapshot) (current : ThreadId)
  /-- The right to run a given thread. -/
  | force (t : ThreadId) (choices : Snapshot) (current : ThreadId)
  | drawBool
  | drawInt (bound : Nat)
  /-- A draw whose value it chooses itself. -/
  | forceDraw (d : Draw)
deriving DecidableEq, Repr

/-- What a client is told. -/
inductive Answer where
  /-- To run a thread, as the given step. -/
  | run (t : ThreadId) (step : Step)
  | bool (b : Bool)
  | int (n : Nat)
  /-- That its own value was recorded. -/
  | recorded
deriving DecidableEq, Repr

structure Client (σ : Type) where
  request : σ → Request
  resume : Answer → σ → σ

namespace Client

variable {σ : Type}

/-- An action of the scheduler. -/
def ask {α : Type} (x : Action Scheduler α) : Action (Scheduler × σ) α := Exploration.onScheduler x

/-- Tells the client. -/
def tell (client : Client σ) (answer : Answer) : Action (Scheduler × σ) Unit :=
  Action.modify fun (s, state) => (s, client.resume answer state)

/-- Tells the client which thread to run. -/
def tellRun (client : Client σ) (t : ThreadId) : Action (Scheduler × σ) Unit := do
  let (s, _) ← Action.get
  client.tell (.run t s.steps)

/-- Grants one request. Gives the ending of the execution if this was its last one. -/
def grant (client : Client σ) : Request → Action (Scheduler × σ) (Option Ending)
  | .finish => return some .allFinished
  | .next choices current => do
    let (s, _) ← Action.get
    if s.atStepLimit then return some .stepLimit
    match ← ask (Scheduler.next choices current) with
    | .run t =>
      client.tellRun t
      return none
    | .deadlock => return some .deadlock
    | .allAsleep => return some .allAsleep
  | .force t choices current => do
    let (s, _) ← Action.get
    if s.atStepLimit then return some .stepLimit
    ask (Scheduler.force t choices current)
    client.tellRun t
    return none
  | .drawBool => do
    client.tell (.bool (← ask Scheduler.drawBool))
    return none
  | .drawInt bound => do
    client.tell (.int (← ask (Scheduler.drawInt bound)))
    return none
  | .forceDraw d => do
    ask (Scheduler.forceDraw d)
    client.tell .recorded
    return none

/-- Grants the client's requests until its execution ends. One that makes more than `budget`
requests counts as too long. -/
def execute (client : Client σ) : Nat → Action (Scheduler × σ) Ending
  | 0 => return .stepLimit
  | budget + 1 => do
    let (_, state) ← Action.get
    match ← client.grant (client.request state) with
    | some ending => return ending
    | none => client.execute budget

end Client

/-- What is kept of an execution: the state it came to, and how it ended unless it failed. -/
structure Execution (σ : Type) where
  state : σ
  ending : Option Ending

/-- Executes the client from the start of its next iteration, counted from zero. -/
def Client.program {σ : Type} (client : Client σ) (start : Nat → σ) (budget : σ → Nat) :
    Action (Scheduler × Array (Execution σ)) Ending := fun (s, executions) =>
  let state := start executions.size
  let o := client.execute (budget state) (s, state)
  ⟨o.result, (o.state.1, executions.push ⟨o.state.2, o.result.toOption⟩), o.notices⟩

end Interleaving
