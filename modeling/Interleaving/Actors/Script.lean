import Interleaving.Operation

/-!
# Scripts of actors

A small message-passing language. An actor runs the instructions of its script one after the
other, each as one visible operation.
-/

namespace Interleaving

namespace Actors

inductive Instruction where
  | send (inbox : Nat)
  /-- Waits for a message. -/
  | receive (inbox : Nat)
  /-- Adds an actor that starts and then runs the script. -/
  | create (script : List Instruction)
  /-- Waits until the actor is finished. -/
  | join (actor : ThreadId)
  | yield
  /-- A yield that can run only when nothing else can. -/
  | idle
  | quiesce
  /-- Draws a truth value. -/
  | toss
  /-- Draws a number below the bound. -/
  | roll (bound : Nat)
  | forceToss (value : Bool)
  | forceRoll (value : Nat)
  | start
  | stop
  /-- Shows any operation at all, and has no effect. -/
  | raw (enabled : Bool) (op : Operation) (kind : TargetKind) (target : Option Nat)
      (sendStep : Option Step)
deriving Repr, Inhabited

abbrev Script := List Instruction

mutual

/-- The number of instructions that an instruction stands for, those of actors it creates
included. -/
def Instruction.work : Instruction → Nat
  | .create script => 2 + Script.work script
  | _ => 1

/-- The number of instructions in a script, those of actors it creates included. -/
def Script.work : Script → Nat
  | [] => 0
  | instruction :: rest => instruction.work + Script.work rest

end

end Actors

end Interleaving
