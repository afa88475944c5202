import Interleaving.Scheduler.Draws
import Interleaving.Scheduler.Iteration

/-!
# Calls of the scheduler

The requests that a program makes of the scheduler, as data, with what it is told.
-/

namespace Interleaving

inductive Call where
  | next (choices : Snapshot) (current : ThreadId)
  | force (t : ThreadId) (choices : Snapshot) (current : ThreadId)
  | drawBool
  | drawInt (bound : Nat)
  | forceDraw (d : Draw)
  | prepare
  | reset
  /-- The program tells of a message. -/
  | sent (source destination : ThreadId)
  /-- The program tells of a new thread. -/
  | created (t : ThreadId)
deriving DecidableEq, Repr

inductive Reply where
  | decision (d : Decision)
  | bool (b : Bool)
  | int (n : Nat)
  | done
deriving DecidableEq, Repr

/-- Answers a call. Messages and new threads show in the next snapshot, so to be told of them
changes nothing. -/
def Scheduler.perform : Call → Action Scheduler Reply
  | .next choices current => do return .decision (← next choices current)
  | .force t choices current => do
    force t choices current
    return .done
  | .drawBool => do return .bool (← drawBool)
  | .drawInt bound => do return .int (← drawInt bound)
  | .forceDraw d => do
    forceDraw d
    return .done
  | .prepare => do return .bool (← prepare)
  | .reset => do
    Action.modify reset
    return .done
  | .sent _ _ => return .done
  | .created _ => return .done

end Interleaving
