import Interleaving.Entry

/-!
# Faults

A fault is either a broken promise of the program under test or a request that cannot be honoured
soundly. That nothing can run, or that all that could run is asleep, is no fault but the usual
end of an iteration.
-/

namespace Interleaving

/-- What a replay shows of a decision where it differs from the record. -/
inductive Sighting where
  | count (threads : Nat)
  | entry (e : Entry)
deriving DecidableEq, Repr

def Sighting.text : Sighting → String
  | .count threads => Nat.repr threads ++ " schedulables"
  | .entry e => e.text

inductive Fault where
  /-- The program did not do the same again under the same decisions. -/
  | diverged (step : Step) (recorded observed : Sighting)
  | noSelection (step : Step)
  | alreadySelected (thread : ThreadId)
  | unknownThread (thread : ThreadId)
  | notEnabled (thread : ThreadId)
  /-- A snapshot whose threads are not numbered by their positions. -/
  | misnumbered (position : Nat) (found : ThreadId)
  | emptySchedule
  | stepOutOfRange (step : Step)
  | noCandidates (earlier later : Step)
  | notMarked (step : Step)
  /-- The reversal of a race asks for a thread that cannot run. -/
  | reversalStuck (expected : ThreadId) (entry : Entry)
  | alreadyMissing (thread : ThreadId)
  | drawKindMismatch (index : Nat)
  /-- The cursor of the draws is not at their end. -/
  | drawsLeft (cursor recorded : Nat)
  | integerDraw
  | forcingUnsupported
  | forcingRefused (thread : ThreadId)
deriving DecidableEq, Repr

def Fault.message : Fault → String
  | .diverged step recorded observed =>
    "replay diverged at step " ++ step.text ++ ": recorded " ++ recorded.text ++ ", observed " ++
      observed.text
  | .noSelection step => "no selected schedulable at step " ++ step.text
  | .alreadySelected thread =>
    "a schedulable (" ++ thread.text ++ ") was already selected at this step"
  | .unknownThread thread => thread.text ++ " is not a schedulable at this step"
  | .notEnabled thread =>
    thread.text ++ " is not enabled and cannot be added to the backtrack set"
  | .misnumbered position found =>
    "schedulable ids must be dense: found " ++ found.text ++ " at position " ++ Nat.repr position
  | .emptySchedule => "the exploration stack is empty"
  | .stepOutOfRange step => "step " ++ step.text ++ " is not on the exploration stack"
  | .noCandidates earlier later =>
    "no candidate backtrack points found for race between steps " ++ earlier.text ++ " and " ++
      later.text
  | .notMarked step => "did not manage to add a backtrack point at step " ++ step.text
  | .reversalStuck expected entry =>
    "race replay expected " ++ expected.text ++ " to be runnable but it is " ++ entry.text
  | .alreadyMissing thread =>
    "created thread " ++ Nat.repr thread ++ " is already marked missing"
  | .drawKindMismatch index =>
    "replayed nondeterministic choice kind mismatch at choice " ++ Nat.repr index
  | .drawsLeft cursor recorded =>
    "nondeterministic choice cursor is at " ++ Nat.repr cursor ++ " but " ++ Nat.repr recorded ++
      " choices were recorded"
  | .integerDraw =>
    "a DFS exploration of integer nondeterministic choices is not supported; use random mode"
  | .forcingUnsupported => "forced choices are only supported in random mode"
  | .forcingRefused thread =>
    "the scheduler refused to schedule the forced choice " ++ thread.text

end Interleaving
