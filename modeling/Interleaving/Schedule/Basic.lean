import Interleaving.Action
import Interleaving.Level.Choice

/-!
# Schedules

A schedule holds the decisions of an execution, the first one first. Levels are added and removed
at its end only. While an iteration visits fewer levels than are stored it replays them, and what
it shows there must agree with the record.

## Main definitions

* `Schedule.push` — visits the next level, which is replayed or added.
* `Schedule.top`, `Schedule.level` — the level visited last, and the level of a step.
* `Schedule.onTop` — a change of the level visited last.
* `Schedule.dropUnvisited`, `Schedule.cut`, `Schedule.clear` — shorter schedules.
-/

namespace Interleaving

structure Schedule where
  levels : List Level := []
  /-- The number of levels visited in this iteration. -/
  visited : Nat := 0
  /-- Whether the exploration picks at random; then no level is gone through in order. -/
  randomized : Bool := false
deriving DecidableEq, Repr, Inhabited

namespace Schedule

/-- The number of stored levels. -/
def size (s : Schedule) : Nat := s.levels.length

/-- Of the visited levels the one at place `depth` from the end, the last being at place one. -/
def fromTop? (s : Schedule) (depth : Nat) : Option Level :=
  if depth ≤ s.visited then s.levels[s.visited - depth]? else none

/-- The level visited last. -/
def top? (s : Schedule) : Option Level := s.fromTop? 1

/-- The level visited before the last. -/
def below? (s : Schedule) : Option Level := s.fromTop? 2

/-- The last stored level, visited or not. -/
def last? (s : Schedule) : Option Level := s.levels.getLast?

/-- The level of a step. -/
def level? (s : Schedule) : Step → Option Level
  | 0 => none
  | position + 1 => s.levels[position]?

def top (s : Schedule) : Except Fault Level :=
  match s.top? with
  | some l => .ok l
  | none => .error .emptySchedule

def level (s : Schedule) (step : Step) : Except Fault Level :=
  match s.level? step with
  | some l => .ok l
  | none => .error (.stepOutOfRange step)

theorem top_eq_ok {s : Schedule} {l : Level} : s.top = .ok l ↔ s.top? = some l := by
  cases h : s.top? <;> simp [top, h]

theorem level_eq_ok {s : Schedule} {step : Step} {l : Level} :
    s.level step = .ok l ↔ s.level? step = some l := by
  cases h : s.level? step <;> simp [level, h]

/-- Steps count from one, levels from zero. -/
theorem exists_of_level_eq_ok {s : Schedule} {step : Step} {l : Level} (h : s.level step = .ok l) :
    ∃ position, step = position + 1 ∧ s.levels[position]? = some l := by
  rw [level_eq_ok] at h
  cases step with
  | zero => simp [level?] at h
  | succ position => exact ⟨position, rfl, h⟩

/-- Changes the level of a step, if there is one. -/
def modifyLevel (s : Schedule) (f : Level → Level) : Step → Schedule
  | 0 => s
  | position + 1 => { s with levels := s.levels.modify position f }

/-- Changes the level visited last, if there is one. -/
def modifyTop (s : Schedule) (f : Level → Level) : Schedule := s.modifyLevel f s.visited

@[simp] theorem size_modifyLevel (s : Schedule) (f : Level → Level) (step : Step) :
    (s.modifyLevel f step).size = s.size := by
  cases step <;> simp [modifyLevel, size]

@[simp] theorem size_modifyTop (s : Schedule) (f : Level → Level) :
    (s.modifyTop f).size = s.size :=
  s.size_modifyLevel f s.visited

/-- Visits the next level: adds it, or checks it against the record. Tells whether it is new. -/
def push (snapshot : Snapshot) : Action Schedule Bool := do
  let s ← Action.get
  let observed ← Action.lift (Level.capture (s.visited + 1) snapshot)
  match s.levels[s.visited]? with
  | none =>
    Action.notify [.pushed observed]
    Action.set { s with levels := s.levels ++ [observed], visited := s.visited + 1 }
    return true
  | some recorded =>
    match recorded.mismatch? observed with
    | some (was, is) => Action.fail (.diverged observed.step was is)
    | none =>
      Action.notify [.replayed recorded]
      Action.set { s with visited := s.visited + 1 }
      return false

theorem push_apply (snapshot : Snapshot) (s : Schedule) :
    push snapshot s =
      match Level.capture (s.visited + 1) snapshot with
      | .error fault => ⟨.error fault, s, []⟩
      | .ok observed =>
        match s.levels[s.visited]? with
        | none =>
          ⟨.ok true, { s with levels := s.levels ++ [observed], visited := s.visited + 1 },
            [.pushed observed]⟩
        | some recorded =>
          match recorded.mismatch? observed with
          | some (was, is) => ⟨.error (.diverged observed.step was is), s, []⟩
          | none => ⟨.ok false, { s with visited := s.visited + 1 }, [.replayed recorded]⟩ := by
  cases hc : Level.capture (s.visited + 1) snapshot with
  | error fault => simp [push, Action.bind_apply, hc]
  | ok observed =>
    cases hl : s.levels[s.visited]? with
    | none => simp [push, Action.bind_apply, Except.map, hc, hl]
    | some recorded =>
      cases hm : recorded.mismatch? observed <;>
        simp [push, Action.bind_apply, Except.map, hc, hl, hm]

/-- A change of the level visited last, with a value or a fault. -/
def onTop {α : Type} (f : Level → Except Fault (α × Level)) : Action Schedule α := do
  let s ← Action.get
  let top ← Action.lift s.top
  let (a, top) ← Action.lift (f top)
  Action.set (s.modifyTop fun _ => top)
  return a

theorem onTop_apply {α : Type} (f : Level → Except Fault (α × Level)) (s : Schedule) :
    onTop f s =
      match s.top with
      | .error fault => ⟨.error fault, s, []⟩
      | .ok top =>
        match f top with
        | .error fault => ⟨.error fault, s, []⟩
        | .ok (a, top) => ⟨.ok a, s.modifyTop fun _ => top, []⟩ := by
  cases ht : s.top with
  | error fault => simp [onTop, Action.bind_apply, ht]
  | ok top => cases hf : f top <;> simp [onTop, Action.bind_apply, Except.map, ht, hf]

/-- Selects a thread at the level visited last. -/
def select (t : ThreadId) : Action Schedule Unit :=
  onTop fun top => do return ((), ← top.select t)

/-- What is selected at the level visited last, or what to explore there. -/
def choose (s : Schedule) (start : ThreadId) : Except Fault Choice := do
  return (← s.top).choose start

/-- Drops the levels that were not visited. -/
def dropUnvisited (s : Schedule) : Schedule := { s with levels := s.levels.take s.visited }

/-- Keeps the first `n` levels. -/
def cut (s : Schedule) (n : Nat) : Schedule :=
  { s with levels := s.levels.take n, visited := min s.visited n }

def clear (s : Schedule) : Schedule := { s with levels := [], visited := 0 }

end Schedule

end Interleaving
