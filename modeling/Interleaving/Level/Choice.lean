import Interleaving.Level.Basic
import Interleaving.Pcg

/-!
# What to explore at a level

Some iteration is to run each marked thread of a level, unless it is asleep.

## Main definitions

* `Level.turn` — all positions, from a given one on.
* `Level.firstAwake`, `Level.exhausted` — the next thread to explore, and whether there is none.
* `Level.markFirst`, `Level.markThread`, `Level.markRandom`, `Level.markEnabled` — marks threads.
* `Level.putToSleep` — puts threads to sleep.
-/

namespace Interleaving

/-- What there is to explore at a level. -/
inductive Choice where
  | thread (t : ThreadId)
  /-- Nothing, and some thread is asleep. -/
  | allAsleep
  | nothing
deriving DecidableEq, Repr

def Choice.text : Choice → String
  | .thread t => t.text
  | .allAsleep => "SleepSetBlocked"
  | .nothing => "None"

namespace Level

/-- All positions of a list of the length `n` in turn from `start`. -/
def turn (start n : Nat) : List Nat := (List.range n).map fun k => (start + k) % n

@[simp] theorem length_turn (start n : Nat) : (turn start n).length = n := by simp [turn]

theorem lt_of_mem_turn {start n position : Nat} (h : position ∈ turn start n) : position < n := by
  obtain ⟨k, hk, rfl⟩ := List.mem_map.1 h
  exact Nat.mod_lt _ (Nat.zero_lt_of_lt (List.mem_range.1 hk))

theorem mem_turn {start n position : Nat} : position ∈ turn start n ↔ position < n := by
  refine ⟨lt_of_mem_turn, fun h => List.mem_map.2 ⟨(position + n - start % n) % n, ?_, ?_⟩⟩
  · exact List.mem_range.2 (Nat.mod_lt _ (by omega))
  · have hs : start % n < n := Nat.mod_lt _ (by omega)
    rw [Nat.add_mod_mod, ← Nat.mod_add_mod,
      show start % n + (position + n - start % n) = position + n by omega, Nat.add_mod_right,
      Nat.mod_eq_of_lt h]

/-- The entries in turn from `start`. -/
def inTurn (l : Level) (start : ThreadId) : List Entry :=
  (turn start l.entries.length).filterMap fun position => l.entries[position]?

/-- The first thread in turn from `start` that is marked and not asleep. -/
def firstAwake (l : Level) (start : ThreadId) : Choice :=
  match (l.inTurn start).find? Entry.awake with
  | some e => .thread e.thread
  | none => if l.entries.any (·.asleep) then .allAsleep else .nothing

/-- Nothing is left to explore. -/
def exhausted (l : Level) : Bool :=
  match l.firstAwake ThreadId.first with
  | .thread _ => false
  | _ => true

/-- The thread selected already, or the first one to explore. -/
def choose (l : Level) (start : ThreadId) : Choice :=
  match l.selected with
  | some t => .thread t
  | none => l.firstAwake start

/-- Whether the entry at a position is enabled and not asleep. -/
def availableAt (l : Level) (position : Nat) : Bool := l.entries[position]?.any Entry.available

/-- Marks the first thread in turn from `start` that is enabled and not asleep. -/
def markFirst (l : Level) (start : ThreadId) : Level :=
  match (turn start l.entries.length).find? l.availableAt with
  | some position => l.modifyEntry position Entry.mark
  | none => l

/-- Marks a thread, which must be enabled. -/
def markThread (l : Level) (t : ThreadId) : Except Fault Level := do
  let e ← l.entry t
  if e.enabled then return l.modifyEntry t Entry.mark else throw (.notEnabled t)

/-- Marks one of the threads that are enabled and not asleep, each with the same chance. -/
def markRandom (l : Level) (g : Pcg) : Level × Pcg :=
  let candidates := (List.range l.entries.length).filter l.availableAt
  if candidates.isEmpty then (l, g)
  else
    let (i, g) := g.below 64 candidates.length
    match candidates[i]? with
    | some position => (l.modifyEntry position Entry.mark, g)
    | none => (l, g)

/-- Marks every enabled thread. -/
def markEnabled (l : Level) : Level :=
  { l with entries := l.entries.map fun e => if e.enabled then e.mark else e }

/-- Puts the entries at some positions to sleep. -/
def putToSleep (l : Level) (positions : List Nat) : Level :=
  { l with
    entries := l.entries.mapIdx fun i e => if i ∈ positions then e.putToSleep else e }

end Level

end Interleaving
