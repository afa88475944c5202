import Interleaving.Race

/-!
# Clocks

The clock of a step says of every thread which of its steps is the last that happens before the
step, zero standing for none. The clocks of all steps of a schedule lie row after row in one
buffer, which is kept from one schedule to the next and grows by doubling. After a reset the rows
hold what was there before, so a row has to be cleared or copied to before it is read.

## Main definitions

* `ClockTable.reset` — room for a number of steps and threads.
* `ClockTable.clear`, `ClockTable.copy`, `ClockTable.join`, `ClockTable.stamp` — changes of a row.
* `ClockTable.happensBefore` — whether an event is at or before a step.
-/

namespace Interleaving

structure ClockTable where
  cells : Array Nat
  /-- The number of threads, which is the length of a row. -/
  width : Nat
  /-- The number of steps, which is the number of rows. -/
  rows : Nat
deriving DecidableEq, Repr

namespace ClockTable

/-- Room for 256 steps of four threads. -/
def empty : ClockTable := ⟨Array.replicate 1024 0, 4, 0⟩

/-- The first of the sizes `size`, `2 * size`, `4 * size`, … that holds `needed` cells, if `fuel`
doublings reach it. -/
def grow (needed : Nat) : Nat → Nat → Nat
  | 0, size => size
  | fuel + 1, size => if needed ≤ size then size else grow needed fuel (2 * size)

/-- The size of a buffer for `needed` cells that had `size` ones; a number never exceeds the power
of two with it as exponent, so that many doublings reach it. -/
def capacity (needed size : Nat) : Nat := grow needed needed (max size 1)

/-- Room for `rows` rows of `width` cells. The buffer stays unless it is too small. Sizes have no
bound here; `reset?` has them in registers, and is the same as long as a buffer may be so large. -/
def reset (table : ClockTable) (rows width : Nat) : ClockTable :=
  let size := capacity (width * rows) table.cells.size
  { cells := if table.cells.size < size then Array.replicate size 0 else table.cells, width, rows }

/-- Where the row of a step begins. -/
def offset (table : ClockTable) (step : Step) : Nat := step.position * table.width

def get (table : ClockTable) (step : Step) (t : ThreadId) : Nat :=
  table.cells.getD (table.offset step + t) 0

def put (table : ClockTable) (step : Step) (t : ThreadId) (value : Nat) : ClockTable :=
  { table with cells := table.cells.setIfInBounds (table.offset step + t) value }

@[simp] theorem width_put (table : ClockTable) (step : Step) (t : ThreadId) (value : Nat) :
    (table.put step t value).width = table.width := rfl

@[simp] theorem size_cells_put (table : ClockTable) (step : Step) (t : ThreadId) (value : Nat) :
    (table.put step t value).cells.size = table.cells.size := by
  simp [put]

/-- A cell inside the buffer holds what was put there last. -/
theorem get_put_self {table : ClockTable} {step : Step} {t : ThreadId}
    (h : table.offset step + t < table.cells.size) (value : Nat) :
    (table.put step t value).get step t = value := by
  simp only [put, get, offset, Array.getD_eq_getD_getElem?] at h ⊢
  rw [Array.getElem?_setIfInBounds_self_of_lt h, Option.getD_some]

theorem get_put_of_ne {table : ClockTable} {step other : Step} {t u : ThreadId}
    (h : table.offset other + u ≠ table.offset step + t) (value : Nat) :
    (table.put step t value).get other u = table.get other u := by
  simp only [put, get, offset, Array.getD_eq_getD_getElem?] at h ⊢
  rw [Array.getElem?_setIfInBounds_ne (Ne.symm h)]

/-- Gives every cell of a row the value that `f` makes of the table and the thread. -/
def fill (table : ClockTable) (step : Step) (f : ClockTable → ThreadId → Nat) : ClockTable :=
  (List.range table.width).foldl (fun table t => table.put step t (f table t)) table

/-- No step of any thread is before `step`. -/
def clear (table : ClockTable) (step : Step) : ClockTable := table.fill step fun _ _ => 0

/-- The clock of `source` becomes that of `target`, too. -/
def copy (table : ClockTable) (source target : Step) : ClockTable :=
  table.fill target fun table t => table.get source t

/-- What is before `source` is now before `target`, too. -/
def join (table : ClockTable) (target source : Step) : ClockTable :=
  table.fill target fun table t => max (table.get target t) (table.get source t)

/-- Enters an event in the clock of a step. -/
def stamp (table : ClockTable) (step : Step) (e : Event) : ClockTable :=
  table.put step e.thread e.index

/-- Whether an event is the step itself or happens before it. -/
def happensBefore (table : ClockTable) (e : Event) (step : Step) : Bool :=
  e.index ≤ table.get step e.thread

/-- The clock of a step. -/
def row (table : ClockTable) (step : Step) : List Nat :=
  (List.range table.width).map (table.get step)

end ClockTable

end Interleaving
