import Interleaving.Draw
import Interleaving.Fault

/-!
# Decision points

A level records one decision: the operations of all threads when it was made, the thread that was
selected, and the values which that thread drew while it ran. The entry of thread `t` stands at
position `t`.

## Main definitions

* `Level.capture` — the level of a snapshot.
* `Level.mismatch?` — where what is seen again differs from the record.
* `Level.select`, `Level.selection`, `Level.selectedEntry` — the selected thread.
* `Level.retire` — done with the selected thread.
-/

namespace Interleaving

structure Level where
  step : Step
  entries : List Entry
  selected : Option ThreadId := none
  draws : List Draw := []
  /-- The position in `draws` of the next value to be replayed. -/
  cursor : Nat := 0
deriving DecidableEq, Repr, Inhabited

namespace Level

/-- The first operation of a snapshot whose thread is not the one of its position. -/
def misnumbered? (snapshot : Snapshot) : Option (Pending × Nat) :=
  snapshot.zipIdx.find? fun (p, position) => p.thread != position

/-- The level of a snapshot, nothing selected and nothing marked. -/
def capture (step : Step) (snapshot : Snapshot) : Except Fault Level :=
  match misnumbered? snapshot with
  | some (p, position) => .error (.misnumbered position p.thread)
  | none => .ok { step, entries := snapshot.map Entry.capture }

def entry (l : Level) (t : ThreadId) : Except Fault Entry :=
  match l.entries[t]? with
  | some e => .ok e
  | none => .error (.unknownThread t)

/-- Changes the entry at a position, if there is one. -/
def modifyEntry (l : Level) (position : Nat) (f : Entry → Entry) : Level :=
  { l with entries := l.entries.modify position f }

@[simp] theorem length_entries_modifyEntry (l : Level) (position : Nat) (f : Entry → Entry) :
    (l.modifyEntry position f).entries.length = l.entries.length := by
  simp [modifyEntry]

theorem entry_eq_ok {l : Level} {t : ThreadId} {e : Entry} :
    l.entry t = .ok e ↔ l.entries[t]? = some e := by
  cases h : l.entries[t]? <;> simp [entry, h]

/-- The first place where a sighting of this level differs from the record: the numbers of
threads, or two entries of one position. -/
def mismatch? (recorded observed : Level) : Option (Sighting × Sighting) :=
  if recorded.entries.length ≠ observed.entries.length then
    some (.count recorded.entries.length, .count observed.entries.length)
  else
    (recorded.entries.zip observed.entries).find? (fun (a, b) => !a.toPending.agrees b.toPending)
      |>.map fun (a, b) => (.entry a, .entry b)

/-! ## Selection -/

/-- Selects a thread of the level. A level has its selection once. -/
def select (l : Level) (t : ThreadId) : Except Fault Level :=
  match l.selected with
  | some previous => .error (.alreadySelected previous)
  | none =>
    match l.entry t with
    | .ok _ => .ok { l with selected := some t }
    | .error fault => .error fault

def selection (l : Level) : Except Fault ThreadId :=
  match l.selected with
  | some t => .ok t
  | none => .error (.noSelection l.step)

theorem selection_eq_ok {l : Level} {t : ThreadId} : l.selection = .ok t ↔ l.selected = some t := by
  cases h : l.selected <;> simp [selection, h]

def selectedEntry (l : Level) : Except Fault Entry := do l.entry (← l.selection)

/-- The selected thread is put to sleep, and none is selected any more. -/
def retire (l : Level) : Except Fault Level := do
  let t ← l.selection
  let _ ← l.entry t
  return { l.modifyEntry t Entry.putToSleep with selected := none }

end Level

end Interleaving
