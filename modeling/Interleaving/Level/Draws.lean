import Interleaving.Level.Choice

/-!
# Draws at a level

The values that the selected thread draws are recorded. A later iteration replays them in their
order, the cursor being at the next one, before it draws fresh ones. In depth-first mode the
truth values are gone through like the digits of a binary number, the last one changing first.

## Main definitions

* `Level.draw`, `Level.record` — a value replayed or drawn, and one that is given.
* `Level.flipDraws` — goes on to the next combination of truth values.
* `Level.advance` — goes on to the next combination, or else the next thread.
-/

namespace Interleaving

namespace Level

/-- Adds a draw behind the recorded ones and steps over it. -/
def record (l : Level) (d : Draw) : Level :=
  { l with draws := l.draws ++ [d], cursor := l.cursor + 1 }

/-- A fresh value. Without a generator it is zero, and so it is where zero is the bound. -/
def fresh (kind : DrawKind) (bound : Nat) : Option Pcg → Nat × Option Pcg
  | none => (0, none)
  | some g =>
    match kind with
    | .bool => let (v, g) := g.below 32 2; (v, some g)
    | .int => if bound = 0 then (0, some g) else let (v, g) := g.below 32 bound; (v, some g)

/-- A fresh value leaves a generator if there was one; a truth value is zero or one. -/
theorem exists_fresh (kind : DrawKind) (bound : Nat) (g : Pcg) :
    ∃ v g', fresh kind bound (some g) = (v, some g') ∧ (kind = .bool → v < 2) := by
  -- the draw is not to be computed
  obtain ⟨below, hbelow⟩ : ∃ below, below = Pcg.below := ⟨_, rfl⟩
  have hlt := Pcg.below_lt Nat.two_pos 32 g
  delta fresh
  rw [← hbelow] at hlt ⊢
  cases kind with
  | bool => exact ⟨(below 32 2 g).1, (below 32 2 g).2, rfl, fun _ => hlt⟩
  | int =>
    by_cases hzero : bound = 0
    · exact ⟨0, g, if_pos hzero, by simp⟩
    · exact ⟨(below 32 bound g).1, (below 32 bound g).2, if_neg hzero, by simp⟩

theorem isSome_fresh (kind : DrawKind) (bound : Nat) (g : Option Pcg) :
    (fresh kind bound g).2.isSome = g.isSome := by
  cases g with
  | none => rfl
  | some g =>
    obtain ⟨v, g', h, -⟩ := exists_fresh kind bound g
    rw [h]
    rfl

/-- The recorded value at the cursor, or else a fresh one, which is recorded. Numbers need a
generator: their values cannot be gone through one by one. -/
def draw (l : Level) (kind : DrawKind) (bound : Nat) (g : Option Pcg) :
    Except Fault (Nat × Level × Option Pcg) :=
  if g.isNone ∧ kind = .int then .error .integerDraw
  else
    match l.draws[l.cursor]? with
    | some d =>
      if d.kind = kind then .ok (d.value, { l with cursor := l.cursor + 1 }, g)
      else .error (.drawKindMismatch l.cursor)
    | none =>
      let (v, g) := fresh kind bound g
      .ok (v, l.record ⟨kind, v⟩, g)

/-- The draws, the last one first, after a step to the next combination of truth values: the
trailing true ones are dropped and the false one before them becomes true. The second part tells
whether there was one, and fails at a number. -/
def flipLast : List Draw → List Draw × Except Fault Bool
  | [] => ([], .ok false)
  | d :: rest =>
    if d.kind ≠ .bool then (d :: rest, .error .integerDraw)
    else if d.value = 0 then ({ d with value := 1 } :: rest, .ok true)
    else flipLast rest

/-- Goes on to the next combination of the drawn truth values, all of which must have been
replayed, and moves the cursor to the front. -/
def flipDraws (l : Level) : Level × Except Fault Bool :=
  if l.cursor ≠ l.draws.length then (l, .error (.drawsLeft l.cursor l.draws.length))
  else
    let (draws, flipped) := flipLast l.draws.reverse
    ({ l with draws := draws.reverse, cursor := 0 }, flipped)

def rewindDraws (l : Level) : Level := { l with cursor := 0 }

/-- Drops the draws that were not replayed. -/
def dropDraws (l : Level) : Level := { l with draws := l.draws.take l.cursor }

/-- Records the draws to be replayed. -/
def restoreDraws (l : Level) (draws : List Draw) : Level := { l with draws, cursor := 0 }

/-- Goes on to what is to be explored next at a level: another combination of its draws, or else
another thread. Tells whether there is anything. -/
def advance (l : Level) : Level × Except Fault Bool :=
  match l.flipDraws with
  | (l, .ok false) =>
    match l.retire with
    | .ok l => (l, .ok (!l.exhausted))
    | .error fault => (l, .error fault)
  | r => r

end Level

end Interleaving
