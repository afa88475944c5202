import Interleaving.Json.Record

/-!
# Threads

Threads are numbered from zero in the order of their creation. The number of a thread is also its
position in every snapshot, so positions and threads are used for each other throughout.

## Main definitions

* `ThreadId` — the number of a thread, written `t7`.
* `ThreadId.ofText` — reads such a text.
* `Step` — the number of a decision, counted from one.
-/

namespace Interleaving

abbrev ThreadId := Nat

namespace ThreadId

/-- The thread that runs first. -/
def first : ThreadId := 0

def text (t : ThreadId) : String := "t" ++ Nat.repr t

/-- Why a text does not name a thread. -/
inductive TextError where
  /-- The text does not start with the letter. -/
  | noLetter (text : String)
  /-- What follows the letter is no number, or too large a one. -/
  | noNumber (text : String)
deriving DecidableEq, Repr

def TextError.message : TextError → String
  | .noLetter text => "`" ++ text ++ "` should begin with `t`"
  | .noNumber text => "Can't parse " ++ text ++ " as a number"

/-- The number that decimal digits write, a plus sign before them being allowed. -/
def number? (cs : List Char) : Option Nat :=
  let digits := match cs with
    | '+' :: rest => rest
    | _ => cs
  if digits ≠ [] ∧ digits.all Char.isDigit then
    let n := Nat.ofDigitChars 10 digits 0
    if n < wordBound then some n else none
  else none

/-- The thread that a text names: the letter, an optional plus sign, and a decimal number. -/
def ofText (text : String) : Except TextError ThreadId :=
  match text.toList with
  | 't' :: rest =>
    match number? rest with
    | some n => .ok n
    | none => .error (.noNumber text)
  | _ => .error (.noLetter text)

def toJson (t : ThreadId) : Json := .str t.text

def ofJson? : Json → Option ThreadId
  | .str s => (ofText s).toOption
  | _ => none

end ThreadId

/-- Steps are counted from one. -/
abbrev Step := Nat

namespace Step

/-- The step with the given number; zero numbers none. -/
def ofNat? (n : Nat) : Option Step := if 0 < n then some n else none

def text (s : Step) : String := Nat.repr s

/-- The position of a step in a schedule. -/
def position (s : Step) : Nat := s - 1

def toJson (s : Step) : Json := .nat s

/-- A step is read from any number that fits, zero included. -/
def ofJson? : Json → Option Step := Json.natBelow? wordBound

end Step

end Interleaving
