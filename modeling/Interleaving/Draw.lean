import Interleaving.Thread

/-!
# Draws

While it runs its operation a thread may ask the scheduler for a value: a truth value or a number
below a bound. The values drawn are recorded, so that a later iteration draws the same.
-/

namespace Interleaving

inductive DrawKind where
  | bool
  | int
deriving DecidableEq, Repr, Inhabited

namespace DrawKind

def all : List DrawKind := [bool, int]

def name : DrawKind → String
  | bool => "Bool"
  | int => "Int"

def toJson (kind : DrawKind) : Json := .str kind.name

def ofJson? : Json → Option DrawKind := Json.named? all name

end DrawKind

/-- A drawn value; of truth values, one stands for true and zero for false. -/
structure Draw where
  kind : DrawKind
  value : Nat
deriving DecidableEq, Repr, Inhabited

namespace Draw

def ofBool (b : Bool) : Draw := ⟨.bool, b.toNat⟩

def ofNat (n : Nat) : Draw := ⟨.int, n⟩

/-- The letter of the kind with the value, as `B0` or `I17`. -/
def text (d : Draw) : String :=
  (match d.kind with
    | .bool => "B"
    | .int => "I") ++ Nat.repr d.value

/-- The texts of some draws with commas between them. -/
def listText (draws : List Draw) : String := ",".intercalate (draws.map text)

def fieldNames : List String := ["kind", "value"]

def toJson (d : Draw) : Json := .obj [("kind", d.kind.toJson), ("value", .nat d.value)]

def ofJson? (j : Json) : Option Draw :=
  match j.fields? fieldNames with
  | some [kind, value] => do
    return {
      kind := ← Json.required? DrawKind.ofJson? kind
      value := ← Json.required? (Json.natBelow? wordBound) value }
  | _ => none

end Draw

end Interleaving
