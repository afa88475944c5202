import Interleaving.Json.Basic

/-!
# Records in JSON

A record is read from an object, where members of other names are passed over, or from a list of
all its fields in the order of declaration. Both are first brought to one form, the list of the
fields' values with a gap where an object lacks one. A gap is refused unless the field is
optional; `null` is a value of optional fields only.

A name of a closed list (a constructor without arguments) is written as a text, and read from
that text or from an object with this one key and the value `null`.

## Main definitions

* `Json.fields?` — the common form of the two ways to write a record.
* `Json.required?`, `Json.optional?` — one field of it.
* `Json.natBelow?`, `Json.bool?`, `Json.list?`, `Json.named?` — the values of fields.
-/

namespace Interleaving

/-- Thread numbers, steps, targets and drawn values have 32 bits. -/
def wordBound : Nat := 4294967296

/-- Seeds, limits and counts have 64 bits. -/
def longBound : Nat := 18446744073709551616

namespace Json

/-- The values of the fields `names`, in their order. -/
def fields? (names : List String) : Json → Option (List (Option Json))
  | .obj members => some (names.map fun name => members.lookup name)
  | .arr items => if items.length = names.length then some (items.map some) else none
  | _ => none

variable {α : Type}

/-- A field that must be there. -/
def required? (read : Json → Option α) : Option Json → Option α
  | none => none
  | some j => read j

/-- A field that may be missing or `null`. -/
def optional? (read : Json → Option α) : Option Json → Option (Option α)
  | none => some none
  | some .null => some none
  | some j => (read j).map some

/-- A whole number from 0 up to, and without, `bound`. -/
def natBelow? (bound : Nat) : Json → Option Nat
  | .int (.ofNat n) => if n < bound then some n else none
  | _ => none

def bool? : Json → Option Bool
  | .bool b => some b
  | _ => none

def str? : Json → Option String
  | .str s => some s
  | _ => none

/-- A list whose items `read` accepts all. -/
def list? (read : Json → Option α) : Json → Option (List α)
  | .arr items => items.mapM read
  | _ => none

/-- The name that stands for one value of a closed list. -/
def name? : Json → Option String
  | .str s => some s
  | .obj [(s, .null)] => some s
  | _ => none

/-- The value among `all` whose name is written. -/
def named? (all : List α) (name : α → String) (j : Json) : Option α :=
  match j.name? with
  | some s => all.find? fun a => name a = s
  | none => none

@[simp] theorem natBelow?_nat {bound n : Nat} (h : n < bound) :
    natBelow? bound (nat n) = some n := by
  simp [natBelow?, nat, h]

@[simp] theorem bool?_bool (b : Bool) : bool? (.bool b) = some b := rfl

@[simp] theorem required?_some (read : Json → Option α) (j : Json) :
    required? read (some j) = read j := rfl

end Json

end Interleaving
