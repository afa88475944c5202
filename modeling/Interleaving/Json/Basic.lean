/-!
# JSON values

The values that schedules, configurations and their parts are written to and read from. Numbers
are whole or not: nothing here computes with a fraction, so a number that is not written as a
whole one keeps its text.

## Main definitions

* `Json` — the values.
* `Json.member?` — the value of a key.
* `Json.amend` — an object with some members replaced.
-/

namespace Interleaving

inductive Json where
  | null
  | bool (b : Bool)
  | int (n : Int)
  /-- A number with a fraction, an exponent or a signed zero, as it was written. -/
  | real (text : String)
  | str (s : String)
  | arr (items : List Json)
  | obj (members : List (String × Json))
deriving Inhabited

namespace Json

/-- A counting number. -/
def nat (n : Nat) : Json := .int n

/-- The value if there is one, and `null` otherwise. -/
def option {α : Type} (form : α → Json) : Option α → Json
  | none => .null
  | some a => form a

/-- The value of the key `name` of an object. -/
def member? (name : String) : Json → Option Json
  | .obj members => members.lookup name
  | _ => none

/-- Gives the key `name` the value `value`, in its place if the key is there and last if not. -/
def put (name : String) (value : Json) : List (String × Json) → List (String × Json)
  | [] => [(name, value)]
  | (key, old) :: rest =>
    if key = name then (key, value) :: rest else (key, old) :: put name value rest

/-- Replaces the members of an object that `changes` names and adds those it lacks. -/
def amend (changes : List (String × Json)) : Json → Json
  | .obj members => .obj (changes.foldl (fun ms (name, value) => put name value ms) members)
  | j => j

@[simp] theorem lookup_put_self (name : String) (value : Json) (members : List (String × Json)) :
    (put name value members).lookup name = some value := by
  induction members with
  | nil => simp [put]
  | cons m rest ih =>
    obtain ⟨key, old⟩ := m
    by_cases h : key = name
    · simp [put, h]
    · simp [put, h, List.lookup_cons, beq_eq_false_iff_ne.2 (Ne.symm h), ih]

theorem lookup_put_of_ne {name other : String} (h : other ≠ name) (value : Json)
    (members : List (String × Json)) :
    (put name value members).lookup other = members.lookup other := by
  induction members with
  | nil => simp [put, List.lookup_cons, beq_eq_false_iff_ne.2 h]
  | cons m rest ih =>
    obtain ⟨key, old⟩ := m
    by_cases hk : key = name
    · subst hk
      simp [put, List.lookup_cons, beq_eq_false_iff_ne.2 h]
    · simp only [put, hk, if_false, List.lookup_cons, ih]

end Json

end Interleaving
