import Interleaving.Json.Basic

/-!
# Writing JSON

Values are written without blanks. Inside a text the quote, the backslash and the control
characters are escaped, those that have a letter of their own by that letter.
-/

namespace Interleaving

namespace Json

/-- Four hexadecimal digits. -/
def hex4 (n : Nat) : List Char :=
  [n / 4096 % 16, n / 256 % 16, n / 16 % 16, n % 16].map Nat.digitChar

def escapeChar (c : Char) : List Char :=
  if c = '"' then ['\\', '"']
  else if c = '\\' then ['\\', '\\']
  else if c = '\n' then ['\\', 'n']
  else if c = '\r' then ['\\', 'r']
  else if c = '\t' then ['\\', 't']
  else if c = '\x08' then ['\\', 'b']
  else if c = '\x0c' then ['\\', 'f']
  else if c.toNat < 32 then '\\' :: 'u' :: hex4 c.toNat
  else [c]

/-- A text between quotes. -/
def quoted (s : String) : List Char :=
  '"' :: s.toList.flatMap escapeChar ++ ['"']

mutual

/-- The characters of a value. -/
def chars : Json → List Char
  | .null => ['n', 'u', 'l', 'l']
  | .bool true => ['t', 'r', 'u', 'e']
  | .bool false => ['f', 'a', 'l', 's', 'e']
  | .int (.ofNat n) => Nat.toDigits 10 n
  | .int (.negSucc n) => '-' :: Nat.toDigits 10 (n + 1)
  | .real text => text.toList
  | .str s => quoted s
  | .arr items => '[' :: itemChars items
  | .obj members => '\x7b' :: memberChars members

/-- The items of a list, commas between them, with the closing bracket. -/
def itemChars : List Json → List Char
  | [] => [']']
  | [item] => chars item ++ [']']
  | item :: rest => chars item ++ ',' :: itemChars rest

/-- The members of an object, commas between them, with the closing brace. -/
def memberChars : List (String × Json) → List Char
  | [] => ['\x7d']
  | [(name, value)] => quoted name ++ ':' :: chars value ++ ['\x7d']
  | (name, value) :: rest => quoted name ++ ':' :: chars value ++ ',' :: memberChars rest

end

/-- The text of a value. -/
def render (j : Json) : String := String.ofList j.chars

end Json

end Interleaving
