import TieredFootage.Json

/-!
# Written values

Values are written without any space. In texts a quote, a backslash and the
control characters are escaped, everything else stands for itself. A decimal is
written as its mantissa and its exponent.
-/

namespace TieredFootage

namespace Json

/-- The sixteen digits of an escaped character code. -/
def hexDigit (n : Nat) : Char :=
  if n < 10 then Char.ofNat (48 + n) else Char.ofNat (87 + n)

/-- One character of a text as it is written. -/
def escapeChar (c : Char) : List Char :=
  if c = '"' then ['\\', '"']
  else if c = '\\' then ['\\', '\\']
  else if c = '\n' then ['\\', 'n']
  else if c = '\r' then ['\\', 'r']
  else if c = '\t' then ['\\', 't']
  else if c.toNat = 8 then ['\\', 'b']
  else if c.toNat = 12 then ['\\', 'f']
  else if c.toNat < 32 then ['\\', 'u', '0', '0', hexDigit (c.toNat / 16), hexDigit (c.toNat % 16)]
  else [c]

def writeText (s : String) : List Char := '"' :: s.toList.flatMap escapeChar ++ ['"']

mutual

def write : Json → List Char
  | .null => "null".toList
  | .bool true => "true".toList
  | .bool false => "false".toList
  | .integer z => (toString z).toList
  | .decimal m e => (toString m).toList ++ 'e' :: (toString e).toList
  | .text s => writeText s
  | .list [] => ['[', ']']
  | .list (x :: xs) => '[' :: write x ++ writeRest xs ++ [']']
  | .object [] => ['\x7b', '\x7d']
  | .object ((n, x) :: ms) =>
    '\x7b' :: writeText n ++ ':' :: write x ++ writeMembers ms ++ ['\x7d']

/-- The entries of a list after the first one. -/
def writeRest : List Json → List Char
  | [] => []
  | x :: xs => ',' :: write x ++ writeRest xs

/-- The members of an object after the first one. -/
def writeMembers : List (String × Json) → List Char
  | [] => []
  | (n, x) :: ms => ',' :: writeText n ++ ':' :: write x ++ writeMembers ms

end

/-- The value as a string. -/
def render (x : Json) : String := String.ofList (write x)

end Json

end TieredFootage
