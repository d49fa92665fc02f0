/-!
# JSON values

A value of the data format that notes and settings are written in. Numbers come
in two kinds that are never mixed up: an integer that was written without
fraction and exponent, and a decimal `m · 10 ^ e`. Objects keep their members
in the order they were written.
-/

namespace TieredFootage

inductive Json
  | null
  | bool (b : Bool)
  | integer (z : Int)
  | decimal (mantissa exponent : Int)
  | text (s : String)
  | list (xs : List Json)
  | object (members : List (String × Json))
  deriving Inhabited, Repr

namespace Json

/-- The member of an object with a name; the last one counts if the name is
repeated. -/
def member? (name : String) : Json → Option Json
  | .object members => (members.reverse.find? fun m => m.1 == name).map (·.2)
  | _ => none

def text? : Json → Option String
  | .text s => some s
  | _ => none

def integer? : Json → Option Int
  | .integer z => some z
  | _ => none

def bool? : Json → Option Bool
  | .bool b => some b
  | _ => none

def list? : Json → Option (List Json)
  | .list xs => some xs
  | _ => none

end Json

end TieredFootage
