import TieredFootage.Double
import TieredFootage.Json

/-!
# Settings as they are written

What a file or the environment says before anything is known about its meaning:
a value, a list of settings, or a table of named settings.
-/

namespace TieredFootage

inductive Setting
  | missing
  | flag (b : Bool)
  | whole (z : Int)
  | real (x : Double)
  | text (s : String)
  | list (xs : List Setting)
  | table (entries : List (String × Setting))
  deriving Inhabited, Repr

namespace Setting

/-- The double `m · 10 ^ e`. -/
def ofDecimal (m e : Int) : Setting := .real (Double.ofDecimal (decide (m < 0)) m.natAbs e)

/-- A whole number; if it is too large for 64 bits with a sign, and `narrow` is
set, the double nearest to it. -/
def ofInteger (narrow : Bool) (z : Int) : Setting :=
  if narrow ∧ (signedEnd : Int) ≤ z then ofDecimal z 0 else .whole z

mutual

/-- The setting that a value of the data format stands for. -/
def ofJson (narrow : Bool) : Json → Setting
  | .null => .missing
  | .bool b => .flag b
  | .integer z => ofInteger narrow z
  | .decimal m e => ofDecimal m e
  | .text s => .text s
  | .list xs => .list (ofJsonList narrow xs)
  | .object ms => .table (ofJsonMembers narrow ms)

/-- The settings of a list of values. -/
def ofJsonList (narrow : Bool) : List Json → List Setting
  | [] => []
  | x :: xs => ofJson narrow x :: ofJsonList narrow xs

/-- The settings of the members of an object. -/
def ofJsonMembers (narrow : Bool) : List (String × Json) → List (String × Setting)
  | [] => []
  | (n, x) :: ms => (n, ofJson narrow x) :: ofJsonMembers narrow ms

end

/-- The setting under a name; the last one counts if the name is repeated. -/
def lookup? (name : String) (entries : List (String × Setting)) : Option Setting :=
  (entries.reverse.find? fun e => e.1 == name).map (·.2)

/-- The entries with one replaced or, if the name is new, added. -/
def replace (name : String) (x : Setting) : List (String × Setting) → List (String × Setting)
  | [] => [(name, x)]
  | e :: es => if e.1 = name then (name, x) :: es else e :: replace name x es

end Setting

end TieredFootage
