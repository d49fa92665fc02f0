import TieredFootage.Config.Decode
import TieredFootage.Config.Toml
import TieredFootage.Disk
import TieredFootage.Tier

/-!
# Where settings come from

Settings come from one file in the working directory and from the environment,
which has the last word. Every layer is laid over the tables below it name by
name; names count without regard to capitals. A name with dots leads into the
tables on its way.

A variable of the environment counts if its name starts with `STORAGE__`; two
underscores after that stand for a dot. Its value is a flag or a number if it
looks like one.
-/

namespace TieredFootage

namespace Setting

/-- The entries of a table; there are none in anything else. -/
def entries : Setting → List (String × Setting)
  | .table es => es
  | _ => []

mutual

/-- A setting laid over another one: tables are laid over each other, anything
else takes the place of what was there. An empty table changes nothing. -/
def overlay (under : Setting) : Setting → Setting
  | .table [] => under
  | .table ((k, x) :: es) => .table (overlayAll under.entries ((k, x) :: es))
  | x => x

/-- Entries laid over those of a table. -/
def overlayAll (under : List (String × Setting)) : List (String × Setting) → List (String × Setting)
  | [] => under
  | (k, x) :: es =>
    let name := k.toLower
    overlayAll (replace name (overlay ((lookup? name under).getD (.table [])) x) under) es

end

/-- A setting laid over what stands at the end of a path of names. -/
def overlayAt : List String → Setting → Setting → Setting
  | [], x, under => overlay under x
  | k :: ks, x, under =>
    let name := k.toLower
    let inner := (lookup? name under.entries).getD (.table [])
    .table (replace name (overlayAt ks x inner) under.entries)

end Setting

namespace Config

/-- Whether a character may stand in a name on a path of names. -/
def isNameChar (c : Char) : Bool := c.isAlphanum || c == ' ' || c == '_' || c == '-'

/-- The path that a name with dots stands for; a name that has other characters
stands for itself. -/
def namePath (name : String) : List String :=
  let parts := name.toList.splitOn '.'
  if parts.all fun p => !p.isEmpty && p.all isNameChar then parts.map String.ofList else [name]

/-- A layer laid over settings. -/
def layer (under : Setting) (entries : List (String × Setting)) : Setting :=
  entries.foldl (fun s e => Setting.overlayAt (namePath e.1) e.2 s) under

/-- The prefix of the variables that count. -/
def variablePrefix : List Char := "storage__".toList

/-- A text with dots in place of double underscores. -/
def dotted : List Char → List Char
  | '_' :: '_' :: cs => '.' :: dotted cs
  | c :: cs => c :: dotted cs
  | [] => []

/-- The value of a variable: a flag or a number if it looks like one. -/
def variableValue (value : String) : Setting :=
  if value.toLower = "true" then .flag true
  else if value.toLower = "false" then .flag false
  else
    match signedNumber? value.toList with
    | some z => .whole z
    | none =>
      match Double.ofText? value.toList with
      | some x => .real x
      | none => .text value

/-- The setting of a variable, if it counts. -/
def settingOf? (name value : String) : Option (String × Setting) :=
  let cs := name.toLower.toList
  if variablePrefix.isPrefixOf cs then
    some (String.ofList (dotted (cs.drop variablePrefix.length)), variableValue value)
  else none

def ofEnvironment (environment : List (String × String)) : List (String × Setting) :=
  environment.filterMap fun v => settingOf? v.1 v.2

/-- The file of settings, without the ending that says how it is written. -/
def fileName : Path := "config/storage".toList

def textOf? (d : Disk) (p : Path) : Option String :=
  match d.stat p with
  | .ok (.file s) => some s
  | _ => none

/-- The settings of the file in the working directory; none if it cannot be
understood. A file without an ending hides the others, since nobody knows how it
is written. -/
def ofDisk (d : Disk) : Option (List (String × Setting)) :=
  if d.isFile fileName then some []
  else
    match textOf? d (fileName ++ ".toml".toList) with
    | some s => Toml.parse? s
    | none =>
      match textOf? d (fileName ++ ".json".toList) with
      | none => some []
      | some s =>
        match Json.parse? s with
        | some (.object ms) => some (Setting.ofJsonMembers true ms)
        | _ => none

/-- The settings of a service that starts with a disk and an environment. -/
def load? (d : Disk) (environment : List (String × String)) : Option Config := do
  let file ← ofDisk d
  Config.read? .lenient (layer (layer (.table []) file) (ofEnvironment environment))

end Config

end TieredFootage
