import TieredFootage.Serving.Pattern
import TieredFootage.Serving.Registry

/-!
# Routes

Files are served below `/files`. A route says which requests lead into a
directory: those that match its pattern, whose first group is the path of the
file below the directory. The first route that fits answers, and from then on
the file is guarded.
-/

namespace TieredFootage

/-- Where served files start. -/
def filesRoot : List Char := "/files".toList

/-- A directory that files are served from. -/
structure FileRoute where
  path : Path
  pattern : List Char
  camera : String
  category : String
  subcategory : String
  /-- The camera could not be started; its files are served all the same. -/
  failed : Bool
  deriving DecidableEq, Repr

/-- The pattern of the files below a directory with an extension. -/
def extensionPattern (path extension : List Char) : List Char :=
  Pattern.escape path ++ "/(.*\\.".toList ++ Pattern.escape extension ++ "$)".toList

/-- The registered routes in order, each with its pattern read. -/
structure RouteTable where
  routes : List (Pattern × FileRoute) := []
  deriving Repr, Inhabited

/-- The answer to a request: the route and the path of the file. -/
structure Resolved where
  route : FileRoute
  filePath : Path
  deriving DecidableEq, Repr

namespace RouteTable

/-- Adds a route; one that is there already is not added again. A pattern that
cannot be read is refused. -/
def register? (t : RouteTable) (r : FileRoute) : Option RouteTable :=
  match Pattern.parse? (filesRoot ++ r.pattern) with
  | none => none
  | some p =>
    if t.routes.any (·.2 == r) then some t else some { t with routes := t.routes ++ [(p, r)] }

/-- The file that one route has for a request. -/
def fileOf? (p : Pattern) (r : FileRoute) (request : List Char) : Option Path :=
  match p.first? request with
  | none => none
  | some m => (m.group? 1).map fun relative => r.path ++ '/' :: relative

/-- The file that a request asks for. -/
def lookup? (t : RouteTable) (request : List Char) : Option Resolved :=
  t.routes.findSome? fun x => (fileOf? x.1 x.2 request).map (Resolved.mk x.2)

/-- The file that a request asks for, and the registry with a guard on it. -/
def resolve (t : RouteTable) (s : Served) (now : Int) (request : List Char) :
    Option Resolved × Served :=
  match t.lookup? request with
  | none => (none, s)
  | some r => (some r, s.guard now r.filePath)

def size (t : RouteTable) : Nat := t.routes.length

/-- A request without a file leaves the registry as it was. -/
theorem resolve_eq_none {t : RouteTable} {s : Served} {now : Int} {request : List Char}
    (h : t.lookup? request = none) : t.resolve s now request = (none, s) := by
  simp [resolve, h]

theorem register?_of_mem {t : RouteTable} {p : Pattern} {r : FileRoute}
    (h : (p, r) ∈ t.routes) (hp : (Pattern.parse? (filesRoot ++ r.pattern)).isSome) :
    t.register? r = some t := by
  rw [register?]
  cases hq : Pattern.parse? (filesRoot ++ r.pattern) with
  | none => rw [hq] at hp; simp at hp
  | some q =>
    have : t.routes.any (·.2 == r) = true := List.any_eq_true.2 ⟨(p, r), h, by simp⟩
    simp [this]

end RouteTable

end TieredFootage
