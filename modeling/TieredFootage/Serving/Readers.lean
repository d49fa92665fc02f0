import TieredFootage.Serving.Registry

/-!
# Readers

A reader is somebody who holds a guard under a name. Taking a guard under a name
that is in use gives the older guard back, once the new one has been taken.
-/

namespace TieredFootage

/-- The names in use, with the path that each guards. -/
abbrev Readers := List (String × Path)

namespace Readers

/-- The path guarded under a name. -/
def path? (r : Readers) (name : String) : Option Path := (r.find? (·.1 == name)).map (·.2)

def without (r : Readers) (name : String) : Readers := r.filter (·.1 != name)

/-- Takes a guard under a name. -/
def hold (r : Readers) (s : Served) (now : Int) (name : String) (p : Path) : Readers × Served :=
  let s := s.guard now p
  let s := match r.path? name with
    | some old => s.release now old
    | none => s
  ((name, p) :: r.without name, s)

/-- Gives the guard under a name back; answers whether there was one. -/
def drop (r : Readers) (s : Served) (now : Int) (name : String) : Bool × Readers × Served :=
  match r.path? name with
  | some p => (true, r.without name, s.release now p)
  | none => (false, r, s)

end Readers

end TieredFootage
