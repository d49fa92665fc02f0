import TieredFootage.Serving.Readers
import TieredFootage.Tier.Keeper

/-!
# The archive

The archive is everything together: what evictions work on, the keepers of all
tiers, the routes that files are served by, and who reads them. Operations on it
take the archive as it is and answer with the archive afterwards; nothing else
remembers anything.
-/

namespace TieredFootage

structure Archive extends Holdings where
  keepers : Keepers := []
  /-- Whether the keepers can find each other. -/
  linked : Bool := true
  ignored : IgnoredNames := []
  routes : RouteTable := {}
  /-- Whether registering a route fails. -/
  registrarFails : Bool := false
  readers : Readers := []
  /-- The time between two sweeps, in nanoseconds, if there are any. -/
  sweepInterval : Option Int := none
  /-- When the next sweep of each running series is due. -/
  sweeps : List Int := []
  /-- Whether the archive as a whole has been told to stop. -/
  isStopping : Bool := false
  /-- Whether an evaluation met something that cannot be represented. Nothing
  after that means anything. -/
  overflowed : Bool := false
  deriving Repr

namespace Archive

/-- The archive with the keeper at an address changed. -/
def update (a : Archive) (x : Address) (f : Keeper → Keeper) : Archive :=
  { a with keepers := a.keepers.update x f }

def phaseOf (a : Archive) (x : Address) : Phase :=
  ((a.keepers.get? x).map (·.phase)).getD .starting

def withCatalog (a : Archive) (c : Catalog) : Archive := { a with catalog := c }

def withDisk (a : Archive) (d : Disk) : Archive := { a with disk := d }

/-- The keeper of a sibling tier: the same camera and place, another subcategory.
Keepers that are not linked find nobody. -/
def sibling? (a : Archive) (t : Tier) (subcategory : String) : Option Keeper :=
  if a.linked then a.keepers.get? ⟨t.camera, subcategory, t.index⟩ else none

@[simp] theorem toHoldings_update (a : Archive) (x : Address) (f : Keeper → Keeper) :
    (a.update x f).toHoldings = a.toHoldings := rfl

end Archive

end TieredFootage
