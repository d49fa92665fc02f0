import TieredFootage.Catalog
import TieredFootage.Config
import TieredFootage.Disk

/-!
# Opening a catalog

The settings of the catalog name a place for it: memory, where it is forgotten
when it is closed, or a file, which is made if its directory is there. A catalog
can only be used over a connection, and only if one may be waited for.
-/

namespace TieredFootage

inductive CatalogPlace
  | memory
  | file (p : Path)
  deriving DecidableEq, Repr

namespace CatalogPlace

/-- A text without a prefix it may start with. -/
def dropPrefix (lead s : List Char) : List Char :=
  if lead.isPrefixOf s then s.drop lead.length else s

/-- Whether an option behind the address is one that a catalog can be used with. -/
def isUsable (option : List Char) : Bool :=
  option.isEmpty || ["mode=rw", "mode=rwc", "mode=memory", "cache=shared", "cache=private",
    "immutable=false", "immutable=0"].contains (String.ofList option)

/-- The place that an address names, unless it asks for something that is not
there. -/
def ofUrl? (url : String) : Option CatalogPlace :=
  let body := dropPrefix "sqlite:".toList (dropPrefix "sqlite://".toList url.toList)
  let place := body.takeWhile (· != '?')
  let options := (body.drop (place.length + 1)).splitOn '&'
  if options.all isUsable then
    if place = ":memory:".toList ∨ place = [] ∨ "mode=memory".toList ∈ options then some .memory
    else some (.file place)
  else none

/-- Whether a catalog can be kept at the place. -/
def isReachable (d : Disk) : CatalogPlace → Bool
  | .memory => true
  | .file p =>
    match d.slot p with
    | .ok (l, slash) => !slash && d.node? l != some .directory
    | .error _ => false

end CatalogPlace

/-- The place of the catalog, if a connection to it can be had. -/
def DatabaseConfig.place? (c : DatabaseConfig) : Option CatalogPlace :=
  if 0 < c.maxConnections ∧ 0 < c.connectTimeout then CatalogPlace.ofUrl? c.url else none

namespace Catalog

/-- Opens the catalog again that `c` describes; `kept` is what it held before. -/
def reopen? (d : Disk) (c : DatabaseConfig) (kept : Catalog) : Option Catalog :=
  match c.place? with
  | none => none
  | some place =>
    if place.isReachable d then
      let content :=
        if place = .memory then { hasTables := false, failing := kept.failing } else kept
      some (if c.runsMigrations then content.makeTables else content)
    else none

/-- Opens a catalog for the first time. -/
def open? (d : Disk) (c : DatabaseConfig) : Option Catalog := reopen? d c { hasTables := false }

end Catalog

end TieredFootage
