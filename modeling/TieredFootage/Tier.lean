import TieredFootage.Catalog.Rows
import TieredFootage.Retention
import TieredFootage.Serving.Routes
import TieredFootage.Word

/-!
# Tiers

A tier is one step of a chain of storage directories: a root, the root of the
next tier unless it is the last one, and what is kept there. The files of one
camera and one subcategory lie in a directory of their own below the root. The
role of a tier decides how files leave it: by a plain retention, by the two axes
of recorded segments, or only together with the segments of their recording.
-/

namespace TieredFootage

/-- What a chain of tiers belongs to. -/
inductive Category
  | recorder
  | snapshots
  deriving DecidableEq, Repr

def Category.text : Category → String
  | .recorder => "recorder"
  | .snapshots => "snapshots"

/-- How files leave a tier. -/
inductive Role
  | plain (retention : Retention)
  | segments (continuous events : Retention)
  | thumbnails
  | clips
  deriving DecidableEq, Repr

/-- Where a tier stands: its camera, its subcategory and its place in the chain. -/
structure Address where
  camera : String
  subcategory : String
  index : Nat
  deriving DecidableEq, Repr

/-- Whether no place is left in the chain after an address. -/
def Address.isLast (a : Address) : Bool := a.index + 1 == wordEnd

structure Tier where
  camera : String
  category : Category
  subcategory : String
  index : Nat
  root : Path
  next : Option Path := none
  polled : Bool := false
  /-- Everything leaves the tier when it is stopped. -/
  drainsOnStop : Bool := false
  cameraFailed : Bool := false
  role : Role
  deriving DecidableEq, Repr

/-- The subcategory of recorded segments. -/
def segmentsName : String := "segments"

/-- The subcategory of the thumbnails of recordings. -/
def thumbnailsName : String := "thumbnails"

/-- The subcategory of the clips of recordings. -/
def clipsName : String := "recordings"

/-- The thumbnail that is written over and over and never catalogued. -/
def latestThumbnail : Path := "latest_thumbnail.jpg".toList

/-- The directory below a root that holds the files of one subcategory and
camera. Snapshots lie one level deeper. -/
def filesDirectory (root : Path) (category : Category) (subcategory camera : String) : Path :=
  match category with
  | .recorder => (root.join subcategory.toList).join camera.toList
  | .snapshots =>
    ((root.join Category.snapshots.text.toList).join subcategory.toList).join camera.toList

/-- A root without slashes at its end; a root of slashes only is `/`. -/
def normalRoot (p : Path) : Path :=
  if p.trimSlashes = [] then ['/'] else p.trimSlashes

/-- The last two names of a path with a slash between them: what stays the same
of a clip when it changes tiers. -/
def clipSuffix? (p : Path) : Option Path := do
  let name ← p.fileName?
  let parent ← p.parent?
  let directory ← parent.fileName?
  some (directory ++ '/' :: name)

/-- The number that a text writes out in decimal digits, after at most one sign;
none if it is no 64-bit number. -/
def signedNumber? (s : List Char) : Option Int :=
  let negative := s.head? == some '-'
  let digits := if negative || s.head? == some '+' then s.drop 1 else s
  if digits.isEmpty || !digits.all Char.isDigit then none
  else
    let n : Nat := digits.foldl (fun n d => n * 10 + (d.toNat - 48)) 0
    let z : Int := if negative then -(n : Int) else n
    if fitsSigned z then some z else none

namespace Tier

def address (t : Tier) : Address := ⟨t.camera, t.subcategory, t.index⟩

def directory (t : Tier) : Path := filesDirectory t.root t.category t.subcategory t.camera

/-- The place in the chain as the catalog's signed 64-bit number. -/
def rowIndex (t : Tier) : Int := if t.index < signedEnd then t.index else (t.index : Int) - wordEnd

def population (t : Tier) : Population := ⟨t.camera, t.category.text, t.subcategory, t.rowIndex⟩

/-- Whether this is the first tier of its chain. -/
def isFirst (t : Tier) : Bool := t.index == 0

/-- Whether a path is never catalogued. -/
def skips (t : Tier) (p : Path) : Bool :=
  match t.role with
  | .thumbnails => p.fileName? == some latestThumbnail
  | _ => false

/-- The extensions under which the files of the tier are served. -/
def extensions (t : Tier) : List String :=
  match t.role with
  | .segments _ _ => ["m4s", "mp4"]
  | .plain _ | .thumbnails => ["jpg"]
  | .clips => [t.camera]

def routes (t : Tier) : List FileRoute :=
  t.extensions.map fun e =>
    { path := t.directory
      pattern := extensionPattern t.directory e.toList
      camera := t.camera
      category := t.category.text
      subcategory := t.subcategory
      failed := t.cameraFailed }

/-- The entry of a file found in the tier. -/
def entry (t : Tier) (p : Path) (size createdAt : Int) : FileEntry where
  tierIndex := t.rowIndex
  tierPath := t.root
  camera := t.camera
  category := t.category.text
  subcategory := t.subcategory
  path := p
  directory := p.parent?.getD []
  filename := p.fileName?.getD []
  size := size
  createdAt := createdAt

end Tier

end TieredFootage
