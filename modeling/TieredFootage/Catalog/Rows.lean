import TieredFootage.Newest
import TieredFootage.Path

/-!
# Rows of the catalog

The catalog knows three kinds of things. A `FileRow` is a file in a tier
directory, a `MetaRow` what is remembered about a path across moves, and a
`Recording` an event whose footage is spread over files. A `TierFile` is what
an evaluation sees of a file: its row joined with the time the footage was made.
-/

namespace TieredFootage

/-- A file as it is reported to the catalog. -/
structure FileEntry where
  tierIndex : Int
  tierPath : Path
  camera : String
  category : String
  subcategory : String
  path : Path
  directory : Path
  filename : Path
  size : Int
  createdAt : Int
  deriving DecidableEq, Repr

/-- A catalogued file: the entry and the id it was given. -/
structure FileRow extends FileEntry where
  id : Int
  deriving DecidableEq, Repr

/-- Which tier of which camera a population belongs to. -/
structure Population where
  camera : String
  category : String
  subcategory : String
  tierIndex : Int
  deriving DecidableEq, Repr

def Population.holds (p : Population) (r : FileRow) : Bool :=
  r.camera == p.camera && r.category == p.category && r.subcategory == p.subcategory &&
    r.tierIndex == p.tierIndex

/-- What is remembered about a path: a note, kept as text, and the time the
footage was made. -/
structure MetaRow where
  id : Int
  path : Path
  note : String
  madeAt : Int
  deriving DecidableEq, Repr

/-- A recording as it is reported to the catalog. It has no end while it is in
progress; `lookback` is the footage kept ahead of its start, in seconds. -/
structure RecordingEntry where
  camera : String
  startTime : Int
  endTime : Option Int := none
  clipPath : Option Path := none
  thumbnailPath : Option Path := none
  lookback : Int := 0
  deriving DecidableEq, Repr

/-- A catalogued recording: the entry, its id and when it was catalogued. -/
structure Recording extends RecordingEntry where
  id : Int
  createdAt : Int
  deriving DecidableEq, Repr

/-- A file of a population. `madeAt` is there if the path has a `MetaRow`. -/
structure TierFile where
  id : Int
  path : Path
  tierPath : Path
  size : Int
  createdAt : Int
  madeAt : Option Int := none
  deriving DecidableEq, Repr

namespace TierFile

/-- The time that ages are counted from: when the footage was made, as far as
that is known, and else when the file was catalogued. -/
def effective (f : TierFile) : Int := f.madeAt.getD f.createdAt

/-- The bytes of a file; a negative size counts as none. -/
def bytes (f : TierFile) : Nat := f.size.toNat

/-- The place of a file in its population. -/
def rank (f : TierFile) : Rank := ⟨f.effective, f.id⟩

@[simp] theorem effective_some (i : Int) (p t : Path) (s c m : Int) :
    effective ⟨i, p, t, s, c, some m⟩ = m := rfl

@[simp] theorem effective_none (i : Int) (p t : Path) (s c : Int) :
    effective ⟨i, p, t, s, c, none⟩ = c := rfl

end TierFile

/-- The place of a recording among those of its camera. -/
def Recording.rank (r : Recording) : Rank := ⟨r.startTime, r.id⟩

/-- A recording is closed once it has an end. -/
def Recording.isClosed (r : Recording) : Bool := r.endTime.isSome

end TieredFootage
