import TieredFootage.Selection.Events
import TieredFootage.Selection.Files

/-!
# The two axes of a segment tier together

A segment tier has a plain axis and an events axis, and each may be left out.
With both, a segment leaves only if both axes say so. The result keeps, beside
the paths to evict, the rows of the events axis they stand for: a recording
follows its segments, and these rows say which recordings that are.
-/

namespace TieredFootage

/-- What leaves a segment tier: paths with the roots they were catalogued
under, no path twice, and the event rows behind them. -/
structure SegmentSelection where
  files : List (Path × Path) := []
  events : List EventRow := []
  deriving DecidableEq, Repr

/-- The event rows whose file also leaves on the plain axis. -/
def overlap (events : List EventRow) (plain : List TierFile) : List EventRow :=
  events.filter fun row => decide (row.fileId ∈ plain.map (·.id))

/-- The selection that a list of event rows stands for. -/
def SegmentSelection.ofEvents (events : List EventRow) : SegmentSelection where
  files := (distinctBy EventRow.path events).map fun row => (row.path, row.tierPath)
  events := events

def SegmentSelection.ofFiles (files : List TierFile) : SegmentSelection where
  files := (distinctBy TierFile.path files).map fun f => (f.path, f.tierPath)

/-- The selection of both axes; `none` is an axis that is left out. -/
def combine : Option (List TierFile) → Option (List EventRow) → SegmentSelection
  | some plain, some events => .ofEvents (overlap events plain)
  | none, some events => .ofEvents events
  | some plain, none => .ofFiles plain
  | none, none => {}

theorem mem_overlap {events : List EventRow} {plain : List TierFile} {row : EventRow} :
    row ∈ overlap events plain ↔ row ∈ events ∧ ∃ f ∈ plain, f.id = row.fileId := by
  simp [overlap]

@[simp] theorem events_ofFiles (files : List TierFile) :
    (SegmentSelection.ofFiles files).events = [] := rfl

@[simp] theorem events_ofEvents (events : List EventRow) :
    (SegmentSelection.ofEvents events).events = events := rfl

end TieredFootage
