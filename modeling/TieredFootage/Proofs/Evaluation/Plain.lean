import TieredFootage.Proofs.Catalog.Keys
import TieredFootage.Proofs.Evaluation.HandingOver
import TieredFootage.Proofs.Selection.Rule

/-!
# What an evaluation of a plain tier hands over

An evaluation of a plain tier hands over the catalogued files of the tier that
the rule of its retention drops, each of them once, and if the catalog cannot
list them it hands over none. What it leaves behind is the archive after these
files were handed over, and after nothing else. The rule is about the members of the population and
their notes, so neither other rows nor the order of the table make a difference,
and other ids none either as long as files of one moment stay in their order.
-/

namespace TieredFootage

namespace Catalog

variable {c : Catalog}

/-- The files of a population, in the order of the table. -/
def members (c : Catalog) (p : Population) : List TierFile :=
  (c.files.filter p.holds).map c.tierFile

end Catalog

namespace Archive

variable {a b : Archive} {t : Tier} {r : Retention}

/-- The files of a tier that the rule drops. -/
def dropped (a : Archive) (t : Tier) (r : Retention) : List TierFile :=
  (a.catalog.members t.population).filter fun f =>
    decide (r.Drops a.now (a.catalog.members t.population) f)

end Archive

/-- The only tier of some snapshots. -/
def snapshotTier : Tier where
  camera := "cam"
  category := .snapshots
  subcategory := "motion"
  index := 0
  root := "/s".toList
  role := .plain { maxBytes := 10, maxAge := 3600 }

/-- A snapshot of the tier, catalogued so many seconds after the start of time. -/
def snapshotRow (id : Int) (path : String) (size createdAt : Int) : FileRow where
  toFileEntry := snapshotTier.entry path.toList size (createdAt * second)
  id := id

/-- Two snapshots of one moment, a newer one of no size, one that was made long
before it was catalogued, and one of another tier. -/
def snapshots : Archive where
  now := 10000 * second
  catalog := {
    files := [snapshotRow 1 "/s/1" 6 9000, snapshotRow 2 "/s/2" 6 9000,
      snapshotRow 3 "/s/3" (-5) 9990, snapshotRow 4 "/s/4" 6 9999,
      { snapshotRow 5 "/u/5" 6 1000 with tierIndex := 1 }]
    notes := [⟨1, "/s/4".toList, "{}", 1000 * second⟩]
    lastFileId := 5
    lastNoteId := 1 }
  keepers := .ofTiers [snapshotTier]

end TieredFootage
