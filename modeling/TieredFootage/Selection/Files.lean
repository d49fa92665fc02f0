import TieredFootage.Catalog.Rows
import TieredFootage.Retention

/-!
# Files that leave a tier

The plain axis judges every file of a population by itself, from the newest to
the oldest. A file always stays for a few seconds, also when no least age is
set, so that nothing leaves while it is still being written.
-/

namespace TieredFootage

/-- The least age on the plain axis when none is set, in seconds. -/
def defaultMinAge : Nat := 5

/-- The least age that the plain axis goes by, in seconds. -/
def Retention.grace (r : Retention) : Nat := if r.minAge = 0 then defaultMinAge else r.minAge

/-- The files that leave, newest first; `files` may come in any order. -/
def filesToMove (files : List TierFile) (r : Retention) (now : Int) : List TierFile :=
  r.leaving r.grace now TierFile.bytes TierFile.effective (newestFirst TierFile.rank files)

theorem mem_of_mem_filesToMove {files : List TierFile} {r : Retention} {now : Int} {f : TierFile}
    (h : f ∈ filesToMove files r now) : f ∈ files := by
  simp only [filesToMove, Retention.leaving, List.mem_map, List.mem_filter] at h
  obtain ⟨⟨g, b⟩, ⟨hg, -⟩, rfl⟩ := h
  have := List.mem_map_of_mem (f := Prod.fst) hg
  rw [Retention.map_fst_judge] at this
  exact (mem_newestFirst TierFile.rank).1 this

end TieredFootage
