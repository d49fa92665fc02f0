import TieredFootage.Catalog
import TieredFootage.Disk
import TieredFootage.Serving.Registry

/-!
# Evictions

An eviction takes one file out of a tier: it moves the file to the next tier, or
deletes it off the last one, and keeps the catalog in step. Nothing happens to a
file that is being served.

`Holdings` are what evictions work on. The row of a moved file stays until the
disk reports the file gone; only its note is copied ahead. The row of a deleted
file goes first, and so does, last of all, that of a file which was catalogued
under another root than that of the tier: nobody watches there.
-/

namespace TieredFootage

inductive Eviction
  /-- It is in the next tier now. -/
  | moved (destination : Path)
  | deleted
  /-- It is being served and stays for now. -/
  | skipped
  /-- It would be moved onto itself and stays. -/
  | collision
  /-- It was gone already. -/
  | missing
  /-- The disk refused; it stays. -/
  | failed
  deriving DecidableEq, Repr

/-- Whether the file is no longer in its tier. -/
def Eviction.isGone : Eviction → Bool
  | .moved _ | .deleted | .missing => true
  | .skipped | .collision | .failed => false

/-- What has been counted over all tiers. -/
structure Counters where
  filesSkipped : Nat := 0
  filesMoved : Nat := 0
  bytesMoved : Nat := 0
  filesDeleted : Nat := 0
  evaluations : Nat := 0
  eventsProcessed : Nat := 0
  eventsFailed : Nat := 0
  deriving DecidableEq, Repr, Inhabited

/-- The clock, the disk, the catalog, the files being served, and the counters. -/
structure Holdings where
  now : Int := 0
  disk : Disk := {}
  catalog : Catalog := {}
  served : Served := {}
  counters : Counters := {}
  deriving Repr

namespace Holdings

/-- Drops the row of a path, if the catalog lets it. -/
def dropRow (h : Holdings) (p : Path) : Holdings :=
  { h with catalog := (h.catalog.deleteFile p).2 }

/-- Moves a file: copies its note ahead, then moves the file itself. The row of
a file that is not there is dropped. -/
def move (h : Holdings) (source target : Path) : Eviction × Holdings :=
  let h := { h with catalog := (h.catalog.copyNote source target).2 }
  match h.disk.moveFile source target with
  -- The row stays until it is reported that the file is gone.
  | (.ok bytes, disk) =>
    (.moved target, { h with
      disk := disk
      counters := { h.counters with
        filesMoved := h.counters.filesMoved + 1
        bytesMoved := h.counters.bytesMoved + bytes } })
  | (.error .absent, disk) => (.missing, { h with disk := disk }.dropRow source)
  | (.error _, disk) => (.failed, { h with disk := disk })

/-- Deletes a file, its row first. -/
def discard (h : Holdings) (p : Path) : Eviction × Holdings :=
  let h := h.dropRow p
  match h.disk.removeFile p with
  | (.ok (), disk) =>
    (.deleted, { h with
      disk := disk
      counters := { h.counters with filesDeleted := h.counters.filesDeleted + 1 } })
  | (.error .absent, disk) => (.missing, { h with disk := disk })
  | (.error _, disk) => (.failed, { h with disk := disk })

/-- The path of a file in the next tier. -/
def destination (p fileRoot next : Path) : Path := Path.replaceFirst fileRoot next p

/-- Moves a file to the next tier, or deletes it if there is none, whoever reads it. -/
def evictUnserved (h : Holdings) (p fileRoot : Path) (next : Option Path) : Eviction × Holdings :=
  match next with
  | none => h.discard p
  | some next =>
    if destination p fileRoot next = p then (.collision, h)
    else h.move p (destination p fileRoot next)

/-- Takes a file out of the tier with the given root. `fileRoot` is the root it
was catalogued under. -/
def evict (h : Holdings) (p fileRoot root : Path) (next : Option Path) : Eviction × Holdings :=
  match h.served.contains h.now p with
  | (true, served) =>
    (.skipped, { h with
      served := served
      counters := { h.counters with filesSkipped := h.counters.filesSkipped + 1 } })
  | (false, served) =>
    let (outcome, h) := { h with served := served }.evictUnserved p fileRoot next
    -- Under another root nobody watches, so nobody else would drop the row.
    (outcome, if fileRoot = root then h else h.dropRow p)

/-- A file that is being served is skipped, and neither disk nor catalog changes. -/
theorem evict_of_protects {h : Holdings} {p : Path} (hp : h.served.protects h.now p = true)
    (fileRoot root : Path) (next : Option Path) :
    (h.evict p fileRoot root next).1 = .skipped ∧
      (h.evict p fileRoot root next).2.disk = h.disk ∧
      (h.evict p fileRoot root next).2.catalog = h.catalog := by
  simp [evict, Served.contains, hp]

end Holdings

end TieredFootage
