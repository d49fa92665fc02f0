import TieredFootage.Disk
import TieredFootage.Watch.Ignored

/-!
# Notifications

A file system reports its changes as events of many kinds. A tier only wants to
know which files were created, modified or deleted, so events about directories
and about ignored file names are left out, and a rename becomes a deletion
followed by a creation.

A rename whose two sides could be matched is reported three times: the side it
left, the side it reached, and both together under one tracker. The two sides
are enough, so the tracked report of both is left out. Only the kind of the node
now on the disk tells a file from a directory.
-/

namespace TieredFootage

inductive NotificationKind
  | created
  | modified
  | deleted
  deriving DecidableEq, Repr

/-- What happened to a file, and which one. -/
structure Notification where
  kind : NotificationKind
  path : Path
  deriving DecidableEq, Repr

/-- What an event says it is about. -/
inductive Subject
  | unknown
  | file
  | folder
  | other
  deriving DecidableEq, Repr

/-- Which side of a rename an event reports. -/
inductive RenameSide
  | unknown
  | source
  | target
  | both
  deriving DecidableEq, Repr

inductive EventKind
  | unknown
  | access
  | other
  | create (subject : Subject)
  | modify
  | rename (side : RenameSide)
  | remove (subject : Subject)
  deriving DecidableEq, Repr

/-- A report of the file system. -/
structure FileEvent where
  kind : EventKind
  paths : List Path
  tracker : Option Nat := none
  deriving DecidableEq, Repr

/-- A path that is no directory, as something of the given kind. -/
def notifyUnlessDirectory (d : Disk) (kind : NotificationKind) (p : Path) : Option Notification :=
  if d.isDirectory p then none else some ⟨kind, p⟩

/-- A path that was renamed from or to, whichever the disk says. -/
def notifyByPresence (d : Disk) (p : Path) : Option Notification :=
  if d.isFile p then some ⟨.created, p⟩
  else if d.isPresent p then none
  else some ⟨.deleted, p⟩

/-- What an event says about files, ignored names included. -/
def FileEvent.report (d : Disk) (e : FileEvent) : List Notification :=
  match e.kind with
  | .create .folder => []
  | .remove .folder => []
  | .create _ => e.paths.filterMap (notifyUnlessDirectory d .created)
  | .rename .both =>
    if e.tracker.isSome then []
    else
      (e.paths.head?.map (Notification.mk .deleted)).toList ++
        (e.paths[1]?.bind (notifyUnlessDirectory d .created)).toList
  | .rename .source => (e.paths.head?.map (Notification.mk .deleted)).toList
  | .rename .target => (e.paths.head?.bind (notifyUnlessDirectory d .created)).toList
  | .rename .unknown => e.paths.filterMap (notifyByPresence d)
  | .modify => e.paths.filterMap (notifyUnlessDirectory d .modified)
  | .remove _ => e.paths.map (Notification.mk .deleted)
  | .access | .unknown | .other => []

/-- What an event says about files that are not ignored. -/
def FileEvent.notifications (d : Disk) (ignored : IgnoredNames) (e : FileEvent) :
    List Notification :=
  (e.report d).filter fun n => !ignored.covers n.path

/-- No notification is about an ignored name. -/
theorem covers_of_mem_notifications {d : Disk} {ignored : IgnoredNames} {e : FileEvent}
    {n : Notification} (h : n ∈ e.notifications d ignored) : ignored.covers n.path = false := by
  simpa using (List.mem_filter.1 h).2

/-- A rename with both sides reported at once is a deletion and a creation. -/
theorem report_both (d : Disk) (p q : Path) :
    (FileEvent.mk (.rename .both) [p, q] none).report d =
      ⟨.deleted, p⟩ :: (notifyUnlessDirectory d .created q).toList := rfl

theorem report_both_tracked (d : Disk) (ps : List Path) (t : Nat) :
    (FileEvent.mk (.rename .both) ps (some t)).report d = [] := rfl

end TieredFootage
