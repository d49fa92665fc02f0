import Mathlib.Data.List.Basic
import TieredFootage.Watch.Notification

/-!
# Path by path

An event lists paths, and says something about all of them, about the first ones, or about
none. Each of these is turned into one notification at most, on its own, so nothing is made
up and the order is kept; and only directories may be left out. `AreTold` says so of a list
of notifications. It holds path by path: what is told of two lists of paths, one behind the
other, is told of both together.

A rename with both sides in view is reported side by side under one tracker, and then at
once under the same tracker; or only at once, without one. Either way the one path is
deleted and then the other one created, each unless its name is ignored, and the other one
unless a directory is there.
-/

namespace TieredFootage

/-- What is there and is no file is a directory. -/
theorem Disk.isDirectory_eq (d : Disk) (p : Path) :
    d.isDirectory p = (d.isPresent p && !d.isFile p) := by
  unfold isDirectory isPresent isFile
  cases d.stat p with
  | error e => rfl
  | ok n => cases n <;> rfl

variable {d : Disk} {ps qs : List Path} {ns ms : List Notification}

/-- Notifications of the paths of a list, in their order and one for each at most. Only
directories may be left out, and they are at most deleted. -/
structure AreTold (d : Disk) (ps : List Path) (ns : List Notification) : Prop where
  sublist : (ns.map (·.path)).Sublist ps
  complete : (ps.filter fun p => !d.isDirectory p).Sublist (ns.map (·.path))
  not_directory : ∀ n ∈ ns, n.kind ≠ .deleted → d.isDirectory n.path = false

namespace AreTold

theorem nil (d : Disk) : AreTold d [] [] := ⟨List.Sublist.refl _, List.Sublist.refl _, by simp⟩

theorem append (h : AreTold d ps ns) (h' : AreTold d qs ms) :
    AreTold d (ps ++ qs) (ns ++ ms) where
  sublist := by
    rw [List.map_append]
    exact h.sublist.append h'.sublist
  complete := by
    rw [List.map_append, List.filter_append]
    exact h.complete.append h'.complete
  not_directory n hn := by
    rcases List.mem_append.1 hn with hn | hn
    · exact h.not_directory n hn
    · exact h'.not_directory n hn

theorem deleted (d : Disk) (p : Path) : AreTold d [p] [⟨.deleted, p⟩] :=
  ⟨List.Sublist.refl _, List.filter_sublist, by simp⟩

theorem of_isDirectory {p : Path} (h : d.isDirectory p = true) : AreTold d [p] [] :=
  ⟨List.nil_sublist _, by simp [h], by simp⟩

theorem of_not_isDirectory {p : Path} (h : d.isDirectory p = false) (kind : NotificationKind) :
    AreTold d [p] [⟨kind, p⟩] :=
  ⟨List.Sublist.refl _, List.filter_sublist, by simp [h]⟩

theorem unlessDirectory (d : Disk) (kind : NotificationKind) (p : Path) :
    AreTold d [p] (notifyUnlessDirectory d kind p).toList := by
  unfold notifyUnlessDirectory
  split
  · rename_i hp
    exact of_isDirectory hp
  · rename_i hp
    exact of_not_isDirectory (Bool.eq_false_iff.2 hp) kind

theorem byPresence (d : Disk) (p : Path) : AreTold d [p] (notifyByPresence d p).toList := by
  unfold notifyByPresence
  split
  · rename_i hfile
    exact of_not_isDirectory (by simp [Disk.isDirectory_eq, hfile]) .created
  · rename_i hfile
    split
    · rename_i hthere
      exact of_isDirectory (by simp [Disk.isDirectory_eq, hfile, hthere])
    · exact deleted d p

section Pathwise

variable {f : Path → Option Notification} (hf : ∀ p, AreTold d [p] (f p).toList)

include hf

theorem filterMap (ps : List Path) : AreTold d ps (ps.filterMap f) := by
  rw [List.filterMap_eq_flatMap_toList]
  induction ps with
  | nil => exact nil d
  | cons p ps ih =>
    rw [List.flatMap_cons]
    exact (hf p).append ih

/-- The first path alone. -/
theorem first (ps : List Path) : AreTold d (ps.take 1) (ps.head?.bind f).toList := by
  cases ps with
  | nil => exact nil d
  | cons p ps => exact hf p

end Pathwise

end AreTold

namespace FileEvent

/-- How many of its paths an event says something about, from the first one on. -/
def reach (e : FileEvent) : Nat :=
  match e.kind with
  | .create .folder | .remove .folder | .access | .unknown | .other => 0
  | .create _ | .modify | .remove _ | .rename .unknown => e.paths.length
  | .rename .source | .rename .target => 1
  | .rename .both => if e.tracker.isSome then 0 else 2

/-- The paths that an event says something about. -/
def affected (e : FileEvent) : List Path := e.paths.take e.reach

/-- Whatever an event says, it says path by path. -/
theorem areTold_report (d : Disk) (e : FileEvent) : AreTold d e.affected (e.report d) := by
  obtain ⟨kind, ps, tracker⟩ := e
  have hall : ∀ {f : Path → Option Notification}, (∀ p, AreTold d [p] (f p).toList) →
      AreTold d (ps.take ps.length) (ps.filterMap f) := by
    intro f hf
    rw [List.take_length]
    exact AreTold.filterMap hf ps
  have hdeleted : AreTold d (ps.take ps.length) (ps.map (Notification.mk .deleted)) := by
    rw [← List.filterMap_eq_map]
    exact hall (AreTold.deleted d)
  cases kind with
  | unknown => exact AreTold.nil d
  | access => exact AreTold.nil d
  | other => exact AreTold.nil d
  | modify => exact hall (AreTold.unlessDirectory d .modified)
  | create subject =>
    cases subject with
    | folder => exact AreTold.nil d
    | _ => exact hall (AreTold.unlessDirectory d .created)
  | remove subject =>
    cases subject with
    | folder => exact AreTold.nil d
    | _ => exact hdeleted
  | rename side =>
    cases side with
    | unknown => exact hall (AreTold.byPresence d)
    | source =>
      have hfirst : AreTold d (ps.take 1) (ps.head?.map (Notification.mk .deleted)).toList := by
        rw [Option.map_eq_bind]
        exact AreTold.first (AreTold.deleted d) ps
      exact hfirst
    | target => exact AreTold.first (AreTold.unlessDirectory d .created) ps
    | both =>
      cases tracker with
      | some t => exact AreTold.nil d
      | none =>
        cases ps with
        | nil => exact AreTold.nil d
        | cons p ps =>
          have hrest := AreTold.first (AreTold.unlessDirectory d .created) ps
          rw [List.head?_eq_getElem?] at hrest
          exact (AreTold.deleted d p).append hrest

theorem map_path_notifications (d : Disk) (ignored : IgnoredNames) (e : FileEvent) :
    (e.notifications d ignored).map (·.path) =
      ((e.report d).map (·.path)).filter fun p => !ignored.covers p := by
  rw [notifications, List.filter_map]
  rfl

end FileEvent

theorem IgnoredNames.covers_eq_false_iff {ignored : IgnoredNames} {p : Path} :
    ignored.covers p = false ↔ ∀ name, p.fileName? = some name → name ∉ ignored := by
  unfold covers
  cases p.fileName? with
  | none => simp
  | some name => simp [holds]

/-- The events of a rename from `p` to `q` when both sides are in view. -/
def renameEvents (tracker : Nat) (p q : Path) : List FileEvent :=
  [⟨.rename .source, [p], some tracker⟩, ⟨.rename .target, [q], some tracker⟩,
    ⟨.rename .both, [p, q], some tracker⟩]

namespace FileEvent

variable (d : Disk) (ignored : IgnoredNames) (p q : Path)

/-- Side by side a rename is reported as it is without a tracker. -/
theorem flatMap_notifications_renameEvents (tracker : Nat) :
    (renameEvents tracker p q).flatMap (·.notifications d ignored) =
      (⟨.rename .both, [p, q], none⟩ : FileEvent).notifications d ignored := by
  have hreport : (renameEvents tracker p q).flatMap (·.report d) =
      (⟨.rename .both, [p, q], none⟩ : FileEvent).report d := by
    rw [report_both]
    simp [renameEvents, report]
  simp only [notifications]
  rw [← List.filter_flatMap, hreport]

theorem notifications_both :
    (⟨.rename .both, [p, q], none⟩ : FileEvent).notifications d ignored =
      (if ignored.covers p then [] else [⟨.deleted, p⟩]) ++
        if ignored.covers q || d.isDirectory q then [] else [⟨.created, q⟩] := by
  rw [notifications, report_both, notifyUnlessDirectory]
  cases hp : ignored.covers p <;> cases hq : ignored.covers q <;> cases d.isDirectory q <;>
    simp [hp, hq]

/-- A rename is told in one way, however it is reported: the one path is deleted, then the other
one created. And whatever is reported, each path of an event yields one notification at most, in
order, and there are no others; none has a name that is ignored, and none says that a directory
was created or modified. Of the paths that the event says something about, no other one is left
out. -/
theorem rename_reports_agree :
    (∀ (tracker : Nat) (p q : Path),
      (renameEvents tracker p q).flatMap (·.notifications d ignored) =
          (⟨.rename .both, [p, q], none⟩ : FileEvent).notifications d ignored ∧
        (⟨.rename .both, [p, q], none⟩ : FileEvent).notifications d ignored =
          (if ignored.covers p then [] else [⟨.deleted, p⟩]) ++
            if ignored.covers q || d.isDirectory q then [] else [⟨.created, q⟩]) ∧
    ∀ e : FileEvent,
      ((e.notifications d ignored).map (·.path)).Sublist e.paths ∧
        (∀ n ∈ e.notifications d ignored,
          (∀ name, n.path.fileName? = some name → name ∉ ignored) ∧
          (n.kind = .created ∨ n.kind = .modified → d.isDirectory n.path = false)) ∧
        (e.affected.filter fun p => !d.isDirectory p && !ignored.covers p).Sublist
          ((e.notifications d ignored).map (·.path)) := by
  constructor
  · intro tracker p q
    exact ⟨flatMap_notifications_renameEvents d ignored p q tracker,
      notifications_both d ignored p q⟩
  · intro e
    have htold := areTold_report d e
    refine ⟨?_, fun n hn => ⟨?_, fun hkind => ?_⟩, ?_⟩
    · rw [map_path_notifications]
      exact (List.filter_sublist.trans htold.sublist).trans (List.take_sublist _ _)
    · exact IgnoredNames.covers_eq_false_iff.1 (covers_of_mem_notifications hn)
    · apply htold.not_directory n (List.mem_filter.1 hn).1
      rcases hkind with hkind | hkind <;> simp [hkind]
    · rw [map_path_notifications]
      have hcomplete := htold.complete.filter fun p => !ignored.covers p
      rw [List.filter_filter] at hcomplete
      simpa only [Bool.and_comm] using hcomplete

end FileEvent

/-- A directory with a file, a file whose name is ignored, and another directory. -/
def mixedDisk : Disk where
  nodes := [(["t".toList], .directory), (["t".toList, "1.m4s".toList], .file "1"),
    (["t".toList, "latest.jpg".toList], .file "2"), (["t".toList, "old".toList], .directory)]

/-- Something was renamed, and nobody knows which way. -/
def mixedEvent : FileEvent where
  kind := .rename .unknown
  paths := ["/t/old".toList, "/t/1.m4s".toList, "/t/latest.jpg".toList, "/t/2.m4s".toList,
    "/t/1.m4s".toList]

/-- Of these paths, two are files and one is gone. -/
theorem rename_reports_agree_mixedEvent :
    mixedEvent.notifications mixedDisk ["latest.jpg".toList] =
        [⟨.created, "/t/1.m4s".toList⟩, ⟨.deleted, "/t/2.m4s".toList⟩,
          ⟨.created, "/t/1.m4s".toList⟩] ∧
      ["/t/1.m4s".toList, "/t/2.m4s".toList, "/t/1.m4s".toList].Sublist mixedEvent.paths ∧
      "1.m4s".toList ∉ ["latest.jpg".toList] ∧
      mixedDisk.isDirectory "/t/1.m4s".toList = false := by
  have htold : mixedEvent.notifications mixedDisk ["latest.jpg".toList] =
      [⟨.created, "/t/1.m4s".toList⟩, ⟨.deleted, "/t/2.m4s".toList⟩,
        ⟨.created, "/t/1.m4s".toList⟩] := by decide
  obtain ⟨hpaths, hfits, -⟩ :=
    (FileEvent.rename_reports_agree mixedDisk ["latest.jpg".toList]).2 mixedEvent
  rw [htold] at hpaths hfits
  obtain ⟨hname, hfile⟩ := hfits ⟨.created, "/t/1.m4s".toList⟩ List.mem_cons_self
  exact ⟨htold, hpaths, hname _ (by decide), hfile (Or.inl rfl)⟩

end TieredFootage
