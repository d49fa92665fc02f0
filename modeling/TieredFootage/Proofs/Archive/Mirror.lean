import TieredFootage.Archive.Lifecycle
import TieredFootage.Proofs.Archive.Backlog
import TieredFootage.Proofs.Catalog.Keys
import TieredFootage.Proofs.Watch.Naming

/-!
# How far the catalog mirrors the disk

A keeper is started over an empty directory and keeps all its files. Whatever is
done to files directly in the directory, and however late what is reported of it is
translated and handled: once nothing is left to handle, the rows of the tier are
exactly the files of the directory that it catalogues. Their sizes are right as
well, unless a rename has put a file in the place of another one: such a file is
reported as created, its path has a row already, and so nobody looks at it. Its row
keeps the size of the file that was there when the keeper last looked.
-/

namespace TieredFootage

/-- The keeper of a tier has begun to watch its directory, which is empty, and has
nothing to do yet. -/
structure Archive.Fresh (a : Archive) (t : Tier) (w : Watch) : Prop where
  tier : a.tierAt? t.address = some t
  watch : (a.keepers.get? t.address).bind (·.watch) = some w
  quiet : a.timersAt t.address = []
  answers : ∀ q ∈ [Query.insertFile, .updateFileSize, .deleteFile], a.catalog.answers q = true
  keyed : a.catalog.Keyed
  isTree : a.disk.IsTree
  journal : a.disk.journal = []
  resolve_eq : a.disk.resolve w.base = .ok w.location
  directory : a.disk.node? w.location = some .directory
  empty : ∀ n, a.disk.node? (w.place n) = none
  unknown : ∀ r ∈ a.catalog.files,
    t.population.holds r = false ∧ ∀ n, r.path ≠ w.base.join n

namespace Backlog

variable {t : Tier} {w : Watch} {ok : Path → Prop} {s : Backlog} {n : Path} {a : Archive}

/-- Nothing is left to translate or handle, and no quiet period is left to end. -/
structure Idle (t : Tier) (s : Backlog) : Prop where
  events : s.events = []
  inbox : s.inbox = []
  timers : s.archive.timersAt t.address = []

/-- The rows of a tier are the files of its directory that it catalogues, and no two
rows are of one path. -/
structure Mirrors (t : Tier) (w : Watch) (s : Backlog) : Prop where
  paths : (s.archive.catalog.files.map (·.path)).Nodup
  file : ∀ r ∈ s.archive.catalog.files, t.population.holds r = true →
    t.skips r.path = false ∧ ∃ n content, r.path = w.base.join n ∧
      s.archive.disk.node? (w.place n) = some (.file content) ∧
      s.archive.disk.stat r.path = .ok (.file content)
  row : ∀ n x, s.archive.disk.node? (w.place n) = some x → t.skips (w.base.join n) = false →
    ∃ r ∈ s.archive.catalog.files, t.population.holds r = true ∧ r.path = w.base.join n

/-- In the beginning there are neither rows nor files. -/
theorem sound_of_fresh (h : a.Fresh t w) :
    ({ archive := a } : Backlog).Sound t w (w.Admits a.ignored) := by
  have hrow : ∀ n, a.catalog.fileAt? (w.base.join n) = none := by
    intro n
    refine Catalog.fileAt?_eq_none_iff.2 fun hmem => ?_
    obtain ⟨r, hr, hpath⟩ := List.mem_map.1 hmem
    exact (h.unknown r hr).2 n hpath
  exact {
    tier := h.tier
    answers := h.answers
    paths := h.keyed.filePaths
    isTree := h.isTree
    journal := h.journal
    names := fun n hn => hn.names h.resolve_eq h.directory
    plain := fun n hn => hn.not_ignored
    files := fun n x hx => by
      rw [h.empty] at hx
      cases hx
    rows := fun r hr => by
      obtain ⟨hholds, hpath⟩ := h.unknown r hr
      refine iff_of_false (by simp [hholds]) ?_
      rintro ⟨n, -, heq⟩
      exact hpath n heq
    events := fun e he => absurd he List.not_mem_nil
    inbox := fun x hx => absurd hx List.not_mem_nil
    present := fun n _ => by
      rw [hrow, h.empty]
      rfl
    size := fun n _ r hr => by
      rw [hrow] at hr
      cases hr }

namespace Sound

theorem pending_of_idle (hs : s.Idle t) : s.pending = [] := by
  rw [pending, hs.events, hs.inbox]
  rfl

/-- Once all is handled, there is a row exactly if there is a file. -/
theorem isSome_fileAt?_of_idle (h : s.Sound t w ok) (hs : s.Idle t) (hn : Kept t w ok n) :
    (s.archive.catalog.fileAt? (w.base.join n)).isSome =
      (s.archive.disk.node? (w.place n)).isSome := by
  have hpresent := h.present n hn
  rwa [pending_of_idle hs] at hpresent

theorem mirrors (h : s.Sound t w ok) (hs : s.Idle t) : s.Mirrors t w where
  paths := h.paths
  file := fun r hr hholds => by
    obtain ⟨n, hn, hpath⟩ := (h.rows r hr).1 hholds
    have hsome := h.isSome_fileAt?_of_idle hs hn
    rw [← hpath, Catalog.fileAt?_of_mem h.paths hr] at hsome
    obtain ⟨x, hx⟩ := Option.isSome_iff_exists.1 hsome.symm
    obtain ⟨-, content, rfl⟩ := h.files n x hx
    refine ⟨hpath ▸ hn.2, n, content, hpath, hx, ?_⟩
    rw [hpath, (h.names n hn.1).stat_eq, hx]
  row := fun n x hx hskips => by
    have hn : Kept t w ok n := ⟨(h.files n x hx).1, hskips⟩
    have hsome := h.isSome_fileAt?_of_idle hs hn
    rw [hx] at hsome
    obtain ⟨r, hr⟩ := Option.isSome_iff_exists.1 hsome
    obtain ⟨hmem, hpath⟩ := Catalog.fileAt?_eq_some hr
    exact ⟨r, hmem, (h.rows r hmem).2 ⟨n, hn, hpath⟩, hpath⟩

/-- Once all is handled, a row has the size of its file, or that of the file which
the keeper saw there before it was replaced. -/
theorem size_of_idle (h : s.Sound t w ok) (hs : s.Idle t) {r : FileRow}
    (hr : r ∈ s.archive.catalog.files) (hholds : t.population.holds r = true) {content : String}
    (hstat : s.archive.disk.stat r.path = .ok (.file content)) :
    r.size = ((s.unseen r.path).getD content.utf8ByteSize : Nat) := by
  obtain ⟨n, hn, hpath⟩ := (h.rows r hr).1 hholds
  have hrow := Catalog.fileAt?_of_mem h.paths hr
  rw [hpath, (h.names n hn.1).stat_eq] at hstat
  rw [hpath] at hrow ⊢
  have hnode : s.archive.disk.node? (w.place n) = some (.file content) := by
    cases hx : s.archive.disk.node? (w.place n) with
    | none =>
      rw [hx] at hstat
      cases hstat
    | some x =>
      rw [hx] at hstat
      exact congrArg some (Except.ok.inj hstat)
  refine (h.size n hn r hrow content hnode).resolve_left ?_
  rw [Due, pending_of_idle hs, hs.timers]
  simp

end Sound

/-- Whatever happens to the files of a directory whose keeper keeps all: once all is
handled, the rows are the files, and the size of a row is right exactly if its file
did not replace one of another size that nobody has looked at since. -/
theorem rows_mirror_files (hfresh : a.Fresh t w) (ht : t.role.KeepsAll) {acts : List Act}
    (hacts : ∀ x ∈ acts, ∀ n ∈ x.names, w.Admits a.ignored n)
    (hrun : ({ archive := a } : Backlog).run t w acts = s) (hs : s.Idle t) :
    s.Mirrors t w ∧
      ∀ r ∈ s.archive.catalog.files, t.population.holds r = true →
        ∀ content, s.archive.disk.stat r.path = .ok (.file content) →
          (r.size = (content.utf8ByteSize : Nat) ↔
            ∀ old, s.unseen r.path = some old → old = content.utf8ByteSize) := by
  obtain rfl := hrun
  have hsound := (sound_of_fresh hfresh).run ht hacts
  refine ⟨hsound.mirrors hs, fun r hr hholds content hstat => ?_⟩
  rw [hsound.size_of_idle hs hr hholds hstat, Int.ofNat_inj]
  cases (({ archive := a } : Backlog).run t w acts).unseen r.path <;> simp

end Backlog

/-- A tier whose files stay. -/
def stayingTier : Tier where
  camera := "cam"
  category := .recorder
  subcategory := "segments"
  index := 0
  root := "/t".toList
  role := .plain {}

/-- The keeper of the tier was started, and nothing has happened. -/
def freshArchive : Archive :=
  (({ keepers := .ofTiers [stayingTier] } : Archive).start stayingTier).2

/-- The directory that it watches. -/
def freshWatch : Watch where
  base := "/t/segments/cam".toList
  location := ["t".toList, "segments".toList, "cam".toList]

open Backlog.Act FileAction

/-- A file is made, and written and renamed while the keeper is still to deal with
what it was told first. -/
def renamedSoon : List Backlog.Act :=
  [file (create "a".toList), translate, handle, file (write "a".toList "12"),
    file (rename "a".toList "b".toList), translate, translate, translate, translate, translate,
    handle, handle, handle, handle, wait 2000000000, fire]

/-- A small file replaces a large one, when the sizes of both are in their rows. -/
def replacedLate : List Backlog.Act :=
  [file (create "a".toList), file (write "a".toList "1"), file (create "b".toList),
    file (write "b".toList "12345"), translate, translate, translate, translate, translate,
    translate, handle, handle, handle, handle, handle, handle, wait 2000000000, fire,
    file (rename "a".toList "b".toList), translate, translate, translate, handle, handle]

theorem fresh_freshArchive : freshArchive.Fresh stayingTier freshWatch where
  tier := by decide
  watch := by decide
  quiet := by decide
  answers := by decide
  keyed := Catalog.keyed_empty
  isTree := Disk.isTree_of_nodes (by decide)
  journal := by decide
  resolve_eq := by decide
  directory := by decide
  empty := fun n => by
    have hshort : ∀ x ∈ freshArchive.disk.nodes, x.1.length < 4 := by decide
    rw [Disk.node?_of_ne_nil _ (freshWatch.place_ne_nil n), Option.map_eq_none_iff,
      List.find?_eq_none]
    intro x hx heq
    have hlength := hshort x hx
    rw [beq_iff_eq.1 heq, Watch.place, List.length_append] at hlength
    exact Nat.lt_irrefl 4 hlength
  unknown := fun r hr => absurd hr List.not_mem_nil

theorem admits_freshWatch {n : Path} (hn : n = "a".toList ∨ n = "b".toList) :
    freshWatch.Admits freshArchive.ignored n := by
  rcases hn with rfl | rfl
  all_goals
    exact ⟨⟨by decide, by decide, by decide, by decide, by decide, by decide⟩, by decide, by decide⟩

/-- The file is catalogued under its new name only, with the size it has by then. -/
theorem rows_mirror_files_renamedSoon :
    freshArchive.Fresh stayingTier freshWatch ∧ stayingTier.role.KeepsAll ∧
      ∃ s : Backlog, ({ archive := freshArchive } : Backlog).run stayingTier freshWatch
          renamedSoon = s ∧ s.Idle stayingTier ∧ s.Mirrors stayingTier freshWatch ∧
        ∃ r ∈ s.archive.catalog.files, stayingTier.population.holds r = true ∧
          r.path = "/t/segments/cam/b".toList ∧ r.size = ("12".utf8ByteSize : Nat) := by
  have hidle : (({ archive := freshArchive } : Backlog).run stayingTier freshWatch
      renamedSoon).Idle stayingTier := ⟨by decide, by decide, by decide⟩
  have hnames : ∀ x ∈ renamedSoon, ∀ n ∈ x.names, n = "a".toList ∨ n = "b".toList := by decide
  obtain ⟨hmirrors, hsize⟩ := Backlog.rows_mirror_files fresh_freshArchive rfl
    (fun x hx n hn => admits_freshWatch (hnames x hx n hn)) rfl hidle
  obtain ⟨r, hr, hholds, hpath⟩ := hmirrors.row "b".toList (.file "12") (by decide) rfl
  refine ⟨fresh_freshArchive, rfl, _, rfl, hidle, hmirrors, r, hr, hholds, hpath, ?_⟩
  have hstat : (({ archive := freshArchive } : Backlog).run stayingTier freshWatch
      renamedSoon).archive.disk.stat r.path = .ok (.file "12") := by
    rw [hpath]
    decide
  have hunseen : (({ archive := freshArchive } : Backlog).run stayingTier freshWatch
      renamedSoon).unseen r.path = none := by
    rw [hpath]
    decide
  refine (hsize r hr hholds "12" hstat).2 fun old hold => ?_
  rw [hunseen] at hold
  cases hold

/-- A file that replaced a larger one keeps the size of that in its row. -/
theorem not_forall_size_right :
    ¬ ∀ (a : Archive) (t : Tier) (w : Watch) (acts : List Backlog.Act) (s : Backlog),
      a.Fresh t w → t.role.KeepsAll → (∀ x ∈ acts, ∀ n ∈ x.names, w.Admits a.ignored n) →
      ({ archive := a } : Backlog).run t w acts = s → s.Idle t →
        s.Mirrors t w ∧
          ∀ r ∈ s.archive.catalog.files, t.population.holds r = true →
            ∀ content, s.archive.disk.stat r.path = .ok (.file content) →
              r.size = (content.utf8ByteSize : Nat) := by
  intro hall
  have hnames : ∀ x ∈ replacedLate, ∀ n ∈ x.names, n = "a".toList ∨ n = "b".toList := by decide
  obtain ⟨-, hsize⟩ := hall freshArchive stayingTier freshWatch replacedLate _ fresh_freshArchive
    rfl (fun x hx n hn => admits_freshWatch (hnames x hx n hn)) rfl
    ⟨by decide, by decide, by decide⟩
  have hlarge : ∃ r ∈ (({ archive := freshArchive } : Backlog).run stayingTier freshWatch
      replacedLate).archive.catalog.files, stayingTier.population.holds r = true ∧
        r.path = "/t/segments/cam/b".toList ∧ r.size = 5 := by decide
  obtain ⟨r, hr, hholds, hpath, hfive⟩ := hlarge
  have hone := hsize r hr hholds "1" (by rw [hpath]; decide)
  rw [hfive] at hone
  exact absurd hone (by decide)

end TieredFootage
