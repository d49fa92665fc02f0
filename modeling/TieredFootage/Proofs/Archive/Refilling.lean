import TieredFootage.Proofs.Archive.Cataloguing
import TieredFootage.Proofs.Archive.Operations
import TieredFootage.Proofs.Catalog.Tables
import TieredFootage.Proofs.Evaluation.Plain

/-!
# A path that is filled again

A file leaves its path, and later a new file appears there. Its row is a new one,
with the time at which it was catalogued. Notes are never taken away, though: one
that was there when the old file left is still there, and the new file counts as
made when that note says.
-/

namespace TieredFootage

open Relation

namespace Archive

/-- The file at a path leaves it: it is evicted, or it is reported deleted. -/
inductive Loses (a : Archive) (p : Path) : Archive → Prop
  | evicted {t : Tier} {fileRoot : Path} (hgone : (a.evictFrom t p fileRoot).1.isGone = true) :
      Loses a p (a.evictFrom t p fileRoot).2
  | deleted {t : Tier} (hok : (a.onDeleted t p).1 = .ok ()) : Loses a p (a.onDeleted t p).2

/-- The file at `p` left between `a` and `b`. At `c` a new one is found there and
catalogued in a tier, and `d` is any time after that. Nobody has stored a note for
`p` since the old file left. -/
structure Refilled (a b c d : Archive) (t : Tier) (p : Path) : Prop where
  loses : a.Loses p b
  meanwhile : b.catalog.Runs c.catalog
  not_skips : t.skips p = false
  found : ∃ content, c.disk.stat p = .ok (.file content)
  free : c.catalog.fileAt? p = none
  answers : c.catalog.answers .insertFile = true
  after : (c.onCreated t p).2.catalog.Runs d.catalog
  unnoted : d.catalog.noteAt? p = b.catalog.noteAt? p

variable {a b c d : Archive} {t : Tier} {p : Path}

theorem Loses.runs (h : a.Loses p b) : a.catalog.Runs b.catalog := by
  cases h with
  | evicted hgone => exact runs_evictFrom a _ p _
  | deleted hok => exact runs_onNotification a _ ⟨.deleted, p⟩

/-- A file that leaves takes no note along and leaves none behind. -/
theorem noteAt?_evict {h : Holdings} {fileRoot root : Path} {next : Option Path}
    (hnone : h.catalog.noteAt? p = none) :
    (h.evict p fileRoot root next).2.catalog.noteAt? p = none := by
  refine Holdings.catalog_evict (P := fun c => c.noteAt? p = none) ?_ ?_ hnone
  · intro c hc
    unfold Catalog.deleteFile
    split <;> exact hc
  · intro c target hc
    rw [Catalog.noteAt?_copyNote, hc]

theorem Loses.noteAt?_eq (h : a.Loses p b) : b.catalog.noteAt? p = a.catalog.noteAt? p := by
  cases hp : a.catalog.noteAt? p with
  | some n => exact h.runs.noteAt?_eq hp
  | none =>
    cases h with
    | evicted hgone => exact noteAt?_evict hp
    | deleted hok =>
      rename_i u
      have hforgot : ((a.update u.address Keeper.enterEvent).forget p).2.catalog.noteAt? p =
          none := by
        unfold forget Catalog.deleteFile
        by_cases hanswers : a.catalog.answers .deleteFile = true
        · simp only [toHoldings_update, hanswers, if_true]
          exact hp
        · simp only [toHoldings_update, hanswers, Bool.false_eq_true, if_false]
          exact hp
      unfold onDeleted
      split
      · exact hp
      · exact hforgot

/-- A new file at a free path gets a new row, and then other statements follow. -/
theorem exists_runs_onCreated {content : String} (hskips : t.skips p = false)
    (hfound : c.disk.stat p = .ok (.file content)) (hfree : c.catalog.fileAt? p = none)
    (hanswers : c.catalog.answers .insertFile = true) :
    ∃ e : Catalog, e.files =
        c.catalog.files ++ [⟨t.entry p content.utf8ByteSize c.now, c.catalog.lastFileId + 1⟩] ∧
      e.lastFileId = c.catalog.lastFileId + 1 ∧ e.Runs (c.onCreated t p).2.catalog := by
  obtain ⟨rs, hannounced⟩ := exists_announce_eq (c.update t.address Keeper.enterEvent) t p
  -- What is announced before makes no difference to the table of files.
  have hinsert := Catalog.insertFile_of_free (c := { c.catalog with recordings := rs })
    (e := t.entry p content.utf8ByteSize c.now) hanswers hfree
  refine ⟨({ c.catalog with recordings := rs }.insertFile
    (t.entry p content.utf8ByteSize c.now)).2, ?_, ?_, ?_⟩
  · rw [hinsert]
  · rw [hinsert]
  · unfold onCreated
    rw [if_neg (by simp [hskips])]
    dsimp only [asEvent]
    rw [hannounced]
    have hfound' : ((c.update t.address Keeper.enterEvent).withCatalog
        { c.catalog with recordings := rs }).disk.stat p = .ok (.file content) := hfound
    exact runs_catalogue_of_stat hfound'

/-- The row of the new file is its own, whatever else has happened to the catalog
since, its size apart. -/
theorem Refilled.row_eq (h : Refilled a b c d t p) (hk : a.catalog.Keyed) {row : FileRow}
    (hrow : row ∈ d.catalog.files) (hid : row.id = c.catalog.lastFileId + 1) :
    ∃ size, row = ⟨t.entry p size c.now, c.catalog.lastFileId + 1⟩ := by
  obtain ⟨content, hcontent⟩ := h.found
  obtain ⟨e, hfiles, hlast, hruns⟩ :=
    exists_runs_onCreated h.not_skips hcontent h.free h.answers
  have hlater : e.Runs d.catalog := hruns.trans h.after
  obtain ⟨x, hx, size, rfl⟩ := hlater.exists_resized hrow (by rw [hid, hlast])
  have hkeyed : c.catalog.Keyed := h.meanwhile.keyed (h.loses.runs.keyed hk)
  rw [hfiles] at hx
  rcases List.mem_append.1 hx with hx | hx
  · have hle := hkeyed.fileId_le x hx
    dsimp only at hid
    omega
  · obtain rfl := List.mem_singleton.1 hx
    exact ⟨size, rfl⟩

theorem Refilled.keyed (h : Refilled a b c d t p) (hk : a.catalog.Keyed) : d.catalog.Keyed :=
  h.after.keyed ((runs_onNotification c t ⟨.created, p⟩).keyed
    (h.meanwhile.keyed (h.loses.runs.keyed hk)))

/-- A new file has its own age exactly if its path had no note when the file before
it left: with such a note it counts as made when the note says, and without one
when it was catalogued. Then it is not selected before it has reached the least
age. -/
theorem Refilled.effective_of_new_row (h : Refilled a b c d t p) (hk : a.catalog.Keyed) :
    ∀ row ∈ d.catalog.files, row.id = c.catalog.lastFileId + 1 →
      ∀ files, d.catalog.selectFiles t.population = .ok files →
        ∃ f ∈ files, f.id = row.id ∧ f.path = p ∧ f.createdAt = c.now ∧
          (∀ n, a.catalog.noteAt? p = some n → f.effective = n.madeAt) ∧
          (a.catalog.noteAt? p = none → f.effective = f.createdAt ∧
            ∀ r : Retention, d.now < f.createdAt + r.grace * second →
              ∀ g ∈ filesToMove files r d.now, g.path ≠ p) := by
  intro row hrow hid files hfiles
  obtain ⟨size, hroweq⟩ := h.row_eq hk hrow hid
  have hpath : row.path = p := by
    rw [hroweq]
    rfl
  have hcreatedAt : row.createdAt = c.now := by
    rw [hroweq]
    rfl
  have hholds : t.population.holds row = true := by
    rw [hroweq]
    simp [Population.holds, Tier.population, Tier.entry]
  have hnote : d.catalog.noteAt? row.path = a.catalog.noteAt? p := by
    rw [hpath, h.unnoted, h.loses.noteAt?_eq]
  unfold Catalog.selectFiles at hfiles
  split at hfiles
  swap
  · cases hfiles
  cases hfiles
  refine ⟨d.catalog.tierFile row, Catalog.mem_population.2 ⟨row, hrow, hholds, rfl⟩, rfl, hpath,
    hcreatedAt, fun n hn => Catalog.effective_of_noteAt? (hnote.trans hn), fun hnone => ?_⟩
  have hown : (d.catalog.tierFile row).effective = (d.catalog.tierFile row).createdAt :=
    Catalog.effective_of_noteAt?_eq_none (hnote.trans hnone)
  refine ⟨hown, fun r hyoung g hg hgp => ?_⟩
  -- Paths are told apart, so what is selected at `p` is the new file.
  obtain rfl : g = d.catalog.tierFile row := by
    refine List.inj_on_of_nodup_map ((h.keyed hk).nodup_populationPaths t.population)
      (mem_of_mem_filesToMove hg) (Catalog.mem_population.2 ⟨row, hrow, hholds, rfl⟩) ?_
    rw [hgp, Catalog.path_tierFile, hpath]
  have hold := grace_le_age_of_mem_filesToMove hg
  rw [hown] at hold
  unfold age at hold
  unfold second at hyoung
  have hpos : 0 < r.grace := by
    unfold Retention.grace defaultMinAge
    split <;> omega
  omega

end Archive

/-- Snapshots that stay. -/
def stayingSnapshotTier : Tier := { snapshotTier with role := .plain {} }

/-- One snapshot is catalogued, with these notes, but not on the disk any more. -/
def lostSnapshot (notes : List MetaRow) : Archive where
  now := 10000 * second
  disk := { nodes := [(["s".toList], .directory)] }
  catalog := {
    files := [snapshotRow 1 "/s/1" 6 9000]
    notes := notes
    lastFileId := 1
    lastNoteId := 1 }
  keepers := .ofTiers [stayingSnapshotTier]

/-- The snapshot was reported deleted. -/
def forgottenSnapshot (notes : List MetaRow) : Archive :=
  ((lostSnapshot notes).onDeleted stayingSnapshotTier "/s/1".toList).2

/-- There is a new file in its place a second later. -/
def replacedSnapshot (notes : List MetaRow) : Archive :=
  { forgottenSnapshot notes with
    now := 10001 * second
    disk := { nodes := [(["s".toList], .directory), (["s".toList, "1".toList], .file "new")] } }

/-- The new file was catalogued. -/
def newSnapshot (notes : List MetaRow) : Archive :=
  ((replacedSnapshot notes).onCreated stayingSnapshotTier "/s/1".toList).2

/-- The note of the snapshot says that it is a thousand seconds old. -/
def snapshotNote : MetaRow := ⟨1, "/s/1".toList, "{}", 9000 * second⟩

theorem keyed_lostSnapshot (notes : List MetaRow) (h : (notes.map (·.path)).Nodup) :
    (lostSnapshot notes).catalog.Keyed where
  fileIds := List.nodup_singleton _
  filePaths := List.nodup_singleton _
  notePaths := h
  recordingIds := List.nodup_nil
  fileId_le := by simp [lostSnapshot, snapshotRow]
  recordingId_le := by simp [lostSnapshot]

/-- The new file is found at the path that the old one left. -/
theorem refilled_newSnapshot (notes : List MetaRow)
    (hdeleted : ((lostSnapshot notes).onDeleted stayingSnapshotTier "/s/1".toList).1 = .ok ())
    (hfree : (replacedSnapshot notes).catalog.fileAt? "/s/1".toList = none)
    (hanswers : (replacedSnapshot notes).catalog.answers .insertFile = true)
    (hunnoted : (newSnapshot notes).catalog.noteAt? "/s/1".toList =
      (forgottenSnapshot notes).catalog.noteAt? "/s/1".toList) :
    Archive.Refilled (lostSnapshot notes) (forgottenSnapshot notes) (replacedSnapshot notes)
      (newSnapshot notes) stayingSnapshotTier "/s/1".toList where
  loses := .deleted hdeleted
  meanwhile := Relation.ReflTransGen.refl
  not_skips := rfl
  found := ⟨"new", rfl⟩
  free := hfree
  answers := hanswers
  after := Relation.ReflTransGen.refl
  unnoted := hunnoted

/-- Without a note the new snapshot is young, and stays for five seconds. -/
theorem effective_of_new_row_snapshot :
    (lostSnapshot []).catalog.Keyed ∧
      Archive.Refilled (lostSnapshot []) (forgottenSnapshot []) (replacedSnapshot [])
        (newSnapshot []) stayingSnapshotTier "/s/1".toList ∧
      ∃ f ∈ (newSnapshot []).catalog.population stayingSnapshotTier.population,
        f.effective = 10001 * second ∧
          ∀ g ∈ filesToMove ((newSnapshot []).catalog.population stayingSnapshotTier.population)
            { maxBytes := 1 } (newSnapshot []).now, g.path ≠ "/s/1".toList := by
  have hkeyed := keyed_lostSnapshot [] (by decide)
  have hrefilled := refilled_newSnapshot [] rfl rfl rfl rfl
  obtain ⟨f, hf, -, -, hcreatedAt, -, hown⟩ := hrefilled.effective_of_new_row hkeyed
    ⟨stayingSnapshotTier.entry "/s/1".toList 3 (10001 * second), 2⟩ (by decide) rfl _ rfl
  obtain ⟨heffective, hyoung⟩ := hown rfl
  rw [hcreatedAt] at heffective hyoung
  exact ⟨hkeyed, hrefilled, f, hf, heffective, hyoung { maxBytes := 1 } (by decide)⟩

/-- With a note the new snapshot is taken for the one that was there before. -/
theorem not_forall_new_row_own_age :
    ¬ ∀ (a b c d : Archive) (t : Tier) (p : Path), a.catalog.Keyed → a.Refilled b c d t p →
      ∀ row ∈ d.catalog.files, row.id = c.catalog.lastFileId + 1 →
        ∀ files, d.catalog.selectFiles t.population = .ok files →
          ∃ f ∈ files, f.id = row.id ∧ f.effective = row.createdAt := by
  intro hall
  obtain ⟨f, hf, -, heffective⟩ := hall _ _ _ _ _ _
    (keyed_lostSnapshot [snapshotNote] (by decide))
    (refilled_newSnapshot [snapshotNote] rfl rfl rfl rfl)
    ⟨stayingSnapshotTier.entry "/s/1".toList 3 (10001 * second), 2⟩ (by decide) rfl _ rfl
  have hold : ∀ f ∈ (newSnapshot [snapshotNote]).catalog.population
      stayingSnapshotTier.population, f.effective = 9000 * second := by decide
  rw [hold f hf] at heffective
  exact absurd heffective (by decide)

end TieredFootage
