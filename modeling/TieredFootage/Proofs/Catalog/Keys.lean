import Mathlib.Data.List.Nodup
import TieredFootage.Proofs.Catalog.Frames

/-!
# The keys of the catalog

The tables of the catalog are lists, and a list can hold two rows with one id.
A catalog that grew from empty tables never does: `Keyed` says that ids and
paths are told apart and that no id lies beyond the last one given. Every
statement keeps it, whether it succeeds or not, so it is what may be asked of
any catalog.

A row is then found again by its key: rows of a population that agree in id or
in path are the same, and so are recordings that agree in id.
-/

namespace TieredFootage

namespace Catalog

/-- The keys of every table are told apart, and none is newer than the last one
given. -/
structure Keyed (c : Catalog) : Prop where
  fileIds : (c.files.map (·.id)).Nodup
  filePaths : (c.files.map (·.path)).Nodup
  notePaths : (c.notes.map (·.path)).Nodup
  recordingIds : (c.recordings.map (·.id)).Nodup
  fileId_le : ∀ r ∈ c.files, r.id ≤ c.lastFileId
  recordingId_le : ∀ r ∈ c.recordings, r.id ≤ c.lastRecordingId

theorem keyed_empty : ({} : Catalog).Keyed where
  fileIds := List.nodup_nil
  filePaths := List.nodup_nil
  notePaths := List.nodup_nil
  recordingIds := List.nodup_nil
  fileId_le := by simp
  recordingId_le := by simp

theorem fileAt?_eq_none_iff {c : Catalog} {p : Path} :
    c.fileAt? p = none ↔ p ∉ c.files.map (·.path) := by
  simp [fileAt?, List.find?_eq_none]

/-- Where paths are told apart, a row is found by its path. -/
theorem fileAt?_of_mem {c : Catalog} (h : (c.files.map (·.path)).Nodup) {r : FileRow}
    (hr : r ∈ c.files) : c.fileAt? r.path = some r := by
  cases hfound : c.fileAt? r.path with
  | none => exact absurd (List.mem_map_of_mem hr) (fileAt?_eq_none_iff.1 hfound)
  | some x =>
    obtain ⟨hx, hpath⟩ := fileAt?_eq_some hfound
    rw [List.inj_on_of_nodup_map h hx hr hpath]

/-- The row of another path stays as it is. -/
theorem fileAt?_deleteFile_ne {c : Catalog} {p q : Path} (hq : q ≠ p) :
    (c.deleteFile p).2.fileAt? q = c.fileAt? q := by
  unfold deleteFile
  split
  · simp only [fileAt?, List.find?_filter]
    congr 1
    funext r
    by_cases hr : r.path = q
    · simp [hr, hq]
    · simp [hr]
  · rfl

/-- No row of the path itself is left. -/
theorem fileAt?_deleteFile_self {c : Catalog} (h : c.answers .deleteFile = true) (p : Path) :
    (c.deleteFile p).2.fileAt? p = none := by
  rw [fileAt?_eq_none_iff, deleteFile, if_pos h]
  simp

theorem files_deleteFile_sublist (c : Catalog) (p : Path) :
    (c.deleteFile p).2.files.Sublist c.files := by
  unfold deleteFile
  split
  · exact List.filter_sublist
  · exact List.Sublist.refl _

theorem files_deleteFile_subset (c : Catalog) (p : Path) : (c.deleteFile p).2.files ⊆ c.files :=
  (c.files_deleteFile_sublist p).subset

theorem noteAt?_eq_none_iff {c : Catalog} {p : Path} :
    c.noteAt? p = none ↔ p ∉ c.notes.map (·.path) := by
  simp [noteAt?, List.find?_eq_none]

/-- The next id of the files is that of no row. -/
theorem Keyed.next_notMem_fileIds {c : Catalog} (h : c.Keyed) :
    c.lastFileId + 1 ∉ c.files.map (·.id) := by
  intro hmem
  obtain ⟨r, hr, hid⟩ := List.mem_map.1 hmem
  have hle := h.fileId_le r hr
  omega

theorem Keyed.next_notMem_recordingIds {c : Catalog} (h : c.Keyed) :
    c.lastRecordingId + 1 ∉ c.recordings.map (·.id) := by
  intro hmem
  obtain ⟨r, hr, hid⟩ := List.mem_map.1 hmem
  have hle := h.recordingId_le r hr
  omega

variable {c : Catalog}

theorem Keyed.insertFile (h : c.Keyed) (entry : FileEntry) : (c.insertFile entry).2.Keyed := by
  unfold Catalog.insertFile
  split
  · split
    · exact { h with fileId_le := fun r hr => Int.le_add_one (h.fileId_le r hr) }
    · rename_i hnone
      have hpath := fileAt?_eq_none_iff.1 hnone
      refine { h with fileIds := ?_, filePaths := ?_, fileId_le := ?_ }
      · rw [List.map_append]
        exact List.Nodup.append h.fileIds (by simp) (by simpa using h.next_notMem_fileIds)
      · rw [List.map_append]
        exact List.Nodup.append h.filePaths (by simp) (by simpa using hpath)
      · intro r hr
        rcases List.mem_append.1 hr with hr | hr
        · exact Int.le_add_one (h.fileId_le r hr)
        · obtain rfl := List.mem_singleton.1 hr
          exact Int.le_refl _
  · exact h

/-- Rows that are changed in place keep their keys. -/
theorem Keyed.updateFileSize (h : c.Keyed) (p : Path) (size : Int) :
    (c.updateFileSize p size).2.Keyed := by
  unfold Catalog.updateFileSize
  split
  · refine { h with fileIds := ?_, filePaths := ?_, fileId_le := ?_ }
    · have hid : ∀ r : FileRow, (if r.path = p then { r with size := size } else r).id = r.id := by
        intro r; split <;> rfl
      simpa [List.map_map, Function.comp_def, hid] using h.fileIds
    · have hpath : ∀ r : FileRow,
          (if r.path = p then { r with size := size } else r).path = r.path := by
        intro r; split <;> rfl
      simpa [List.map_map, Function.comp_def, hpath] using h.filePaths
    · intro r hr
      obtain ⟨x, hx, rfl⟩ := List.mem_map.1 hr
      split
      · exact h.fileId_le x hx
      · exact h.fileId_le x hx
  · exact h

theorem Keyed.deleteFile (h : c.Keyed) (p : Path) : (c.deleteFile p).2.Keyed := by
  unfold Catalog.deleteFile
  split
  · exact { h with
      fileIds := (List.filter_sublist.map _).nodup h.fileIds
      filePaths := (List.filter_sublist.map _).nodup h.filePaths
      fileId_le := fun r hr => h.fileId_le r (List.mem_of_mem_filter hr) }
  · exact h

theorem Keyed.addNote (h : c.Keyed) (p : Path) (note : String) (madeAt : Int) :
    (c.addNote p note madeAt).2.Keyed := by
  unfold Catalog.addNote
  split
  · exact { h with }
  · rename_i hnone
    have hpath := noteAt?_eq_none_iff.1 hnone
    refine { h with notePaths := ?_ }
    rw [List.map_append]
    exact List.Nodup.append h.notePaths (by simp) (by simpa using hpath)

theorem Keyed.insertNote (h : c.Keyed) (n : Note) : (c.insertNote n).2.Keyed := by
  unfold Catalog.insertNote
  split
  · exact h.addNote n.path n.value.render n.madeAt
  · exact h

theorem Keyed.storeNoteText (h : c.Keyed) (p : Path) (note : String) (madeAt : Int) :
    (c.storeNoteText p note madeAt).2.Keyed := by
  unfold Catalog.storeNoteText
  split
  · exact h.addNote p note madeAt
  · exact h

theorem Keyed.copyNote (h : c.Keyed) (source target : Path) :
    (c.copyNote source target).2.Keyed := by
  unfold Catalog.copyNote
  split
  · split
    · exact h
    · rename_i r _
      have hadd := h.addNote target r.note r.madeAt
      split <;> rename_i heq <;> rw [heq] at hadd <;> exact hadd
  · exact h

theorem Keyed.insertRecording (h : c.Keyed) (entry : RecordingEntry) (now : Int) :
    (c.insertRecording entry now).2.Keyed := by
  unfold Catalog.insertRecording
  split
  · refine { h with recordingIds := ?_, recordingId_le := ?_ }
    · rw [List.map_append]
      exact List.Nodup.append h.recordingIds (by simp) (by simpa using h.next_notMem_recordingIds)
    · intro r hr
      rcases List.mem_append.1 hr with hr | hr
      · exact Int.le_add_one (h.recordingId_le r hr)
      · obtain rfl := List.mem_singleton.1 hr
        exact Int.le_refl _
  · exact h

/-- A table of recordings with other pointers in it has the same ids. -/
theorem Keyed.mapRecordings (h : c.Keyed) {f : Recording → Recording}
    (hf : ∀ r, (f r).id = r.id) : { c with recordings := c.recordings.map f }.Keyed := by
  refine { h with recordingIds := ?_, recordingId_le := ?_ }
  · simpa [List.map_map, Function.comp_def, hf] using h.recordingIds
  · intro r hr
    obtain ⟨x, hx, rfl⟩ := List.mem_map.1 hr
    rw [hf x]
    exact h.recordingId_le x hx

theorem Keyed.updateThumbnail (h : c.Keyed) (id : Int) (p : Path) :
    (c.updateThumbnail id p).2.Keyed := by
  unfold Catalog.updateThumbnail
  split
  · exact h.mapRecordings fun r => by split <;> rfl
  · exact h

theorem Keyed.updateClip (h : c.Keyed) (camera : String) (suffix p : Path) :
    (c.updateClip camera suffix p).2.Keyed := by
  unfold Catalog.updateClip
  split
  · exact h.mapRecordings fun r => by split <;> rfl
  · exact h

theorem Keyed.deleteRecordings (h : c.Keyed) (ids : List Int) :
    (c.deleteRecordings ids).2.Keyed := by
  unfold Catalog.deleteRecordings
  split
  · exact h
  · split
    · exact h
    · split
      · exact { h with
          recordingIds := (List.filter_sublist.map _).nodup h.recordingIds
          recordingId_le := fun r hr => h.recordingId_le r (List.mem_of_mem_filter hr) }
      · exact h

/-- The rows of a population, seen by their keys: what is joined to them and the
order they come in leave the keys as they are. -/
theorem mem_population {p : Population} {f : TierFile} :
    f ∈ c.population p ↔ ∃ r ∈ c.files, p.holds r = true ∧ c.tierFile r = f := by
  rw [population, mem_newestFirst]
  simp only [List.mem_map, List.mem_filter, and_assoc]

theorem Keyed.nodup_populationIds (h : c.Keyed) (p : Population) :
    ((c.population p).map (·.id)).Nodup := by
  have hperm := (newestFirst_perm TierFile.rank ((c.files.filter p.holds).map c.tierFile)).map
    (fun f : TierFile => f.id)
  rw [population, hperm.nodup_iff, List.map_map]
  exact (List.filter_sublist.map _).nodup h.fileIds

theorem Keyed.nodup_populationPaths (h : c.Keyed) (p : Population) :
    ((c.population p).map (·.path)).Nodup := by
  have hperm := (newestFirst_perm TierFile.rank ((c.files.filter p.holds).map c.tierFile)).map
    (fun f : TierFile => f.path)
  rw [population, hperm.nodup_iff, List.map_map]
  exact (List.filter_sublist.map _).nodup h.filePaths

theorem Keyed.nodup_recordingsOf (h : c.Keyed) (camera : String) :
    ((c.recordingsOf camera).map (·.id)).Nodup := by
  have hperm := (newestFirst_perm Recording.rank (c.recordings.filter (·.camera == camera))).map
    (fun r : Recording => r.id)
  rw [recordingsOf, hperm.nodup_iff]
  exact (List.filter_sublist.map _).nodup h.recordingIds

end Catalog

end TieredFootage
