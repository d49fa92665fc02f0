import TieredFootage.Catalog

/-!
# What a statement leaves alone

A statement writes to one table at most. The lemmas `exists_…_eq` say to which one, and that
the rest of the catalog is what it was. From this alone follows what else stays the same,
whatever the statement writes there.
-/

namespace TieredFootage

namespace Catalog

variable (c : Catalog)

section Files

theorem exists_updateFileSize_eq (p : Path) (size : Int) :
    ∃ rows, (c.updateFileSize p size).2 = { c with files := rows } := by
  unfold updateFileSize
  split
  · exact ⟨_, rfl⟩
  · exact ⟨c.files, rfl⟩

theorem exists_deleteFile_eq (p : Path) :
    ∃ rows, (c.deleteFile p).2 = { c with files := rows } := by
  unfold deleteFile
  split
  · exact ⟨_, rfl⟩
  · exact ⟨c.files, rfl⟩

theorem recordings_updateFileSize (p : Path) (size : Int) :
    (c.updateFileSize p size).2.recordings = c.recordings := by
  obtain ⟨rows, h⟩ := c.exists_updateFileSize_eq p size
  rw [h]

@[simp] theorem recordings_deleteFile (p : Path) :
    (c.deleteFile p).2.recordings = c.recordings := by
  obtain ⟨rows, h⟩ := c.exists_deleteFile_eq p
  rw [h]

@[simp] theorem notes_deleteFile (p : Path) : (c.deleteFile p).2.notes = c.notes := by
  obtain ⟨rows, h⟩ := c.exists_deleteFile_eq p
  rw [h]

theorem answers_deleteFile (p : Path) : (c.deleteFile p).2.answers = c.answers := by
  obtain ⟨rows, h⟩ := c.exists_deleteFile_eq p
  rw [h]
  rfl

theorem getRecording_deleteFile (p : Path) : (c.deleteFile p).2.getRecording = c.getRecording := by
  obtain ⟨rows, h⟩ := c.exists_deleteFile_eq p
  rw [h]
  rfl

end Files

section Notes

theorem exists_addNote_eq (p : Path) (note : String) (madeAt : Int) :
    ∃ rows last, (c.addNote p note madeAt).2 =
      { c with notes := rows, lastNoteId := last } := by
  unfold addNote
  split
  · exact ⟨c.notes, _, rfl⟩
  · exact ⟨_, _, rfl⟩

/-- Whether a copy is made or not, at most a note is added. -/
theorem exists_copyNote_eq (source target : Path) :
    ∃ rows last, (c.copyNote source target).2 =
      { c with notes := rows, lastNoteId := last } := by
  unfold copyNote
  split
  · split
    · exact ⟨c.notes, c.lastNoteId, rfl⟩
    · rename_i r _
      have hadd := c.exists_addNote_eq target r.note r.madeAt
      split <;> rename_i heq <;> rw [heq] at hadd <;> exact hadd
  · exact ⟨c.notes, c.lastNoteId, rfl⟩

@[simp] theorem files_copyNote (source target : Path) :
    (c.copyNote source target).2.files = c.files := by
  obtain ⟨rows, last, h⟩ := c.exists_copyNote_eq source target
  rw [h]

@[simp] theorem recordings_copyNote (source target : Path) :
    (c.copyNote source target).2.recordings = c.recordings := by
  obtain ⟨rows, last, h⟩ := c.exists_copyNote_eq source target
  rw [h]

theorem answers_copyNote (source target : Path) :
    (c.copyNote source target).2.answers = c.answers := by
  obtain ⟨rows, last, h⟩ := c.exists_copyNote_eq source target
  rw [h]
  rfl

theorem getRecording_copyNote (source target : Path) :
    (c.copyNote source target).2.getRecording = c.getRecording := by
  obtain ⟨rows, last, h⟩ := c.exists_copyNote_eq source target
  rw [h]
  rfl

end Notes

section Recordings

theorem exists_updateThumbnail_eq (i : Int) (p : Path) :
    ∃ rows, (c.updateThumbnail i p).2 = { c with recordings := rows } := by
  unfold updateThumbnail
  split
  · exact ⟨_, rfl⟩
  · exact ⟨c.recordings, rfl⟩

theorem exists_updateClip_eq (camera : String) (suffix p : Path) :
    ∃ rows, (c.updateClip camera suffix p).2 = { c with recordings := rows } := by
  unfold updateClip
  split
  · exact ⟨_, rfl⟩
  · exact ⟨c.recordings, rfl⟩

theorem exists_deleteRecordings_eq (ids : List Int) :
    ∃ rows, (c.deleteRecordings ids).2 = { c with recordings := rows } := by
  unfold deleteRecordings
  split
  · exact ⟨c.recordings, rfl⟩
  · split
    · exact ⟨c.recordings, rfl⟩
    · split
      · exact ⟨_, rfl⟩
      · exact ⟨c.recordings, rfl⟩

@[simp] theorem files_updateThumbnail (i : Int) (p : Path) :
    (c.updateThumbnail i p).2.files = c.files := by
  obtain ⟨rows, h⟩ := c.exists_updateThumbnail_eq i p
  rw [h]

@[simp] theorem files_updateClip (camera : String) (suffix p : Path) :
    (c.updateClip camera suffix p).2.files = c.files := by
  obtain ⟨rows, h⟩ := c.exists_updateClip_eq camera suffix p
  rw [h]

@[simp] theorem files_deleteRecordings (ids : List Int) :
    (c.deleteRecordings ids).2.files = c.files := by
  obtain ⟨rows, h⟩ := c.exists_deleteRecordings_eq ids
  rw [h]

@[simp] theorem notes_updateThumbnail (i : Int) (p : Path) :
    (c.updateThumbnail i p).2.notes = c.notes := by
  obtain ⟨rows, h⟩ := c.exists_updateThumbnail_eq i p
  rw [h]

@[simp] theorem notes_updateClip (camera : String) (suffix p : Path) :
    (c.updateClip camera suffix p).2.notes = c.notes := by
  obtain ⟨rows, h⟩ := c.exists_updateClip_eq camera suffix p
  rw [h]

@[simp] theorem notes_deleteRecordings (ids : List Int) :
    (c.deleteRecordings ids).2.notes = c.notes := by
  obtain ⟨rows, h⟩ := c.exists_deleteRecordings_eq ids
  rw [h]

end Recordings

end Catalog

end TieredFootage
