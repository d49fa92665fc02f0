import TieredFootage.Proofs.Catalog.Statements
import TieredFootage.Proofs.Selection.Rule

/-!
# What the tables of the catalog keep

A statement does one of four things to a table: it leaves its rows alone (a refused
insertion uses an id up), adds one row with the next id, changes rows in place, or
drops rows. What is known of ids follows from these four, for each table alike: an id
is that of one row for good, it does not come back once the row is gone, and a row
that is added has a larger id than any row that was there at any time before.

Paths are told apart as well, so an insertion is refused exactly if its path is
taken. A selection lines files up with the notes of the same path by a left join,
which as such repeats a file for each of its notes: that every file comes once, and
with its own note, is due to the paths.
-/

namespace TieredFootage

open Relation

/-- A table as the catalog keeps it: its rows, and the last id given. -/
structure Table (ρ : Type) where
  rows : List ρ
  last : Int

namespace Table

variable {ρ : Type} {id : ρ → Int} {lasting : ρ → ρ} {t t' t'' : Table ρ}

/-- What a statement does to a table. `lasting` is a row without what may be changed in
place. -/
inductive Amended (id : ρ → Int) (lasting : ρ → ρ) (t : Table ρ) : Table ρ → Prop
  | skipped {last : Int} (h : t.last ≤ last) : Amended id lasting t ⟨t.rows, last⟩
  | added (r : ρ) (h : id r = t.last + 1) : Amended id lasting t ⟨t.rows ++ [r], t.last + 1⟩
  | changed (f : ρ → ρ) (hid : ∀ r, id (f r) = id r) (hlasting : ∀ r, lasting (f r) = lasting r) :
      Amended id lasting t ⟨t.rows.map f, t.last⟩
  | dropped (p : ρ → Bool) : Amended id lasting t ⟨t.rows.filter p, t.last⟩

theorem Amended.refl (t : Table ρ) : t.Amended id lasting t := .skipped (Int.le_refl _)

/-- The ids of a table are told apart, and none lies beyond the last one given. -/
structure Numbered (id : ρ → Int) (t : Table ρ) : Prop where
  nodup : (t.rows.map id).Nodup
  le_last : ∀ r ∈ t.rows, id r ≤ t.last

theorem Numbered.amended (h : t.Numbered id) (ha : t.Amended id lasting t') : t'.Numbered id := by
  cases ha with
  | skipped hlast => exact ⟨h.nodup, fun r hr => Int.le_trans (h.le_last r hr) hlast⟩
  | added r hr =>
    have hfresh : id r ∉ t.rows.map id := by
      rintro hmem
      obtain ⟨x, hx, hid⟩ := List.mem_map.1 hmem
      have hle := h.le_last x hx
      omega
    refine ⟨?_, fun x hx => ?_⟩
    · rw [List.map_append]
      exact List.Nodup.append h.nodup (by simp) (by simpa using hfresh)
    · rcases List.mem_append.1 hx with hx | hx
      · exact Int.le_add_one (h.le_last x hx)
      · obtain rfl := List.mem_singleton.1 hx
        exact Int.le_of_eq hr
  | changed f hid _ =>
    refine ⟨?_, fun x hx => ?_⟩
    · simpa [List.map_map, Function.comp_def, hid] using h.nodup
    · obtain ⟨r, hr, rfl⟩ := List.mem_map.1 hx
      rw [hid r]
      exact h.le_last r hr
  | dropped p =>
    exact ⟨(List.filter_sublist.map _).nodup h.nodup,
      fun r hr => h.le_last r (List.mem_of_mem_filter hr)⟩

/-- One table is a later one of another: it has given at least as many ids, and a row
with an id that was given before was there before. -/
structure Continues (id : ρ → Int) (lasting : ρ → ρ) (t t' : Table ρ) : Prop where
  last_le : t.last ≤ t'.last
  old : ∀ r' ∈ t'.rows, id r' ≤ t.last → ∃ r ∈ t.rows, id r = id r' ∧ lasting r = lasting r'

theorem Continues.refl (t : Table ρ) : t.Continues id lasting t :=
  ⟨Int.le_refl _, fun r hr _ => ⟨r, hr, rfl, rfl⟩⟩

theorem Continues.trans (h : t.Continues id lasting t') (h' : t'.Continues id lasting t'') :
    t.Continues id lasting t'' := by
  refine ⟨Int.le_trans h.last_le h'.last_le, fun r'' hr'' hle => ?_⟩
  obtain ⟨r', hr', hid', hlasting'⟩ := h'.old r'' hr'' (Int.le_trans hle h.last_le)
  obtain ⟨r, hr, hid, hlasting⟩ := h.old r' hr' (hid' ▸ hle)
  exact ⟨r, hr, hid.trans hid', hlasting.trans hlasting'⟩

theorem Amended.continues (h : t.Amended id lasting t') : t.Continues id lasting t' := by
  cases h with
  | skipped hlast => exact ⟨hlast, fun r hr _ => ⟨r, hr, rfl, rfl⟩⟩
  | added r hr =>
    refine ⟨Int.le_add_one (Int.le_refl _), fun x hx hle => ?_⟩
    rcases List.mem_append.1 hx with hx | hx
    · exact ⟨x, hx, rfl, rfl⟩
    · obtain rfl := List.mem_singleton.1 hx
      omega
  | changed f hid hlasting =>
    refine ⟨Int.le_refl _, fun x hx _ => ?_⟩
    obtain ⟨r, hr, rfl⟩ := List.mem_map.1 hx
    exact ⟨r, hr, (hid r).symm, (hlasting r).symm⟩
  | dropped p => exact ⟨Int.le_refl _, fun r hr _ => ⟨r, List.mem_of_mem_filter hr, rfl, rfl⟩⟩

/-- Ids in a table that is looked at three times, one after the other: each is the id of
one row for good, it does not come back, and new ones are larger than all before. -/
structure KeepsIds (id : ρ → Int) (lasting : ρ → ρ) (t t' t'' : Table ρ) : Prop where
  nodup : (t.rows.map id).Nodup
  same_row : ∀ r ∈ t.rows, ∀ r' ∈ t'.rows, id r' = id r → lasting r' = lasting r
  not_reused : ∀ r ∈ t.rows, id r ∉ t'.rows.map id → id r ∉ t''.rows.map id
  larger : ∀ r' ∈ t'.rows, id r' ∉ t.rows.map id → ∀ r ∈ t.rows, id r < id r'

theorem Numbered.keepsIds (hn : t.Numbered id) (h : t.Continues id lasting t')
    (h' : t'.Continues id lasting t'') : KeepsIds id lasting t t' t'' where
  nodup := hn.nodup
  same_row r hr r' hr' hid := by
    obtain ⟨x, hx, hxid, hlasting⟩ := h.old r' hr' (hid ▸ hn.le_last r hr)
    rw [← hlasting, List.inj_on_of_nodup_map hn.nodup hx hr (hxid.trans hid)]
  not_reused r hr hgone hback := by
    obtain ⟨r'', hr'', hid⟩ := List.mem_map.1 hback
    obtain ⟨r', hr', hid', -⟩ := h'.old r'' hr''
      (hid ▸ Int.le_trans (hn.le_last r hr) h.last_le)
    exact hgone (List.mem_map.2 ⟨r', hr', hid'.trans hid⟩)
  larger r' hr' hnew r hr := by
    refine Int.lt_of_not_ge fun hle => hnew ?_
    obtain ⟨x, hx, hid, -⟩ := h.old r' hr' (Int.le_trans hle (hn.le_last r hr))
    exact List.mem_map.2 ⟨x, hx, hid⟩

/-- The next id of a later table is larger than all ids of an earlier one. -/
theorem Numbered.lt_next (hn : t.Numbered id) (h : t.Continues id lasting t') :
    ∀ r ∈ t.rows, id r < t'.last + 1 :=
  fun r hr => Int.lt_add_one_of_le (Int.le_trans (hn.le_last r hr) h.last_le)

/-- An insertion under a path: it is made exactly if no row has the path, and then under
an id that is larger than all those in an earlier table; else the rows stay. -/
structure Inserts (path : ρ → Path) (id : ρ → Int) (earlier t t' : Table ρ) (p : Path)
    (row : Int → ρ) (answer : Insertion) : Prop where
  inserted_iff : answer = .inserted ↔ ∀ r ∈ t.rows, path r ≠ p
  rows_of_inserted : answer = .inserted →
    ∃ i, (∀ r ∈ earlier.rows, id r < i) ∧ t'.rows = t.rows ++ [row i]
  rows_of_conflict : answer = .conflict → t'.rows = t.rows

section Inserts

variable {path : ρ → Path} {earlier : Table ρ} {p : Path} {row : Int → ρ}

theorem Inserts.of_taken {r : ρ} (hr : r ∈ t.rows) (hpath : path r = p)
    (hrows : t'.rows = t.rows) : Inserts path id earlier t t' p row .conflict where
  inserted_iff := by simpa using ⟨r, hr, hpath⟩
  rows_of_inserted := by simp
  rows_of_conflict _ := hrows

theorem Inserts.of_free {i : Int} (hfree : ∀ r ∈ t.rows, path r ≠ p)
    (hi : ∀ r ∈ earlier.rows, id r < i) (hrows : t'.rows = t.rows ++ [row i]) :
    Inserts path id earlier t t' p row .inserted where
  inserted_iff := by simpa using hfree
  rows_of_inserted _ := ⟨i, hi, hrows⟩
  rows_of_conflict := by simp

end Inserts

end Table

/-- A file row without its size, the only thing about it that may change. -/
def FileRow.lasting (r : FileRow) : FileRow := { r with size := 0 }

/-- What an evaluation sees of a file row that was joined with a time, or with none. -/
def FileRow.dated (r : FileRow) (madeAt : Option Int) : TierFile where
  id := r.id
  path := r.path
  tierPath := r.tierPath
  size := r.size
  createdAt := r.createdAt
  madeAt := madeAt

/-- A recording without its pointers, the only things about it that may change. -/
def Recording.lasting (x : Recording) : Recording :=
  { x with clipPath := none, thumbnailPath := none }

namespace Catalog

variable {c c' c'' : Catalog}

def fileTable (c : Catalog) : Table FileRow := ⟨c.files, c.lastFileId⟩

def noteTable (c : Catalog) : Table MetaRow := ⟨c.notes, c.lastNoteId⟩

def recordingTable (c : Catalog) : Table Recording := ⟨c.recordings, c.lastRecordingId⟩

/-- A statement amends at most one table; beside that, it may change which queries are
answered. -/
inductive Amended (c : Catalog) : Catalog → Prop
  | answering {hasTables : Bool} (h : c.hasTables = true → hasTables = true)
      (failing : List Query) : Amended c { c with hasTables := hasTables, failing := failing }
  | files {rows : List FileRow} {last : Int}
      (h : c.fileTable.Amended FileRow.id FileRow.lasting ⟨rows, last⟩) :
      Amended c { c with files := rows, lastFileId := last }
  | notes {rows : List MetaRow} {last : Int}
      (h : c.noteTable.Amended MetaRow.id id ⟨rows, last⟩) :
      Amended c { c with notes := rows, lastNoteId := last }
  | recordings {rows : List Recording} {last : Int}
      (h : c.recordingTable.Amended Recording.id Recording.lasting ⟨rows, last⟩) :
      Amended c { c with recordings := rows, lastRecordingId := last }

theorem Amended.refl (c : Catalog) : c.Amended c := .answering (fun h => h) c.failing

theorem amended_addNote (c : Catalog) (p : Path) (note : String) (madeAt : Int) :
    c.Amended (c.addNote p note madeAt).2 := by
  unfold addNote
  split
  · exact .notes (.skipped (Int.le_add_one (Int.le_refl _)))
  · exact .notes (.added (⟨c.lastNoteId + 1, p, note, madeAt⟩ : MetaRow) rfl)

theorem amended_statement (c : Catalog) (s : Statement) : c.Amended (s.run c) := by
  cases s with
  | insertFile entry =>
    simp only [Statement.run, insertFile]
    split_ifs
    · split
      · exact .files (.skipped (Int.le_add_one (Int.le_refl _)))
      · exact .files (.added (⟨entry, c.lastFileId + 1⟩ : FileRow) rfl)
    · exact .refl c
  | updateFileSize p size =>
    simp only [Statement.run, updateFileSize]
    split_ifs
    · exact .files (.changed _ (fun r => by split <;> rfl) fun r => by split <;> rfl)
    · exact .refl c
  | deleteFile p =>
    simp only [Statement.run, deleteFile]
    split_ifs
    · exact .files (.dropped _)
    · exact .refl c
  | insertNote n =>
    simp only [Statement.run, insertNote]
    split_ifs
    · exact amended_addNote c n.path n.value.render n.madeAt
    · exact .refl c
  | storeNoteText p note madeAt =>
    simp only [Statement.run, storeNoteText]
    split_ifs
    · exact amended_addNote c p note madeAt
    · exact .refl c
  | copyNote source target =>
    simp only [Statement.run, copyNote]
    split_ifs
    · split
      · exact .refl c
      · rename_i n _
        have hadded := amended_addNote c target n.note n.madeAt
        split <;> (rename_i heq; rw [heq] at hadded; exact hadded)
    · exact .refl c
  | insertRecording entry now =>
    simp only [Statement.run, insertRecording]
    split_ifs
    · exact .recordings (.added (⟨entry, c.lastRecordingId + 1, now⟩ : Recording) rfl)
    · exact .refl c
  | updateThumbnail i p =>
    simp only [Statement.run, updateThumbnail]
    split_ifs
    · exact .recordings (.changed _ (fun r => by split <;> rfl) fun r => by split <;> rfl)
    · exact .refl c
  | updateClip camera suffix p =>
    simp only [Statement.run, updateClip]
    split_ifs
    · exact .recordings (.changed _ (fun r => by split <;> rfl) fun r => by split <;> rfl)
    · exact .refl c
  | deleteRecordings ids =>
    simp only [Statement.run, deleteRecordings]
    split_ifs
    · exact .refl c
    · exact .refl c
    · exact .recordings (.dropped _)
    · exact .refl c
  | makeTables => exact .answering (fun _ => rfl) c.failing
  | setFailing q on => exact .answering (fun h => h) _

section Runs

/-- Whatever is stated, each table is a later one of what it was. -/
theorem Amended.continues (h : c.Amended c') :
    c.fileTable.Continues FileRow.id FileRow.lasting c'.fileTable ∧
      c.noteTable.Continues MetaRow.id id c'.noteTable ∧
      c.recordingTable.Continues Recording.id Recording.lasting c'.recordingTable := by
  cases h with
  | answering => exact ⟨.refl _, .refl _, .refl _⟩
  | files h => exact ⟨h.continues, .refl _, .refl _⟩
  | notes h => exact ⟨.refl _, h.continues, .refl _⟩
  | recordings h => exact ⟨.refl _, .refl _, h.continues⟩

theorem Runs.continues (h : c.Runs c') :
    c.fileTable.Continues FileRow.id FileRow.lasting c'.fileTable ∧
      c.noteTable.Continues MetaRow.id id c'.noteTable ∧
      c.recordingTable.Continues Recording.id Recording.lasting c'.recordingTable := by
  induction h with
  | refl => exact ⟨.refl _, .refl _, .refl _⟩
  | tail _ hlast ih =>
    obtain ⟨s, rfl⟩ := hlast
    obtain ⟨hfiles, hnotes, hrecordings⟩ := (amended_statement _ s).continues
    exact ⟨ih.1.trans hfiles, ih.2.1.trans hnotes, ih.2.2.trans hrecordings⟩

/-- A row with an id that was given before is one that was there before, but for
its size. -/
theorem Runs.exists_resized (h : c.Runs c') {r : FileRow} (hr : r ∈ c'.files)
    (hid : r.id ≤ c.lastFileId) : ∃ x ∈ c.files, ∃ size, r = { x with size := size } := by
  obtain ⟨x, hx, -, hlasting⟩ := h.continues.1.old r hr hid
  exact ⟨x, hx, r.size, (congrArg (fun y : FileRow => { y with size := r.size }) hlasting).symm⟩

/-- The ids of all three tables are told apart, and none lies beyond the last one. -/
structure Numbered (c : Catalog) : Prop where
  files : c.fileTable.Numbered FileRow.id
  notes : c.noteTable.Numbered MetaRow.id
  recordings : c.recordingTable.Numbered Recording.id

theorem numbered_empty : ({} : Catalog).Numbered where
  files := ⟨List.nodup_nil, by simp [fileTable]⟩
  notes := ⟨List.nodup_nil, by simp [noteTable]⟩
  recordings := ⟨List.nodup_nil, by simp [recordingTable]⟩

theorem Numbered.amended (h : c.Numbered) (ha : c.Amended c') : c'.Numbered := by
  cases ha with
  | answering => exact ⟨h.files, h.notes, h.recordings⟩
  | files ha => exact ⟨h.files.amended ha, h.notes, h.recordings⟩
  | notes ha => exact ⟨h.files, h.notes.amended ha, h.recordings⟩
  | recordings ha => exact ⟨h.files, h.notes, h.recordings.amended ha⟩

theorem Runs.numbered (h : c.Runs c') (hn : c.Numbered) : c'.Numbered :=
  h.keeps (fun s _ hc => hc.amended (amended_statement _ s)) hn

/-- Tables that were made stay. -/
theorem Amended.hasTables (h : c.Amended c') (hc : c.hasTables = true) : c'.hasTables = true := by
  cases h with
  | answering htables failing => exact htables hc
  | _ => exact hc

theorem Runs.hasTables (h : c.Runs c') (hc : c.hasTables = true) : c'.hasTables = true :=
  h.keeps (P := fun c => c.hasTables = true) (fun s c => (amended_statement c s).hasTables) hc

end Runs

section Insertions

variable (hn : c.Numbered) (h : c.Runs c')

include hn h

/-- A file is inserted under its path. -/
theorem inserts_insertFile (entry : FileEntry) (ha : c'.answers .insertFile = true) :
    ∃ answer, (c'.insertFile entry).1 = .ok answer ∧
      Table.Inserts (fun r : FileRow => r.path) FileRow.id c.fileTable c'.fileTable
        (c'.insertFile entry).2.fileTable entry.path (fun i => ⟨entry, i⟩) answer := by
  unfold insertFile
  rw [if_pos ha]
  cases hrow : c'.fileAt? entry.path with
  | some r =>
    obtain ⟨hr, hpath⟩ := fileAt?_eq_some hrow
    exact ⟨.conflict, rfl, .of_taken hr hpath rfl⟩
  | none =>
    have hfree : ∀ r ∈ c'.files, r.path ≠ entry.path := by
      simpa [fileAt?_eq_none_iff] using hrow
    exact ⟨.inserted, rfl, .of_free hfree (hn.files.lt_next h.continues.1) rfl⟩

/-- A note is added under its path. -/
theorem inserts_addNote (p : Path) (note : String) (madeAt : Int) :
    Table.Inserts MetaRow.path MetaRow.id c.noteTable c'.noteTable
      (c'.addNote p note madeAt).2.noteTable p (fun i => ⟨i, p, note, madeAt⟩)
      (c'.addNote p note madeAt).1 := by
  unfold addNote
  cases hrow : c'.noteAt? p with
  | some n =>
    obtain ⟨hm, hpath⟩ := noteAt?_eq_some hrow
    exact .of_taken hm hpath rfl
  | none =>
    have hfree : ∀ n ∈ c'.notes, n.path ≠ p := by
      simpa [noteAt?_eq_none_iff] using hrow
    exact .of_free hfree (hn.notes.lt_next h.continues.2.1) rfl

theorem inserts_insertNote (n : Note) (ha : c'.answers .insertNote = true) :
    ∃ answer, (c'.insertNote n).1 = .ok answer ∧
      Table.Inserts MetaRow.path MetaRow.id c.noteTable c'.noteTable
        (c'.insertNote n).2.noteTable n.path (fun i => ⟨i, n.path, n.value.render, n.madeAt⟩)
        answer := by
  unfold insertNote
  rw [if_pos ha]
  exact ⟨_, rfl, inserts_addNote hn h n.path n.value.render n.madeAt⟩

end Insertions

/-- What copying a note answers and leaves: nothing changes but that the target may get a
note, with the text and the time of that of the source. -/
structure Copies (c : Catalog) (source target : Path) (answer : NoteCopy) (c' : Catalog) :
    Prop where
  missing_iff : answer = .sourceMissing ↔ ∀ n ∈ c.notes, n.path ≠ source
  conflict_iff : answer = .conflict ↔
    (∃ n ∈ c.notes, n.path = source) ∧ ∃ n ∈ c.notes, n.path = target
  copied_iff : answer = .copied ↔
    (∃ n ∈ c.notes, n.path = source) ∧ ∀ n ∈ c.notes, n.path ≠ target
  notes_of_copied : answer = .copied → ∃ n ∈ c.notes, n.path = source ∧
    ∃ i, c'.notes = c.notes ++ [⟨i, target, n.note, n.madeAt⟩]
  notes_eq : answer ≠ .copied → c'.notes = c.notes
  files_eq : c'.files = c.files
  recordings_eq : c'.recordings = c.recordings

theorem copies_copyNote (c : Catalog) (source target : Path) (ha : c.answers .copyNote = true) :
    ∃ answer, (c.copyNote source target).1 = .ok answer ∧
      c.Copies source target answer (c.copyNote source target).2 := by
  unfold copyNote
  rw [if_pos ha]
  cases hsource : c.noteAt? source with
  | none =>
    have hnone : ∀ n ∈ c.notes, n.path ≠ source := by
      simpa [noteAt?_eq_none_iff] using hsource
    have hnot : ¬ ∃ n ∈ c.notes, n.path = source := by simpa using hnone
    exact ⟨.sourceMissing, rfl, {
      missing_iff := iff_of_true rfl hnone
      conflict_iff := by simp [hnot]
      copied_iff := by simp [hnot]
      notes_of_copied := by simp
      notes_eq := fun _ => rfl
      files_eq := rfl
      recordings_eq := rfl }⟩
  | some n =>
    obtain ⟨hmem, hpath⟩ := noteAt?_eq_some hsource
    have hfound : ∃ n ∈ c.notes, n.path = source := ⟨n, hmem, hpath⟩
    unfold addNote
    cases htarget : c.noteAt? target with
    | some m =>
      obtain ⟨hm, hmpath⟩ := noteAt?_eq_some htarget
      have htaken : ∃ n ∈ c.notes, n.path = target := ⟨m, hm, hmpath⟩
      exact ⟨.conflict, rfl, {
        missing_iff := by simpa using hfound
        conflict_iff := iff_of_true rfl ⟨hfound, htaken⟩
        copied_iff := by simpa using fun _ _ _ => htaken
        notes_of_copied := by simp
        notes_eq := fun _ => rfl
        files_eq := rfl
        recordings_eq := rfl }⟩
    | none =>
      have hfree : ∀ n ∈ c.notes, n.path ≠ target := by
        simpa [noteAt?_eq_none_iff] using htarget
      exact ⟨.copied, rfl, {
        missing_iff := by simpa using hfound
        conflict_iff := by simpa using fun _ _ _ => hfree
        copied_iff := iff_of_true rfl ⟨hfound, hfree⟩
        notes_of_copied := fun _ => ⟨n, hmem, hpath, _, rfl⟩
        notes_eq := by simp
        files_eq := rfl
        recordings_eq := rfl }⟩

section Selections

/-- The left join of files and notes by their paths: a file comes once for each note of
its path, and once without a time if there is none. -/
def leftJoin (files : List FileRow) (notes : List MetaRow) : List TierFile :=
  files.flatMap fun r =>
    match notes.filter (·.path == r.path) with
    | [] => [r.dated none]
    | n :: ns => (n :: ns).map fun n => r.dated (some n.madeAt)

theorem filter_path_eq_toList {notes : List MetaRow} (h : (notes.map (·.path)).Nodup)
    (p : Path) : notes.filter (·.path == p) = (notes.find? (·.path == p)).toList := by
  induction notes with
  | nil => rfl
  | cons n ns ih =>
    rw [List.map_cons, List.nodup_cons] at h
    by_cases hn : n.path = p
    · have hothers : ns.filter (·.path == p) = [] := by
        refine List.filter_eq_nil_iff.2 fun x hx => ?_
        simpa [hn] using fun hpath => h.1 (List.mem_map.2 ⟨x, hx, hpath.trans hn.symm⟩)
      simp [hn, hothers]
    · simpa [hn] using ih h.2

theorem noteAt?_of_mem (h : (c.notes.map (·.path)).Nodup) {n : MetaRow} (hn : n ∈ c.notes) :
    c.noteAt? n.path = some n := by
  have hmem : n ∈ c.notes.filter (·.path == n.path) := by simp [hn]
  rw [filter_path_eq_toList h] at hmem
  exact Option.mem_toList.1 hmem

/-- Where notes are told apart by their paths, a file is joined with one at most. -/
theorem leftJoin_eq_map (h : (c.notes.map (·.path)).Nodup) (files : List FileRow) :
    leftJoin files c.notes = files.map c.tierFile := by
  rw [leftJoin, List.map_eq_flatMap]
  refine List.flatMap_congr fun r _ => ?_
  rw [filter_path_eq_toList h]
  change _ = [r.dated ((c.noteAt? r.path).map (·.madeAt))]
  rw [← noteAt?]
  cases c.noteAt? r.path <;> rfl

/-- What a selection of a population hands out: the left join of the matching files with
the notes, in which each matching row is found once and with the time of its own note,
from the newest to the oldest. -/
structure Selects (c : Catalog) (p : Population) (fs : List TierFile) : Prop where
  joined : fs.Perm (leftJoin (c.files.filter p.holds) c.notes)
  each_row : (fs.map fun f => { f with madeAt := none }).Perm
    ((c.files.filter p.holds).map (·.dated none))
  once : (fs.map (·.id)).Nodup
  own_time : ∀ f ∈ fs, ∀ time, f.madeAt = some time ↔
    ∃ n ∈ c.notes, n.path = f.path ∧ n.madeAt = time
  newest_first : fs.Pairwise fun f g => f.rank.Newer g.rank

theorem Keyed.selects (h : c.Keyed) (p : Population) : c.Selects p (c.population p) where
  joined := leftJoin_eq_map h.notePaths _ ▸ newestFirst_perm TierFile.rank _
  each_row := by
    rw [population]
    refine ((newestFirst_perm TierFile.rank _).map _).trans ?_
    rw [List.map_map]
    exact .refl _
  once := h.nodup_populationIds p
  own_time f hf time := by
    obtain ⟨r, -, -, rfl⟩ := mem_population.1 hf
    change (c.noteAt? r.path).map (·.madeAt) = some time ↔ _
    rw [Option.map_eq_some_iff]
    constructor
    · rintro ⟨n, hn, htime⟩
      obtain ⟨hmem, hpath⟩ := noteAt?_eq_some hn
      exact ⟨n, hmem, hpath, htime⟩
    · rintro ⟨n, hn, hpath, htime⟩
      rw [path_tierFile] at hpath
      exact ⟨n, hpath ▸ noteAt?_of_mem h.notePaths hn, htime⟩
  newest_first := pairwise_newer_newestFirst TierFile.rank <| by
    rw [List.map_map]
    exact (List.filter_sublist.map _).nodup h.fileIds

end Selections

/-- What is known of a catalog that grew from empty tables by statements, at three moments
one after the other. -/
theorem tables_of_empty (h₀ : ({} : Catalog).Runs c) (h : c.Runs c') (h' : c'.Runs c'') :
    ((c'.files.map (·.path)).Nodup ∧ (c'.notes.map (·.path)).Nodup) ∧
    (Table.KeepsIds FileRow.id FileRow.lasting c.fileTable c'.fileTable c''.fileTable ∧
      Table.KeepsIds MetaRow.id id c.noteTable c'.noteTable c''.noteTable ∧
      Table.KeepsIds Recording.id Recording.lasting c.recordingTable c'.recordingTable
        c''.recordingTable) ∧
    (∀ entry, .insertFile ∉ c'.failing → ∃ answer, (c'.insertFile entry).1 = .ok answer ∧
      Table.Inserts (fun r : FileRow => r.path) FileRow.id c.fileTable c'.fileTable
        (c'.insertFile entry).2.fileTable entry.path (fun i => ⟨entry, i⟩) answer) ∧
    (∀ n, .insertNote ∉ c'.failing → ∃ answer, (c'.insertNote n).1 = .ok answer ∧
      Table.Inserts MetaRow.path MetaRow.id c.noteTable c'.noteTable
        (c'.insertNote n).2.noteTable n.path
        (fun i => ⟨i, n.path, n.value.render, n.madeAt⟩) answer) ∧
    (∀ source target, .copyNote ∉ c'.failing →
      ∃ answer, (c'.copyNote source target).1 = .ok answer ∧
        c'.Copies source target answer (c'.copyNote source target).2) ∧
    ∀ p, .selectFiles ∉ c'.failing → ∃ fs, c'.selectFiles p = .ok fs ∧ c'.Selects p fs := by
  have hrun : ({} : Catalog).Runs c' := h₀.trans h
  have hkeyed : c'.Keyed := hrun.keyed keyed_empty
  have hnumbered : c.Numbered := h₀.numbered numbered_empty
  have hanswers : ∀ q ∉ c'.failing, c'.answers q = true := by
    intro q hq
    have htables : c'.hasTables = true := hrun.hasTables rfl
    simp [answers, htables, hq]
  obtain ⟨hfiles, hnotes, hrecordings⟩ := h.continues
  obtain ⟨hfiles', hnotes', hrecordings'⟩ := h'.continues
  refine ⟨⟨hkeyed.filePaths, hkeyed.notePaths⟩,
    ⟨hnumbered.files.keepsIds hfiles hfiles', hnumbered.notes.keepsIds hnotes hnotes',
      hnumbered.recordings.keepsIds hrecordings hrecordings'⟩, ?_, ?_, ?_, ?_⟩
  · exact fun entry hq => inserts_insertFile hnumbered h entry (hanswers _ hq)
  · exact fun n hq => inserts_insertNote hnumbered h n (hanswers _ hq)
  · exact fun source target hq => copies_copyNote c' source target (hanswers _ hq)
  · exact fun p hq => ⟨c'.population p, if_pos (hanswers _ hq), hkeyed.selects p⟩

end Catalog

/-- A snapshot of the first tier. -/
def noonSnapshot : FileEntry where
  tierIndex := 0
  tierPath := "/t0".toList
  camera := "cam1"
  category := "snapshots"
  subcategory := "motion"
  path := "/t0/noon.jpg".toList
  directory := "/t0".toList
  filename := "noon.jpg".toList
  size := 7
  createdAt := 50

/-- The snapshot was catalogued. -/
def noonFiled : Catalog := Statement.run {} (.insertFile noonSnapshot)

/-- Its row was dropped. -/
def noonDropped : Catalog := Statement.run noonFiled (.deleteFile noonSnapshot.path)

/-- It was catalogued once more. -/
def noonRefiled : Catalog := Statement.run noonDropped (.insertFile noonSnapshot)

theorem tables_of_empty_noonRefiled :
    (({} : Catalog).Runs noonFiled ∧ noonFiled.Runs noonDropped ∧
      noonDropped.Runs noonRefiled) ∧
    Table.KeepsIds FileRow.id FileRow.lasting noonFiled.fileTable noonDropped.fileTable
      noonRefiled.fileTable ∧
    (∃ answer, (noonDropped.insertFile noonSnapshot).1 = .ok answer ∧
      Table.Inserts (fun r : FileRow => r.path) FileRow.id noonFiled.fileTable
        noonDropped.fileTable noonRefiled.fileTable noonSnapshot.path
        (fun i => ⟨noonSnapshot, i⟩) answer) ∧
    noonFiled.files = [⟨noonSnapshot, 1⟩] ∧ noonRefiled.files = [⟨noonSnapshot, 2⟩] := by
  have hfiled : ({} : Catalog).Runs noonFiled := Catalog.runs_statement _ (.insertFile _)
  have hdropped : noonFiled.Runs noonDropped := Catalog.runs_statement _ (.deleteFile _)
  have hrefiled : noonDropped.Runs noonRefiled := Catalog.runs_statement _ (.insertFile _)
  obtain ⟨-, ⟨hids, -, -⟩, hinserts, -, -, -⟩ := Catalog.tables_of_empty hfiled hdropped hrefiled
  exact ⟨⟨hfiled, hdropped, hrefiled⟩, hids, hinserts noonSnapshot (by decide),
    by decide, by decide⟩

end TieredFootage
