import TieredFootage.Catalog.Like
import TieredFootage.Catalog.Rows
import TieredFootage.Json.Reader
import TieredFootage.Json.Writer

/-!
# The catalog

Three tables: files, notes about paths, recordings. Ids are counted upwards and
never given twice, not even after deletions; a refused insertion of a file or a
note uses one up as well. A path has at most one file and at most one note.

Each operation is one statement: it either answers and leaves its one change, or
fails and leaves the catalog as it was. All of them fail until the tables have
been made, and each can be made to fail by itself, as `Query` names them.
-/

namespace TieredFootage

/-- What the catalog can be asked for. -/
inductive Query
  | insertFile
  | updateFileSize
  | deleteFile
  | getFile
  | selectFiles
  | insertNote
  | getNote
  | copyNote
  | insertRecording
  | getRecording
  | selectRecordings
  | updateThumbnail
  | updateClip
  | deleteRecordings
  deriving DecidableEq, Repr

inductive CatalogError
  | database
  /-- The note of a path cannot be read. -/
  | note
  deriving DecidableEq, Repr

inductive Insertion
  | inserted
  /-- The path has a row already, which stays as it is. -/
  | conflict
  deriving DecidableEq, Repr

inductive NoteCopy
  | copied
  /-- There is nothing to copy. -/
  | sourceMissing
  /-- The destination has a note already, which stays as it is. -/
  | conflict
  deriving DecidableEq, Repr

/-- A note that has been read. -/
structure Note where
  path : Path
  value : Json
  madeAt : Int

/-- The tables and their last ids. -/
structure Catalog where
  hasTables : Bool := true
  failing : List Query := []
  files : List FileRow := []
  notes : List MetaRow := []
  recordings : List Recording := []
  lastFileId : Int := 0
  lastNoteId : Int := 0
  lastRecordingId : Int := 0
  deriving Repr

namespace Catalog

/-- Whether the catalog answers a query. -/
def answers (c : Catalog) (q : Query) : Bool := c.hasTables && decide (q ∉ c.failing)

/-- The catalog with one query failing, or not failing any more. -/
def setFailing (c : Catalog) (q : Query) (on : Bool) : Catalog :=
  { c with failing := if on then q :: c.failing else c.failing.filter (· != q) }

def fileAt? (c : Catalog) (path : Path) : Option FileRow := c.files.find? (·.path == path)

/-- The note of a path, unread. -/
def noteAt? (c : Catalog) (path : Path) : Option MetaRow := c.notes.find? (·.path == path)

def recordingAt? (c : Catalog) (id : Int) : Option Recording := c.recordings.find? (·.id == id)

/-- Catalogues a file under its path. -/
def insertFile (c : Catalog) (entry : FileEntry) : Except CatalogError Insertion × Catalog :=
  if c.answers .insertFile then
    let id := c.lastFileId + 1
    match c.fileAt? entry.path with
    | some _ => (.ok .conflict, { c with lastFileId := id })
    | none => (.ok .inserted, { c with lastFileId := id, files := c.files ++ [⟨entry, id⟩] })
  else (.error .database, c)

/-- Sets the size of a file; answers the number of rows changed. -/
def updateFileSize (c : Catalog) (path : Path) (size : Int) : Except CatalogError Nat × Catalog :=
  if c.answers .updateFileSize then
    (.ok (c.files.countP (·.path == path)),
      { c with files := c.files.map fun r => if r.path = path then { r with size := size } else r })
  else (.error .database, c)

/-- Drops the row of a path; answers the number of rows dropped. -/
def deleteFile (c : Catalog) (path : Path) : Except CatalogError Nat × Catalog :=
  if c.answers .deleteFile then
    (.ok (c.files.countP (·.path == path)), { c with files := c.files.filter (·.path != path) })
  else (.error .database, c)

def getFile (c : Catalog) (path : Path) : Except CatalogError (Option FileRow) :=
  if c.answers .getFile then .ok (c.fileAt? path) else .error .database

def tierFile (c : Catalog) (r : FileRow) : TierFile where
  id := r.id
  path := r.path
  tierPath := r.tierPath
  size := r.size
  createdAt := r.createdAt
  madeAt := (c.noteAt? r.path).map (·.madeAt)

/-- The files of a population, newest first. -/
def population (c : Catalog) (p : Population) : List TierFile :=
  newestFirst TierFile.rank ((c.files.filter p.holds).map c.tierFile)

/-- The files of a population, newest first. -/
def selectFiles (c : Catalog) (p : Population) : Except CatalogError (List TierFile) :=
  if c.answers .selectFiles then .ok (c.population p) else .error .database

/-- Puts a stored text under a path that has no note yet. -/
def addNote (c : Catalog) (path : Path) (note : String) (madeAt : Int) : Insertion × Catalog :=
  let id := c.lastNoteId + 1
  match c.noteAt? path with
  | some _ => (.conflict, { c with lastNoteId := id })
  | none => (.inserted, { c with lastNoteId := id, notes := c.notes ++ [⟨id, path, note, madeAt⟩] })

/-- Writes a note for a path. -/
def insertNote (c : Catalog) (n : Note) : Except CatalogError Insertion × Catalog :=
  if c.answers .insertNote then
    let (answer, c) := c.addNote n.path n.value.render n.madeAt
    (.ok answer, c)
  else (.error .database, c)

/-- Stores a text as the note of a path, whether or not it can be read; answers
whether it was stored. -/
def storeNoteText (c : Catalog) (path : Path) (note : String) (madeAt : Int) : Bool × Catalog :=
  if c.hasTables && (c.noteAt? path).isNone then (true, (c.addNote path note madeAt).2)
  else (false, c)

def readNote (r : MetaRow) : Except CatalogError Note :=
  match Json.parse? r.note with
  | some value => .ok ⟨r.path, value, r.madeAt⟩
  | none => .error .note

def getNote (c : Catalog) (path : Path) : Except CatalogError (Option Note) :=
  if c.answers .getNote then
    match c.noteAt? path with
    | none => .ok none
    | some r => (readNote r).map some
  else .error .database

/-- Copies the stored note of `source`, unread, to `target`. -/
def copyNote (c : Catalog) (source target : Path) : Except CatalogError NoteCopy × Catalog :=
  if c.answers .copyNote then
    match c.noteAt? source with
    | none => (.ok .sourceMissing, c)
    | some r =>
      match c.addNote target r.note r.madeAt with
      | (.inserted, c) => (.ok .copied, c)
      | (.conflict, c) => (.ok .conflict, c)
  else (.error .database, c)

/-- Catalogues a recording at `now`; answers its id. -/
def insertRecording (c : Catalog) (entry : RecordingEntry) (now : Int) :
    Except CatalogError Int × Catalog :=
  if c.answers .insertRecording then
    let id := c.lastRecordingId + 1
    (.ok id, { c with
      lastRecordingId := id, recordings := c.recordings ++ [⟨entry, id, now⟩] })
  else (.error .database, c)

def getRecording (c : Catalog) (id : Int) : Except CatalogError (Option Recording) :=
  if c.answers .getRecording then .ok (c.recordingAt? id) else .error .database

/-- The recordings of a camera, newest first. -/
def recordingsOf (c : Catalog) (camera : String) : List Recording :=
  newestFirst Recording.rank (c.recordings.filter (·.camera == camera))

/-- The recordings of a camera, newest first. -/
def selectRecordings (c : Catalog) (camera : String) : Except CatalogError (List Recording) :=
  if c.answers .selectRecordings then .ok (c.recordingsOf camera) else .error .database

/-- Points the recording with an id at another thumbnail; answers the number of
rows changed. -/
def updateThumbnail (c : Catalog) (id : Int) (path : Path) : Except CatalogError Nat × Catalog :=
  if c.answers .updateThumbnail then
    (.ok (c.recordings.countP (·.id == id)),
      { c with recordings := c.recordings.map fun r =>
          if r.id = id then { r with thumbnailPath := some path } else r })
  else (.error .database, c)

/-- Whether a recording is one of `camera` with a clip whose path ends with
`suffix`. -/
def clipEndsWith (camera : String) (suffix : Path) (r : Recording) : Bool :=
  r.camera == camera &&
    r.clipPath.any fun clip => Like.matchesText (Like.endsWithPattern suffix) clip

/-- Points every recording of a camera whose clip ends with `suffix` at another
clip; answers the number of rows changed. -/
def updateClip (c : Catalog) (camera : String) (suffix path : Path) :
    Except CatalogError Nat × Catalog :=
  if c.answers .updateClip then
    (.ok (c.recordings.countP (clipEndsWith camera suffix)),
      { c with recordings := c.recordings.map fun r =>
          if clipEndsWith camera suffix r then { r with clipPath := some path } else r })
  else (.error .database, c)

/-- Drops the recordings with the given ids; answers the number of rows dropped.
Without ids no statement is needed. -/
def deleteRecordings (c : Catalog) (ids : List Int) : Except CatalogError Nat × Catalog :=
  if decide (Query.deleteRecordings ∈ c.failing) then (.error .database, c)
  else if ids.isEmpty then (.ok 0, c)
  else if c.hasTables then
    (.ok (c.recordings.countP fun r => decide (r.id ∈ ids)),
      { c with recordings := c.recordings.filter fun r => decide (r.id ∉ ids) })
  else (.error .database, c)

def makeTables (c : Catalog) : Catalog := { c with hasTables := true }

/-- An answer that is an error leaves the catalog as it was. -/
theorem insertFile_error {c c' : Catalog} {entry : FileEntry} {e : CatalogError}
    (h : c.insertFile entry = (.error e, c')) : c' = c := by
  unfold insertFile at h
  split at h
  · split at h <;> simp at h
  · exact (Prod.mk.inj h).2.symm

/-- The row of a path is one of the rows, and has that path. -/
theorem fileAt?_eq_some {c : Catalog} {path : Path} {r : FileRow} (h : c.fileAt? path = some r) :
    r ∈ c.files ∧ r.path = path :=
  ⟨List.mem_of_find?_eq_some h, by simpa using List.find?_some h⟩

theorem noteAt?_eq_some {c : Catalog} {path : Path} {r : MetaRow} (h : c.noteAt? path = some r) :
    r ∈ c.notes ∧ r.path = path :=
  ⟨List.mem_of_find?_eq_some h, by simpa using List.find?_some h⟩

/-- What an evaluation sees of a row has the row's id and path. -/
@[simp] theorem path_tierFile (c : Catalog) (r : FileRow) : (c.tierFile r).path = r.path := rfl

@[simp] theorem id_tierFile (c : Catalog) (r : FileRow) : (c.tierFile r).id = r.id := rfl

end Catalog

end TieredFootage
