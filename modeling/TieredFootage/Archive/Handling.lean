import TieredFootage.Archive.Evaluation

/-!
# Handling what happens to files

A created file is catalogued under the tier it appeared in, and a thumbnail or a
clip that appeared is also made known to its recording. A deleted file loses its
row. A modified file is looked at again once it has been quiet for a while. Each
of these may be followed by an evaluation.
-/

namespace TieredFootage

/-- Why something that happened to a file cannot be handled. -/
inductive HandlingError
  | stat (p : Path)
  | catalogue
  | forget
  deriving DecidableEq, Repr

def HandlingError.message : HandlingError → String
  | .stat p => "Failed to stat " ++ String.ofList p
  | .catalogue => "Failed to catalogue file"
  | .forget => "Failed to remove file from catalog"

namespace Archive

/-- The size that is reported for a directory, in bytes. -/
def directorySize : Int := 4096

/-- The size that is reported for a node, in bytes. -/
def sizeOf : Node → Int
  | .directory => directorySize
  | .file content => content.utf8ByteSize

/-- Points the recording that a thumbnail is named after at it. -/
def repointThumbnail (a : Archive) (p : Path) : Archive :=
  match p.fileStem?.bind signedNumber? with
  | none => a
  | some id => a.withCatalog (a.catalog.updateThumbnail id p).2

/-- Makes a file that appeared known to its recording, if its tier holds
thumbnails, or clips that were moved there. -/
def announce (a : Archive) (t : Tier) (p : Path) : Archive :=
  match t.role with
  | .thumbnails => a.repointThumbnail p
  | .clips => if t.isFirst then a else a.repointClip t.camera p
  | .plain _ | .segments _ _ => a

/-- Catalogues a file that appeared, and evaluates its tier. -/
def catalogue (a : Archive) (t : Tier) (p : Path) : Except HandlingError Unit × Archive :=
  match a.disk.stat p with
  -- It may be gone again, which is no failure.
  | .error .absent => (.ok (), a)
  | .error _ => (.error (.stat p), a)
  | .ok .directory => (.ok (), a)
  | .ok (.file content) =>
    match a.catalog.insertFile (t.entry p content.utf8ByteSize a.now) with
    | (.error _, c) => (.error .catalogue, a.withCatalog c)
    | (.ok _, c) => (.ok (), (a.withCatalog c).checkTier t)

/-- Runs an operation as an event of a tier. -/
def asEvent {α : Type} (a : Archive) (t : Tier) (f : Archive → α × Archive) : α × Archive :=
  let before := a.phaseOf t.address
  let (x, a) := f (a.update t.address Keeper.enterEvent)
  (x, a.update t.address (Keeper.leaveEvent before))

def onCreated (a : Archive) (t : Tier) (p : Path) : Except HandlingError Unit × Archive :=
  if t.skips p then (.ok (), a)
  else a.asEvent t fun a => (a.announce t p).catalogue t p

def onModified (a : Archive) (t : Tier) (p : Path) : Except HandlingError Unit × Archive :=
  if t.skips p then (.ok (), a)
  else
    (.ok (), a.update t.address fun k => { k with debouncer := k.debouncer.arm a.now p () })

def forget (a : Archive) (p : Path) : Except HandlingError Unit × Archive :=
  match a.catalog.deleteFile p with
  | (.ok _, c) => (.ok (), a.withCatalog c)
  | (.error _, c) => (.error .forget, a.withCatalog c)

def onDeleted (a : Archive) (t : Tier) (p : Path) : Except HandlingError Unit × Archive :=
  if t.skips p then (.ok (), a) else a.asEvent t fun a => a.forget p

/-- Something happened to a file. -/
def onNotification (a : Archive) (t : Tier) (n : Notification) :
    Except HandlingError Unit × Archive :=
  match n.kind with
  | .created => a.onCreated t n.path
  | .modified => a.onModified t n.path
  | .deleted => a.onDeleted t n.path

/-- What a tier does with its messages. -/
def sink (t : Tier) : Sink Archive where
  onEvent n a :=
    let (result, a) := a.onNotification t n
    (result.isOk, a)
  onEvaluate a := a.checkTier t

/-- Takes in messages to a tier and counts them. -/
def takeInto (a : Archive) (t : Tier) (ms : List Message) : Archive :=
  let (tally, a) := takeIn (sink t) ms a
  { a with counters := { a.counters with
      eventsProcessed := a.counters.eventsProcessed + tally.processed
      eventsFailed := a.counters.eventsFailed + tally.failed } }

/-- Writes the present size of a file into its row; answers whether that was
possible. -/
def refreshSize (a : Archive) (p : Path) : Bool × Archive :=
  match a.disk.stat p with
  | .error _ => (false, a)
  | .ok node =>
    match a.catalog.updateFileSize p (sizeOf node) with
    | (.ok _, c) => (true, a.withCatalog c)
    | (.error _, c) => (false, a.withCatalog c)

/-- Refreshes the sizes of files, one after the other; answers how often that
was possible. -/
def refreshSizes (a : Archive) : List Path → Nat × Archive
  | [] => (0, a)
  | p :: ps =>
    let (done, a) := a.refreshSize p
    let (n, a) := a.refreshSizes ps
    (if done then n + 1 else n, a)

/-- Looks at the files of a tier whose quiet period has ended, and evaluates the
tier once for each that could be refreshed. -/
def lookAgain (a : Archive) (t : Tier) (ps : List Path) : Archive :=
  let (n, a) := a.refreshSizes ps
  (List.range n).foldl (fun a _ => a.checkTier t) a

/-- A notification about a file that is skipped changes nothing. -/
theorem onCreated_of_skips {a : Archive} {t : Tier} {p : Path} (h : t.skips p = true) :
    a.onCreated t p = (.ok (), a) := if_pos h

end Archive

end TieredFootage
