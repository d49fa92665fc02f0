import TieredFootage.Amount
import TieredFootage.Path

/-!
# The disk

The disk is a tree of directories and files, kept as a table from locations to
nodes: a location is the list of names that leads there from the root. The root
is always a directory and has no entry in the table.

A path text is followed name by name, from the root or from the working
directory. `.` stays, `..` goes back up, and every name passed on the way has to
be a directory; so a path that leads back out of a directory that is not there
leads nowhere. The last name may be one that does not exist yet, for the
operations that make something.

Whatever an operation changed is noted in the journal, in order, for those who
watch the disk. An operation that fails half-way keeps what it has done so far,
which is why all of them return the disk also beside an error.
-/

namespace TieredFootage

/-- The names that lead from the root to a node. -/
abbrev Location := List Path

inductive Node
  | directory
  | file (content : String)
  deriving DecidableEq, Repr

/-- Why a disk operation fails. -/
inductive Fault
  /-- Nothing is there, or something on the way is missing. -/
  | absent
  /-- A file stands where a directory is needed. -/
  | notDirectory
  /-- A directory stands where a file is needed. -/
  | isDirectory
  | occupied
  | notEmpty
  /-- A name or a path is too long. -/
  | tooLong
  /-- The path has a character that no path can have. -/
  | badPath
  /-- A directory would be moved into itself. -/
  | insideItself
  deriving DecidableEq, Repr

/-- One change to the disk, as a watcher sees it. -/
inductive Change
  /-- Something new was made. -/
  | made (at_ : Location) (isDirectory : Bool)
  /-- Something complete was moved here from an unwatched place. -/
  | arrived (at_ : Location)
  /-- The content of a file changed. -/
  | modified (at_ : Location)
  | removed (at_ : Location) (isDirectory : Bool)
  | renamed (source target : Location)
  deriving DecidableEq, Repr

/-- The disk; `home` is the working directory. -/
structure Disk where
  home : Location := []
  nodes : List (Location × Node) := []
  journal : List Change := []
  deriving Repr

namespace Disk

def maxNameBytes : Nat := 255

/-- The first length of a path that is too long, in bytes. -/
def maxPathBytes : Nat := 4096

def byteCount (s : List Char) : Nat := total (s.map Char.utf8Size)

def node? (d : Disk) (l : Location) : Option Node :=
  if l = [] then some .directory else (d.nodes.find? (·.1 == l)).map (·.2)

/-- The disk without the node at a location. -/
def drop (d : Disk) (l : Location) : Disk := { d with nodes := d.nodes.filter (·.1 != l) }

/-- The disk with a node at a location, in place of what was there. -/
def put (d : Disk) (l : Location) (n : Node) : Disk :=
  { d.drop l with nodes := (l, n) :: (d.drop l).nodes }

/-- The disk with a change written into its journal. -/
def note (d : Disk) (c : Change) : Disk := { d with journal := d.journal ++ [c] }

/-- A path text as it is followed: where it starts, the names, and whether it
has to end at a directory. -/
structure Route where
  start : Location
  names : List Path
  slash : Bool
  deriving DecidableEq, Repr

/-- Reads a path text. -/
def route (d : Disk) (p : Path) : Except Fault Route :=
  if Char.ofNat 0 ∈ p then .error .badPath
  else if p = [] then .error .absent
  else if maxPathBytes ≤ byteCount p then .error .tooLong
  else .ok {
    start := if p.isAbsolute then [] else d.home
    names := (Path.pieces p).filter (· ≠ [])
    slash := p.getLast? == some '/' }

/-- Follows names from a location; every one of them has to exist. -/
def walk (d : Disk) : Location → List Path → Except Fault Location
  | l, [] => .ok l
  | l, n :: ns =>
    match d.node? l with
    | none => .error .absent
    | some (.file _) => .error .notDirectory
    | some .directory =>
      if n = ['.'] then walk d l ns
      else if n = ['.', '.'] then walk d l.dropLast ns
      else if maxNameBytes < byteCount n then .error .tooLong
      else if (d.node? (l ++ [n])).isNone then .error .absent
      else walk d (l ++ [n]) ns

/-- The location that a path leads to. -/
def resolve (d : Disk) (p : Path) : Except Fault Location := do
  let r ← d.route p
  let l ← d.walk r.start r.names
  match d.node? l with
  | some (.file _) => if r.slash then .error .notDirectory else .ok l
  | _ => .ok l

/-- What a path leads to. -/
def stat (d : Disk) (p : Path) : Except Fault Node := do
  let l ← d.resolve p
  match d.node? l with
  | some n => .ok n
  | none => .error .absent

def isDirectory (d : Disk) (p : Path) : Bool :=
  match d.stat p with
  | .ok .directory => true
  | _ => false

def isFile (d : Disk) (p : Path) : Bool :=
  match d.stat p with
  | .ok (.file _) => true
  | _ => false

def isPresent (d : Disk) (p : Path) : Bool := (d.stat p).isOk

/-- The place of the last name of a path, which need not exist, and whether it
has to be a directory. A path that ends in `.` or `..` has no such place. -/
def slot (d : Disk) (p : Path) : Except Fault (Location × Bool) := do
  let r ← d.route p
  let parent ← d.walk r.start r.names.dropLast
  match r.names.getLast? with
  | none => .error .occupied
  | some n =>
    match d.node? parent with
    | some .directory =>
      if n = ['.'] ∨ n = ['.', '.'] then .error .occupied
      else if maxNameBytes < byteCount n then .error .tooLong
      else .ok (parent ++ [n], r.slash)
    | some (.file _) => .error .notDirectory
    | none => .error .absent

def makeDirectory (d : Disk) (p : Path) : Except Fault Unit × Disk :=
  match d.slot p with
  | .error e => (.error e, d)
  | .ok (l, _) =>
    match d.node? l with
    | some _ => (.error .occupied, d)
    | none => (.ok (), (d.put l .directory).note (.made l true))

/-- Makes a directory and first, from the top, those that it lies in. A
directory that is there already is fine. `fuel` bounds the number of parents. -/
def makeDirectoriesWithin : Nat → Disk → Path → Except Fault Unit × Disk
  | 0, d, _ => (.error .absent, d)
  | fuel + 1, d, p =>
    if p = [] then (.ok (), d)
    else
      match d.makeDirectory p with
      | (.ok (), d) => (.ok (), d)
      | (.error .absent, d) =>
        match p.parent? with
        | none => (.error .absent, d)
        | some q =>
          match makeDirectoriesWithin fuel d q with
          | (.error e, d) => (.error e, d)
          | (.ok (), d) =>
            match d.makeDirectory p with
            | (.ok (), d) => (.ok (), d)
            | (.error e, d) => if d.isDirectory p then (.ok (), d) else (.error e, d)
      | (.error e, d) => if d.isDirectory p then (.ok (), d) else (.error e, d)

/-- Makes a directory and those that it lies in. -/
def makeDirectories (d : Disk) (p : Path) : Except Fault Unit × Disk :=
  makeDirectoriesWithin (p.length + 1) d p

/-- Makes the directory that a path lies in, if it has one. -/
def makeParent (d : Disk) (p : Path) : Except Fault Unit × Disk :=
  match p.parent? with
  | none => (.ok (), d)
  | some q => d.makeDirectories q

/-- Opens a file for writing: it is made if it is not there, and empty
afterwards. Answers where it is. -/
def truncate (d : Disk) (p : Path) : Except Fault Location × Disk :=
  match d.resolve p with
  | .ok l =>
    match d.node? l with
    | some (.file _) => (.ok l, (d.put l (.file "")).note (.modified l))
    | _ => (.error .isDirectory, d)
  | .error .absent =>
    match d.slot p with
    | .error e => (.error e, d)
    | .ok (l, slash) =>
      if slash then (.error .isDirectory, d)
      else (.ok l, ((d.put l (.file "")).note (.made l false)).note (.modified l))
  | .error e => (.error e, d)

/-- Copies the content of a file over another one, which is emptied before
anything is read, and answers the number of bytes. -/
def copyFile (d : Disk) (source target : Path) : Except Fault Nat × Disk :=
  match d.resolve source with
  | .error e => (.error e, d)
  | .ok l =>
    match d.node? l with
    | some (.file _) =>
      match d.truncate target with
      | (.error e, d) => (.error e, d)
      | (.ok t, d) =>
        -- Read only now: a file that is copied onto itself is empty by this time.
        match d.node? l with
        | some (.file content) =>
          (.ok content.utf8ByteSize, if l = t then d else d.put t (.file content))
        | _ => (.error .absent, d)
    | _ => (.error .isDirectory, d)

def removeFile (d : Disk) (p : Path) : Except Fault Unit × Disk :=
  match d.slot p with
  | .error e => (.error e, d)
  | .ok (l, slash) =>
    match d.node? l with
    | none => (.error .absent, d)
    | some .directory => (.error .isDirectory, d)
    | some (.file _) =>
      if slash then (.error .notDirectory, d)
      else (.ok (), (d.drop l).note (.removed l false))

/-- Moves a file: makes the directory of the target, copies, and takes the
source away. Answers the number of bytes. -/
def moveFile (d : Disk) (source target : Path) : Except Fault Nat × Disk :=
  match d.makeParent target with
  | (.error e, d) => (.error e, d)
  | (.ok (), d) =>
    match d.copyFile source target with
    | (.error e, d) => (.error e, d)
    | (.ok bytes, d) =>
      match d.removeFile source with
      | (.ok (), d) => (.ok bytes, d)
      | (.error .absent, d) => (.ok bytes, d)
      | (.error e, d) => (.error e, d)

/-- Puts a complete file in place at once, in place of an older file, with the
directories that it lies in. -/
def placeFile (d : Disk) (p : Path) (content : String) : Except Fault Unit × Disk :=
  match d.makeParent p with
  | (.error e, d) => (.error e, d)
  | (.ok (), d) =>
    match d.slot p with
    | .error e => (.error e, d)
    | .ok (l, slash) =>
      if slash then (.error .notDirectory, d)
      else
        match d.node? l with
        | some .directory => (.error .isDirectory, d)
        | _ => (.ok (), (d.put l (.file content)).note (.arrived l))

/-- Adds to the end of a file that is there. -/
def appendFile (d : Disk) (p : Path) (more : String) : Except Fault Unit × Disk :=
  match d.resolve p with
  | .error e => (.error e, d)
  | .ok l =>
    match d.node? l with
    | some (.file content) => (.ok (), (d.put l (.file (content ++ more))).note (.modified l))
    | _ => (.error .isDirectory, d)

def below (d : Disk) (l : Location) : List (Location × Node) :=
  d.nodes.filter fun x => l.isPrefixOf x.1 && decide (l.length < x.1.length)

/-- Takes a directory away with all that is in it. -/
def removeTree (d : Disk) (p : Path) : Except Fault Unit × Disk :=
  match d.resolve p with
  | .error e => (.error e, d)
  | .ok l =>
    match d.node? l with
    | some .directory =>
      let inside := d.below l
      let changes := inside.reverse.map fun x => Change.removed x.1 (decide (x.2 = .directory))
      let d := { d with nodes := d.nodes.filter fun x => !l.isPrefixOf x.1 }
      (.ok (), (changes ++ [Change.removed l true]).foldl note d)
    | _ => (.error .notDirectory, d)

def isEmptyBelow (d : Disk) (l : Location) : Bool := (d.below l).isEmpty

/-- Moves a file or a directory to another name; a file replaces a file, and a
directory an empty directory. -/
def rename (d : Disk) (source target : Path) : Except Fault Unit × Disk :=
  match d.slot source with
  | .error e => (.error e, d)
  | .ok (s, slash) =>
    match d.node? s with
    | none => (.error .absent, d)
    | some n =>
      match d.slot target with
      | .error e => (.error e, d)
      | .ok (t, slash') =>
        let isDir := decide (n = .directory)
        if (slash || slash') && !isDir then (.error .notDirectory, d)
        else if s = t then (.ok (), d)
        else if s.isPrefixOf t then (.error .insideItself, d)
        else
          match d.node? t, isDir with
          | some (.file _), true => (.error .notDirectory, d)
          | some .directory, false => (.error .isDirectory, d)
          | there, _ =>
            if there = some .directory ∧ d.isEmptyBelow t = false then (.error .notEmpty, d)
            else
              let moved := (d.drop t).nodes.map fun x =>
                if s.isPrefixOf x.1 then (t ++ x.1.drop s.length, x.2) else x
              (.ok (), { d with nodes := moved }.note (.renamed s t))

/-- The text of a location as an absolute path. -/
def locationText (l : Location) : Path := '/' :: Path.glue l

/-- The journal, and the disk with an empty one. -/
def takeJournal (d : Disk) : List Change × Disk := (d.journal, { d with journal := [] })

@[simp] theorem node?_nil (d : Disk) : d.node? [] = some .directory := rfl

@[simp] theorem node?_note (d : Disk) (c : Change) (l : Location) :
    (d.note c).node? l = d.node? l := rfl

theorem node?_of_ne_nil (d : Disk) {l : Location} (h : l ≠ []) :
    d.node? l = (d.nodes.find? (·.1 == l)).map (·.2) := if_neg h

/-- A location that was cleared is empty, and nothing else has changed. -/
theorem node?_drop (d : Disk) {l : Location} (m : Location) (hl : l ≠ []) :
    (d.drop l).node? m = if m = l then none else d.node? m := by
  by_cases hm : m = []
  · subst hm
    rw [if_neg (fun h => hl h.symm)]
    rfl
  rw [node?_of_ne_nil _ hm, node?_of_ne_nil _ hm, drop, List.find?_filter]
  by_cases hml : m = l
  · subst hml
    have : d.nodes.find? (fun x => decide ((x.1 != m) = true ∧ (x.1 == m) = true)) = none := by
      rw [List.find?_eq_none]
      intro x _
      simp
    rw [if_pos rfl, this]
    rfl
  · rw [if_neg hml]
    congr 2
    funext x
    by_cases hx : x.1 = m
    · simp [hx, hml]
    · simp [hx]

/-- A node that was put somewhere is there, and nothing else has changed. -/
theorem node?_put (d : Disk) {l : Location} (n : Node) (m : Location) (hl : l ≠ []) :
    (d.put l n).node? m = if m = l then some n else d.node? m := by
  by_cases hm : m = []
  · subst hm
    rw [if_neg (fun h => hl h.symm)]
    rfl
  rw [node?_of_ne_nil _ hm, put, List.find?_cons]
  by_cases hml : m = l
  · subst hml
    simp
  · have h : (l == m) = false := by simpa using fun h => hml h.symm
    have := node?_drop d m hl
    rw [if_neg hml, node?_of_ne_nil _ hm] at this
    rw [if_neg hml]
    simpa only [h] using this

end Disk

end TieredFootage
