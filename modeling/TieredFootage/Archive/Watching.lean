import TieredFootage.Archive.Handling

/-!
# Watching the disk

A keeper that runs and does not poll is told of every change below its directory,
under the path text that the directory was watched by. `deliver` hands out what
the journal of the disk has collected. `settle` goes on until no message waits:
in every round each keeper takes in all it has got so far. Only an evaluation
makes new changes, and at one moment each keeper evaluates at most once, so one
round more than there are keepers is enough.
-/

namespace TieredFootage

namespace Watch

/-- The text of a location below the watched directory. -/
def textOf? (w : Watch) (l : Location) : Option Path :=
  if w.location.isPrefixOf l && decide (w.location.length < l.length) then
    some ((l.drop w.location.length).foldl Path.join w.base)
  else none

/-- The tracker of a rename with both sides in view. -/
def renameTracker : Nat := 1

/-- The events by which a change is reported to the watcher. -/
def eventsOf (w : Watch) : Change → List FileEvent
  | .made l isDirectory =>
    (w.textOf? l).toList.map fun p =>
      ⟨.create (if isDirectory then .folder else .file), [p], none⟩
  | .arrived l => (w.textOf? l).toList.map fun p => ⟨.rename .target, [p], none⟩
  | .modified l => (w.textOf? l).toList.map fun p => ⟨.modify, [p], none⟩
  | .removed l isDirectory =>
    (w.textOf? l).toList.map fun p =>
      ⟨.remove (if isDirectory then .folder else .file), [p], none⟩
  | .renamed s t =>
    match w.textOf? s, w.textOf? t with
    | some p, some q =>
      [⟨.rename .source, [p], some renameTracker⟩, ⟨.rename .target, [q], some renameTracker⟩,
        ⟨.rename .both, [p, q], some renameTracker⟩]
    | some p, none => [⟨.rename .source, [p], some renameTracker⟩]
    | none, some q => [⟨.rename .target, [q], some renameTracker⟩]
    | none, none => []

/-- Whether a change takes the watched directory itself away. -/
def isLostBy (w : Watch) : Change → Bool
  | .removed l _ => l.isPrefixOf w.location
  | .renamed s _ => s.isPrefixOf w.location
  | _ => false

end Watch

namespace Keeper

/-- Tells a keeper of a change. -/
def tell (d : Disk) (ignored : IgnoredNames) (c : Change) (k : Keeper) : Keeper :=
  match k.watch with
  | none => k
  | some w =>
    let messages := ((w.eventsOf c).flatMap (·.notifications d ignored)).map Message.event
    { k with
      inbox := k.inbox.map (· ++ messages)
      watch := if w.isLostBy c then none else some w }

end Keeper

namespace Archive

/-- Tells all keepers of the changes in the journal of the disk. -/
def deliver (a : Archive) : Archive :=
  let (changes, disk) := a.disk.takeJournal
  { a with
    disk := disk
    keepers := a.keepers.map fun k => changes.foldl (fun k c => k.tell disk a.ignored c) k }

/-- Lets one keeper take in its messages. -/
def takeInbox (a : Archive) (x : Address) : Archive :=
  match a.keepers.get? x with
  | none => a
  | some k =>
    match k.inbox with
    | none | some [] => a
    | some ms =>
      ((a.update x fun k => { k with inbox := some [] }).takeInto k.tier ms).deliver

def isBusy (a : Archive) : Bool := a.keepers.any fun k => k.inbox.any fun ms => !ms.isEmpty

/-- Lets every keeper in turn take in its messages. -/
def round (a : Archive) : Archive :=
  (a.keepers.map Keeper.address).foldl (fun a x => a.takeInbox x) a

/-- Rounds until no message waits, at most `n` of them. -/
def rounds : Nat → Archive → Archive
  | 0, a => a
  | n + 1, a => if a.isBusy then rounds n a.round else a

/-- Hands out what happened on the disk, and lets the keepers deal with it. -/
def settle (a : Archive) : Archive := rounds (a.keepers.length + 1) a.deliver

end Archive

end TieredFootage
