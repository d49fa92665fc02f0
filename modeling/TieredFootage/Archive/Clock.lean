import TieredFootage.Archive.Watching

/-!
# The clock

Time moves from stop to stop. A stop is a moment at which a quiet period ends or
a sweep is due; everything that is due then happens, and the archive settles,
before the clock moves on. A sweep asks every keeper for an evaluation, so that
files leave quiet tiers too, and forgets the files that are no longer served.
-/

namespace TieredFootage

namespace Archive

def nextStop? (a : Archive) : Option Int :=
  (a.keepers.filterMap (·.debouncer.nextDue?) ++ a.sweeps).min?

/-- Ends the quiet periods of one keeper that are over. -/
def fireTimers (a : Archive) (x : Address) : Archive :=
  match a.keepers.get? x with
  | none => a
  | some k =>
    let due := k.debouncer.dueBy a.now
    if due.isEmpty then a
    else
      (a.update x fun k => { k with debouncer := k.debouncer.elapse a.now }).lookAgain k.tier
        (due.map (·.key))

/-- Asks every keeper for an evaluation and forgets what is no longer served. -/
def sweep (a : Archive) : Archive :=
  { a with keepers := a.keepers.map (·.send .evaluate), served := a.served.purge a.now }

/-- Does the sweeps that are due, and sets when the next ones are. -/
def fireSweeps (a : Archive) : Archive :=
  let due := a.sweeps.filter fun s => decide (s ≤ a.now)
  let a := due.foldl (fun a _ => a.sweep) a
  { a with sweeps := a.sweeps.map fun s =>
      if s ≤ a.now then s + a.sweepInterval.getD 0 else s }

def fire (a : Archive) : Archive :=
  (((a.keepers.map Keeper.address).foldl (fun a x => a.fireTimers x) a).fireSweeps).settle

/-- Moves the clock to a moment, stopping on the way; `fuel` bounds the stops. -/
def advanceWithin : Nat → Int → Archive → Archive
  | 0, moment, a => { a with now := moment }
  | fuel + 1, moment, a =>
    match a.nextStop? with
    | none => { a with now := moment }
    | some stop =>
      if stop ≤ moment then advanceWithin fuel moment { a with now := max a.now stop }.fire
      else { a with now := moment }

/-- Moves the clock to a moment that is not before now. Stops lie apart by whole
nanoseconds, so there are no more of them than nanoseconds to pass. -/
def advanceTo (a : Archive) (moment : Int) : Archive :=
  (advanceWithin ((moment - a.now).toNat + 1) moment a).settle

def advance (a : Archive) (ms : Nat) : Archive := a.advanceTo (a.now + ms * millisecond)

end Archive

end TieredFootage
