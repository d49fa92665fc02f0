import TieredFootage.Archive.Clock

/-!
# Starting and stopping

Starting a keeper makes the directory of its tier, registers its routes and
begins to watch. Stopping it drains the tier if that is wished, waits until all
quiet periods have ended, which moves the clock, lets it take in what still
waits for it, and ends the watch.

When the whole archive stops, the sweeps end first. Keepers that have nothing to
wait for stop at once; the others drain in order and wait for their quiet
periods together. Only so many stops of the clock are waited for, so that
stopping is a calculation that ends; it has no answer if that is not enough.
-/

namespace TieredFootage

/-- Why a keeper cannot be started. -/
inductive StartError
  | makeDirectory (p : Path)
  | registerRoute
  /-- The keeper of a directory, started with all others, failed. -/
  | keeper (p : Path)
  deriving DecidableEq, Repr

def StartError.message : StartError → String
  | .makeDirectory p => "Failed to create tier directory " ++ String.ofList p
  | .registerRoute => "Failed to register file route"
  | .keeper p => "Failed to start tier handler for " ++ String.ofList p

namespace Archive

def setPhase (a : Archive) (x : Address) (p : Phase) : Archive :=
  a.update x fun k => { k with phase := p }

/-- Registers a route, unless registering fails. -/
def register? (a : Archive) (r : FileRoute) : Option Archive :=
  if a.registrarFails then none
  else (a.routes.register? r).map fun t => { a with routes := t }

/-- Registers routes in order; answers whether all could be registered. -/
def registerAll (a : Archive) : List FileRoute → Bool × Archive
  | [] => (true, a)
  | r :: rs =>
    match a.register? r with
    | none => (false, a)
    | some a => a.registerAll rs

/-- The watch on the directory of a tier, unless it is polled. A relative
directory is watched below the working directory. -/
def watchOf (a : Archive) (t : Tier) : Option Watch :=
  if t.polled then none
  else
    let base := Path.join (Disk.locationText a.disk.home) t.directory
    match a.disk.resolve base with
    | .ok l => some ⟨base, l⟩
    | .error _ => none

/-- Starts the keeper of a tier; answers the routes it registered. -/
def start (a : Archive) (t : Tier) : Except StartError (List FileRoute) × Archive :=
  let a := a.setPhase t.address .starting
  match a.disk.makeDirectories t.directory with
  | (.error _, d) => (.error (.makeDirectory t.directory), a.withDisk d)
  | (.ok (), d) =>
    match (a.withDisk d).registerAll t.routes with
    | (false, a) => (.error .registerRoute, a)
    | (true, a) =>
      let a := a.deliver
      let w := a.watchOf t
      (.ok t.routes, a.update t.address fun k =>
        { k with inbox := some (k.inbox.getD []), watch := w, phase := .watching })

/-- Starts keepers in order, up to the first that fails. -/
def startEach (a : Archive) : List Tier → Except StartError (List FileRoute) × Archive
  | [] => (.ok [], a)
  | t :: ts =>
    match a.start t with
    | (.error _, a) => (.error (.keeper t.directory), a)
    | (.ok routes, a) =>
      match a.startEach ts with
      | (.error e, a) => (.error e, a)
      | (.ok more, a) => (.ok (routes ++ more), a)

/-- Starts all keepers, and the sweeps. -/
def startAll (a : Archive) : Except StartError (List FileRoute) × Archive :=
  match a.startEach (a.keepers.map (·.tier)) with
  | (.error e, a) => (.error e, a)
  | (.ok routes, a) =>
    match a.sweepInterval with
    | some i => if a.isStopping then (.ok routes, a)
        else (.ok routes, { a with sweeps := a.sweeps ++ [a.now + i] })
    | none => (.ok routes, a)

/-- Asks a keeper for an evaluation; answers whether it runs. -/
def requestEvaluation (a : Archive) (x : Address) : Bool × Archive :=
  (((a.keepers.get? x).map Keeper.isRunning).getD false, a.update x (·.send .evaluate))

/-- Whether quiet periods of the keeper at an address have not ended. -/
def isWaiting (a : Archive) (x : Address) : Bool :=
  (a.keepers.get? x).any fun k => decide (0 < k.debouncer.pending)

/-- Drains a tier if it is to be drained when it stops. -/
def drainOnStop (a : Archive) (t : Tier) : Archive :=
  if t.drainsOnStop then (a.drain t).2.settle else a

/-- Stops a keeper: it still takes in the messages that wait for it, and none
after them. -/
def halt (a : Archive) (x : Address) : Archive :=
  (a.takeInbox x).update x fun k => { k with inbox := none, watch := none, phase := .stopped }

def toNextStop (a : Archive) : Archive :=
  match a.nextStop? with
  | none => a
  | some stop => a.advanceTo (max a.now stop)

/-- How many stops of the clock a shutdown waits for: every file may still pass
every tier once, and there may be sweeps between. -/
def patience (a : Archive) : Nat :=
  let files := a.disk.nodes.length + a.catalog.files.length + 2 * a.catalog.recordings.length
  let timers := total (a.keepers.map (·.debouncer.pending))
  4 * (timers + (files + 1) * (a.keepers.length + 1))

/-- Moves the clock until no quiet period of the keeper is left; there is no
answer if one is still left after `fuel` stops. -/
def flush? : Nat → Address → Archive → Option Archive
  | 0, x, a => if a.isWaiting x then none else some a
  | fuel + 1, x, a => if a.isWaiting x then flush? fuel x a.settle.toNextStop else some a

/-- Stops the keeper of a tier; there is no answer if its quiet periods never
end. -/
def shutdown (a : Archive) (t : Tier) : Option Archive :=
  let a := (a.setPhase t.address .shuttingDown).drainOnStop t
  (flush? a.patience t.address a).map fun a => a.halt t.address

/-- Stops of the given keepers those that wait for nothing. -/
def haltIdle (a : Archive) (xs : List Address) : Archive :=
  xs.foldl (fun a x => if a.isWaiting x then a else a.halt x) a

/-- Moves the clock until all given keepers are stopped; there is no answer if
some still wait after `fuel` stops. -/
def haltAll? : Nat → List Address → Archive → Option Archive
  | fuel, xs, a =>
    let waiting := xs.filter a.isWaiting
    let a := a.haltIdle xs
    if waiting.isEmpty then some a
    else
      match fuel with
      | 0 => none
      | fuel + 1 => haltAll? fuel waiting a.settle.toNextStop

/-- Stops the sweeps and all keepers; there is no answer if their quiet periods
never end. -/
def shutdownAll (a : Archive) : Option Archive :=
  let tiers := a.keepers.map (·.tier)
  let a := { a with isStopping := true, sweeps := [] }
  let a := tiers.foldl (fun a t => a.setPhase t.address .shuttingDown) a
  let a := a.haltIdle ((tiers.filter fun t => !t.drainsOnStop).map Tier.address)
  let waiting := tiers.filter fun t => t.drainsOnStop || a.isWaiting t.address
  let a := waiting.foldl (fun a t => a.drainOnStop t) a
  haltAll? a.patience (waiting.map Tier.address) a

/-- A flush that ends leaves no quiet period behind. -/
theorem isWaiting_of_flush? {fuel : Nat} {x : Address} {a b : Archive}
    (h : flush? fuel x a = some b) : b.isWaiting x = false := by
  induction fuel generalizing a with
  | zero =>
    rw [flush?] at h
    split at h
    · simp at h
    · rename_i hw
      cases h
      simpa using hw
  | succ fuel ih =>
    rw [flush?] at h
    split at h
    · exact ih h
    · rename_i hw
      cases h
      simpa using hw

end Archive

end TieredFootage
