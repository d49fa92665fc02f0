import TieredFootage.Timer.Debouncer

/-!
# Alarms

How the timers of a debouncer are kept. An arming gets the next number, is entered
under its key in place of the one before, and sleeps for the quiet period. The one
it replaces is called off; if that comes too late, it sleeps on. Whoever wakes looks
up its key: only if it is the one entered there does it strike the entry out and do
its task.

Entering and looking up each happen under the lock of the entries, so each is one
step. Time is ideal: who is due wakes at that very moment and before anything else
is done, and a task takes no time. Armings sleep in the order they were made. The
quiet period is the same for all, so that is also the order in which they wake.
-/

namespace TieredFootage

/-- One arming of a key: its number, when it was made, and what is to be done. -/
structure Arming (κ α : Type) where
  number : Nat
  key : κ
  moment : Int
  task : α
  deriving DecidableEq, Repr

/-- A quiet period, the number of the next arming, the number that is entered under
each key, and who is asleep. -/
structure Alarms (κ α : Type) where
  delay : Nat
  nextNumber : Nat := 0
  entries : List (κ × Nat) := []
  asleep : List (Arming κ α) := []
  deriving Repr

namespace Alarms

variable {κ α : Type} [DecidableEq κ]

/-- How many armings are entered. -/
def pending (a : Alarms κ α) : Nat := a.entries.length

/-- When an arming wakes. -/
def due (a : Alarms κ α) (r : Arming κ α) : Int := r.moment + a.delay

/-- Who sleeps on once the arming entered under a key is called off. -/
def callOff (a : Alarms κ α) (key : κ) : List (Arming κ α) :=
  match a.entries.lookup key with
  | none => a.asleep
  | some n => a.asleep.filter (·.number != n)

/-- Arms a key. The arming it replaces may or may not hear that it is called off. -/
def arm (a : Alarms κ α) (now : Int) (key : κ) (task : α) (heard : Bool) : Alarms κ α :=
  { a with
    nextNumber := a.nextNumber + 1
    entries := a.entries.filter (·.1 != key) ++ [(key, a.nextNumber)]
    asleep := (if heard then a.callOff key else a.asleep) ++ [⟨a.nextNumber, key, now, task⟩] }

/-- Strikes out what is entered under a key. -/
def strike (a : Alarms κ α) (key : κ) : Alarms κ α :=
  { a with entries := a.entries.filter (·.1 != key) }

end Alarms

/-- What happens to a debouncer. -/
inductive TimerStep (κ α : Type)
  | arm (key : κ) (task : α) (heard : Bool)
  | wait (span : Nat)
  | flush
  deriving Repr

/-- A debouncer at work: its alarms, the time, and the tasks that were done, each
with the moment it was done at. -/
structure Vigil (κ α : Type) where
  alarms : Alarms κ α
  now : Int
  done : List (Int × Arming κ α) := []
  deriving Repr

namespace Vigil

variable {κ α : Type} [DecidableEq κ]

/-- An arming wakes once it is due, and does its task if it is still the one that
is entered under its key. -/
def wake (v : Vigil κ α) (r : Arming κ α) : Vigil κ α :=
  let moment := max v.now (v.alarms.due r)
  if v.alarms.entries.lookup r.key = some r.number then
    { alarms := v.alarms.strike r.key, now := moment, done := v.done ++ [(moment, r)] }
  else { v with now := moment }

/-- Some of those who are asleep wake, one after the other. -/
def rouse (v : Vigil κ α) (p : Arming κ α → Bool) : Vigil κ α :=
  (v.alarms.asleep.filter p).foldl wake
    { v with alarms := { v.alarms with asleep := v.alarms.asleep.filter fun r => !p r } }

/-- Everyone wakes who is due by a moment. -/
def rouseBy (v : Vigil κ α) (moment : Int) : Vigil κ α :=
  v.rouse fun r => decide (v.alarms.due r ≤ moment)

/-- A flush waits until nobody is asleep. -/
def step (v : Vigil κ α) : TimerStep κ α → Vigil κ α
  | .arm key task heard =>
    { v with alarms := v.alarms.arm v.now key task heard }.rouseBy v.now
  | .wait span => { v.rouseBy (v.now + span) with now := v.now + span }
  | .flush => v.rouse fun _ => true

/-- A debouncer that was made at `start`, after some steps. -/
def after (delay : Nat) (start : Int) (steps : List (TimerStep κ α)) : Vigil κ α :=
  steps.foldl step { alarms := { delay }, now := start }

end Vigil

end TieredFootage
