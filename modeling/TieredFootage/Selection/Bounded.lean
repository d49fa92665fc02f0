import TieredFootage.Selection.Segments
import TieredFootage.Word

/-!
# The selections in bounded numbers

The selections are stated for numbers without ends. Here they are carried out in numbers
that have them, one operation after the other: a span of time has its milliseconds in 64
bits with a sign, a moment lies on the calendar, an amount has 64 bits, and an item is
taken out of a list by its place. Each operation is checked where it is made, and there
is no result, `none`, as soon as one of them has none.

Two things cannot go wrong because they are cut instead: the bytes passed on a walk are
held at the largest amount, and an age is never below zero.
-/

namespace TieredFootage

/-- The last moment of the calendar, at the end of the year 262142. -/
def latest : Int := newYear 262143 - 1

/-- The longest span in nanoseconds. -/
def spanEnd : Int := (signedEnd - 1) * millisecond

/-- Whether a moment lies on the calendar. -/
def OnCalendar (z : Int) : Prop := earliest ≤ z ∧ z ≤ latest

instance (z : Int) : Decidable (OnCalendar z) := inferInstanceAs (Decidable (_ ∧ _))

theorem latest_eq : latest = 8210266876800 * second - 1 := by decide

namespace Bounded

/-- A span of so many nanoseconds. -/
def span? (z : Int) : Option Int := if -spanEnd ≤ z ∧ z ≤ spanEnd then some z else none

def moment? (z : Int) : Option Int := if OnCalendar z then some z else none

def amount? (n : Nat) : Option Nat := if n ≤ maxAmount then some n else none

/-- A sum that is not cut. -/
def sum? (ns : List Nat) : Option Nat := ns.foldlM (fun n m => amount? (n + m)) 0

/-- An age; one below zero is cut. -/
def age? (now since : Int) : Option Nat := (span? (now - since)).map Int.toNat

/-- How far the window of a recording reaches back: two spans together. -/
def lead? (x : Recording) : Option Int := do
  let lookback ← span? (max x.lookback 0 * second)
  let segment ← span? (segmentLength * second)
  span? (lookback + segment)

/-- The first and the last moment of the window of a recording. -/
def window? (x : Recording) (now : Int) : Option (Int × Int) := do
  let lead ← lead? x
  let opens ← moment? (x.startTime - lead)
  return (opens, x.closesAt now)

def linked? (now : Int) (files : List TierFile) (x : Recording) : Option (List TierFile) :=
  (window? x now).map fun w =>
    files.filter fun f => decide (w.1 ≤ f.effective) && decide (f.effective ≤ w.2)

/-- The files among some that have settled. -/
def settled? (now : Int) (files : List TierFile) : Option (List TierFile) := do
  let marked ← files.mapM fun f =>
    (age? now f.effective).map fun a => (f, decide (settlingTime * 1000000000 < a))
  return (marked.filter (·.2)).map (·.1)

section Walk

variable {α : Type} (r : Retention) (grace : Nat) (now : Int) (bytes? : α → Option Nat)
  (since : α → Int)

/-- The places, counted from `place`, of the items that leave on a walk; `newer` bytes are
already passed. -/
def places? : Nat → Nat → List α → Option (List Nat)
  | _, _, [] => some []
  | place, newer, x :: xs => do
    let size ← bytes? x
    let a ← age? now (since x)
    let later ← places? (place + 1) (capped (newer + size)) xs
    return if r.evicts grace a newer size then place :: later else later

end Walk

/-- The items of a list at some places. -/
def itemsAt {α : Type} (places : List Nat) (xs : List α) : List α :=
  (xs.zipIdx.filter fun x => decide (x.2 ∈ places)).map (·.1)

/-- The items of a list at all other places. -/
def itemsOff {α : Type} (places : List Nat) (xs : List α) : List α :=
  (xs.zipIdx.filter fun x => decide (x.2 ∉ places)).map (·.1)

/-- The files that leave, newest first, taken out of the sorted population by their
places. -/
def filesToMove? (files : List TierFile) (r : Retention) (now : Int) : Option (List TierFile) := do
  let ordered := newestFirst TierFile.rank files
  let places ← places? r r.grace now (fun f => some f.bytes) TierFile.effective 0 0 ordered
  places.mapM fun i => ordered[i]?

/-- The segments that leave. Every recording has its window computed first; those still in
progress have it computed once more. -/
def recordingsToMove? (recordings : List Recording) (files : List TierFile) (r : Retention)
    (now : Int) : Option (List EventRow) := do
  let windows ← recordings.mapM fun x => (linked? now files x).map (x, ·)
  let closed := newestFirst (fun x => x.1.rank) (windows.filter fun x => x.1.isClosed)
  let leaving ← places? r r.minAge now (fun x => sum? (x.2.map TierFile.bytes))
    (fun x => x.1.startTime) 0 0 closed
  let inProgress ← (recordings.filter fun x => !x.isClosed).mapM (linked? now files)
  let kept := (inProgress ++ (itemsOff leaving closed).map (·.2)).flatMap fun fs => fs.map (·.id)
  let rows ← (itemsAt leaving closed).mapM fun x => (settled? now x.2).map fun settled =>
    (settled.filter fun f => decide (f.id ∉ kept)).map (·.eventRow (some x.1.id))
  let linked := windows.flatMap fun x => x.2.map (·.id)
  let alone ← settled? now (files.filter fun f => decide (f.id ∉ linked))
  return distinctBy EventRow.fileId (rows.flatten ++ alone.map (·.eventRow none))

end Bounded

end TieredFootage
