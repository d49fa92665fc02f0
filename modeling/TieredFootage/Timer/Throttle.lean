import TieredFootage.Instant

/-!
# Throttles

A throttle lets one call through per period. The first call always passes; a
later one passes once a whole period lies between it and the last that passed.
-/

namespace TieredFootage

/-- The time between two evaluations of one tier, in nanoseconds. -/
def evaluationPeriod : Int := 5 * second

/-- A period, in nanoseconds, and when a call last passed. -/
structure Throttle where
  period : Int := evaluationPeriod
  lastRun : Option Int := none
  deriving DecidableEq, Repr, Inhabited

namespace Throttle

/-- Whether a call at `now` passes. -/
def isOpen (t : Throttle) (now : Int) : Bool :=
  match t.lastRun with
  | none => true
  | some last => decide (t.period ≤ now - last)

/-- A call at `now`: whether it passes, and the throttle after it. -/
def acquire (t : Throttle) (now : Int) : Bool × Throttle :=
  if t.isOpen now then (true, { t with lastRun := some now }) else (false, t)

/-- The calls of a sequence that pass. -/
def passing (t : Throttle) : List Int → List Int
  | [] => []
  | now :: calls =>
    match t.acquire now with
    | (true, t) => now :: t.passing calls
    | (false, t) => t.passing calls

@[simp] theorem isOpen_new (p now : Int) : (Throttle.mk p none).isOpen now = true := rfl

theorem isOpen_some_iff (p last now : Int) :
    (Throttle.mk p (some last)).isOpen now = true ↔ p ≤ now - last := by
  simp [isOpen]

@[simp] theorem period_acquire (t : Throttle) (now : Int) :
    (t.acquire now).2.period = t.period := by
  unfold acquire; split <;> rfl

theorem acquire_of_isOpen {t : Throttle} {now : Int} (h : t.isOpen now = true) :
    t.acquire now = (true, { t with lastRun := some now }) := if_pos h

theorem acquire_of_not_isOpen {t : Throttle} {now : Int} (h : t.isOpen now = false) :
    t.acquire now = (false, t) := by simp [acquire, h]

end Throttle

end TieredFootage
