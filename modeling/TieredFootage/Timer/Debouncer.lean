import TieredFootage.Instant

/-!
# Debouncers

A debouncer runs a task once a quiet period has passed since its key was last
armed: arming a key again replaces the timer that is pending for it. The timers
are kept in the order they were armed. The quiet period is the same for all, so
that is also the order in which they are due.
-/

namespace TieredFootage

/-- The quiet period before a modified file is read again, in nanoseconds. -/
def quietPeriod : Int := second

/-- A timer: what it is for, when it is due, and what is to be done then. -/
structure Timer (κ α : Type) where
  key : κ
  due : Int
  task : α
  deriving DecidableEq, Repr

/-- A quiet period, in nanoseconds, and the pending timers. -/
structure Debouncer (κ α : Type) where
  delay : Int := quietPeriod
  timers : List (Timer κ α) := []
  deriving Repr, Inhabited

namespace Debouncer

variable {κ α : Type} [DecidableEq κ]

/-- Arms a key at `now`, in place of the timer that is pending for it. -/
def arm (d : Debouncer κ α) (now : Int) (key : κ) (task : α) : Debouncer κ α :=
  { d with timers := d.timers.filter (·.key != key) ++ [⟨key, now + d.delay, task⟩] }

def pending (d : Debouncer κ α) : Nat := d.timers.length

def nextDue? (d : Debouncer κ α) : Option Int := (d.timers.map (·.due)).min?

def lastDue? (d : Debouncer κ α) : Option Int := (d.timers.map (·.due)).max?

/-- The timers that are due by a moment, in the order they were armed. -/
def dueBy (d : Debouncer κ α) (moment : Int) : List (Timer κ α) :=
  d.timers.filter fun t => decide (t.due ≤ moment)

/-- The moment at which a wait that begins at `now` ends, if it goes on until no
timer is left. -/
def flushEnd (d : Debouncer κ α) (now : Int) : Int := max now (d.lastDue?.getD now)

/-- The debouncer without the timers that are due by a moment. -/
def elapse (d : Debouncer κ α) (moment : Int) : Debouncer κ α :=
  { d with timers := d.timers.filter fun t => decide (moment < t.due) }

@[simp] theorem delay_arm (d : Debouncer κ α) (now : Int) (key : κ) (task : α) :
    (d.arm now key task).delay = d.delay := rfl

omit [DecidableEq κ] in
@[simp] theorem delay_elapse (d : Debouncer κ α) (moment : Int) :
    (d.elapse moment).delay = d.delay := rfl

/-- After arming a key exactly one timer is pending for it, the new one. -/
theorem filter_key_arm (d : Debouncer κ α) (now : Int) (key : κ) (task : α) :
    (d.arm now key task).timers.filter (·.key == key) = [⟨key, now + d.delay, task⟩] := by
  have : (d.timers.filter (·.key != key)).filter (·.key == key) = [] := by
    simp [List.filter_eq_nil_iff]
  simp only [arm, List.filter_append, this]
  simp

/-- Arming a key leaves the timers of the other keys alone. -/
theorem filter_key_ne_arm (d : Debouncer κ α) (now : Int) (key other : κ) (task : α)
    (h : other ≠ key) :
    (d.arm now key task).timers.filter (·.key == other) = d.timers.filter (·.key == other) := by
  have hne : (key == other) = false := by simpa using fun h' => h h'.symm
  simp only [arm, List.filter_append, List.filter_filter]
  simp only [List.filter_cons, hne, List.filter_nil]
  simp only [Bool.false_eq_true, if_false, List.append_nil]
  congr 1
  funext t
  by_cases ht : t.key = other
  · simp [ht, h]
  · simp [ht]

end Debouncer

end TieredFootage
