import TieredFootage.Amount
import TieredFootage.Instant

/-!
# Retention

A `Retention` says which items leave a tier: thresholds on age, in whole
seconds, and on bytes, where zero means that there is none. Items are judged on
a walk from the newest to the oldest, which carries along the bytes already
passed: an item leaves if it is too old, or if it no longer fits into the byte
limit and enough newer content stays. No item leaves before it has reached a
least age.

`judge` does the walk and pairs every item with the verdict on it, so that the
items that stay and those that leave can both be read off.
-/

namespace TieredFootage

/-- The thresholds of one axis; zero is no threshold. Ages are in seconds. -/
structure Retention where
  maxBytes : Nat := 0
  minBytes : Nat := 0
  maxAge : Nat := 0
  minAge : Nat := 0
  deriving DecidableEq, Repr, Inhabited

namespace Retention

def isConfigured (r : Retention) : Bool :=
  decide (0 < r.maxBytes) || decide (0 < r.minBytes) || decide (0 < r.maxAge) ||
    decide (0 < r.minAge)

/-- Whether `age` nanoseconds are more than the largest age. -/
def isTooOld (r : Retention) (age : Nat) : Bool :=
  decide (0 < r.maxAge) && decide (r.maxAge * 1000000000 < age)

/-- Whether an item of `size` bytes is over the byte limit when `newer` bytes
are newer than it, and the newer ones alone are as many as have to stay. -/
def isTooMuch (r : Retention) (newer size : Nat) : Bool :=
  decide (0 < r.maxBytes) && decide (r.maxBytes < capped (newer + size)) &&
    decide (r.minBytes ≤ newer)

/-- Whether an item leaves: it is at least `grace` seconds old, and too old or
too much. -/
def evicts (r : Retention) (grace age newer size : Nat) : Bool :=
  decide (grace * 1000000000 ≤ age) && (r.isTooOld age || r.isTooMuch newer size)

/-- An item leaves no earlier than the least age allows. -/
theorem le_of_evicts {r : Retention} {grace age newer size : Nat}
    (h : r.evicts grace age newer size = true) : grace * 1000000000 ≤ age := by
  simp only [evicts, Bool.and_eq_true, decide_eq_true_eq] at h
  exact h.1

/-- Nothing leaves a tier without an upper threshold. -/
theorem evicts_eq_false {r : Retention} (hb : r.maxBytes = 0) (ha : r.maxAge = 0)
    (grace age newer size : Nat) : r.evicts grace age newer size = false := by
  simp [evicts, isTooOld, isTooMuch, hb, ha]

section Judge

variable {α : Type} (r : Retention) (grace : Nat) (now : Int) (bytes : α → Nat) (since : α → Int)

/-- The items of a walk with the verdict on each; `newer` bytes are already
passed. -/
def judge : Nat → List α → List (α × Bool)
  | _, [] => []
  | newer, x :: xs =>
    (x, r.evicts grace (age now (since x)) newer (bytes x)) :: judge (capped (newer + bytes x)) xs

/-- The items that leave, in the order of the walk. -/
def leaving (xs : List α) : List α :=
  ((r.judge grace now bytes since 0 xs).filter (·.2)).map (·.1)

@[simp] theorem judge_nil (newer : Nat) : r.judge grace now bytes since newer ([] : List α) = [] :=
  rfl

theorem judge_cons (newer : Nat) (x : α) (xs : List α) :
    r.judge grace now bytes since newer (x :: xs) =
      (x, r.evicts grace (age now (since x)) newer (bytes x)) ::
        r.judge grace now bytes since (capped (newer + bytes x)) xs := rfl

/-- Every item is judged once, in order. -/
@[simp] theorem map_fst_judge (newer : Nat) (xs : List α) :
    (r.judge grace now bytes since newer xs).map (·.1) = xs := by
  induction xs generalizing newer with
  | nil => rfl
  | cons x xs ih => rw [judge_cons, List.map_cons, ih]

/-- The verdicts on two stretches of a walk, the second one after the bytes of
the first. -/
theorem judge_append (newer : Nat) (xs ys : List α) :
    r.judge grace now bytes since newer (xs ++ ys) =
      r.judge grace now bytes since newer xs ++
        r.judge grace now bytes since
          (xs.foldl (fun n x => capped (n + bytes x)) newer) ys := by
  induction xs generalizing newer with
  | nil => rfl
  | cons x xs ih => rw [List.cons_append, judge_cons, ih, judge_cons]; rfl

end Judge

end Retention

end TieredFootage
