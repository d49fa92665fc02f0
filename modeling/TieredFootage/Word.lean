/-!
# Numbers of a fixed width

The catalog and the settings keep whole numbers in 64 bits, with a sign or
without one. Here are the ends of those ranges, and the powers that numbers are
written with.
-/

namespace TieredFootage

/-- The first number that 64 bits cannot hold. -/
def wordEnd : Nat := 18446744073709551616

/-- The first number that 64 bits cannot hold beside a sign. -/
def signedEnd : Nat := 9223372036854775808

/-- Whether 64 bits can hold a number with its sign. -/
def fitsSigned (z : Int) : Bool := decide (-(signedEnd : Int) ≤ z) && decide (z < signedEnd)

def tens (n : Nat) : Nat := Nat.pow 10 n

def twos (n : Nat) : Nat := Nat.pow 2 n

theorem fitsSigned_iff (z : Int) :
    fitsSigned z = true ↔ -9223372036854775808 ≤ z ∧ z < 9223372036854775808 := by
  rw [fitsSigned, Bool.and_eq_true, decide_eq_true_eq, decide_eq_true_eq]
  exact Iff.rfl

end TieredFootage
