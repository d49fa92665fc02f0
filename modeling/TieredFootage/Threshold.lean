import TieredFootage.Retention

/-!
# Thresholds as they are written down

Ages are written in days, hours and minutes, sizes in megabytes and gigabytes.
Each unit may be left out; what is left out counts as zero. The resolved
threshold is the total, held at `maxAmount`.
-/

namespace TieredFootage

/-- An age as days, hours and minutes. -/
structure AgeSpec where
  days : Option Nat := none
  hours : Option Nat := none
  minutes : Option Nat := none
  deriving DecidableEq, Repr, Inhabited

/-- A size as megabytes and gigabytes. -/
structure SizeSpec where
  mb : Option Nat := none
  gb : Option Nat := none
  deriving DecidableEq, Repr, Inhabited

/-- The thresholds of one axis as they are written down. -/
structure RetentionSpec where
  maxAge : AgeSpec := {}
  minAge : AgeSpec := {}
  maxSize : SizeSpec := {}
  minSize : SizeSpec := {}
  deriving DecidableEq, Repr, Inhabited

/-- The whole minutes of an age, cut off unit by unit. -/
def AgeSpec.totalMinutes (a : AgeSpec) : Nat :=
  capped (capped (capped (a.days.getD 0 * 1440) + capped (a.hours.getD 0 * 60)) +
    a.minutes.getD 0)

def AgeSpec.seconds (a : AgeSpec) : Nat := capped (a.totalMinutes * 60)

def SizeSpec.bytes (s : SizeSpec) : Nat :=
  capped (capped (s.mb.getD 0 * 1048576) + capped (s.gb.getD 0 * 1073741824))

/-- The seconds of a number of whole days. -/
def secondsOfDays (days : Nat) : Nat := capped (days * 86400)

/-- The thresholds in seconds and bytes. -/
def RetentionSpec.resolve (s : RetentionSpec) : Retention where
  maxBytes := s.maxSize.bytes
  minBytes := s.minSize.bytes
  maxAge := s.maxAge.seconds
  minAge := s.minAge.seconds

/-- Cutting off on the way does not show: the seconds are the exact total, cut
off once. -/
theorem AgeSpec.seconds_eq (a : AgeSpec) :
    a.seconds =
      capped (60 * (1440 * a.days.getD 0 + 60 * a.hours.getD 0 + a.minutes.getD 0)) := by
  rw [seconds, totalMinutes, capped_capped_mul]
  generalize a.days.getD 0 = d
  generalize a.hours.getD 0 = h
  generalize a.minutes.getD 0 = m
  unfold capped maxAmount
  omega

theorem SizeSpec.bytes_eq (s : SizeSpec) :
    s.bytes = capped (1048576 * s.mb.getD 0 + 1073741824 * s.gb.getD 0) := by
  rw [bytes, capped_add_capped, capped_capped_add, Nat.mul_comm (s.mb.getD 0),
    Nat.mul_comm (s.gb.getD 0)]

end TieredFootage
