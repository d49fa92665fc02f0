/-!
# Instants

Every moment is a whole number of nanoseconds since the start of 1970 in
universal time; moments before that are negative. Ages never are: something
dated in the future has age zero.

Two bounds belong to the calendar. No moment lies before `earliest`, when the
first of its years begins, and no span of time is longer than `longestSpan`.
-/

namespace TieredFootage

def millisecond : Int := 1000000

def second : Int := 1000000000

/-- How old something dated `since` is at `now`, in nanoseconds. -/
def age (now since : Int) : Nat := (now - since).toNat

/-- The days from the start of the year 1 to that of another one. -/
def daysBefore (year : Int) : Int :=
  365 * (year - 1) + (year - 1) / 4 - (year - 1) / 100 + (year - 1) / 400

/-- The first moment of a year. -/
def newYear (year : Int) : Int := (daysBefore year - daysBefore 1970) * 86400 * second

/-- The start of the year -262143, the first moment of the calendar. -/
def earliest : Int := newYear (-262143)

/-- The longest span between two moments, in seconds. -/
def longestSpan : Int := 9223372036854775

theorem earliest_eq : earliest = -8334601228800 * second := by decide

theorem age_eq_zero_of_le {now since : Int} (h : now ≤ since) : age now since = 0 := by
  unfold age; omega

theorem age_mono {now later since : Int} (h : now ≤ later) :
    age now since ≤ age later since := by
  unfold age; omega

/-- Of two things the one dated later is not the older one. -/
theorem age_anti {now since later : Int} (h : since ≤ later) :
    age now later ≤ age now since := by
  unfold age; omega

end TieredFootage
