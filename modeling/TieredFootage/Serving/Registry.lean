import TieredFootage.Instant
import TieredFootage.Path

/-!
# Files being served

A path is protected while somebody reads it and for one window after it was
last touched. Readers hold guards; making or dropping a guard touches the path,
and so does a mere reference. An entry counts its guards and knows when the
window ends.

Entries whose protection has ended are dropped when they are looked up, and all
of them together on every 256th reference. Dropping them is housekeeping: an
entry that is not live protects nothing.
-/

namespace TieredFootage

/-- How long a path stays protected, in nanoseconds. -/
def servingWindow : Int := 2 * second

/-- The number of references between two purges. -/
def purgeEvery : Nat := 256

/-- When the window of a path ends, and how many guards are held on it. -/
structure ServedEntry where
  expires : Int
  guards : Nat
  deriving DecidableEq, Repr

/-- Whether an entry protects its path. -/
def ServedEntry.isLive (e : ServedEntry) (now : Int) : Bool :=
  decide (0 < e.guards) || decide (now < e.expires)

/-- The entries, the guards held, and the references made so far. -/
structure Served where
  window : Int := servingWindow
  entries : List (Path × ServedEntry) := []
  inFlight : Nat := 0
  references : Nat := 0
  deriving Repr, Inhabited

namespace Served

def lookup? (s : Served) (p : Path) : Option ServedEntry :=
  (s.entries.find? (·.1 == p)).map (·.2)

/-- The number of guards held on a path. -/
def guardsOn (s : Served) (p : Path) : Nat := ((s.lookup? p).map (·.guards)).getD 0

/-- Starts the window of a path anew and sets its guards. -/
def touch (s : Served) (now : Int) (p : Path) (guards : Nat) : Served :=
  { s with entries := (p, ⟨now + s.window, guards⟩) :: s.entries.filter (·.1 != p) }

/-- Drops the entries that are not live. -/
def purge (s : Served) (now : Int) : Served :=
  { s with entries := s.entries.filter (·.2.isLive now) }

def reference (s : Served) (now : Int) (p : Path) : Served :=
  let s := { s.touch now p (s.guardsOn p) with references := s.references + 1 }
  if s.references % purgeEvery = 0 then s.purge now else s

def referenceAll (s : Served) (now : Int) (ps : List Path) : Served :=
  ps.foldl (fun s p => s.reference now p) s

/-- Whether a path is protected. -/
def protects (s : Served) (now : Int) (p : Path) : Bool :=
  match s.lookup? p with
  | none => false
  | some e => e.isLive now

/-- Whether a path is protected, and the registry without its entry if it is not. -/
def contains (s : Served) (now : Int) (p : Path) : Bool × Served :=
  if s.protects now p then (true, s)
  else (false, { s with entries := s.entries.filter (·.1 != p) })

def guard (s : Served) (now : Int) (p : Path) : Served :=
  { s.touch now p (s.guardsOn p + 1) with inFlight := s.inFlight + 1 }

def release (s : Served) (now : Int) (p : Path) : Served :=
  { s.touch now p (s.guardsOn p - 1) with inFlight := s.inFlight - 1 }

def size (s : Served) : Nat := s.entries.length

theorem lookup?_filter_ne (s : Served) (p q : Path) (h : q ≠ p) :
    ({ s with entries := s.entries.filter (·.1 != p) } : Served).lookup? q = s.lookup? q := by
  simp only [lookup?, List.find?_filter]
  congr 2
  funext x
  by_cases hx : x.1 = q
  · simp [hx, h]
  · simp [hx]

/-- A touched path has the new entry, and the other entries are as they were. -/
theorem lookup?_touch (s : Served) (now : Int) (p q : Path) (guards : Nat) :
    (s.touch now p guards).lookup? q =
      if q = p then some ⟨now + s.window, guards⟩ else s.lookup? q := by
  by_cases h : q = p
  · subst h; simp [touch, lookup?]
  · have := lookup?_filter_ne s p q h
    have hp : (p == q) = false := by simpa using fun h' => h h'.symm
    rw [if_neg h, ← this]
    simp [touch, lookup?, hp]

/-- A lookup changes no answer. -/
theorem protects_contains (s : Served) (now later : Int) (p q : Path) (h : now ≤ later) :
    (s.contains now p).2.protects later q = s.protects later q := by
  unfold contains
  split
  · rfl
  · rename_i hp
    by_cases hq : q = p
    · subst hq
      have h1 : ({ s with entries := s.entries.filter (·.1 != q) } : Served).lookup? q = none := by
        simp only [lookup?, List.find?_filter, Option.map_eq_none_iff, List.find?_eq_none]
        intro x _
        simp
      simp only [protects, h1] at hp ⊢
      cases he : s.lookup? q with
      | none => rfl
      | some e =>
        simp only [he, ServedEntry.isLive, Bool.or_eq_true, decide_eq_true_eq, not_or] at hp ⊢
        symm
        simp only [Bool.or_eq_false_iff, decide_eq_false_iff_not]
        omega
    · simp only [protects, lookup?_filter_ne s p q hq]

end Served

end TieredFootage
