import TieredFootage.Path

/-!
# Ignored names

Files that are being written by somebody else are named here, so that nothing
they do is reported. A name stands for every file with that name, wherever it
lies.
-/

namespace TieredFootage

abbrev IgnoredNames := List Path

namespace IgnoredNames

def holds (ns : IgnoredNames) (name : Path) : Bool := decide (name ∈ ns)

/-- The names with one more. -/
def add (ns : IgnoredNames) (name : Path) : IgnoredNames := if ns.holds name then ns else name :: ns

/-- The names without one of them. -/
def remove (ns : IgnoredNames) (name : Path) : IgnoredNames := ns.filter (· != name)

/-- Whether the last name of a path is ignored. -/
def covers (ns : IgnoredNames) (p : Path) : Bool :=
  match p.fileName? with
  | some name => ns.holds name
  | none => false

@[simp] theorem holds_nil (name : Path) : holds [] name = false := rfl

theorem holds_iff {ns : IgnoredNames} {name : Path} : ns.holds name = true ↔ name ∈ ns := by
  simp [holds]

theorem mem_add {ns : IgnoredNames} {name other : Path} :
    other ∈ ns.add name ↔ other = name ∨ other ∈ ns := by
  unfold add
  split
  · rename_i h
    rw [holds_iff] at h
    constructor
    · exact Or.inr
    · rintro (rfl | h')
      · exact h
      · exact h'
  · exact List.mem_cons

theorem mem_remove {ns : IgnoredNames} {name other : Path} :
    other ∈ ns.remove name ↔ other ∈ ns ∧ other ≠ name := by
  simp [remove]

end IgnoredNames

end TieredFootage
