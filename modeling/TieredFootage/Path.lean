/-!
# Paths

A path is its text, read as a list of characters: every rule about paths walks
along that list. Two paths are the same here only if their texts are; which
directory a text leads to is a question for the disk.

The body of a path is what follows the leading `/` of an absolute path, or the
leading `.` of a path that starts with that name; its pieces are the parts
between slashes. Empty pieces and later pieces `.` name nothing, so they are
passed over when the last name or the parent is asked for.
-/

namespace TieredFootage

abbrev Path := List Char

/-- Paths are equal exactly if the comparison of their texts says so. -/
instance instLawfulBEqPath : LawfulBEq (List Char) := inferInstance

namespace Path

/-- The parts of a text between slashes, in order; there is always at least one. -/
def pieces : Path → List Path
  | [] => [[]]
  | c :: cs =>
    if c = '/' then [] :: pieces cs
    else
      match pieces cs with
      | [] => [[c]]
      | p :: ps => (c :: p) :: ps

/-- The parts put together again, with a slash between neighbours. -/
def glue : List Path → Path
  | [] => []
  | [p] => p
  | p :: q :: ps => p ++ '/' :: glue (q :: ps)

theorem pieces_ne_nil (p : Path) : pieces p ≠ [] := by
  cases p with
  | nil => simp [pieces]
  | cons c cs =>
    rw [pieces]
    split
    · simp
    · split <;> simp

@[simp] theorem glue_pieces (p : Path) : glue (pieces p) = p := by
  induction p with
  | nil => rfl
  | cons c cs ih =>
    rw [pieces]
    split
    · rename_i h
      cases hp : pieces cs with
      | nil => exact absurd hp (pieces_ne_nil cs)
      | cons q qs => rw [hp] at ih; rw [glue, ih, h]; rfl
    · split
      · rename_i h
        exact absurd h (pieces_ne_nil cs)
      · rename_i q qs hp
        rw [hp] at ih
        cases qs with
        | nil => rw [glue] at ih ⊢; rw [ih]
        | cons r rs => rw [glue] at ih ⊢; rw [← ih]; rfl

theorem slash_notMem_of_mem_pieces {p q : Path} (h : q ∈ pieces p) : '/' ∉ q := by
  induction p generalizing q with
  | nil => simp [pieces] at h; simp [h]
  | cons c cs ih =>
    rw [pieces] at h
    split at h
    · rcases List.mem_cons.1 h with rfl | h
      · simp
      · exact ih h
    · rename_i hc
      split at h
      · simp only [List.mem_singleton] at h
        subst h
        simpa using fun h => hc h.symm
      · rename_i r rs hp
        rcases List.mem_cons.1 h with rfl | h
        · have := ih (hp ▸ List.mem_cons_self ..)
          rw [List.mem_cons]
          rintro (h | h)
          · exact hc h.symm
          · exact this h
        · exact ih (hp ▸ List.mem_cons_of_mem _ h)

def isAbsolute (p : Path) : Bool := p.head? == some '/'

/-- The path `p` seen from the directory `base`. An absolute `p` stands on its
own; otherwise one slash is put between the two, unless `base` is empty or has
one at its end. -/
def join (base p : Path) : Path :=
  if p.isAbsolute then p
  else if base.getLast?.all (· == '/') then base ++ p
  else base ++ '/' :: p

theorem join_of_isAbsolute {p : Path} (base : Path) (h : p.isAbsolute = true) :
    join base p = p := if_pos h

theorem join_nil_left (p : Path) : join [] p = p := by
  simp [join]

theorem join_of_getLast?_eq {base p : Path} {c : Char} (hp : p.isAbsolute = false)
    (hb : base.getLast? = some c) (hc : c ≠ '/') : join base p = base ++ '/' :: p := by
  simp [join, hp, hb, hc]

/-- The part of a path that is no piece: the leading slash of an absolute path,
or a leading name `.`. -/
def lead : Path → Path
  | '/' :: _ => ['/']
  | ['.'] => ['.']
  | '.' :: '/' :: _ => ['.']
  | _ => []

/-- A piece that names nothing. -/
def isIdle (p : Path) : Bool := p == [] || p == ['.']

/-- The pieces with those at the end that name nothing taken away. -/
def trimIdle (ps : List Path) : List Path := (ps.reverse.dropWhile isIdle).reverse

/-- The pieces of the body up to the last one that names something. -/
def bodyPieces (p : Path) : List Path := trimIdle (pieces (p.drop (lead p).length))

/-- The last name of a path; none if it has no name or ends in `..`. -/
def fileName? (p : Path) : Option Path :=
  match (bodyPieces p).getLast? with
  | none => none
  | some n => if n = ['.', '.'] then none else some n

/-- The path without its last name; none for a root and for the empty path. -/
def parent? (p : Path) : Option Path :=
  match bodyPieces p with
  | [] => if lead p = ['.'] then some [] else none
  | n :: ns => some (lead p ++ glue (trimIdle (n :: ns).dropLast))

/-- The last name without its extension: what stands before the last dot, if
anything does. -/
def fileStem? (p : Path) : Option Path :=
  match fileName? p with
  | none => none
  | some n =>
    let stem := ((n.reverse.dropWhile (· != '.')).drop 1).reverse
    some (if stem = [] then n else stem)

def trimSlashes (p : Path) : Path := (p.reverse.dropWhile (· == '/')).reverse

/-- The text with its first occurrence of `old` replaced by `new`; the empty
`old` occurs at the very start. -/
def replaceFirst (old new : Path) : Path → Path
  | [] => if old = [] then new else []
  | c :: cs =>
    if old.isPrefixOf (c :: cs) then new ++ (c :: cs).drop old.length
    else c :: replaceFirst old new cs

/-- A text that starts with `old` has its first occurrence there. -/
theorem replaceFirst_append (old new rest : Path) :
    replaceFirst old new (old ++ rest) = new ++ rest := by
  cases h : old ++ rest with
  | nil =>
    obtain ⟨rfl, rfl⟩ := List.append_eq_nil_iff.1 h
    simp [replaceFirst]
  | cons c cs =>
    have hp : old.isPrefixOf (c :: cs) = true :=
      List.isPrefixOf_iff_prefix.2 (h ▸ List.prefix_append old rest)
    rw [replaceFirst, if_pos hp, ← h, List.drop_left]

/-- Where `old` does not occur the text stays as it is. -/
theorem replaceFirst_of_not_infix {old : Path} (new : Path) {text : Path}
    (h : ¬ old <:+: text) : replaceFirst old new text = text := by
  induction text with
  | nil =>
    rw [replaceFirst, if_neg]
    rintro rfl
    exact h (List.infix_refl [])
  | cons c cs ih =>
    rw [replaceFirst, if_neg, ih]
    · exact fun hi => h (hi.trans (List.suffix_cons c cs).isInfix)
    · exact fun hp => h (List.isPrefixOf_iff_prefix.1 hp).isInfix

theorem trimSlashes_append_slash (p : Path) : trimSlashes (p ++ ['/']) = trimSlashes p := by
  simp [trimSlashes]

/-- No slash is left at the end. -/
theorem getLast?_trimSlashes (p : Path) : (trimSlashes p).getLast? ≠ some '/' := by
  intro h
  rw [trimSlashes, List.getLast?_reverse] at h
  have := List.head?_dropWhile_not (· == '/') p.reverse
  rw [h] at this
  simp at this

end Path

end TieredFootage
