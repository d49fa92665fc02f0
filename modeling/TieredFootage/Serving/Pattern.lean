/-!
# Route patterns

A pattern is compared with the front of a text. It is made of characters that
stand for themselves, `.` for any character but a line feed, a repetition `*` of
either, `?` after something that may be missing, groups in parentheses, and `$`
for the end of the text. A character with a meaning of its own is written with a
backslash in front; `escape` does that to a whole text.

A pattern can match in several ways. `Pattern.ways` lists them, preferred ones
first: a repetition would rather be long, and what may be missing would rather
be there. Each way gives the texts of the groups and the rest of the text.
-/

namespace TieredFootage

/-- A pattern. Groups are numbered in the order they are opened. -/
inductive Pattern
  | empty
  | char (c : Char)
  | any
  | seq (a b : Pattern)
  /-- Any number of one character, or of any characters. -/
  | repeatChar (c : Char)
  | repeatAny
  | maybe (p : Pattern)
  | group (number : Nat) (p : Pattern)
  | atEnd
  deriving DecidableEq, Repr

/-- One way to match: the texts of the groups by number, and the rest. -/
structure PatternMatch where
  groups : List (Nat × List Char)
  rest : List Char
  deriving DecidableEq, Repr

namespace Pattern

/-- The ways in which a repetition can end, the longest one first. -/
def runs (p : Char → Bool) : List Char → List (List Char)
  | [] => [[]]
  | c :: cs => if p c then runs p cs ++ [c :: cs] else [c :: cs]

/-- The ways in which a pattern matches the front of a text, preferred first. -/
def ways : Pattern → List Char → List PatternMatch
  | .empty, text => [⟨[], text⟩]
  | .char c, text =>
    match text with
    | [] => []
    | d :: rest => if d = c then [⟨[], rest⟩] else []
  | .any, text =>
    match text with
    | [] => []
    | d :: rest => if d = '\n' then [] else [⟨[], rest⟩]
  | .seq a b, text =>
    (ways a text).flatMap fun m => (ways b m.rest).map fun n => ⟨m.groups ++ n.groups, n.rest⟩
  | .repeatChar c, text => (runs (· == c) text).map fun rest => ⟨[], rest⟩
  | .repeatAny, text => (runs (· != '\n') text).map fun rest => ⟨[], rest⟩
  | .maybe p, text => ways p text ++ [⟨[], text⟩]
  | .group k p, text =>
    (ways p text).map fun m => ⟨(k, text.take (text.length - m.rest.length)) :: m.groups, m.rest⟩
  | .atEnd, text => if text.isEmpty then [⟨[], text⟩] else []

/-- The preferred way to match the front of a text, if there is any. -/
def first? (p : Pattern) (text : List Char) : Option PatternMatch := (p.ways text).head?

/-- Whether a character has a meaning of its own in a pattern. -/
def isSpecial (c : Char) : Bool := "\\.+*?()|[]\x7b\x7d^$#&-~".toList.contains c

/-- The text with a backslash in front of every special character. -/
def escape (s : List Char) : List Char := s.flatMap fun c => if isSpecial c then ['\\', c] else [c]

/-- The pattern in front of a written one, up to its end or to a closing
parenthesis, with the number of the next group and the rest. `fuel` bounds the
length; unreadable patterns have no value. -/
def takePattern? : Nat → Nat → List Char → Option (Pattern × Nat × List Char)
  | 0, _, _ => none
  | _ + 1, k, [] => some (.empty, k, [])
  | _ + 1, k, ')' :: cs => some (.empty, k, ')' :: cs)
  | fuel + 1, k, '(' :: cs => do
    let (p, k', cs) ← takePattern? fuel (k + 1) cs
    match cs with
    | ')' :: '?' :: cs =>
      let (q, k', cs) ← takePattern? fuel k' cs
      some (.seq (.maybe (.group k p)) q, k', cs)
    | ')' :: '*' :: _ => none
    | ')' :: cs =>
      let (q, k', cs) ← takePattern? fuel k' cs
      some (.seq (.group k p) q, k', cs)
    | _ => none
  | fuel + 1, k, '$' :: cs => do
    let (q, k, cs) ← takePattern? fuel k cs
    some (.seq .atEnd q, k, cs)
  | fuel + 1, k, '.' :: '*' :: cs => do
    let (q, k, cs) ← takePattern? fuel k cs
    some (.seq .repeatAny q, k, cs)
  | fuel + 1, k, '.' :: '?' :: cs => do
    let (q, k, cs) ← takePattern? fuel k cs
    some (.seq (.maybe .any) q, k, cs)
  | fuel + 1, k, '.' :: cs => do
    let (q, k, cs) ← takePattern? fuel k cs
    some (.seq .any q, k, cs)
  | fuel + 1, k, c :: cs => do
    let (c, cs) ← takeLiteral? c cs
    match cs with
    | '*' :: cs =>
      let (q, k, cs) ← takePattern? fuel k cs
      some (.seq (.repeatChar c) q, k, cs)
    | '?' :: cs =>
      let (q, k, cs) ← takePattern? fuel k cs
      some (.seq (.maybe (.char c)) q, k, cs)
    | cs =>
      let (q, k, cs) ← takePattern? fuel k cs
      some (.seq (.char c) q, k, cs)
where
  /-- The character that stands for itself in front of a text starting with
  `c`, and the rest. -/
  takeLiteral? (c : Char) (cs : List Char) : Option (Char × List Char) :=
    if c = '\\' then
      match cs with
      | d :: cs => if isSpecial d then some (d, cs) else none
      | [] => none
    else if "*?+|[\x7b^".toList.contains c then none
    else some (c, cs)

def parse? (s : List Char) : Option Pattern :=
  match takePattern? (s.length + 1) 1 s with
  | some (p, _, []) => some p
  | _ => none

@[simp] theorem escape_nil : escape [] = [] := rfl

theorem escape_cons (c : Char) (s : List Char) :
    escape (c :: s) = (if isSpecial c then ['\\', c] else [c]) ++ escape s := by
  simp [escape]

theorem escape_append (s t : List Char) : escape (s ++ t) = escape s ++ escape t := by
  simp [escape]

end Pattern

/-- The text of a group in a match. -/
def PatternMatch.group? (m : PatternMatch) (k : Nat) : Option (List Char) :=
  (m.groups.find? (·.1 == k)).map (·.2)

end TieredFootage
