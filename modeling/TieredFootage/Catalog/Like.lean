/-!
# Matching by the end of a text

A pattern is compared with a whole text: `%` stands for any characters, `_` for
one, a backslash takes the next character as it is, and ASCII letters match in
either case. `escape` writes a text so that it matches only itself, and
`endsWithPattern` is the pattern of all texts that end with it.
-/

namespace TieredFootage

namespace Like

/-- The suffixes of a text, from the whole of it to the empty one. -/
def suffixes : List Char → List (List Char)
  | [] => [[]]
  | c :: cs => (c :: cs) :: suffixes cs

/-- Whether two characters are the same up to the case of ASCII letters. -/
def sameLetter (a b : Char) : Bool := a.toLower == b.toLower

/-- Whether a pattern matches the whole of a text. -/
def matchesText : List Char → List Char → Bool
  | [], text => text.isEmpty
  | '%' :: p, text => (suffixes text).any fun t => matchesText p t
  | '_' :: p, text =>
    match text with
    | [] => false
    | _ :: t => matchesText p t
  | ['\\'], _ => false
  | '\\' :: c :: p, text =>
    match text with
    | [] => false
    | d :: t => sameLetter c d && matchesText p t
  | c :: p, text =>
    match text with
    | [] => false
    | d :: t => sameLetter c d && matchesText p t

/-- Whether a character has a meaning of its own in a pattern. -/
def isSpecial (c : Char) : Bool := c == '\\' || c == '%' || c == '_'

/-- The text with a backslash in front of every special character. -/
def escape (s : List Char) : List Char := s.flatMap fun c => if isSpecial c then ['\\', c] else [c]

/-- The pattern of the texts that end with `s`. -/
def endsWithPattern (s : List Char) : List Char := '%' :: escape s

@[simp] theorem escape_nil : escape [] = [] := rfl

theorem escape_cons (c : Char) (s : List Char) :
    escape (c :: s) = (if isSpecial c then ['\\', c] else [c]) ++ escape s := by
  simp [escape]

/-- Whether two texts are the same up to the case of ASCII letters. -/
def sameText (s t : List Char) : Bool :=
  s.length == t.length && (s.zip t).all fun x => sameLetter x.1 x.2

theorem sameText_cons (a b : Char) (s t : List Char) :
    sameText (a :: s) (b :: t) = (sameLetter a b && sameText s t) := by
  simp only [sameText, List.length_cons, List.zip_cons_cons, List.all_cons]
  cases sameLetter a b <;> simp

end Like

end TieredFootage
