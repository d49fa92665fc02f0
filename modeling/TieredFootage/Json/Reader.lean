import TieredFootage.Json
import TieredFootage.Word

/-!
# Reading values

`Json.parse?` reads one value and nothing after it but blanks. Integers that do
not fit into 64 bits, and a zero with a minus sign, are decimals; a decimal that
is too large for any double is refused, and so are texts with a bare control
character or half of a surrogate pair.

The readers of parts return what they read and the rest of the text. The value
reader counts down the characters that are left, and separately how many lists
and objects may still be opened inside one another.
-/

namespace TieredFootage

namespace Json

/-- The characters that may stand between the parts of a value. -/
def isBlank (c : Char) : Bool := c == ' ' || c == '\n' || c == '\t' || c == '\r'

def skipBlanks (cs : List Char) : List Char := cs.dropWhile isBlank

/-- The digits in front of a text, as a number with their count, and the rest. -/
def takeDigits (cs : List Char) : Nat × Nat × List Char :=
  let ds := cs.takeWhile Char.isDigit
  (ds.foldl (fun n d => n * 10 + (d.toNat - 48)) 0, ds.length, cs.dropWhile Char.isDigit)

def hexValue? (c : Char) : Option Nat :=
  if '0' ≤ c ∧ c ≤ '9' then some (c.toNat - 48)
  else if 'a' ≤ c ∧ c ≤ 'f' then some (c.toNat - 87)
  else if 'A' ≤ c ∧ c ≤ 'F' then some (c.toNat - 55)
  else none

/-- The number written by four hexadecimal digits, and the rest. -/
def takeHex4? : List Char → Option (Nat × List Char)
  | a :: b :: c :: d :: cs => do
    let a ← hexValue? a
    let b ← hexValue? b
    let c ← hexValue? c
    let d ← hexValue? d
    some (((a * 16 + b) * 16 + c) * 16 + d, cs)
  | _ => none

/-- The character after a backslash that stands for itself or a control
character. -/
def plainEscape? (c : Char) : Option Char :=
  match c with
  | '"' => some '"'
  | '\\' => some '\\'
  | '/' => some '/'
  | 'b' => some (Char.ofNat 8)
  | 'f' => some (Char.ofNat 12)
  | 'n' => some '\n'
  | 'r' => some '\r'
  | 't' => some '\t'
  | _ => none

/-- The character of the code units after `\u`: one unit, or the two of a
surrogate pair. -/
def takeUnits? (cs : List Char) : Option (Char × List Char) := do
  let (hi, cs) ← takeHex4? cs
  if 0xD800 ≤ hi ∧ hi < 0xDC00 then
    match cs with
    | '\\' :: 'u' :: cs =>
      let (lo, cs) ← takeHex4? cs
      if 0xDC00 ≤ lo ∧ lo < 0xE000 then
        some (Char.ofNat (0x10000 + (hi - 0xD800) * 0x400 + (lo - 0xDC00)), cs)
      else none
    | _ => none
  else if 0xDC00 ≤ hi ∧ hi < 0xE000 then none
  else some (Char.ofNat hi, cs)

/-- The characters of a text up to its closing quote, and the rest; `fuel`
bounds their number. -/
def takeText? : Nat → List Char → Option (List Char × List Char)
  | 0, _ => none
  | _ + 1, [] => none
  | _ + 1, '"' :: cs => some ([], cs)
  | fuel + 1, '\\' :: 'u' :: cs => do
    let (c, cs) ← takeUnits? cs
    let (s, cs) ← takeText? fuel cs
    some (c :: s, cs)
  | fuel + 1, '\\' :: c :: cs => do
    let c ← plainEscape? c
    let (s, cs) ← takeText? fuel cs
    some (c :: s, cs)
  | fuel + 1, c :: cs =>
    if c.toNat < 32 then none
    else do
      let (s, cs) ← takeText? fuel cs
      some (c :: s, cs)

def digitCount (n : Nat) : Nat := (toString n).length

/-- Whether `m · 10 ^ e` is beyond every double. -/
def isHuge (m : Nat) (e : Int) : Bool :=
  if m = 0 ∨ (digitCount m : Int) + e < 300 then false
  else if 400 < (digitCount m : Int) + e then true
  else if e < 0 then decide ((twos 1024 - twos 970) * tens (-e).toNat ≤ m)
  else decide (twos 1024 - twos 970 ≤ m * tens e.toNat)

/-- The number of a sign, an integral part and what follows it: a fraction with
its length and an exponent, as far as they are there. -/
def number? (negative : Bool) (whole : Nat) (fraction : Option (Nat × Nat))
    (exponent : Option Int) : Option Json :=
  let signed (n : Nat) : Int := if negative then -(n : Int) else n
  if fraction.isNone && exponent.isNone &&
      (if negative then decide (0 < whole) && decide (whole ≤ signedEnd)
        else decide (whole < wordEnd)) then
    some (.integer (signed whole))
  else
    let (f, k) := fraction.getD (0, 0)
    let m := whole * tens k + f
    let e := exponent.getD 0 - k
    if isHuge m e then none else some (.decimal (signed m) e)

/-- The fraction in front of a text, if there is one; a point needs digits. -/
def takeFraction? : List Char → Option (Option (Nat × Nat) × List Char)
  | '.' :: cs =>
    match takeDigits cs with
    | (_, 0, _) => none
    | (f, k, cs) => some (some (f, k), cs)
  | cs => some (none, cs)

/-- The digits of an exponent after its sign. -/
def takeExponentDigits? (negative : Bool) (cs : List Char) : Option (Option Int × List Char) :=
  match takeDigits cs with
  | (_, 0, _) => none
  | (n, _, cs) => some (some (if negative then -(n : Int) else n), cs)

/-- The exponent in front of a text, if there is one. -/
def takeExponent? : List Char → Option (Option Int × List Char)
  | 'e' :: '-' :: cs => takeExponentDigits? true cs
  | 'E' :: '-' :: cs => takeExponentDigits? true cs
  | 'e' :: '+' :: cs => takeExponentDigits? false cs
  | 'E' :: '+' :: cs => takeExponentDigits? false cs
  | 'e' :: cs => takeExponentDigits? false cs
  | 'E' :: cs => takeExponentDigits? false cs
  | cs => some (none, cs)

/-- The number in front of a text, and the rest. -/
def takeNumber? (cs : List Char) : Option (Json × List Char) := do
  let negative := cs.head? == some '-'
  let cs := if negative then cs.drop 1 else cs
  let zero := cs.head? == some '0'
  let (whole, k, rest) := takeDigits cs
  if k = 0 ∨ (zero = true ∧ 1 < k) then none
  else
    let (fraction, rest) ← takeFraction? rest
    let (exponent, rest) ← takeExponent? rest
    let n ← number? negative whole fraction exponent
    some (n, rest)

/-- The rest of a text after a word. -/
def takeWord? (word : String) (cs : List Char) : Option (List Char) :=
  if word.toList.isPrefixOf cs then some (cs.drop word.length) else none

mutual

/-- The value in front of a text, and the rest. At most `depth` lists and
objects are opened inside one another. -/
def takeValue? : Nat → Nat → List Char → Option (Json × List Char)
  | 0, _, _ => none
  | fuel + 1, depth, cs =>
    match skipBlanks cs with
    | [] => none
    | 'n' :: cs => (takeWord? "ull" cs).map fun cs => (.null, cs)
    | 't' :: cs => (takeWord? "rue" cs).map fun cs => (.bool true, cs)
    | 'f' :: cs => (takeWord? "alse" cs).map fun cs => (.bool false, cs)
    | '"' :: cs => (takeText? (cs.length + 1) cs).map fun x => (.text (String.ofList x.1), x.2)
    | '[' :: cs =>
      match depth with
      | 0 => none
      | depth + 1 =>
        match skipBlanks cs with
        | ']' :: cs => some (.list [], cs)
        | cs => (takeEntries? fuel depth cs).map fun x => (.list x.1, x.2)
    | '\x7b' :: cs =>
      match depth with
      | 0 => none
      | depth + 1 =>
        match skipBlanks cs with
        | '\x7d' :: cs => some (.object [], cs)
        | cs => (takeMembers? fuel depth cs).map fun x => (.object x.1, x.2)
    | cs => takeNumber? cs

/-- The entries of a list up to its closing bracket, and the rest. -/
def takeEntries? : Nat → Nat → List Char → Option (List Json × List Char)
  | 0, _, _ => none
  | fuel + 1, depth, cs =>
    match takeValue? fuel depth cs with
    | none => none
    | some (x, cs) =>
      match skipBlanks cs with
      | ',' :: cs => (takeEntries? fuel depth cs).map fun r => (x :: r.1, r.2)
      | ']' :: cs => some ([x], cs)
      | _ => none

/-- The members of an object up to its closing brace, and the rest. -/
def takeMembers? : Nat → Nat → List Char → Option (List (String × Json) × List Char)
  | 0, _, _ => none
  | fuel + 1, depth, cs =>
    match skipBlanks cs with
    | '"' :: cs =>
      match takeText? (cs.length + 1) cs with
      | none => none
      | some (name, cs) =>
        match skipBlanks cs with
        | ':' :: cs =>
          match takeValue? fuel depth cs with
          | none => none
          | some (x, cs) =>
            match skipBlanks cs with
            | ',' :: cs =>
              (takeMembers? fuel depth cs).map fun r => ((String.ofList name, x) :: r.1, r.2)
            | '\x7d' :: cs => some ([(String.ofList name, x)], cs)
            | _ => none
        | _ => none
    | _ => none

end

/-- How many lists and objects a note may open inside one another. -/
def maxDepth : Nat := 127

/-- The one value of a text, at most `depth` levels deep. -/
def parse? (s : String) (depth : Nat := maxDepth) : Option Json :=
  let cs := s.toList
  match takeValue? (2 * cs.length + 2) depth cs with
  | some (x, rest) => if (skipBlanks rest).isEmpty then some x else none
  | none => none

end Json

end TieredFootage
