import TieredFootage.Word

/-!
# Doubles

The numbers with 53 binary digits that settings may be written as. A finite
double is kept as a sign, a mantissa and a power of two; it is made by rounding
a decimal to the nearest one, ties to the even mantissa, and written with the
fewest decimal digits that still round to it. Everything is exact arithmetic on
natural numbers.
-/

namespace TieredFootage

/-- A double; a finite one has the value `mantissa · 2 ^ exponent`. -/
inductive Double
  | finite (negative : Bool) (mantissa : Nat) (exponent : Int)
  | infinite (negative : Bool)
  | nan
  deriving DecidableEq, Repr, Inhabited

namespace Double

/-- The quotient of two numbers rounded to the nearest whole one, ties to even. -/
def nearestEven (n d : Nat) : Nat :=
  let q := n / d
  let twice := 2 * (n % d)
  if twice < d then q
  else if d < twice then q + 1
  else q + q % 2

/-- The numerator and the denominator of `n / d` divided by `2 ^ e`. -/
def scaled (n d : Nat) (e : Int) : Nat × Nat :=
  if 0 ≤ e then (n, d * twos e.toNat) else (n * twos (-e).toNat, d)

/-- The exponent that leaves 53 digits of `n / d` before the point, or the least
one there is. -/
def exponentFor (n d : Nat) : Int :=
  let guess : Int := (Nat.log2 n : Int) - Nat.log2 d - 53
  let (a, b) := scaled n d guess
  max (-1074) (if a / b < twos 53 then guess else guess + 1)

/-- The double nearest to `n / d`, with a sign. -/
def ofRatio (negative : Bool) (n d : Nat) : Double :=
  if n = 0 then .finite negative 0 0
  else
    let e := exponentFor n d
    let (a, b) := scaled n d e
    let m := nearestEven a b
    let (m, e) := if m = twos 53 then (twos 52, e + 1) else (m, e)
    if 971 < e then .infinite negative else .finite negative m e

def digits (n : Nat) : Nat := (toString n).length

/-- The double nearest to `m · 10 ^ e`, with a sign. -/
def ofDecimal (negative : Bool) (m : Nat) (e : Int) : Double :=
  if m = 0 ∨ (digits m : Int) + e < -400 then .finite negative 0 0
  else if 400 < (digits m : Int) + e then .infinite negative
  else if 0 ≤ e then ofRatio negative (m * tens e.toNat) 1
  else ofRatio negative m (tens (-e).toNat)

/-- The numerator and the denominator of `m · 2 ^ e`. -/
def ratio (m : Nat) (e : Int) : Nat × Nat :=
  if 0 ≤ e then (m * twos e.toNat, 1) else (m, twos (-e).toNat)

/-- The least power of ten above `n / d`. -/
def magnitude (n d : Nat) : Int :=
  if d ≤ n then digits (n / d) else 1 - (digits ((d - 1) / n) : Int)

/-- The whole numbers below and above `n / d · 10 ^ k`, the nearer one first. -/
def neighbours (n d : Nat) (k : Int) : List Nat :=
  let (a, b) := if 0 ≤ k then (n * tens k.toNat, d) else (n, d * tens (-k).toNat)
  let q := a / b
  if 2 * (a % b) ≤ b then [q, q + 1] else [q + 1, q]

/-- The decimal with at most `count` digits that rounds to `m · 2 ^ e`, if there
is one. -/
def decimalOf? (m : Nat) (e : Int) (count : Nat) : Option (Nat × Int) :=
  let (n, d) := ratio m e
  let p := magnitude n d - count
  ((neighbours n d (-p)).find? fun c => ofDecimal false c p == ofRatio false n d).map fun c =>
    if c = tens count then (tens (count - 1), p + 1) else (c, p)

/-- The shortest decimal that rounds to `m · 2 ^ e`. -/
def shortest (m : Nat) (e : Int) : Nat × Int :=
  ((List.range' 1 17).findSome? (decimalOf? m e)).getD (0, 0)

/-- The decimal `c · 10 ^ p` without an exponent. -/
def plainDigits (c : Nat) (p : Int) : List Char :=
  let ds := (toString c).toList
  if 0 ≤ p then ds ++ List.replicate p.toNat '0'
  else
    let k := (-p).toNat
    if ds.length ≤ k then '0' :: '.' :: (List.replicate (k - ds.length) '0' ++ ds)
    else ds.take (ds.length - k) ++ '.' :: ds.drop (ds.length - k)

def text : Double → String
  | .nan => "NaN"
  | .infinite negative => if negative then "-inf" else "inf"
  | .finite negative m e =>
    let ds := if m = 0 then ['0'] else plainDigits (shortest m e).1 (shortest m e).2
    String.ofList (if negative then '-' :: ds else ds)

def isZero : Double → Bool
  | .finite _ m _ => m == 0
  | _ => false

/-- The nearest number of 64 bits without a sign; halves are rounded up, what is
out of range goes to the nearer end. -/
def toWhole : Double → Nat
  | .nan => 0
  | .infinite negative => if negative then 0 else wordEnd - 1
  | .finite negative m e =>
    let (n, d) := ratio m e
    if negative then 0 else min ((2 * n + d) / (2 * d)) (wordEnd - 1)

def digitsValue (ds : List Char) : Nat := ds.foldl (fun n d => n * 10 + (d.toNat - 48)) 0

/-- The number after a sign: digits around an optional point, and an optional
exponent. -/
def ofUnsigned? (negative : Bool) (cs : List Char) : Option Double :=
  let whole := cs.takeWhile Char.isDigit
  let cs := cs.dropWhile Char.isDigit
  let (fraction, cs) :=
    match cs with
    | '.' :: cs => (cs.takeWhile Char.isDigit, cs.dropWhile Char.isDigit)
    | cs => ([], cs)
  let value (e : Int) := ofDecimal negative (digitsValue (whole ++ fraction)) (e - fraction.length)
  if whole.isEmpty && fraction.isEmpty then none
  else
    match cs with
    | [] => some (value 0)
    | c :: cs =>
      let below := cs.head? == some '-'
      let cs := if below || cs.head? == some '+' then cs.drop 1 else cs
      if (c == 'e' || c == 'E') && !cs.isEmpty && cs.all Char.isDigit then
        some (value (if below then -(digitsValue cs : Int) else digitsValue cs))
      else none

/-- The double that a text writes out. -/
def ofText? (s : List Char) : Option Double :=
  let negative := s.head? == some '-'
  let cs := if negative || s.head? == some '+' then s.drop 1 else s
  let word := String.ofList (cs.map Char.toLower)
  if word == "inf" || word == "infinity" then some (.infinite negative)
  else if word == "nan" then some .nan
  else ofUnsigned? negative cs

end Double

end TieredFootage
