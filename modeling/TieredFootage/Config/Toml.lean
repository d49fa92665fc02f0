import TieredFootage.Config.Setting
import TieredFootage.Json.Reader

/-!
# Settings in tables

The file format of lines `key = value` below headings `[table]` and
`[[list of tables]]`. A document is read line by line into a tree of items; the
heading of a line says where in the tree its key stands. A key cannot be set
twice, a heading cannot open a table again that was already opened, and what was
written out as a value cannot be extended later.

Values are texts in four kinds of quotes, numbers, flags, lists and tables on one
line. Dates and times are no settings and are refused.
-/

namespace TieredFootage

namespace Toml

/-- How a table came to be. -/
inductive Origin
  /-- By a heading further inside. -/
  | passed
  /-- By a heading of its own. -/
  | opened
  /-- By a key with dots. -/
  | dotted
  deriving DecidableEq, Repr

/-- A part of a document while it is read. -/
inductive Item
  | value (x : Setting)
  | table (origin : Origin) (entries : List (String × Item))
  | series (tables : List (List (String × Item)))
  deriving Inhabited, Repr

/-- The entries of a table. -/
abbrev Entries := List (String × Item)

mutual

def Item.setting : Item → Setting
  | .value x => x
  | .table _ es => .table (entriesSetting es)
  | .series ts => .list (seriesSetting ts)

def entriesSetting : List (String × Item) → List (String × Setting)
  | [] => []
  | (k, x) :: es => (k, x.setting) :: entriesSetting es

def seriesSetting : List (List (String × Item)) → List Setting
  | [] => []
  | t :: ts => .table (entriesSetting t) :: seriesSetting ts

end

/-- Changes the item under a key, or makes one. -/
def alter (key : String) (f : Option Item → Option Item) : Entries → Option Entries
  | [] => (f none).map fun x => [(key, x)]
  | e :: es =>
    if e.1 = key then (f (some e.2)).map fun x => (key, x) :: es
    else (alter key f es).map (e :: ·)

/-- Changes the last of a series of tables. -/
def alterLast (f : Entries → Option Entries) : List Entries → Option (List Entries)
  | [] => none
  | [t] => (f t).map ([·])
  | t :: u :: ts => (alterLast f (u :: ts)).map (t :: ·)

/-- Changes the entries that a heading leads to. -/
def descend : List String → (Entries → Option Entries) → Entries → Option Entries
  | [], f, es => f es
  | k :: ks, f, es =>
    alter k (fun
      | none => (descend ks f []).map (.table .passed ·)
      | some (.table o es) => (descend ks f es).map (.table o ·)
      | some (.series ts) => (alterLast (descend ks f) ts).map .series
      | some (.value _) => none) es

/-- Opens the table that a heading names. -/
def openTable (keys : List String) (es : Entries) : Option Entries :=
  match keys.reverse with
  | [] => none
  | k :: front =>
    descend front.reverse (alter k fun
      | none => some (.table .opened [])
      | some (.table .passed es) => some (.table .opened es)
      | some _ => none) es

/-- Adds a table to the series that a heading names. -/
def addTable (keys : List String) (es : Entries) : Option Entries :=
  match keys.reverse with
  | [] => none
  | k :: front =>
    descend front.reverse (alter k fun
      | none => some (.series [[]])
      | some (.series ts) => some (.series (ts ++ [[]]))
      | some _ => none) es

/-- Sets a key, which may have dots. -/
def assign : List String → Setting → Entries → Option Entries
  | [], _, _ => none
  | [k], x, es =>
    alter k (fun
      | none => some (.value x)
      | some _ => none) es
  | k :: ks, x, es =>
    alter k (fun
      | none => (assign ks x []).map (.table .dotted ·)
      | some (.table .opened _) => none
      | some (.table o es) => (assign ks x es).map (.table o ·)
      | some _ => none) es

/-- Whether a character stands between the parts of a line. -/
def isBlank (c : Char) : Bool := c == ' ' || c == '\t'

/-- The text without the blanks in front of it. -/
def skipBlanks (cs : List Char) : List Char := cs.dropWhile isBlank

/-- The text without the comment in front of it. -/
def skipComment (cs : List Char) : List Char :=
  if cs.head? = some '#' then cs.dropWhile (· != '\n') else cs

/-- The text without blanks, comments and line ends in front of it; `fuel` bounds
the lines. -/
def skipLines : Nat → List Char → List Char
  | 0, cs => cs
  | fuel + 1, cs =>
    match skipComment (skipBlanks cs) with
    | '\n' :: cs => skipLines fuel cs
    | cs => cs

/-- The rest after the end of a line. -/
def endLine? (cs : List Char) : Option (List Char) :=
  match skipComment (skipBlanks cs) with
  | [] => some []
  | '\n' :: cs => some cs
  | _ => none

/-- The number written by hexadecimal digits. -/
def hexNumber? (ds : List Char) : Option Nat :=
  ds.foldl (fun n d => do some ((← n) * 16 + (← Json.hexValue? d))) (some 0)

/-- The character with a code of `count` hexadecimal digits, and the rest. -/
def takeCode? (count : Nat) (cs : List Char) : Option (Char × List Char) :=
  if cs.length < count then none
  else
    match hexNumber? (cs.take count) with
    | some n => if n.isValidChar then some (Char.ofNat n, cs.drop count) else none
    | none => none

/-- The character after a backslash, and the rest. -/
def takeEscape? : List Char → Option (Char × List Char)
  | 'u' :: cs => takeCode? 4 cs
  | 'U' :: cs => takeCode? 8 cs
  | '/' :: _ => none
  | c :: cs => (Json.plainEscape? c).map fun c => (c, cs)
  | [] => none

/-- The rest of a text after a backslash that ends a line, which swallows blanks
and line ends. -/
def continuation? (cs : List Char) : Option (List Char) :=
  if (skipBlanks cs).head? = some '\n' then some (cs.dropWhile fun c => isBlank c || c == '\n')
  else none

/-- The characters up to a closing quote on the same line, and the rest. -/
def takeQuoted? (escapes : Bool) (quote : Char) : Nat → List Char → Option (List Char × List Char)
  | 0, _ => none
  | _ + 1, [] => none
  | fuel + 1, c :: cs =>
    if c = quote then some ([], cs)
    else if c = '\n' then none
    else if c = '\\' ∧ escapes then do
      let (c, cs) ← takeEscape? cs
      let (s, cs) ← takeQuoted? escapes quote fuel cs
      some (c :: s, cs)
    else do
      let (s, cs) ← takeQuoted? escapes quote fuel cs
      some (c :: s, cs)

/-- The characters up to three closing quotes, and the rest; up to two more
quotes in front of those belong to the text. -/
def takeBlock? (escapes : Bool) (quote : Char) : Nat → List Char → Option (List Char × List Char)
  | 0, _ => none
  | _ + 1, [] => none
  | fuel + 1, c :: cs =>
    if [quote, quote].isPrefixOf cs ∧ c = quote then
      let more := (cs.drop 2).takeWhile (· == quote)
      if 2 < more.length then none else some (more, cs.drop (2 + more.length))
    else if c = '\\' ∧ escapes then
      match continuation? cs with
      | some cs => takeBlock? escapes quote fuel cs
      | none => do
        let (c, cs) ← takeEscape? cs
        let (s, cs) ← takeBlock? escapes quote fuel cs
        some (c :: s, cs)
    else do
      let (s, cs) ← takeBlock? escapes quote fuel cs
      some (c :: s, cs)

/-- The text in quotes in front of a text, after its first quote, and the rest. -/
def takeString? (quote : Char) (cs : List Char) : Option (List Char × List Char) :=
  let escapes := quote == '"'
  if [quote, quote].isPrefixOf cs then
    let cs := cs.drop 2
    let cs := if cs.head? = some '\n' then cs.drop 1 else cs
    takeBlock? escapes quote (cs.length + 1) cs
  else takeQuoted? escapes quote (cs.length + 1) cs

/-- Whether a character may stand in a key without quotes. -/
def isBare (c : Char) : Bool := c.isAlphanum || c == '_' || c == '-'

/-- The key without dots in front of a text, and the rest. -/
def takeSimpleKey? (cs : List Char) : Option (String × List Char) :=
  match cs with
  | '"' :: cs => (takeQuoted? true '"' (cs.length + 1) cs).map fun r => (String.ofList r.1, r.2)
  | '\'' :: cs => (takeQuoted? false '\'' (cs.length + 1) cs).map fun r => (String.ofList r.1, r.2)
  | cs =>
    let k := cs.takeWhile isBare
    if k.isEmpty then none else some (String.ofList k, cs.dropWhile isBare)

/-- The key in front of a text, split at its dots, and the rest; `fuel` bounds the
dots. -/
def takeKey? : Nat → List Char → Option (List String × List Char)
  | 0, _ => none
  | fuel + 1, cs =>
    match takeSimpleKey? (skipBlanks cs) with
    | none => none
    | some (k, cs) =>
      match skipBlanks cs with
      | '.' :: cs => (takeKey? fuel cs).map fun r => (k :: r.1, r.2)
      | cs => some ([k], cs)

/-- Digits without the underscores between them; other underscores are refused. -/
def digits? (isDigit : Char → Bool) (cs : List Char) : Option (List Char) :=
  let groups := cs.splitOn '_'
  if groups.all fun g => !g.isEmpty && g.all isDigit then some groups.flatten else none

/-- Decimal digits without a needless zero in front. -/
def wholeDigits? (cs : List Char) : Option (List Char) :=
  match digits? Char.isDigit cs with
  | some ('0' :: _ :: _) => none
  | ds => ds

/-- A number in digits of a base that is a power of two. -/
def radix? (base : Nat) (cs : List Char) : Option Nat := do
  let isDigit := fun c => (Json.hexValue? c).any fun v => decide (v < base)
  let ds ← digits? isDigit cs
  some (ds.foldl (fun n d => n * base + (Json.hexValue? d).getD 0) 0)

/-- A whole number that fits into 64 bits with a sign. -/
def whole? (z : Int) : Option Setting :=
  if fitsSigned z then some (.whole z) else none

/-- The exponent of a decimal, after its letter. -/
def exponent? (cs : List Char) : Option Int :=
  let below := cs.head? == some '-'
  let cs := if below || cs.head? == some '+' then cs.drop 1 else cs
  (digits? Char.isDigit cs).map fun ds =>
    if below then -(Double.digitsValue ds : Int) else Double.digitsValue ds

/-- A decimal number without its sign. -/
def decimal? (negative : Bool) (cs : List Char) : Option Setting := do
  let isLetter := fun c => c == 'e' || c == 'E'
  let mantissa := cs.takeWhile fun c => !isLetter c
  let e ← match cs.dropWhile fun c => !isLetter c with
    | [] => some 0
    | _ :: cs => exponent? cs
  let whole ← wholeDigits? (mantissa.takeWhile (· != '.'))
  let fraction ← match mantissa.dropWhile (· != '.') with
    | [] => some []
    | _ :: cs => digits? Char.isDigit cs
  let x := Double.ofDecimal negative (Double.digitsValue (whole ++ fraction)) (e - fraction.length)
  if x = .infinite negative then none else some (.real x)

/-- The value of a word without quotes. -/
def word? (cs : List Char) : Option Setting :=
  let negative := cs.head? == some '-'
  let body := if negative || cs.head? == some '+' then cs.drop 1 else cs
  match body with
  | ['i', 'n', 'f'] => some (.real (.infinite negative))
  | ['n', 'a', 'n'] => some (.real .nan)
  | ['t', 'r', 'u', 'e'] => if cs = body then some (.flag true) else none
  | ['f', 'a', 'l', 's', 'e'] => if cs = body then some (.flag false) else none
  | '0' :: 'x' :: ds => if cs = body then (radix? 16 ds).bind fun n => whole? n else none
  | '0' :: 'o' :: ds => if cs = body then (radix? 8 ds).bind fun n => whole? n else none
  | '0' :: 'b' :: ds => if cs = body then (radix? 2 ds).bind fun n => whole? n else none
  | _ =>
    if body.any fun c => c == '.' || c == 'e' || c == 'E' then decimal? negative body
    else (wholeDigits? body).bind fun ds =>
      let n : Int := Double.digitsValue ds
      whole? (if negative then -n else n)

/-- Whether a character may stand in a word without quotes. -/
def isWord (c : Char) : Bool := c.isAlphanum || c == '_' || c == '-' || c == '+' || c == '.'

mutual

/-- The value in front of a text, and the rest. -/
def takeValue? : Nat → List Char → Option (Setting × List Char)
  | 0, _ => none
  | fuel + 1, cs =>
    match cs with
    | '"' :: cs => (takeString? '"' cs).map fun r => (.text (String.ofList r.1), r.2)
    | '\'' :: cs => (takeString? '\'' cs).map fun r => (.text (String.ofList r.1), r.2)
    | '[' :: cs => (takeList? fuel cs).map fun r => (.list r.1, r.2)
    | '\x7b' :: cs =>
      match skipBlanks cs with
      | '\x7d' :: cs => some (.table [], cs)
      | cs => (takeTable? fuel [] cs).map fun r => (.table (entriesSetting r.1), r.2)
    | cs => (word? (cs.takeWhile isWord)).map fun x => (x, cs.dropWhile isWord)

/-- The entries of a list up to its closing bracket, and the rest. -/
def takeList? : Nat → List Char → Option (List Setting × List Char)
  | 0, _ => none
  | fuel + 1, cs =>
    match skipLines cs.length cs with
    | ']' :: cs => some ([], cs)
    | cs =>
      match takeValue? fuel cs with
      | none => none
      | some (x, cs) =>
        match skipLines cs.length cs with
        | ',' :: cs => (takeList? fuel cs).map fun r => (x :: r.1, r.2)
        | ']' :: cs => some ([x], cs)
        | _ => none

/-- The entries of a table on one line up to its closing brace, and the rest. -/
def takeTable? : Nat → Entries → List Char → Option (Entries × List Char)
  | 0, _, _ => none
  | fuel + 1, es, cs =>
    match takeKey? (cs.length + 1) cs with
    | some (k, '=' :: cs) =>
      match takeValue? fuel (skipBlanks cs) with
      | none => none
      | some (x, cs) =>
        match assign k x es with
        | none => none
        | some es =>
          match skipBlanks cs with
          | ',' :: cs => takeTable? fuel es cs
          | '\x7d' :: cs => some (es, cs)
          | _ => none
    | _ => none

end

/-- The key of a heading up to its closing brackets, and the rest of the line. -/
def takeHeading? (closing : List Char) (cs : List Char) : Option (List String × List Char) := do
  let (k, cs) ← takeKey? (cs.length + 1) cs
  if closing.isPrefixOf cs then
    let cs ← endLine? (cs.drop closing.length)
    some (k, cs)
  else none

/-- Reads the lines of a document; keys stand below the heading `at_`, and `fuel`
bounds the lines. -/
def takeLines? : Nat → List String → Entries → List Char → Option Entries
  | 0, _, _, _ => none
  | fuel + 1, at_, es, cs =>
    match skipLines cs.length cs with
    | [] => some es
    | '[' :: '[' :: cs => do
      let (k, cs) ← takeHeading? [']', ']'] cs
      let es ← addTable k es
      takeLines? fuel k es cs
    | '[' :: cs => do
      let (k, cs) ← takeHeading? [']'] cs
      let es ← openTable k es
      takeLines? fuel k es cs
    | cs =>
      match takeKey? (cs.length + 1) cs with
      | some (k, '=' :: cs) => do
        let (x, cs) ← takeValue? (cs.length + 1) (skipBlanks cs)
        let es ← descend at_ (assign k x) es
        let cs ← endLine? cs
        takeLines? fuel at_ es cs
      | _ => none

/-- The text with line ends of one kind. -/
def unifyLineEnds : List Char → List Char
  | '\r' :: '\n' :: cs => '\n' :: unifyLineEnds cs
  | c :: cs => c :: unifyLineEnds cs
  | [] => []

/-- Whether a character may stand in a document. -/
def isAllowed (c : Char) : Bool := c == '\n' || c == '\t' || (32 ≤ c.toNat && c.toNat != 127)

def parse? (s : String) : Option (List (String × Setting)) :=
  let cs := unifyLineEnds s.toList
  if cs.all isAllowed then (takeLines? (cs.length + 1) [] [] cs).map entriesSetting else none

end Toml

end TieredFootage
