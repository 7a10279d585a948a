import AdaptiveHls.Calendar
import AdaptiveHls.Number.Binary64
import AdaptiveHls.Toml.Table

/-!
# Strings, numbers and dates in TOML

Each function reads one thing off the front of the text and gives what is left behind it.
-/

namespace AdaptiveHls.Toml

open AdaptiveHls.Number (isDigit ofDigits hexDigitValue?)

def isSpace (c : Char) : Bool := c == ' ' || c == '\t'

def skipSpaces (cs : List Char) : List Char := cs.dropWhile isSpace

/-- Characters that may stand in a comment or a string: no control characters but tabs. -/
def isText (c : Char) : Bool := c == '\t' || (0x20 ≤ c.toNat && c.toNat != 0x7F)

def newline? : List Char → Option (List Char)
  | '\n' :: rest => some rest
  | '\r' :: '\n' :: rest => some rest
  | _ => none

/-! ## Strings -/

def charOf? (n : Nat) : Option Char :=
  if n < 0xD800 || (0xDFFF < n && n ≤ 0x10FFFF) then some (Char.ofNat n) else none

def hexChar? (digits : List Char) : Option Char := do
  let n ← digits.foldl (fun n c => do
    let n ← n
    let d ← hexDigitValue? c
    some (n * 16 + d)) (some 0)
  charOf? n

def escape? : List Char → Option (Char × List Char)
  | 'b' :: rest => some ('\x08', rest)
  | 't' :: rest => some ('\t', rest)
  | 'n' :: rest => some ('\n', rest)
  | 'f' :: rest => some ('\x0c', rest)
  | 'r' :: rest => some ('\r', rest)
  | '"' :: rest => some ('"', rest)
  | '\\' :: rest => some ('\\', rest)
  | 'u' :: a :: b :: c :: d :: rest => (hexChar? [a, b, c, d]).map fun x => (x, rest)
  | 'U' :: a :: b :: c :: d :: e :: f :: g :: h :: rest =>
    (hexChar? [a, b, c, d, e, f, g, h]).map fun x => (x, rest)
  | _ => none

/-- The inside of a string in double quotes, and what follows the closing one. The fuel is at least
the length of the text. -/
def basic? : Nat → List Char → Option (List Char × List Char)
  | 0, _ => none
  | _, [] => none
  | _, '"' :: rest => some ([], rest)
  | fuel + 1, '\\' :: rest => do
    let (c, rest) ← escape? rest
    let (s, rest) ← basic? fuel rest
    some (c :: s, rest)
  | fuel + 1, c :: rest => do
    if isText c then
      let (s, rest) ← basic? fuel rest
      some (c :: s, rest)
    else none

/-- The inside of a string in single quotes. -/
def literal? : List Char → Option (List Char × List Char)
  | [] => none
  | '\'' :: rest => some ([], rest)
  | c :: rest =>
    if isText c then (literal? rest).map fun (s, rest) => (c :: s, rest) else none

/-- Behind three quotes: up to two more that belong to the inside, and what follows. -/
def lastQuotes (q : Char) : List Char → List Char × List Char
  | a :: b :: rest =>
    if a == q && b == q then ([q, q], rest)
    else if a == q then ([q], b :: rest)
    else ([], a :: b :: rest)
  | [a] => if a == q then ([q], []) else ([], [a])
  | [] => ([], [])

def skipBlankLines (cs : List Char) : List Char :=
  cs.dropWhile fun c => isSpace c || c == '\n' || c == '\r'

/-- The inside of a string of several lines. In double quotes there are escapes, and a backslash at
the end of a line takes the blanks behind it away. -/
def multiline? (q : Char) : Nat → List Char → Option (List Char × List Char)
  | 0, _ => none
  | _, [] => none
  | fuel + 1, c :: rest =>
    if c == q && rest.take 2 == [q, q] then some (lastQuotes q (rest.drop 2))
    else if c == '\\' && q == '"' then
      if (newline? (skipSpaces rest)).isSome then multiline? q fuel (skipBlankLines rest)
      else do
        let (c, rest) ← escape? rest
        let (s, rest) ← multiline? q fuel rest
        some (c :: s, rest)
    else match newline? (c :: rest) with
      | some rest => (multiline? q fuel rest).map fun (s, rest) => ('\n' :: s, rest)
      | none =>
        if isText c then (multiline? q fuel rest).map fun (s, rest) => (c :: s, rest) else none

/-- A line break right behind the opening quotes does not count. -/
def dropFirstNewline (cs : List Char) : List Char := (newline? cs).getD cs

def shortString? : List Char → Option (String × List Char)
  | '"' :: rest => (basic? (rest.length + 1) rest).map fun (s, rest) => (String.ofList s, rest)
  | '\'' :: rest => (literal? rest).map fun (s, rest) => (String.ofList s, rest)
  | _ => none

def string? (cs : List Char) : Option (String × List Char) :=
  let long (q : Char) (rest : List Char) :=
    (multiline? q (rest.length + 1) (dropFirstNewline rest)).map fun (s, rest) =>
      (String.ofList s, rest)
  match cs with
  | '"' :: '"' :: '"' :: rest => long '"' rest
  | '\'' :: '\'' :: '\'' :: rest => long '\'' rest
  | _ => shortString? cs

/-! ## Numbers -/

/-- The digits behind a digit. A single underscore may stand before each. -/
def digitsBehind (isOne : Char → Bool) : List Char → List Char × List Char
  | [] => ([], [])
  | '_' :: d :: rest =>
    if isOne d then
      let (ds, after) := digitsBehind isOne rest
      (d :: ds, after)
    else ([], '_' :: d :: rest)
  | c :: rest =>
    if isOne c then
      let (ds, after) := digitsBehind isOne rest
      (c :: ds, after)
    else ([], c :: rest)

def digitRun (isOne : Char → Bool) : List Char → List Char × List Char
  | [] => ([], [])
  | c :: rest =>
    if isOne c then
      let (ds, after) := digitsBehind isOne rest
      (c :: ds, after)
    else ([], c :: rest)

def sign : List Char → List Char × List Char
  | '+' :: rest => (['+'], rest)
  | '-' :: rest => (['-'], rest)
  | cs => ([], cs)

/-- Decimal digits without leading zeros. -/
def decimal? : List Char → Option (List Char × List Char)
  | '0' :: rest => some (['0'], rest)
  | cs =>
    let (ds, rest) := digitRun isDigit cs
    if ds.isEmpty then none else some (ds, rest)

def inRange? (n : Int) : Option Int := if Ticks.least ≤ n && n ≤ Ticks.greatest then some n else none

def valueIn (radix : Nat) (ds : List Char) : Nat :=
  ds.foldl (fun n c => n * radix + (hexDigitValue? c).getD 0) 0

def radixInteger? (radix : Nat) (cs : List Char) : Option (Int × List Char) :=
  let isOne (c : Char) := (hexDigitValue? c).any (· < radix)
  let (ds, rest) := digitRun isOne cs
  if ds.isEmpty then none else (inRange? (valueIn radix ds)).map fun n => (n, rest)

def integer? (cs : List Char) : Option (Int × List Char) :=
  match cs with
  | '0' :: 'x' :: rest => radixInteger? 16 rest
  | '0' :: 'o' :: rest => radixInteger? 8 rest
  | '0' :: 'b' :: rest => radixInteger? 2 rest
  | _ => do
    let (mark, rest) := sign cs
    let (ds, rest) ← decimal? rest
    let n : Int := ofDigits ds
    let n ← inRange? (if mark == ['-'] then -n else n)
    some (n, rest)

def point? : List Char → Option (List Char × List Char)
  | '.' :: rest =>
    let (ds, rest) := digitRun isDigit rest
    if ds.isEmpty then none else some ('.' :: ds, rest)
  | _ => none

def exponent? : List Char → Option (List Char × List Char)
  | e :: rest =>
    if e == 'e' || e == 'E' then
      let (mark, rest) := sign rest
      let (ds, rest) := digitRun isDigit rest
      if ds.isEmpty then none else some ('e' :: mark ++ ds, rest)
    else none
  | [] => none

def specialFloat? (cs : List Char) : Option (Float × List Char) :=
  let (mark, rest) := sign cs
  let text (word : String) := Number.float? (String.ofList (mark ++ word.toList))
  match rest with
  | 'i' :: 'n' :: 'f' :: rest => (text "inf").map fun x => (x, rest)
  | 'n' :: 'a' :: 'n' :: rest => (text "nan").map fun x => (x, rest)
  | _ => none

/-- A number with a point or an exponent. One too great for a double is refused. -/
def decimalFloat? (cs : List Char) : Option (Float × List Char) := do
  let (mark, rest) := sign cs
  let (ds, rest) ← decimal? rest
  let (places, rest) := (point? rest).getD ([], rest)
  let (power, rest) := (exponent? rest).getD ([], rest)
  if places.isEmpty && power.isEmpty then none
  else
    let x ← Number.float? (String.ofList (mark ++ ds ++ places ++ power))
    if Number.exact x = .infinite false then none else some (x, rest)

/-! ## Dates -/

def date? (cs : List Char) : Option (List Char) := do
  let (year, cs) ← Calendar.digits? 4 4 cs
  let cs ← Calendar.char? '-' cs
  let (month, cs) ← Calendar.digits? 2 2 cs
  let cs ← Calendar.char? '-' cs
  let (day, cs) ← Calendar.digits? 2 2 cs
  if 1 ≤ month && month ≤ 12 && 1 ≤ day && day ≤ Calendar.daysInMonth year month then some cs
  else none

def time? (cs : List Char) : Option (List Char) := do
  let (hour, cs) ← Calendar.digits? 2 2 cs
  let cs ← Calendar.char? ':' cs
  let (minute, cs) ← Calendar.digits? 2 2 cs
  let cs ← Calendar.char? ':' cs
  let (second, cs) ← Calendar.digits? 2 2 cs
  let (_, cs) ← Calendar.fraction? cs
  if hour ≤ 23 && minute ≤ 59 && second ≤ 60 then some cs else none

def zone? : List Char → Option (List Char)
  | 'Z' :: rest => some rest
  | 'z' :: rest => some rest
  | c :: rest => do
    if c == '+' || c == '-' then
      let (hours, rest) ← Calendar.digits? 2 2 rest
      let rest ← Calendar.char? ':' rest
      let (minutes, rest) ← Calendar.digits? 2 2 rest
      if hours ≤ 23 && minutes ≤ 59 then some rest else none
    else none
  | [] => none

def timeAfterDate? : List Char → Option (List Char)
  | c :: rest =>
    if c == 'T' || c == 't' || c == ' ' then (time? rest).map fun rest => (zone? rest).getD rest
    else none
  | [] => none

def dateTime? (cs : List Char) : Option (List Char) :=
  match date? cs with
  | some rest => some ((timeAfterDate? rest).getD rest)
  | none => time? cs

def scalar? (cs : List Char) : Option (Toml × List Char) :=
  match cs with
  | 't' :: 'r' :: 'u' :: 'e' :: rest => some (.boolean true, rest)
  | 'f' :: 'a' :: 'l' :: 's' :: 'e' :: rest => some (.boolean false, rest)
  | _ =>
    ((string? cs).map fun (s, rest) => (.string s, rest)) <|>
    ((dateTime? cs).map fun rest => (.dateTime, rest)) <|>
    ((decimalFloat? cs).map fun (x, rest) => (.float x, rest)) <|>
    ((specialFloat? cs).map fun (x, rest) => (.float x, rest)) <|>
    ((integer? cs).map fun (n, rest) => (.integer n, rest))

end AdaptiveHls.Toml
