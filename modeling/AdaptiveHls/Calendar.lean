import AdaptiveHls.Number.Integer

/-!
# Dates and times of day

A program date-time is written in one of three forms: with fixed widths and a zone that may be `Z`;
with loose widths and a numeric zone; and with loose widths and no zone at all, which means UTC.
The forms are tried in this order. A sixtieth second is the fifty-ninth and one more. Days are
counted in the proleptic Gregorian calendar from the first of January 1970.
-/

namespace AdaptiveHls.Calendar

open AdaptiveHls.Number (isDigit ofDigits)
open AdaptiveHls.Text (isBlank)

structure Moment where
  year : Int
  month : Nat
  day : Nat
  hour : Nat
  minute : Nat
  second : Nat
  nanosecond : Nat := 0
  deriving DecidableEq, Repr

def isLeap (year : Int) : Bool := year % 4 == 0 && (year % 100 != 0 || year % 400 == 0)

def daysInMonth (year : Int) (month : Nat) : Nat :=
  match month with
  | 2 => if isLeap year then 29 else 28
  | 4 | 6 | 9 | 11 => 30
  | _ => 31

/-- Days from the first of January 1970. Years are taken to begin in March, so that the day that
leap years add is the last one. -/
def dayNumber (year : Int) (month day : Nat) : Int :=
  let shifted := if month ≤ 2 then year - 1 else year
  let era := shifted / 400
  let yearOfEra := shifted % 400
  let monthFromMarch : Nat := (month + 9) % 12
  let dayOfYear : Nat := (153 * monthFromMarch + 2) / 5 + day - 1
  era * 146097 + yearOfEra * 365 + yearOfEra / 4 - yearOfEra / 100 + dayOfYear - 719468

def firstYear : Int := -262143
def lastYear : Int := 262142

def Moment.valid (m : Moment) : Bool :=
  firstYear ≤ m.year && m.year ≤ lastYear && 1 ≤ m.month && m.month ≤ 12 &&
    1 ≤ m.day && m.day ≤ daysInMonth m.year m.month &&
    m.hour ≤ 23 && m.minute ≤ 59 && m.second ≤ 60

/-- Seconds from the beginning of 1970 as the local clock counts them, without the seconds that a
leap second adds. -/
def Moment.localSeconds (m : Moment) : Int :=
  dayNumber m.year m.month m.day * 86400 + m.hour * 3600 + m.minute * 60 + min m.second 59

/-- Microseconds from the beginning of 1970, for a clock `offset` seconds ahead of UTC; nothing
if a field, or the date in UTC, is out of range. -/
def Moment.microseconds? (m : Moment) (offset : Int) : Option Int :=
  let utc := m.localSeconds - offset
  if !m.valid then none
  else if utc < dayNumber firstYear 1 1 * 86400 then none
  else if dayNumber (lastYear + 1) 1 1 * 86400 ≤ utc then none
  else some (utc * 1000000 + (m.nanosecond + if m.second = 60 then 1000000000 else 0) / 1000)

def digits? (least most : Nat) (cs : List Char) : Option (Nat × List Char) :=
  let ds := (cs.take most).takeWhile isDigit
  if ds.isEmpty || ds.length < least then none else some (ofDigits ds, cs.drop ds.length)

def char? (c : Char) : List Char → Option (List Char)
  | d :: rest => if d == c then some rest else none
  | [] => none

def skipBlanks (cs : List Char) : List Char := cs.dropWhile isBlank

def field? (cs : List Char) : Option (Nat × List Char) := digits? 1 2 (skipBlanks cs)

def year? (cs : List Char) : Option (Int × List Char) :=
  match skipBlanks cs with
  | '-' :: rest => (digits? 1 rest.length rest).map fun (n, after) => (-(n : Int), after)
  | '+' :: rest => (digits? 1 rest.length rest).map fun (n, after) => ((n : Int), after)
  | rest => (digits? 1 4 rest).map fun (n, after) => ((n : Int), after)

/-- Nanoseconds after a point, if there is one. Digits after the ninth are passed over. -/
def fraction? : List Char → Option (Nat × List Char)
  | '.' :: rest =>
    let ds := (rest.take 9).takeWhile isDigit
    if ds.isEmpty then none
    else some (ofDigits (ds ++ List.replicate (9 - ds.length) '0'), rest.dropWhile isDigit)
  | rest => some (0, rest)

/-- A signed offset of hours and minutes, in seconds; `separator?` reads what stands between. -/
def offset? (separator? : List Char → Option (List Char)) :
    List Char → Option (Int × List Char)
  | [] => none
  | sign :: rest => do
    let negative ← if sign == '+' then some false
      else if sign == '-' || sign == Char.ofNat 0x2212 then some true else none
    let (hours, rest) ← digits? 2 2 rest
    let rest ← separator? rest
    let (minutes, rest) ← digits? 2 2 rest
    if 59 < minutes || 23 < hours then none
    else
      let seconds : Int := hours * 3600 + minutes * 60
      some (if negative then -seconds else seconds, rest)

def zone? : List Char → Option (Int × List Char)
  | 'Z' :: rest => some (0, rest)
  | 'z' :: rest => some (0, rest)
  | cs => offset? (char? ':') cs

/-- A signed offset after blanks, with any colons and blanks inside it. -/
def looseOffset? (cs : List Char) : Option (Int × List Char) :=
  offset? (fun rest => some (rest.dropWhile fun c => c == ':' || isBlank c)) (skipBlanks cs)

def fixedForm? (cs : List Char) : Option Int := do
  let (year, cs) ← digits? 4 4 cs
  let cs ← char? '-' cs
  let (month, cs) ← digits? 2 2 cs
  let cs ← char? '-' cs
  let (day, cs) ← digits? 2 2 cs
  let cs ← match cs with
    | c :: rest => if c == 'T' || c == 't' || c == ' ' then some rest else none
    | [] => none
  let (hour, cs) ← digits? 2 2 cs
  let cs ← char? ':' cs
  let (minute, cs) ← digits? 2 2 cs
  let cs ← char? ':' cs
  let (second, cs) ← digits? 2 2 cs
  let (nanosecond, cs) ← fraction? cs
  let (offset, cs) ← zone? cs
  if cs.isEmpty then
    Moment.microseconds? ⟨year, month, day, hour, minute, second, nanosecond⟩ offset
  else none

def looseMoment? (cs : List Char) : Option (Moment × List Char) := do
  let (year, cs) ← year? cs
  let cs ← char? '-' cs
  let (month, cs) ← field? cs
  let cs ← char? '-' cs
  let (day, cs) ← field? cs
  let cs ← char? 'T' cs
  let (hour, cs) ← field? cs
  let cs ← char? ':' cs
  let (minute, cs) ← field? cs
  let cs ← char? ':' cs
  let (second, cs) ← field? cs
  let (nanosecond, cs) ← fraction? cs
  some (⟨year, month, day, hour, minute, second, nanosecond⟩, cs)

def looseForm? (cs : List Char) : Option Int := do
  let (moment, cs) ← looseMoment? cs
  let (offset, cs) ← looseOffset? cs
  if cs.isEmpty then moment.microseconds? offset else none

def zonelessForm? (cs : List Char) : Option Int := do
  let (moment, cs) ← looseMoment? cs
  if cs.isEmpty then moment.microseconds? 0 else none

/-- Microseconds from the beginning of 1970 to the moment that a text denotes. -/
def microseconds? (s : String) : Option Int :=
  let cs := Text.strip s.toList
  fixedForm? cs <|> looseForm? cs <|> zonelessForm? cs

end AdaptiveHls.Calendar
