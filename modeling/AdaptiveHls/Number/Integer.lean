import AdaptiveHls.Text.Blank
import AdaptiveHls.Number.Bounds

/-!
# Reading and writing whole numbers

Two rules read a count: the lenient one takes the digits a text starts with and ignores what
follows, as in `10.0`; the strict one wants the whole text to be digits, with a plus sign allowed.
Both refuse a number that is out of range.
-/

namespace AdaptiveHls.Number

def isDigit (c : Char) : Bool := '0' ≤ c && c ≤ '9'

def digitValue (c : Char) : Nat := c.toNat - '0'.toNat

def hexDigitValue? (c : Char) : Option Nat :=
  if isDigit c then some (digitValue c)
  else if 'a' ≤ c && c ≤ 'f' then some (c.toNat - 'a'.toNat + 10)
  else if 'A' ≤ c && c ≤ 'F' then some (c.toNat - 'A'.toNat + 10)
  else none

def ofDigits (cs : List Char) : Nat := cs.foldl (fun n c => n * 10 + digitValue c) 0

/-- The number that `s` starts with, after blanks. -/
def leadingCount? (s : String) : Option Nat :=
  let digits := (Text.strip s.toList).takeWhile isDigit
  if digits.isEmpty then none
  else if ofDigits digits ≤ Count.greatest then some (ofDigits digits) else none

/-- The number that `cs` is, with a plus sign allowed, if it is at most `bound`. -/
def wholeCount? (bound : Nat) (cs : List Char) : Option Nat :=
  let digits := match cs with
    | '+' :: rest => rest
    | _ => cs
  if digits.isEmpty || !digits.all isDigit then none
  else if ofDigits digits ≤ bound then some (ofDigits digits) else none

def hexOfByte (b : UInt8) : String :=
  String.ofList [Nat.digitChar (b.toNat / 16), Nat.digitChar (b.toNat % 16)]

def bytesOfHex? : List Char → Option (List UInt8)
  | [] => some []
  | [_] => none
  | a :: b :: rest => do
    let high ← hexDigitValue? a
    let low ← hexDigitValue? b
    let bytes ← bytesOfHex? rest
    some (UInt8.ofNat (high * 16 + low) :: bytes)

end AdaptiveHls.Number
