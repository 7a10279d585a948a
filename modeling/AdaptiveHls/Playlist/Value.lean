import AdaptiveHls.Number.Binary64

/-!
# Values as written

A value is kept as the text the playlist has, quotes included, and read as what is wanted only when
it is wanted. So a malformed value troubles nobody who does not ask for it.
-/

namespace AdaptiveHls

/-- The text of one value, perhaps in double quotes. -/
structure Value where
  raw : String
  deriving DecidableEq, Repr

/-- A length and perhaps an offset. Without one the range follows the one before it. -/
structure RangeSpec where
  length : Nat
  offset : Option Nat
  deriving DecidableEq, Repr

namespace RangeSpec

def read? (s : String) : Option RangeSpec :=
  match Text.cut? (· == '@') s with
  | some (length, offset) => do
    let length ← Number.leadingCount? length
    let offset ← Number.leadingCount? offset
    some ⟨length, some offset⟩
  | none => (Number.leadingCount? s).map fun length => ⟨length, none⟩

end RangeSpec

namespace Value

def isEmpty (v : Value) : Bool := v.raw.isEmpty

/-- The characters without one pair of double quotes around them. -/
def unquote : List Char → List Char
  | '"' :: rest => if rest.getLast? == some '"' then rest.dropLast else '"' :: rest
  | cs => cs

def text (v : Value) : String := String.ofList (unquote v.raw.toList)

def count? (v : Value) : Option Nat := Number.leadingCount? v.text

def number? (v : Value) : Option Float :=
  (Number.float? (Text.trim v.text)).filter Number.isFinite

def withoutHexMark : List Char → List Char
  | '0' :: 'x' :: rest => rest
  | '0' :: 'X' :: rest => rest
  | cs => cs

/-- The value as bytes in hexadecimal digits, with or without `0x` in front. A digit that has no
partner is the lower half of the first byte. -/
def bytes? (v : Value) : Option (List UInt8) :=
  let digits := withoutHexMark (Text.strip v.text.toList)
  if digits.isEmpty then none
  else if digits.length % 2 = 1 then Number.bytesOfHex? ('0' :: digits)
  else Number.bytesOfHex? digits

def range? (v : Value) : Option RangeSpec := RangeSpec.read? v.text

def dimensions? (v : Value) : Option (Nat × Nat) := do
  let (width, height) ← Text.cut? (fun c => c == 'x' || c == 'X') v.text
  let width ← Number.wholeCount? 0xFFFFFFFF (Text.strip width.toList)
  let height ← Number.wholeCount? 0xFFFFFFFF (Text.strip height.toList)
  some (width, height)

def isYes (v : Value) : Bool := v.text == "YES"

end Value

end AdaptiveHls
