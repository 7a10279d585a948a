import AdaptiveHls.Number.Integer

/-!
# Seconds as double precision numbers

Playlists write seconds as decimal fractions. They are read to the nearest double, an even last
bit deciding ties; the text may also say `inf`, `infinity` or `nan`. Back from a double there are
two ways: to the nearest whole number, a half going away from zero, and to a text with three places,
a half going to the even neighbour. Both work on the exact value `m * 2 ^ e` that the bits denote,
so nothing is rounded twice.
-/

namespace AdaptiveHls.Number

/-- The value of a double, or the reason why it has none. -/
inductive Exact where
  | finite (negative : Bool) (mantissa : Nat) (exponent : Int)
  | infinite (negative : Bool)
  | notANumber
  deriving DecidableEq, Repr

def exact (x : Float) : Exact :=
  let bits := x.toBits.toNat
  let negative := bits >>> 63 == 1
  let exponent : Nat := (bits >>> 52) % 2048
  let fraction : Nat := bits % 0x10000000000000
  if exponent == 2047 then
    if fraction == 0 then .infinite negative else .notANumber
  else if exponent == 0 then .finite negative fraction (-1074)
  else .finite negative (0x10000000000000 + fraction) ((exponent : Int) - 1075)

def isFinite (x : Float) : Bool :=
  match exact x with
  | .finite .. => true
  | _ => false

/-- The double nearest to `digits * 10 ^ exponent`. The bounds on the exponent keep powers of ten
small: beyond them every number is infinite or zero. -/
def nearest (digits : Nat) (exponent : Int) : Float :=
  let width := (Nat.toDigits 10 digits).length
  if digits == 0 then 0
  else if exponent + width > 400 then Float.ofBits 0x7FF0000000000000
  else if exponent + width < -400 then 0
  else if exponent < 0 then Float.ofScientific digits true exponent.natAbs
  else Float.ofScientific digits false exponent.natAbs

/-- An exponent part: nothing, or a mark followed by an optional sign and digits. -/
def exponentPart? : List Char → Option Int
  | [] => some 0
  | mark :: rest =>
    if mark != 'e' && mark != 'E' then none
    else
      let (negative, digits) := match rest with
        | '-' :: digits => (true, digits)
        | '+' :: digits => (false, digits)
        | digits => (false, digits)
      if digits.isEmpty || !digits.all isDigit then none
      else if negative then some (-(ofDigits digits : Int)) else some (ofDigits digits)

/-- An unsigned decimal fraction; a digit before or after the point is enough. -/
def fraction? (cs : List Char) : Option Float :=
  let whole := cs.takeWhile isDigit
  let rest := cs.dropWhile isDigit
  let (places, tail) := match rest with
    | '.' :: after => (after.takeWhile isDigit, after.dropWhile isDigit)
    | _ => ([], rest)
  if whole.isEmpty && places.isEmpty then none
  else (exponentPart? tail).map fun exponent =>
    nearest (ofDigits (whole ++ places)) (exponent - places.length)

def magnitude? (cs : List Char) : Option Float :=
  let word := String.ofList (cs.map Char.toLower)
  if word == "inf" || word == "infinity" then some (Float.ofBits 0x7FF0000000000000)
  else if word == "nan" then some (Float.ofBits 0x7FF8000000000000)
  else fraction? cs

def float? (s : String) : Option Float :=
  match s.toList with
  | '-' :: rest => (magnitude? rest).map Float.neg
  | '+' :: rest => magnitude? rest
  | cs => magnitude? cs

def divideHalfUp (numerator denominator : Nat) : Nat :=
  (2 * numerator + denominator) / (2 * denominator)

/-- `numerator / denominator` to the nearest whole number, halves going to the even neighbour. -/
def divideHalfEven (numerator denominator : Nat) : Nat :=
  let quotient := numerator / denominator
  let twice := 2 * (numerator % denominator)
  if twice < denominator then quotient
  else if twice > denominator then quotient + 1
  else quotient + quotient % 2

def scaled (divide : Nat → Nat → Nat) (mantissa : Nat) (exponent : Int) (scale : Nat) : Nat :=
  if 0 ≤ exponent then (mantissa <<< exponent.toNat) * scale
  else divide (mantissa * scale) (1 <<< exponent.natAbs)

/-- The nearest time in range; halves go away from zero, and what is no number counts as zero. -/
def roundToTicks (x : Float) : Int :=
  match exact x with
  | .finite negative mantissa exponent =>
    let n : Int := scaled divideHalfUp mantissa exponent 1
    Ticks.clamp (if negative then -n else n)
  | .infinite negative => if negative then Ticks.least else Ticks.greatest
  | .notANumber => 0

def ticksOfSeconds (seconds : Float) : Int := roundToTicks (1000000.0 * seconds)

def secondsOfTicks (t : Int) : Float := Float.ofInt t / 1000000.0

def threePlaces (x : Float) : String :=
  match exact x with
  | .finite negative mantissa exponent =>
    let n := scaled divideHalfEven mantissa exponent 1000
    let places := toString (n % 1000)
    (if negative then "-" else "") ++ toString (n / 1000) ++ "." ++
      String.ofList (List.replicate (3 - places.length) '0') ++ places
  | .infinite negative => if negative then "-inf" else "inf"
  | .notANumber => "NaN"

def bitsText (x : Float) : String :=
  let digits := Nat.toDigits 16 x.toBits.toNat
  String.ofList (List.replicate (16 - digits.length) '0' ++ digits)

end AdaptiveHls.Number
