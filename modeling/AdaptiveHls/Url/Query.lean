import AdaptiveHls.Url.Basic
import AdaptiveHls.Url.Percent

/-!
# Queries as lists of pairs

A query is read as names and values the way forms send them: pairs stand between ampersands, a name
ends at the first equals sign, a plus is a space, and percent-encoded bytes are UTF-8. Empty pairs
are passed over. Writing encodes everything but letters, digits and `*-._`.
-/

namespace AdaptiveHls.Query

abbrev Pair := String × String

def splitAt (c : Char) : List Char → List (List Char)
  | [] => [[]]
  | d :: rest =>
    if d == c then [] :: splitAt c rest
    else match splitAt c rest with
      | piece :: pieces => (d :: piece) :: pieces
      | [] => [[d]]

def decodePart (cs : List Char) : String :=
  Text.Utf8.decode (Percent.decode (cs.map fun c => if c == '+' then ' ' else c))

def decodePair (cs : List Char) : Pair :=
  match Text.cutChars (· == '=') cs with
  | some (name, value) => (decodePart name, decodePart value)
  | none => (decodePart cs, "")

def read (query : String) : List Pair :=
  (((splitAt '&' query.toList).filter fun piece => !piece.isEmpty)).map decodePair

/-- A byte that stands for itself. -/
def isPlain (b : UInt8) : Bool :=
  let c := Char.ofNat b.toNat
  (c.toNat < 0x80 && c.isAlphanum) || c == '*' || c == '-' || c == '.' || c == '_'

def encodeByte (b : UInt8) : List Char :=
  if isPlain b then [Char.ofNat b.toNat]
  else if b == 0x20 then ['+']
  else Percent.encodeByte b

def encodePart (s : String) : List Char := (Text.Utf8.encode s).flatMap encodeByte

def writePair (p : Pair) : List Char := encodePart p.1 ++ '=' :: encodePart p.2

def write (pairs : List Pair) : String :=
  String.ofList (['&'].intercalate (pairs.map writePair))

end AdaptiveHls.Query

namespace AdaptiveHls.Url

def queryPairs (u : Url) : List Query.Pair := Query.read (u.query.getD "")

end AdaptiveHls.Url
