import AdaptiveHls.Text.Utf8
import AdaptiveHls.Number.Integer

/-!
# Percent encoding

A character that may not stand in some part of an address is written as the bytes of its UTF-8
form, each as `%` and two hexadecimal digits. Which characters those are differs from part to part;
control characters and everything outside ASCII always belong to them. Decoding passes over a `%`
that no two digits follow.
-/

namespace AdaptiveHls.Percent

def isControl (c : Char) : Bool := c.toNat < 0x20 || 0x7E < c.toNat

def inFragment (c : Char) : Bool :=
  isControl c || c == ' ' || c == '"' || c == '<' || c == '>' || c.toNat == 0x60

def inPath (c : Char) : Bool :=
  inFragment c || c == '#' || c == '?' || c.toNat == 0x7B || c.toNat == 0x7D

def inUserInfo (c : Char) : Bool :=
  inPath c || c == '/' || c == ':' || c == ';' || c == '=' || c == '@' || c == '[' || c == '\\' ||
    c == ']' || c == '^' || c == '|'

def inQuery (c : Char) : Bool :=
  isControl c || c == ' ' || c == '"' || c == '#' || c == '<' || c == '>'

/-- Characters encoded in a query of the schemes whose structure is known. -/
def inSpecialQuery (c : Char) : Bool := inQuery c || c == '\''

def upperHexDigit (n : Nat) : Char := (Nat.digitChar n).toUpper

def encodeByte (b : UInt8) : List Char :=
  ['%', upperHexDigit (b.toNat / 16), upperHexDigit (b.toNat % 16)]

def encodeChar (c : Char) : List Char := (String.utf8EncodeChar c).flatMap encodeByte

def encode (p : Char → Bool) (cs : List Char) : List Char :=
  cs.flatMap fun c => if p c then encodeChar c else [c]

def encodeText (p : Char → Bool) (cs : List Char) : String := String.ofList (encode p cs)

def byte? (a b : Char) : Option UInt8 := do
  let high ← Number.hexDigitValue? a
  let low ← Number.hexDigitValue? b
  some (UInt8.ofNat (high * 16 + low))

def decode : List Char → List UInt8
  | '%' :: a :: b :: rest =>
    match byte? a b with
    | some byte => byte :: decode rest
    | none => String.utf8EncodeChar '%' ++ decode (a :: b :: rest)
  | c :: rest => String.utf8EncodeChar c ++ decode rest
  | [] => []

end AdaptiveHls.Percent
