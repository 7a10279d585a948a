import AdaptiveHls.Url.Percent
import AdaptiveHls.Url.Query
import AdaptiveHls.Url.Punycode

/-!
# Reading hosts

The host of a scheme whose structure is known is an IPv6 address in brackets, an IPv4 address when
its last label is a number, and otherwise a domain: decoded, in lower case, each label that is not
ASCII in its encoded form. Any other scheme has an opaque host, which is only percent-encoded.
-/

namespace AdaptiveHls.Host

def isForbidden (c : Char) : Bool :=
  c.toNat == 0 || c == '\t' || c == '\n' || c == '\r' || c == ' ' || c == '#' || c == '/' ||
    c == ':' || c == '<' || c == '>' || c == '?' || c == '@' || c == '[' || c == '\\' ||
    c == ']' || c == '^' || c == '|'

def isForbiddenInDomain (c : Char) : Bool :=
  isForbidden c || c.toNat ≤ 0x20 || c == '%' || c.toNat == 0x7F

def digitsIn? (radix : Nat) (cs : List Char) : Option Nat :=
  cs.foldl (fun n c => do
    let n ← n
    let d ← Number.hexDigitValue? c
    if d < radix then some (n * radix + d) else none) (some 0)

/-- A number of an IPv4 address: decimal, octal after `0`, hexadecimal after `0x`. -/
def ipv4Number? : List Char → Option Nat
  | [] => none
  | '0' :: 'x' :: rest => digitsIn? 16 rest
  | '0' :: 'X' :: rest => digitsIn? 16 rest
  | '0' :: d :: rest => digitsIn? 8 (d :: rest)
  | cs => digitsIn? 10 cs

def dotParts (cs : List Char) : List (List Char) :=
  let parts := Query.splitAt '.' cs
  if parts.getLast? == some [] then parts.dropLast else parts

/-- Whether a domain has to be an IPv4 address. -/
def endsInNumber (cs : List Char) : Bool :=
  match (dotParts cs).getLast? with
  | some last => (!last.isEmpty && last.all Number.isDigit) || (ipv4Number? last).isSome
  | none => false

def ipv4? (cs : List Char) : Option Host := do
  let parts := dotParts cs
  if 4 < parts.length then none
  else
    let numbers ← parts.mapM ipv4Number?
    let last ← numbers.getLast?
    let first := numbers.dropLast
    let lowBits := 8 * (4 - first.length)
    if first.any (255 < ·) || 1 <<< lowBits ≤ last then none
    else
      let high := first.foldl (fun n part => n * 256 + part) 0
      some (.ipv4 (high <<< lowBits + last))

/-- The pieces of an IPv4 address at the end of an IPv6 one: four decimal numbers without leading
zeros. -/
def embeddedIpv4? (cs : List Char) : Option (List Nat) := do
  let parts := Query.splitAt '.' cs
  let numbers ← parts.mapM fun part =>
    if part.isEmpty || 3 < part.length || !part.all Number.isDigit then none
    else if part.head? == some '0' && part != ['0'] then none
    else if Number.ofDigits part ≤ 255 then some (Number.ofDigits part) else none
  match numbers with
  | [a, b, c, d] => some [a * 256 + b, c * 256 + d]
  | _ => none

def ipv6Piece? (cs : List Char) : Option Nat :=
  if cs.isEmpty || 4 < cs.length then none else digitsIn? 16 cs

/-- The pieces between colons; the last may be an IPv4 address. -/
def ipv6Pieces? : List (List Char) → Option (List Nat)
  | [] => some []
  | [last] => if last.contains '.' then embeddedIpv4? last else (ipv6Piece? last).map ([·])
  | piece :: rest => do
    let n ← ipv6Piece? piece
    let ns ← ipv6Pieces? rest
    some (n :: ns)

def cutDoubleColon : List Char → Option (List Char × List Char)
  | ':' :: ':' :: rest => some ([], rest)
  | c :: rest => (cutDoubleColon rest).map fun (before, after) => (c :: before, after)
  | [] => none

def ipv6Side? (cs : List Char) : Option (List Nat) :=
  if cs.isEmpty then some [] else ipv6Pieces? (Query.splitAt ':' cs)

def ipv6? (cs : List Char) : Option Host := do
  match cutDoubleColon cs with
  | some (before, after) =>
    if before.contains '.' then none
    else
      let front ← ipv6Side? before
      let back ← ipv6Side? after
      let known := front.length + back.length
      if 7 < known then none
      else some (.ipv6 (front ++ List.replicate (8 - known) 0 ++ back))
  | none =>
    let pieces ← ipv6Side? cs
    if pieces.length = 8 then some (.ipv6 pieces) else none

/-- The inside of `[...]`, if `cs` has that form; nothing if the bracket is not closed. -/
def bracketed? (cs : List Char) : Option (List Char) :=
  if cs.getLast? == some ']' then some (cs.drop 1).dropLast else none

def read (cs : List Char) : Except UrlError Host :=
  if cs.head? == some '[' then
    match (bracketed? cs).bind ipv6? with
    | some host => .ok host
    | none => .error .invalidIpv6
  else
    let decoded := Text.Utf8.decode (Percent.decode cs)
    match Punycode.asciiDomain? decoded.toList with
    | none => .error .invalidDomainName
    | some name =>
      if name.any isForbiddenInDomain then .error .invalidDomainName
      else if name.isEmpty then .error .emptyHost
      else if endsInNumber name then
        match ipv4? name with
        | some host => .ok host
        | none => .error .invalidIpv4
      else .ok (.domain (String.ofList name))

def readOpaque (cs : List Char) : Except UrlError Host :=
  if cs.head? == some '[' then
    match (bracketed? cs).bind ipv6? with
    | some host => .ok host
    | none => .error .invalidIpv6
  else if cs.any isForbidden then .error .invalidDomainCharacter
  else .ok (.domain (Percent.encodeText Percent.isControl cs))

end AdaptiveHls.Host
