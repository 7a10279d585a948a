/-!
# Addresses

An address is kept in its parts, each already in the form in which it is written: percent-encoded
where it has to be, with default ports left out and dot segments resolved. So writing one is
joining its parts, and an address that was read and one that was put together are told apart by
their texts alone.

A path is either opaque, as in `mailto:a@b.c`, or a list of segments. An opaque path is no base
for relative references.
-/

namespace AdaptiveHls

inductive Host where
  | domain (name : String)
  | ipv4 (address : Nat)
  | ipv6 (pieces : List Nat)
  deriving DecidableEq, Repr

structure Authority where
  username : String := ""
  password : String := ""
  host : Host
  port : Option Nat := none
  deriving DecidableEq, Repr

inductive UrlPath where
  | whole (text : String)
  | segments (names : List String)
  deriving DecidableEq, Repr

structure Url where
  scheme : String
  authority : Option Authority := none
  path : UrlPath
  query : Option String := none
  fragment : Option String := none
  deriving DecidableEq, Repr

inductive UrlError where
  | emptyHost
  | invalidDomainName
  | invalidPort
  | invalidIpv4
  | invalidIpv6
  | invalidDomainCharacter
  | noBase
  | wholeBase
  deriving DecidableEq, Repr

namespace UrlError

def message : UrlError → String
  | emptyHost => "empty host"
  | invalidDomainName => "invalid international domain name"
  | invalidPort => "invalid port number"
  | invalidIpv4 => "invalid IPv4 address"
  | invalidIpv6 => "invalid IPv6 address"
  | invalidDomainCharacter => "invalid domain character"
  | noBase => "relative URL without a base"
  | wholeBase => "relative URL with a cannot-be-a-base base"

end UrlError

namespace Host

/-- How many of the first pieces are zero. -/
def zeroRun (pieces : List Nat) : Nat := (pieces.takeWhile (· == 0)).length

/-- The start and length of the first longest run of at least two zero pieces. -/
def longestZeroRun (pieces : List Nat) : Option (Nat × Nat) :=
  (List.range pieces.length).foldl (fun best i =>
    let length := zeroRun (pieces.drop i)
    match best with
    | some (_, longest) => if longest < length then some (i, length) else best
    | none => if 2 ≤ length then some (i, length) else none) none

def hexPieces (pieces : List Nat) : String :=
  ":".intercalate (pieces.map fun p => String.ofList (Nat.toDigits 16 p))

def ipv6Text (pieces : List Nat) : String :=
  match longestZeroRun pieces with
  | some (start, length) =>
    hexPieces (pieces.take start) ++ "::" ++ hexPieces (pieces.drop (start + length))
  | none => hexPieces pieces

def text : Host → String
  | domain name => name
  | ipv4 a => ".".intercalate
      ([a >>> 24, (a >>> 16) % 256, (a >>> 8) % 256, a % 256].map fun n => toString n)
  | ipv6 pieces => "[" ++ ipv6Text pieces ++ "]"

end Host

namespace Authority

def text (a : Authority) : String :=
  let password := if a.password.isEmpty then "" else ":" ++ a.password
  let user := if a.username.isEmpty && a.password.isEmpty then ""
    else a.username ++ password ++ "@"
  let port := match a.port with
    | some n => ":" ++ toString n
    | none => ""
  user ++ a.host.text ++ port

end Authority

namespace UrlPath

def text : UrlPath → String
  | .whole s => s
  | segments names => String.join (names.map fun name => "/" ++ name)

/-- Whether the path, written after a scheme, would look like an authority. -/
def looksLikeAuthority : UrlPath → Bool
  | segments ("" :: _ :: _) => true
  | _ => false

end UrlPath

namespace Url

/-- The address without its query and fragment. -/
def front (u : Url) : String :=
  let authority := match u.authority with
    | some a => "//" ++ a.text
    | none => if u.path.looksLikeAuthority then "/." else ""
  u.scheme ++ ":" ++ authority ++ u.path.text

def text (u : Url) : String :=
  let query := match u.query with
    | some q => "?" ++ q
    | none => ""
  let fragment := match u.fragment with
    | some f => "#" ++ f
    | none => ""
  u.front ++ query ++ fragment

def withQuery (u : Url) (query : Option String) : Url := { u with query }

/-- Whether nothing relative can be resolved against the address. -/
def hasOpaquePath (u : Url) : Bool :=
  match u.path with
  | .whole _ => true
  | .segments _ => false

@[simp] theorem withQuery_withQuery (u : Url) (a b : Option String) :
    (u.withQuery a).withQuery b = u.withQuery b := rfl
@[simp] theorem withQuery_query (u : Url) : u.withQuery u.query = u := rfl

end Url

end AdaptiveHls
