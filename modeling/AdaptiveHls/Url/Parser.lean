import AdaptiveHls.Url.Host

/-!
# Reading addresses

An address is read against an optional base. Blanks and control characters around it and line
breaks and tabs inside it do not count. A text that begins with a scheme stands for itself, except
that after the base's own scheme a part without slashes is still relative; anything else is
resolved against the base. Schemes with a known structure always have a host, and their backslashes
are slashes; `file` may have an empty host and takes drive letters into account.
-/

namespace AdaptiveHls.Url

def isSpecial (scheme : String) : Bool :=
  scheme == "http" || scheme == "https" || scheme == "ws" || scheme == "wss" ||
    scheme == "ftp" || scheme == "file"

def defaultPort? (scheme : String) : Option Nat :=
  match scheme with
  | "http" | "ws" => some 80
  | "https" | "wss" => some 443
  | "ftp" => some 21
  | _ => none

def clean (s : String) : List Char :=
  let inner := (s.toList.dropWhile (·.toNat ≤ 0x20)).reverse.dropWhile (·.toNat ≤ 0x20)
  inner.reverse.filter fun c => c != '\t' && c != '\n' && c != '\r'

def scheme? (cs : List Char) : Option (String × List Char) :=
  let isSchemeChar (c : Char) := c.isAlphanum || c == '+' || c == '-' || c == '.'
  match cs.head?, cs.dropWhile isSchemeChar with
  | some c, ':' :: rest =>
    if c.isAlpha then some (String.ofList ((cs.takeWhile isSchemeChar).map Char.toLower), rest)
    else none
  | _, _ => none

def isSlash (special : Bool) (c : Char) : Bool := c == '/' || (special && c == '\\')

def endsPath (c : Char) : Bool := c == '?' || c == '#'

def pathPieces (special : Bool) : List Char → List (List Char) × List Char
  | [] => ([[]], [])
  | c :: rest =>
    if endsPath c then ([[]], c :: rest)
    else
      let (pieces, after) := pathPieces special rest
      if isSlash special c then ([] :: pieces, after)
      else match pieces with
        | piece :: more => ((c :: piece) :: more, after)
        | [] => ([[c]], after)

/-- Characters with the dots among them decoded, which are percent-encoded in lower case. -/
def decodeDots : List Char → List Char
  | '%' :: '2' :: 'e' :: rest => '.' :: decodeDots rest
  | c :: rest => c :: decodeDots rest
  | [] => []

def dotForms (piece : List Char) : String := String.ofList (decodeDots (piece.map Char.toLower))

def isSingleDot (piece : List Char) : Bool := dotForms piece == "."
def isDoubleDot (piece : List Char) : Bool := dotForms piece == ".."

def isDriveLetter : List Char → Bool
  | [c, d] => c.isAlpha && (d == ':' || d == '|')
  | _ => false

def isNormalDriveLetter : List Char → Bool
  | [c, ':'] => c.isAlpha
  | _ => false

def startsWithDriveLetter : List Char → Bool
  | c :: d :: rest => isDriveLetter [c, d] && match rest with
    | [] => true
    | e :: _ => e == '/' || e == '\\' || endsPath e
  | _ => false

/-- Reversed segments without the last one; a drive letter alone stays. -/
def shorten (isFile : Bool) : List String → List String
  | [] => []
  | [only] => if isFile && isNormalDriveLetter only.toList then [only] else []
  | _ :: rest => rest

/-- Reversed segments after the piece `piece`; a last piece of dots leaves an empty segment. -/
def addPiece (isFile isLast : Bool) (done : List String) (piece : List Char) : List String :=
  if isDoubleDot piece then
    let shorter := shorten isFile done
    if isLast then "" :: shorter else shorter
  else if isSingleDot piece then
    if isLast then "" :: done else done
  else if isFile && done.isEmpty && isDriveLetter piece then
    String.ofList (piece.take 1 ++ [':']) :: done
  else Percent.encodeText Percent.inPath piece :: done

def addPieces (isFile : Bool) (done : List String) : List (List Char) → List String
  | [] => done
  | [piece] => addPiece isFile true done piece
  | piece :: rest => addPieces isFile (addPiece isFile false done piece) rest

def dropEmptyFront : List String → List String
  | "" :: next :: rest => dropEmptyFront (next :: rest)
  | names => names

def readPath (scheme : String) (start : List String) (cs : List Char) : UrlPath × List Char :=
  let isFile := scheme == "file"
  let (pieces, after) := pathPieces (isSpecial scheme) cs
  let names := (addPieces isFile start.reverse pieces).reverse
  (.segments (if isFile then dropEmptyFront names else names), after)

def readRootedPath (scheme : String) (cs : List Char) : UrlPath × List Char :=
  match cs with
  | [] => if isSpecial scheme then readPath scheme [] [] else (.segments [], [])
  | c :: rest =>
    if isSlash (isSpecial scheme) c then readPath scheme [] rest
    else if !isSpecial scheme && endsPath c then (.segments [], cs)
    else readPath scheme [] cs

def readTail (scheme : String) (cs : List Char) : Option String × Option String :=
  let fragment (cs : List Char) := some (Percent.encodeText Percent.inFragment cs)
  match cs with
  | '?' :: rest =>
    let set := if isSpecial scheme then Percent.inSpecialQuery else Percent.inQuery
    let query := some (Percent.encodeText set (rest.takeWhile (· != '#')))
    match rest.dropWhile (· != '#') with
    | _ :: after => (query, fragment after)
    | [] => (query, none)
  | '#' :: rest => (none, fragment rest)
  | _ => (none, none)

/-- An address of which all but query and fragment is known. -/
def finish (scheme : String) (authority : Option Authority) (path : UrlPath × List Char) : Url :=
  let (query, fragment) := readTail scheme path.2
  { scheme, authority, path := path.1, query, fragment }

def cutLastAt (cs : List Char) : Option (List Char × List Char) :=
  let tail := cs.reverse.takeWhile (· != '@')
  if tail.length = cs.length then none
  else some (cs.take (cs.length - tail.length - 1), tail.reverse)

def readUserInfo (cs : List Char) : String × String :=
  let encode := Percent.encodeText Percent.inUserInfo
  match Text.cutChars (· == ':') cs with
  | some (name, password) => (encode name, encode password)
  | none => (encode cs, "")

/-- The host's characters, up to a colon outside brackets. -/
def spanHost (inside : Bool) : List Char → List Char × List Char
  | [] => ([], [])
  | c :: rest =>
    if c == ':' && !inside then ([], c :: rest)
    else
      let (host, after) := spanHost (if c == '[' then true else if c == ']' then false else inside) rest
      (c :: host, after)

/-- A port after a colon; the scheme's own port counts as none. -/
def readPort (scheme : String) (cs : List Char) : Except UrlError (Option Nat) :=
  match cs with
  | ':' :: digits =>
    if !digits.all Number.isDigit || 65535 < Number.ofDigits digits then .error .invalidPort
    else if digits.isEmpty || defaultPort? scheme == some (Number.ofDigits digits) then .ok none
    else .ok (some (Number.ofDigits digits))
  | _ => .ok none

def readAuthority (scheme : String) (cs : List Char) : Except UrlError Url := do
  let ends (c : Char) := isSlash (isSpecial scheme) c || endsPath c
  let whole := cs.takeWhile fun c => !ends c
  let rest := cs.dropWhile fun c => !ends c
  let (userInfo, hostAndPort) := (cutLastAt whole).getD ([], whole)
  let (username, password) := readUserInfo userInfo
  let named := !username.isEmpty || !password.isEmpty
  if hostAndPort.isEmpty && (named || (whole == ['@'] && !rest.isEmpty)) then throw .emptyHost
  let (hostChars, portChars) := spanHost false hostAndPort
  if hostChars.isEmpty && (isSpecial scheme || !portChars.isEmpty) then throw .emptyHost
  let host ← if isSpecial scheme then Host.read hostChars else Host.readOpaque hostChars
  let port ← readPort scheme portChars
  return finish scheme (some { username, password, host, port }) (readRootedPath scheme rest)

def localAuthority : Authority := { host := .domain "" }

def segmentsOf : UrlPath → List String
  | .segments names => names
  | .whole _ => []

/-- A reference that begins neither with a scheme nor with two slashes, against `base`. -/
def readReference (base : Url) (cs : List Char) : Url :=
  let scheme := base.scheme
  let names := segmentsOf base.path
  match cs with
  | [] => { base with fragment := none }
  | c :: rest =>
    if c == '?' then
      let (query, fragment) := readTail scheme cs
      { base with query, fragment }
    else if c == '#' then { base with fragment := (readTail scheme cs).2 }
    else if c == '/' || c == '\\' then
      finish scheme base.authority (readPath scheme [] rest)
    else
      finish scheme base.authority
        (readPath scheme (shorten (scheme == "file") names.reverse).reverse cs)

/-- Anything relative to a `base` that is not a file. Two plain slashes are followed by a host at
once; other pairs of slashes may have more slashes behind them. -/
def readRelative (base : Url) (cs : List Char) : Except UrlError Url :=
  match cs with
  | '/' :: '/' :: rest => readAuthority base.scheme rest
  | c :: d :: _ =>
    if isSlash true c && isSlash true d then
      readAuthority base.scheme (cs.dropWhile (isSlash true))
    else .ok (readReference base cs)
  | _ => .ok (readReference base cs)

def readFileHost (cs : List Char) : Except UrlError Url := do
  let ends (c : Char) := isSlash true c || endsPath c
  let hostChars := cs.takeWhile fun c => !ends c
  if isDriveLetter hostChars then
    return finish "file" (some localAuthority) (readPath "file" [] cs)
  else if hostChars.isEmpty then
    return finish "file" (some localAuthority) (readRootedPath "file" cs)
  else
    let host ← Host.read hostChars
    let authority := if host = .domain "localhost" then localAuthority else { host }
    return finish "file" (some authority) (readRootedPath "file" (cs.dropWhile fun c => !ends c))

/-- A file address with one slash in front: it keeps the base's host, or its drive. -/
def readFileSlash (base : Option Url) (cs : List Char) : Url :=
  let path := cs.drop 1
  match base with
  | some b =>
    if startsWithDriveLetter path then finish "file" (some localAuthority) (readPath "file" [] path)
    else match segmentsOf b.path with
      | drive :: _ =>
        if isNormalDriveLetter drive.toList then
          finish "file" (some localAuthority) (readPath "file" [drive] path)
        else finish "file" b.authority (readPath "file" [] path)
      | [] => finish "file" b.authority (readPath "file" [] path)
  | none => finish "file" (some localAuthority) (readPath "file" [] path)

/-- A file address, from behind its scheme if it has one; `base` is a file address too. -/
def readFile (base : Option Url) (cs : List Char) : Except UrlError Url :=
  match cs with
  | c :: d :: rest =>
    if isSlash true c && isSlash true d then readFileHost rest
    else if isSlash true c then .ok (readFileSlash base cs)
    else .ok (noSlash base cs)
  | [c] => .ok (if isSlash true c then readFileSlash base cs else noSlash base cs)
  | [] => .ok (noSlash base cs)
where
  noSlash (base : Option Url) (cs : List Char) : Url :=
    match base with
    | some b =>
      if startsWithDriveLetter cs then finish "file" (some localAuthority) (readPath "file" [] cs)
      else readReference b cs
    | none => finish "file" (some localAuthority) (readPath "file" [] cs)

def readOpaquePath (scheme : String) (cs : List Char) : Url :=
  let text := cs.takeWhile fun c => !endsPath c
  finish scheme none
    (.whole (Percent.encodeText Percent.isControl text), cs.dropWhile fun c => !endsPath c)

def readAfterScheme (base : Option Url) (scheme : String) (cs : List Char) :
    Except UrlError Url :=
  if scheme == "file" then readFile (base.filter (·.scheme == "file")) cs
  else if isSpecial scheme then
    let slashes := (cs.takeWhile (isSlash true)).length
    match base.filter fun b => b.scheme == scheme && slashes < 2 with
    | some b => readRelative b cs
    | none => readAuthority scheme (cs.dropWhile (isSlash true))
  else match cs with
    | '/' :: '/' :: rest => readAuthority scheme rest
    | '/' :: rest => .ok (finish scheme none (readPath scheme [] rest))
    | _ => .ok (readOpaquePath scheme cs)

def resolve (base : Option Url) (s : String) : Except UrlError Url :=
  let cs := clean s
  match scheme? cs with
  | some (scheme, rest) => readAfterScheme base scheme rest
  | none =>
    match base with
    | none => .error .noBase
    | some b =>
      if cs.head? == some '#' then .ok { b with fragment := (readTail b.scheme cs).2 }
      else if b.hasOpaquePath then .error .wholeBase
      else if b.scheme == "file" then readFile (some b) cs
      else readRelative b cs

def parse (s : String) : Except UrlError Url := resolve none s

def join (base : Url) (s : String) : Except UrlError Url := resolve (some base) s

/-- The directory of an address, or the address itself if it has none. -/
def directory (u : Url) : Url :=
  match u.join "." with
  | .ok d => d
  | .error _ => u

end AdaptiveHls.Url
