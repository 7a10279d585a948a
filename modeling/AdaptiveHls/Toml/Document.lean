import AdaptiveHls.Toml.Scalar

/-!
# TOML documents

A document is lines: entries, headers of tables, comments. Values may hold values, to a fixed depth.
Reading gives the whole document as one table, or nothing if it is no TOML.
-/

namespace AdaptiveHls.Toml

/-- How deep values and how long keys may be. -/
def depthLimit : Nat := 80

def isBareKeyChar (c : Char) : Bool :=
  (c.toNat < 0x80 && c.isAlphanum) || c == '_' || c == '-'

def simpleKey? (cs : List Char) : Option (String × List Char) :=
  let bare := cs.takeWhile isBareKeyChar
  if bare.isEmpty then shortString? cs
  else some (String.ofList bare, cs.dropWhile isBareKeyChar)

def keys? : Nat → List Char → Option (List String × List Char)
  | 0, _ => none
  | fuel + 1, cs => do
    let (key, rest) ← simpleKey? (skipSpaces cs)
    match skipSpaces rest with
    | '.' :: more =>
      let (keys, rest) ← keys? fuel more
      some (key :: keys, rest)
    | rest => some ([key], rest)

def skipComment? : List Char → Option (List Char)
  | '#' :: rest => skip rest
  | cs => some cs
where
  skip : List Char → Option (List Char)
    | [] => some []
    | c :: rest =>
      if (newline? (c :: rest)).isSome then some (c :: rest)
      else if isText c then skip rest else none

def skipTrivia? : Nat → List Char → Option (List Char)
  | 0, _ => none
  | fuel + 1, cs => do
    let rest ← skipComment? (skipSpaces cs)
    match newline? rest with
    | some rest => skipTrivia? fuel rest
    | none => some rest

abbrev Reader (α : Type) := List Char → Option (α × List Char)

def items? (value : Reader Toml) : Nat → Reader (List Toml)
  | 0, _ => none
  | fuel + 1, cs => do
    let cs ← skipTrivia? (cs.length + 1) cs
    match cs with
    | ']' :: rest => some ([], rest)
    | _ =>
      let (item, rest) ← value cs
      let rest ← skipTrivia? (rest.length + 1) rest
      match rest with
      | ',' :: more =>
        let (items, rest) ← items? value fuel more
        some (item :: items, rest)
      | ']' :: rest => some ([item], rest)
      | _ => none

def entry? (value : Reader Toml) : Reader (List String × String × Toml) := fun cs => do
  let (keys, rest) ← keys? depthLimit cs
  let key ← keys.getLast?
  match rest with
  | '=' :: more =>
    let (v, rest) ← value (skipSpaces more)
    some ((keys.dropLast, key, v), rest)
  | _ => none

/-- The entries of an inline table that are still to come, after those in `entries`. -/
def inlineEntries? (value : Reader Toml) : Nat → Entries → Reader Entries
  | 0, _, _ => none
  | fuel + 1, entries, cs => do
    let ((path, key, v), rest) ← entry? value cs
    let entries ← defineDotted path key v .closed entries
    match skipSpaces rest with
    | ',' :: more => inlineEntries? value fuel entries more
    | c :: rest => if c.toNat == 0x7D then some (entries, rest) else none
    | [] => none

def inlineTable? (value : Reader Toml) : Reader Toml := fun cs =>
  match skipSpaces cs with
  | c :: rest =>
    if c.toNat == 0x7D then some (.table .closed [], rest)
    else (inlineEntries? value (cs.length + 1) [] cs).map fun (entries, rest) =>
      (.table .closed entries, rest)
  | [] => none

/-- A value whose parts are at most so deep. -/
def value? : Nat → Reader Toml
  | 0, _ => none
  | depth + 1, cs =>
    match cs with
    | '[' :: rest =>
      (items? (value? depth) (rest.length + 1) rest).map fun (items, rest) => (.array items, rest)
    | c :: rest => if c.toNat == 0x7B then inlineTable? (value? depth) rest else scalar? cs
    | [] => none

/-- A document so far: its table, and the path of the newest header. -/
structure Draft where
  entries : Entries := []
  header : List String := []

def addHeader (d : Draft) (keys : List String) (opening : String → Change) : Option Draft := do
  let key ← keys.getLast?
  let entries ← descend .implied (opening key) keys.dropLast .headed d.entries
  some { entries, header := keys }

def addEntry (d : Draft) (path : List String) (key : String) (v : Toml) : Option Draft := do
  let entries ← descend .implied (defineDotted path key v) d.header .headed d.entries
  some { d with entries }

def line? (d : Draft) (cs : List Char) : Option (Draft × List Char) :=
  match cs with
  | '[' :: '[' :: rest => do
    let (keys, rest) ← keys? depthLimit rest
    match rest with
    | ']' :: ']' :: rest => some (← addHeader d keys openNext, rest)
    | _ => none
  | '[' :: rest => do
    let (keys, rest) ← keys? depthLimit rest
    match rest with
    | ']' :: rest => some (← addHeader d keys openTable, rest)
    | _ => none
  | _ => do
    let ((path, key, v), rest) ← entry? (value? depthLimit) cs
    some (← addEntry d path key v, rest)

def lines? : Nat → Draft → List Char → Option Draft
  | 0, _, _ => none
  | fuel + 1, d, cs => do
    let cs ← skipTrivia? (cs.length + 1) cs
    if cs.isEmpty then some d
    else
      let (d, rest) ← line? d cs
      let rest ← skipComment? (skipSpaces rest)
      match rest, newline? rest with
      | [], _ => some d
      | _, some rest => lines? fuel d rest
      | _, none => none

/-- Reads a document. A byte order mark in front does not count. -/
def read? (s : String) : Option Toml :=
  let cs := match s.toList with
    | c :: rest => if c.toNat == 0xFEFF then rest else c :: rest
    | [] => []
  (lines? (cs.length + 1) {} cs).map fun d => .table .headed d.entries

end AdaptiveHls.Toml
