/-!
# TOML values and tables

A document is one table that grows entry by entry. How a table came about decides what may still be
added to it: one that a header merely passed through may yet get its own header, one made by dotted
keys may only grow by dotted keys, and one written inline is closed. Nothing is ever defined twice.
-/

namespace AdaptiveHls

namespace Toml

/-- How a table came about. -/
inductive Form where
  /-- On the way to a table that has a header. -/
  | implied
  /-- By a dotted key. -/
  | dotted
  /-- By a header of its own. -/
  | headed
  /-- As a value. -/
  | closed
  deriving DecidableEq, Repr

end Toml

inductive Toml where
  | string (s : String)
  | integer (n : Int)
  | float (x : Float)
  | boolean (b : Bool)
  | dateTime
  | array (items : List Toml)
  | table (form : Toml.Form) (entries : List (String × Toml))
  /-- The tables of an array of them, the newest last. -/
  | tables (items : List (List (String × Toml)))

namespace Toml

abbrev Entries := List (String × Toml)

def lookup (key : String) (entries : Entries) : Option Toml :=
  (entries.find? (·.1 == key)).map (·.2)

def replace (key : String) (value : Toml) (entries : Entries) : Entries :=
  entries.map fun e => if e.1 == key then (key, value) else e

/-- A change of the entries of a table of some form; nothing if it is not allowed. -/
abbrev Change := Form → Entries → Option Entries

/-- Applies a change to the table that a path leads to. Tables on the way that are not there yet
come about by `made`; dotted keys do not lead into tables that have headers. -/
def descend (made : Form) (change : Change) : List String → Change
  | [], form, entries => change form entries
  | key :: rest, _, entries =>
    match lookup key entries with
    | none => do
      let inner ← descend made change rest made []
      some (entries ++ [(key, .table made inner)])
    | some (.table .closed _) => none
    | some (.table form inner) =>
      if made = .dotted && form = .headed then none
      else do
        let inner ← descend made change rest form inner
        some (replace key (.table form inner) entries)
    | some (.tables items) => do
      let last ← items.getLast?
      let inner ← descend made change rest .headed last
      some (replace key (.tables (items.dropLast ++ [inner])) entries)
    | some _ => none

def define (key : String) (value : Toml) : Change := fun _ entries =>
  match lookup key entries with
  | none => some (entries ++ [(key, value)])
  | some _ => none

/-- Defines a dotted key, whose last part is `key`. A table that dotted keys lead to must have come
about by dotted keys. -/
def defineDotted (path : List String) (key : String) (value : Toml) : Change :=
  descend .dotted (fun form entries =>
    if (form = .dotted) = path.isEmpty then none else define key value form entries) path

def openTable (key : String) : Change := fun _ entries =>
  match lookup key entries with
  | none => some (entries ++ [(key, .table .headed [])])
  | some (.table .implied inner) => some (replace key (.table .headed inner) entries)
  | some _ => none

def openNext (key : String) : Change := fun _ entries =>
  match lookup key entries with
  | none => some (entries ++ [(key, .tables [[]])])
  | some (.tables items) => some (replace key (.tables (items ++ [[]])) entries)
  | some _ => none

end Toml

end AdaptiveHls
