import AdaptiveHls.Playlist.Value

/-!
# Attribute lists

Names and values in the order in which the names first appear. A name has one value, the one
written last. The text of a list is split at the commas that stand outside quotes; pieces without
an equals sign or without a name are dropped.
-/

namespace AdaptiveHls

structure Attribute where
  name : String
  value : Value
  deriving DecidableEq, Repr

structure Attributes where
  pairs : List Attribute := []
  deriving DecidableEq, Repr

namespace Attributes

def get? (a : Attributes) (name : String) : Option Value :=
  (a.pairs.find? (·.name == name)).map (·.value)

def contains (a : Attributes) (name : String) : Bool := (a.get? name).isSome

/-- The pairs with a value for `name`: in its place if there is one, or else at the end. -/
def put (name : String) (value : Value) : List Attribute → List Attribute
  | [] => [⟨name, value⟩]
  | a :: rest => if a.name == name then ⟨name, value⟩ :: rest else a :: put name value rest

def insert (a : Attributes) (name : String) (value : Value) : Attributes :=
  ⟨put name value a.pairs⟩

/-- The pieces between commas outside quotes; `quoted` tells whether the text starts inside. -/
def pieces (quoted : Bool) : List Char → List (List Char)
  | [] => [[]]
  | c :: rest =>
    if c == ',' && !quoted then [] :: pieces quoted rest
    else match pieces (if c == '"' then !quoted else quoted) rest with
      | piece :: more => (c :: piece) :: more
      | [] => [[c]]

def pair? (piece : List Char) : Option Attribute := do
  let (name, value) ← Text.cutChars (· == '=') (Text.strip piece)
  let name := Text.strip name
  if name.isEmpty then none
  else some ⟨String.ofList name, ⟨String.ofList (Text.strip value)⟩⟩

def read (body : String) : Attributes :=
  ((pieces false body.toList).filterMap pair?).foldl (fun a p => a.insert p.name p.value) {}

/-- What has been put under a name is found under it. -/
theorem find?_put_same (name : String) (value : Value) (pairs : List Attribute) :
    (put name value pairs).find? (·.name == name) = some ⟨name, value⟩ := by
  induction pairs with
  | nil => simp [put]
  | cons a rest ih =>
    simp only [put]
    split
    · simp
    · rename_i h
      simp [h, ih]

/-- Putting a value under one name leaves what is found under another. -/
theorem find?_put_other {name other : String} (h : other ≠ name) (value : Value)
    (pairs : List Attribute) :
    (put name value pairs).find? (·.name == other) = pairs.find? (·.name == other) := by
  induction pairs with
  | nil => simp [put, Ne.symm h]
  | cons a rest ih =>
    simp only [put]
    split
    · rename_i same
      have same : a.name = name := by simpa using same
      simp [same, beq_eq_false_iff_ne.2 (Ne.symm h)]
    · simp [List.find?_cons, ih]

@[simp] theorem get?_insert_same (a : Attributes) (name : String) (value : Value) :
    (a.insert name value).get? name = some value := by
  simp [get?, insert, find?_put_same]

@[simp] theorem get?_insert_other (a : Attributes) {name other : String} (h : other ≠ name)
    (value : Value) : (a.insert name value).get? other = a.get? other := by
  simp [get?, insert, find?_put_other h]

end Attributes

end AdaptiveHls
