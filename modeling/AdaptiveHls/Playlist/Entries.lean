import AdaptiveHls.Playlist.Directive

/-!
# From lines to directives

After the header each line is a tag, a comment, a URI or blank. A URI that follows a variant stream
at once, or with only comments in between, belongs to that stream; any other URI is a directive of
its own. What the newest directive may still take is all that has to be remembered from line to
line.
-/

namespace AdaptiveHls

/-- The directives so far, the newest first. -/
structure Entries where
  newestFirst : List Directive := []
  /-- Whether the newest one may still take the URI of the next line. -/
  awaitsUri : Bool := false
  deriving DecidableEq, Repr

namespace Entries

def splitTag (tag : String) : String × String :=
  match Text.cut? (· == ':') tag with
  | some (name, body) => (Text.trim name, body)
  | none => (Text.trim tag, "")

def push (e : Entries) (d : Directive) (awaitsUri : Bool) : Entries :=
  ⟨d :: e.newestFirst, awaitsUri⟩

def addTag (e : Entries) (tag : String) : Entries :=
  match Directive.read? (splitTag tag).1 (splitTag tag).2 with
  | some d => e.push d true
  | none => { e with awaitsUri := false }

def addUri (e : Entries) (line : String) : Entries :=
  match e.awaitsUri, e.newestFirst with
  | true, newest :: older =>
    match newest.withUri? line with
    | some joined => ⟨joined :: older, false⟩
    | none => e.push (.uri line) false
  | _, _ => e.push (.uri line) false

def addLine (e : Entries) (line : String) : Entries :=
  match line.toList with
  | '#' :: tag =>
    if ['E', 'X', 'T'].isPrefixOf tag then e.addTag (String.ofList tag) else e
  | _ => if Text.isBlankText line then { e with awaitsUri := false } else e.addUri line

def directives (e : Entries) : List Directive := e.newestFirst.reverse

def ofLines (lines : List String) : List Directive := (lines.foldl addLine {}).directives

@[simp] theorem directives_push (e : Entries) (d : Directive) (awaitsUri : Bool) :
    (e.push d awaitsUri).directives = e.directives ++ [d] := by
  simp [directives, push]

end Entries

end AdaptiveHls
