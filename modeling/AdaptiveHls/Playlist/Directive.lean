import AdaptiveHls.Playlist.Attributes

/-!
# Directives

A directive is one meaningful line of a playlist: a tag whose body is a single value, a tag whose
body is an attribute list, or the duration and title of a segment. A line without a tag is a
directive too, the URI. Tags that are not known, and those that lack what they must have, are no
directives.
-/

namespace AdaptiveHls

inductive SingleKind where
  | uri
  | version
  | byteRange
  | programDateTime
  | targetDuration
  | mediaSequence
  | discontinuitySequence
  | playlistType
  | endList
  | discontinuity
  | iFramesOnly
  | independentSegments
  deriving DecidableEq, Repr

inductive ListKind where
  | streamInf
  | media
  | key
  | map
  | part
  | partInf
  | serverControl
  | preloadHint
  | skip
  | renditionReport
  deriving DecidableEq, Repr

inductive Directive where
  | single (kind : SingleKind) (value : Value)
  | list (kind : ListKind) (attributes : Attributes)
  /-- A segment's duration and perhaps its title, as attributes. -/
  | inf (attributes : Attributes)
  deriving DecidableEq, Repr

namespace SingleKind

def name : SingleKind → String
  | uri => ""
  | version => "EXT-X-VERSION"
  | byteRange => "EXT-X-BYTERANGE"
  | programDateTime => "EXT-X-PROGRAM-DATE-TIME"
  | targetDuration => "EXT-X-TARGETDURATION"
  | mediaSequence => "EXT-X-MEDIA-SEQUENCE"
  | discontinuitySequence => "EXT-X-DISCONTINUITY-SEQUENCE"
  | playlistType => "EXT-X-PLAYLIST-TYPE"
  | endList => "EXT-X-ENDLIST"
  | discontinuity => "EXT-X-DISCONTINUITY"
  | iFramesOnly => "EXT-X-I-FRAMES-ONLY"
  | independentSegments => "EXT-X-INDEPENDENT-SEGMENTS"

def all : List SingleKind :=
  [uri, version, byteRange, programDateTime, targetDuration, mediaSequence, discontinuitySequence,
    playlistType, endList, discontinuity, iFramesOnly, independentSegments]

def ofName? (name : String) : Option SingleKind := all.find? (·.name == name)

def accepts (kind : SingleKind) (value : Value) : Bool :=
  match kind with
  | version | targetDuration | mediaSequence | discontinuitySequence => value.count?.isSome
  | byteRange => value.range?.isSome
  | programDateTime | playlistType => !value.isEmpty
  | uri | endList | discontinuity | iFramesOnly | independentSegments => true

end SingleKind

namespace ListKind

def name : ListKind → String
  | streamInf => "EXT-X-STREAM-INF"
  | media => "EXT-X-MEDIA"
  | key => "EXT-X-KEY"
  | map => "EXT-X-MAP"
  | part => "EXT-X-PART"
  | partInf => "EXT-X-PART-INF"
  | serverControl => "EXT-X-SERVER-CONTROL"
  | preloadHint => "EXT-X-PRELOAD-HINT"
  | skip => "EXT-X-SKIP"
  | renditionReport => "EXT-X-RENDITION-REPORT"

def all : List ListKind :=
  [streamInf, media, key, map, part, partInf, serverControl, preloadHint, skip, renditionReport]

def ofName? (name : String) : Option ListKind := all.find? (·.name == name)

def mandatory : ListKind → List String
  | media => ["TYPE", "GROUP-ID"]
  | key => ["METHOD"]
  | map => ["URI"]
  | part => ["URI", "DURATION"]
  | partInf => ["PART-TARGET"]
  | preloadHint => ["TYPE", "URI"]
  | skip => ["SKIPPED-SEGMENTS"]
  | renditionReport => ["URI"]
  | streamInf | serverControl => []

end ListKind

namespace Directive

def infName : String := "EXTINF"

/-- Reads a duration and, behind the first comma, a title. -/
def readInf? (body : String) : Option Directive :=
  let (duration, title) := match Text.cut? (· == ',') body with
    | some (duration, title) => (duration, Text.trim title)
    | none => (body, "")
  let duration : Value := ⟨Text.trim duration⟩
  let attributes := ({} : Attributes).insert "DURATION" duration
  if duration.number?.isNone then none
  else if title.isEmpty then some (.inf attributes)
  else some (.inf (attributes.insert "TITLE" ⟨title⟩))

def read? (name body : String) : Option Directive :=
  match SingleKind.ofName? name with
  | some kind =>
    let value : Value := ⟨Text.trim body⟩
    if kind.accepts value then some (.single kind value) else none
  | none =>
    match ListKind.ofName? name with
    | some kind =>
      let attributes := Attributes.read body
      if kind.mandatory.all attributes.contains then some (.list kind attributes) else none
    | none => if name == infName then readInf? body else none

def uri (line : String) : Directive := .single .uri ⟨Text.trim line⟩

def name : Directive → String
  | single kind _ => kind.name
  | list kind _ => kind.name
  | inf _ => infName

def attribute? : Directive → String → Option Value
  | single _ _, _ => none
  | list _ attributes, name => attributes.get? name
  | inf attributes, name => attributes.get? name

def isStreamInf : Directive → Bool
  | list .streamInf _ => true
  | _ => false

/-- The directive with the URI that the line after it holds; only a variant stream takes one. -/
def withUri? (line : String) : Directive → Option Directive
  | list .streamInf attributes =>
    some (.list .streamInf (attributes.insert "URI" ⟨Text.trim line⟩))
  | _ => none

end Directive

end AdaptiveHls
