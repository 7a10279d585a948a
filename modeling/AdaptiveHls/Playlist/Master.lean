import AdaptiveHls.Playlist.Directive
import AdaptiveHls.Media.Rendition

/-!
# Master playlists

A master playlist lists variant streams, which make up one set, and alternative renditions, each of
which is a set of its own. Alternatives are ordered by their URIs, and of those with the same URI
the first counts. A stream that points to an alternative is that alternative. Alternatives without
a URI only tell that a stream carries more than its codecs say.
-/

namespace AdaptiveHls.Master

/-- The alternatives by URI, in rising order, with `a` added unless its URI is there already. -/
def insertGroup (uri : String) (a : Attributes) :
    List (String × Attributes) → List (String × Attributes)
  | [] => [(uri, a)]
  | g :: rest =>
    if uri < g.1 then (uri, a) :: g :: rest
    else if uri == g.1 then g :: rest
    else g :: insertGroup uri a rest

def mediaAttributes (directives : List Directive) : List Attributes :=
  directives.filterMap fun
    | .list .media a => some a
    | _ => none

def streamAttributes (directives : List Directive) : List Attributes :=
  directives.filterMap fun
    | .list .streamInf a => some a
    | _ => none

/-- The alternatives that have a URI, in the order of the URIs. -/
def groups (directives : List Directive) : List (String × Attributes) :=
  (mediaAttributes directives).foldl (fun known a =>
    match a.get? "URI" with
    | some uri => insertGroup uri.text a known
    | none => known) []

def withoutUri (directives : List Directive) : List Attributes :=
  (mediaAttributes directives).filter fun a => (a.get? "URI").isNone

def videoCodecs : List String := ["avc", "hvc", "hev", "av01", "vp09"]

def audioCodecs : List String := ["mp4a", "ac-3", "ec-3", "opus"]

def namesOne (codecs : String) (known : List String) : Bool :=
  known.any fun name => Text.occursIn name.toList codecs.toList

/-- What a stream carries itself, by its codecs; what a group supplies does not count. -/
def kindOf (codecs : String) (audioGroup videoGroup : Option String) : StreamKind :=
  let video := videoGroup.isNone && namesOne codecs videoCodecs
  let audio := audioGroup.isNone && namesOne codecs audioCodecs
  match video, audio with
  | true, true => .mixed
  | true, false => .video
  | false, true => .audio
  | false, false => .unknown

def readResolution? (a : Attributes) : Option Resolution :=
  match (a.get? "RESOLUTION").bind (·.dimensions?) with
  | some (width, height) => if 0 < width && 0 < height then some ⟨width, height⟩ else none
  | none => none

def readVariant (a : Attributes) : Variant :=
  let text (name : String) := (a.get? name).map (·.text)
  { bandwidth := ((a.get? "BANDWIDTH").bind (·.count?)).getD 0
    resolution := readResolution? a
    codecs := text "CODECS"
    kind := match text "CODECS" with
      | some codecs => kindOf codecs (text "AUDIO") (text "VIDEO")
      | none => .unknown
    audioGroup := text "AUDIO"
    videoGroup := text "VIDEO" }

def rendition? (a : Attributes) (uri : String) (base : Url) : Option Rendition :=
  match base.join uri with
  | .ok url => some { Rendition.ofUrl url with variant := readVariant a }
  | .error _ => none

/-- Whether an alternative without a URI is in a group of a stream that is not of its kind yet. -/
def refines (stream : Attributes) (kind : StreamKind) (alternative : Attributes) : Bool :=
  match alternative.get? "GROUP-ID" with
  | none => false
  | some group =>
    !group.isEmpty &&
      ((stream.get? "VIDEO" == some group && kind != .video) ||
        (stream.get? "AUDIO" == some group && kind != .audio))

def refinedKind (stream : Attributes) (kind : StreamKind) (alternatives : List Attributes) :
    StreamKind :=
  if kind != .mixed && alternatives.any (refines stream kind) then
    match kind with
    | .unknown => if stream.contains "AUDIO" then .audio else .video
    | _ => .mixed
  else kind

/-- The rendition of a stream, if it is one of its own and its URI resolves. -/
def stream? (known : List (String × Attributes)) (alternatives : List Attributes) (base : Url)
    (a : Attributes) : Option Rendition := do
  let uri ← a.get? "URI"
  if known.any (·.1 == uri.raw) then none
  else
    let r ← rendition? a uri.raw base
    let kind := refinedKind a r.variant.kind alternatives
    some { r with variant := { r.variant with kind } }

def kindOfType (type : Option Value) : StreamKind :=
  match type.map (·.raw) with
  | some "AUDIO" => .audio
  | some "VIDEO" => .video
  | some "SUBTITLES" => .subtitle
  | _ => .mixed

/-- The primary language of a tag, unless it is too long to be one. -/
def language? (tag : String) : Option String :=
  let tag := Text.trim tag
  let short (s : String) := s.utf8ByteSize ≤ 3
  let whole := if short tag && !tag.isEmpty then some tag else none
  match Text.cut? (· == '-') tag with
  | some (primary, _) => if !primary.isEmpty && short primary then some primary else whole
  | none => whole

/-- The rendition of an alternative, if its URI resolves. -/
def alternative? (base : Url) (group : String × Attributes) : Option Rendition :=
  let a := group.2
  (rendition? a group.1 base).map fun r =>
    { r with
      variant := { r.variant with
        kind := kindOfType (a.get? "TYPE")
        language := (a.get? "LANGUAGE").bind fun l => language? l.text
        groupId := (a.get? "GROUP-ID").map (·.text)
        name := (a.get? "NAME").map (·.text) } }

/-- The sets of a master playlist; a set without renditions is none. -/
def sets (directives : List Directive) (base : Url) : List RenditionSet :=
  let known := groups directives
  let streams := (streamAttributes directives).filterMap
    (stream? known (withoutUri directives) base)
  let alternatives := (known.filterMap (alternative? base)).map fun r => ⟨[r]⟩
  if streams.isEmpty then alternatives else ⟨streams⟩ :: alternatives

end AdaptiveHls.Master
