import AdaptiveHls.Playlist.Read

/-!
# What is printed about a playlist

One line for the playlist, one for each set, and some for each rendition in it: what it carries,
what it is called, and, of a media playlist, how long it is and perhaps its segments. Times are in
seconds with three places. The choice of a variant to follow is here too.
-/

namespace AdaptiveHls.Report

def kindText : StreamKind → String
  | .unknown => "Unknown"
  | .video => "Video"
  | .audio => "Audio"
  | .subtitle => "Subtitle"
  | .mixed => "Mixed"

def secondsText (t : Int) : String := Number.threePlaces (Number.secondsOfTicks t) ++ "s"

def summaryLine (r : Rendition) : String :=
  let info := r.streamInfo
  "  [" ++ kindText r.variant.kind ++ "] " ++ toString info.bandwidth ++ " bps " ++
    toString info.width ++ "x" ++ toString info.height ++ " " ++ r.variant.codecs.getD "-" ++ " " ++
    r.playlistUrl.text

def listLine (r : Rendition) (l : SegmentList) : String :=
  "    live: " ++ (if r.live then "true" else "false") ++
    ", target duration: " ++ secondsText r.targetDuration ++
    ", segments: " ++ toString l.size ++
    ", duration: " ++ secondsText l.totalDuration

def segmentLine (s : Segment) : String :=
  let range := match s.byteRange with
    | some r => " (" ++ r.requestText ++ ")"
    | none => ""
  "    #" ++ toString s.sequence ++ " " ++ secondsText s.duration ++ " " ++ s.uri ++ range

def renditionLines (segments : Bool) (r : Rendition) : List String :=
  let description := if r.description.isEmpty then [] else ["    " ++ r.description]
  let list := match r.segmentList with
    | some l => listLine r l :: if segments then l.segments.map segmentLine else []
    | none => []
  summaryLine r :: description ++ list

def setLines (segments : Bool) (index : Nat) (s : RenditionSet) : List String :=
  ("Adaptation set " ++ toString index) :: s.renditions.flatMap (renditionLines segments)

def lines (p : Playlist) (segments : Bool) : List String :=
  let title := (if p.isMaster then "Master" else "Media") ++ " playlist " ++ p.url.text
  title :: (p.renditionSets.zipIdx.map fun (s, i) => setLines segments i s).flatten

/-- The last of those with the greatest bandwidth. -/
def widest? (variants : List Rendition) : Option Rendition :=
  variants.foldl (fun best r =>
    match best with
    | some b => if b.variant.bandwidth ≤ r.variant.bandwidth then some r else best
    | none => some r) none

/-- The first of those with the least bandwidth. -/
def narrowest? (variants : List Rendition) : Option Rendition :=
  variants.foldl (fun best r =>
    match best with
    | some b => if r.variant.bandwidth < b.variant.bandwidth then some r else best
    | none => some r) none

/-- The variants to choose from: those of the first set. -/
def variants (p : Playlist) : List Rendition :=
  match p.periods with
  | period :: _ =>
    match period.sets with
    | s :: _ => s.renditions
    | [] => []
  | [] => []

/-- The variant to follow: the widest within the bound, or else the narrowest of all. -/
def chooseVariant (p : Playlist) (maxBandwidth : Option Nat) : Option Rendition :=
  let fits (r : Rendition) : Bool := maxBandwidth.all fun most => r.variant.bandwidth ≤ most
  widest? ((variants p).filter fits) <|> narrowest? (variants p)

end AdaptiveHls.Report
