import AdaptiveHls.Media.SegmentList
import AdaptiveHls.Url.Parser

/-!
# Renditions and playlists

A rendition is one encoding of the content: a variant or an alternative track. What a master
playlist says about it and what its own media playlist says are held in one record. A playlist
groups renditions into sets; a media playlist has one set with one rendition.
-/

namespace AdaptiveHls

inductive StreamKind where
  | unknown
  | video
  | audio
  | subtitle
  | mixed
  deriving DecidableEq, Repr

/-- What the server offers to clients that reload. Times are in seconds. -/
structure ServerControl where
  canBlock : Bool := false
  /-- Zero if there are no delta updates. -/
  skipUntil : Float := 0
  holdBack : Float := 0
  partHoldBack : Float := 0

structure Resolution where
  width : Nat
  height : Nat
  deriving DecidableEq, Repr

structure StreamInfo where
  width : Nat
  height : Nat
  bandwidth : Nat
  language : Option String
  deriving DecidableEq, Repr

/-- What a master playlist says about a rendition. -/
structure Variant where
  bandwidth : Nat := 0
  resolution : Option Resolution := none
  codecs : Option String := none
  kind : StreamKind := .unknown
  language : Option String := none
  groupId : Option String := none
  name : Option String := none
  audioGroup : Option String := none
  videoGroup : Option String := none
  deriving DecidableEq, Repr

structure Rendition where
  playlistUrl : Url
  /-- The directory of `playlistUrl`. -/
  baseUrl : Url
  variant : Variant := {}
  live : Bool := true
  targetDuration : Int := 0
  partTarget : Int := 0
  serverControl : ServerControl := {}
  reports : List RenditionReport := []
  preloadHint : Option PreloadHint := none
  version : Option Nat := none
  mediaSequence : Nat := 0
  discontinuitySequence : Nat := 0
  iFramesOnly : Bool := false
  independentSegments : Bool := false
  /-- How many segments a delta update leaves out. -/
  skipped : Nat := 0
  segmentList : Option SegmentList := none

namespace Rendition

def ofUrl (url : Url) : Rendition := { playlistUrl := url, baseUrl := url.directory }

def streamInfo (r : Rendition) : StreamInfo where
  width := (r.variant.resolution.map (·.width)).getD 0
  height := (r.variant.resolution.map (·.height)).getD 0
  bandwidth := r.variant.bandwidth
  language := r.variant.language

def description (r : Rendition) : String :=
  let known := [r.variant.groupId, r.variant.name].filterMap id
  " ".intercalate (known.filter fun s => !s.isEmpty)

/-- Whether segments are published in parts. -/
def isLowLatency (r : Rendition) : Bool := 0 < r.partTarget

def resolve (r : Rendition) (uri : String) : Except UrlError Url := r.playlistUrl.join uri

def segments (r : Rendition) : List Segment :=
  match r.segmentList with
  | some l => l.segments
  | none => []

def lastSegment? (r : Rendition) : Option Segment := r.segmentList.bind (·.last?)

def firstSequence? (r : Rendition) : Option Nat := r.segmentList.bind (·.firstSequence?)

def lastSequence? (r : Rendition) : Option Nat := r.segmentList.bind (·.lastSequence?)

end Rendition

structure RenditionSet where
  renditions : List Rendition := []

namespace RenditionSet

def description? (s : RenditionSet) : Option String :=
  (s.renditions.head?.map (·.description)).filter fun d => !d.isEmpty

end RenditionSet

structure Period where
  sets : List RenditionSet

structure Playlist where
  url : Url
  isMaster : Bool
  /-- Zero for live playlists. -/
  duration : Int
  periods : List Period

namespace Playlist

def renditionSets (p : Playlist) : List RenditionSet := p.periods.flatMap (·.sets)

def renditions (p : Playlist) : List Rendition := p.renditionSets.flatMap (·.renditions)

def firstRendition? (p : Playlist) : Option Rendition := p.renditions.head?

end Playlist

end AdaptiveHls
