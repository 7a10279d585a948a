import AdaptiveHls.Command.Report
import AdaptiveHls.Tracker.Session

/-!
# What is printed while a playlist is followed

A line for each segment that is handed out, or for each part of one that is still being published,
and a line for the hint at what comes next. URIs are printed resolved. Of a master playlist only the
choice of the variant is printed, for the segments are in the variant's own playlist.
-/

namespace AdaptiveHls.Follow

def resolvedText (r : Rendition) (uri : String) : Except Failure String :=
  match r.resolve uri with
  | .ok u => .ok u.text
  | .error e => .error (.url e)

def partLine (r : Rendition) (sequence : Nat) (p : Part) : Except Failure String := do
  let uri ← resolvedText r p.uri
  return "#" ++ toString sequence ++ "." ++ toString p.index ++ " " ++
    Report.secondsText p.duration ++ " " ++ uri

def segmentLine (r : Rendition) (s : Segment) : Except Failure String := do
  let uri ← resolvedText r s.uri
  return "#" ++ toString s.sequence ++ " " ++ Report.secondsText s.duration ++ " " ++ uri

def lines (r : Rendition) (s : Segment) : Except Failure (List String) :=
  if s.inProgress then s.parts.mapM (partLine r s.sequence)
  else (segmentLine r s).map ([·])

def hintLine (h : PreloadHint) : String := "preload " ++ h.uri

/-- What a tracker hands out until it has nothing more, and then its hint. The fuel is at least the
number of segments and parts that are left, and one. -/
def remainingLines : Nat → Tracker → Except Failure (List String)
  | 0, _ => .ok []
  | fuel + 1, t =>
    match t.next, t.snapshot with
    | (some s, t), some r => do
      let these ← lines r s
      let others ← remainingLines fuel t
      return these ++ others
    | (_, t), _ => .ok (t.takePreload.1.toList.map hintLine)

def mediaLines (p : Playlist) (data : List UInt8) (config : TrackerConfig) :
    Except Failure (List String) :=
  let t : Tracker := { descriptor := Rendition.ofUrl p.url, config, initial := some data }
  let start : Session := { tracker := t, server := fun _ => { content := .error .fetch } }
  match start.init with
  | (some (.failed e), _) => .error e
  | (_, s) =>
    let t := s.tracker
    let t := if t.isLive then t.moveToLiveStart config.liveStartIndex else t
    remainingLines (2 * t.size + 1) t

def firstLines (p : Playlist) (data : List UInt8) (maxBandwidth : Option Nat)
    (config : TrackerConfig) : Except Failure (List String) :=
  if p.isMaster then
    match Report.chooseVariant p maxBandwidth with
    | some r => .ok [Report.summaryLine r]
    | none => .error .noRendition
  else mediaLines p data config

end AdaptiveHls.Follow
