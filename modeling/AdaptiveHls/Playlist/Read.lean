import AdaptiveHls.Failure
import AdaptiveHls.Text.Lines
import AdaptiveHls.Playlist.Entries
import AdaptiveHls.Playlist.Master
import AdaptiveHls.Playlist.Timeline

/-!
# Reading playlists

A playlist opens with its header line and has at least one directive; nothing else is required of
it. With a variant stream in it it is a master playlist, and otherwise a media playlist.
-/

namespace AdaptiveHls.Playlist

/-- Whether a line is the header, with nothing or a blank behind its name. -/
def isHeader (line : String) : Bool :=
  match line.toList with
  | '#' :: 'E' :: 'X' :: 'T' :: 'M' :: '3' :: 'U' :: rest =>
    match rest with
    | [] => true
    | c :: _ => Text.isBlank c
  | _ => false

/-- The playlist of a media playlist's directives; its duration is known once it has ended. -/
def media (url : Url) (directives : List Directive) : Playlist :=
  let assembled := Timeline.assemble (Rendition.ofUrl url) directives
  let r := { assembled with variant := { assembled.variant with kind := .mixed } }
  let duration := if r.live then 0 else (r.segmentList.map (·.totalDuration)).getD 0
  { url, isMaster := false, duration, periods := [⟨[⟨[r]⟩]⟩] }

def master (url : Url) (directives : List Directive) : Playlist :=
  { url, isMaster := true, duration := 0, periods := [⟨Master.sets directives url⟩] }

def ofDirectives (url : Url) (directives : List Directive) : Except Failure Playlist :=
  if directives.isEmpty then .error .emptyPlaylist
  else if directives.any (·.isStreamInf) then .ok (master url directives)
  else .ok (media url directives)

def ofLines (url : Url) (lines : List String) : Except Failure Playlist :=
  if isHeader (lines.headD "") then ofDirectives url (Entries.ofLines lines.tail)
  else .error (.missingHeader url)

def ofBytes (url : Url) (data : List UInt8) : Except Failure Playlist :=
  ofLines url (Text.Lines.ofBytes data)

end AdaptiveHls.Playlist
