import AdaptiveHls.Media.Rendition
import AdaptiveHls.Settings.Config
import AdaptiveHls.Url.Query

/-!
# When and how to reload

A live playlist is loaded again and again. Whether the server may hold the request until something
new is there, whether it may leave out what the client has, and how long to wait before asking, all
follow from the newest snapshot and from how the loads before went. Moments and settings are in
milliseconds; the time to wait is in nanoseconds, as half a duration need not be a whole number of
anything greater.
-/

namespace AdaptiveHls

/-- A segment, or a part of it, that a held request waits for. -/
structure Target where
  sequence : Nat
  part : Option Nat
  deriving DecidableEq, Repr

structure ReloadState where
  /-- When the newest load ended, well or badly. -/
  lastLoad : Option Nat := none
  /-- Whether the newest snapshot ends where the one before ended. -/
  unchanged : Bool := false
  /-- When the first load of the present run of failures ended. -/
  failingSince : Option Nat := none
  /-- Whether a delta update could not be used, and no snapshot has come since. -/
  needsFull : Bool := false
  deriving DecidableEq, Repr

namespace ReloadState

def recordSuccess (r : ReloadState) (now : Nat) (unchanged : Bool) : ReloadState :=
  { r with lastLoad := some now, unchanged, failingSince := none }

def recordFailure (r : ReloadState) (now : Nat) : ReloadState :=
  { r with lastLoad := some now, failingSince := some (r.failingSince.getD now) }

def elapsed (r : ReloadState) (now : Nat) : Option Nat := r.lastLoad.map fun last => now - last

end ReloadState

namespace Reload

/-- The next thing the playlist does not hold yet. -/
def nextTarget? (r : Rendition) : Option Target :=
  r.lastSegment?.map fun last =>
    if last.inProgress then ⟨last.sequence, some last.parts.length⟩
    else ⟨Count.add last.sequence 1, if r.isLowLatency then some 0 else none⟩

/-- Whether a URI and an address differ in their queries at most. -/
def samePlaylist (uri : String) (playlistUrl : Url) : Bool :=
  match Url.parse uri with
  | .ok u => (u.withQuery none).text == (playlistUrl.withQuery none).text
  | .error _ => false

/-- What a report says about the rendition, if it is about it and not behind it. -/
def reportTarget? (r : Rendition) (report : RenditionReport) : Option Target :=
  if samePlaylist report.uri r.playlistUrl then
    (report.lastSequence.filter fun n => r.lastSequence?.getD 0 ≤ n).map fun n =>
      ⟨n, report.lastPart⟩
  else none

/-- The first target that the reports of siblings name. -/
def reportedTarget? (r : Rendition) (reports : List RenditionReport) : Option Target :=
  reports.findSome? (reportTarget? r)

/-- A time in milliseconds as seconds; no time at all is longer than any. -/
def seconds : Option Nat → Float
  | some ms => Float.ofNat (ms / 1000) + Float.ofNat (ms % 1000 * 1000000) / 1000000000.0
  | none => Float.ofNat Count.greatest + Float.ofNat 999999999 / 1000000000.0

def canSkip (r : Rendition) (elapsed : Option Nat) : Bool :=
  let limit := r.serverControl.skipUntil
  0.0 < limit && seconds elapsed < limit / 2.0

def isReserved (p : Query.Pair) : Bool := Text.beginsWith "_HLS_" p.1

def directivePairs (target : Option Target) (skip : Bool) : List Query.Pair :=
  let wanted := match target with
    | some t => ("_HLS_msn", toString t.sequence) ::
        (match t.part with
          | some p => [("_HLS_part", toString p)]
          | none => [])
    | none => []
  wanted ++ if skip then [("_HLS_skip", "YES")] else []

/-- The address to load: its own pairs, but for reserved ones, and then those of the request. -/
def requestUrl (playlistUrl : Url) (target : Option Target) (skip : Bool) : Url :=
  let pairs := playlistUrl.queryPairs.filter (fun p => !isReserved p) ++ directivePairs target skip
  playlistUrl.withQuery (if pairs.isEmpty then none else some (Query.write pairs))

/-- What the time to wait depends on, besides the snapshot. -/
structure Circumstances where
  /-- Whether the next request can be held by the server. -/
  blocking : Bool
  needsFull : Bool
  unchanged : Bool
  /-- Whether playback has reached the end of the window. -/
  nearEdge : Bool
  failed : Bool
  elapsed : Option Nat
  deriving DecidableEq, Repr

def nanosecondsOfMs (ms : Nat) : Nat := ms * 1000000

/-- A duration in ticks as nanoseconds; none is negative. -/
def nanosecondsOfTicks (t : Int) : Nat := t.toNat * 1000

/-- The time between two loads of a playlist, before anything is known about their outcomes. -/
def baseInterval (r : Rendition) (config : TrackerConfig) : Nat :=
  let stated :=
    if r.isLowLatency then nanosecondsOfTicks r.partTarget
    else if 0 < r.targetDuration then nanosecondsOfTicks r.targetDuration
    else nanosecondsOfMs config.defaultTarget
  if stated = 0 then nanosecondsOfMs config.defaultPartTarget else stated

def interval (r : Rendition) (c : Circumstances) (config : TrackerConfig) : Nat :=
  if c.needsFull || (c.blocking && !c.failed && !c.unchanged) then 0
  else
    let base := baseInterval r config
    let base := if c.unchanged || c.nearEdge || c.failed then base / 2 else base
    let left := match c.elapsed with
      | some ms => base - nanosecondsOfMs ms
      | none => 0
    max left (nanosecondsOfMs config.minReloadInterval)

end Reload

end AdaptiveHls
