import AdaptiveHls.Tracker.Reload
import AdaptiveHls.Playlist.Read

/-!
# Following one media playlist

A tracker holds the newest snapshot of a media playlist and a cursor over its segments. A load
either installs a new snapshot as a whole or leaves snapshot and cursor as they were; what it may
change besides is the record of how loads went. Segments are handed out at the cursor, and one that
is still being published is handed out in pieces, each part once.
-/

namespace AdaptiveHls

structure Cursor where
  sequence : Nat := 0
  /-- Bytes of the segment that have been consumed. -/
  position : Nat := 0
  /-- Parts of the segment that have been handed out. -/
  part : Nat := 0
  deriving DecidableEq, Repr

structure Tracker where
  /-- What is known about the playlist without loading it. -/
  descriptor : Rendition
  config : TrackerConfig := {}
  snapshot : Option Rendition := none
  /-- Data to be used for the first load in place of a request. -/
  initial : Option (List UInt8) := none
  cursor : Cursor := {}
  /-- Whether the cursor was placed on purpose since the newest snapshot. -/
  seeked : Bool := false
  reload : ReloadState := {}
  /-- What siblings have reported. -/
  reports : List RenditionReport := []
  lastHint : Option PreloadHint := none
  /-- The newest hint, unless it has been taken. -/
  preload : Option PreloadHint := none

/-- What to load, and what the server is asked to wait for. -/
structure Request where
  url : Url
  target : Option Target
  deriving DecidableEq, Repr

namespace Tracker

def isLive (t : Tracker) : Bool := t.snapshot.any (·.live)

def segmentList? (t : Tracker) : Option SegmentList := t.snapshot.bind (·.segmentList)

def moveTo (t : Tracker) (sequence : Nat) : Tracker := { t with cursor := { sequence } }

/-! ## Handing out segments -/

/-- The segment at the cursor. A cursor in front of the window moves into it. -/
def segmentAtCursor (t : Tracker) : Option Segment × Tracker :=
  match t.segmentList? with
  | none => (none, t)
  | some l =>
    match l.get? t.cursor.sequence with
    | some s => (some s, t)
    | none =>
      match l.firstSequence? with
      | none => (none, t)
      | some first =>
        if first ≤ t.cursor.sequence then (none, t)
        else match l.atOrAfter? t.cursor.sequence with
          | some s => (some s, t.moveTo s.sequence)
          | none => (none, t)

/-- The cursor behind what has been handed out of a segment. -/
def pass (t : Tracker) (s : Segment) : Tracker :=
  if s.inProgress then { t with cursor := { t.cursor with part := s.parts.length } }
  else t.moveTo (Count.add s.sequence 1)

/-- The segment at the cursor as a whole, if its parts have not been started on. -/
def handOut (t : Tracker) : Option Segment × Tracker :=
  match t.segmentAtCursor with
  | (some s, t) => (some s, t.pass s)
  | (none, t) => (none, t)

/-- The next segment, or the parts of it that have not been handed out yet. A segment that is
complete, all of whose parts are out, is passed over. -/
def next (t : Tracker) : Option Segment × Tracker :=
  match t.segmentAtCursor with
  | (none, t) => (none, t)
  | (some s, t) =>
    if t.cursor.part = 0 then (some s, t.pass s)
    else if t.cursor.part < s.parts.length then (some (s.withoutParts t.cursor.part), t.pass s)
    else if s.inProgress then (none, t)
    else (t.moveTo (Count.add s.sequence 1)).handOut

def seek (t : Tracker) (sequence : Nat) : Tracker := { t.moveTo sequence with seeked := true }

def setPosition (t : Tracker) (position : Nat) : Tracker :=
  { t with cursor := { t.cursor with position } }

/-- Where playback of a live window starts. -/
def liveStart (first last : Nat) (index : Int) : Nat :=
  let start := if 0 ≤ index then last - index.toNat else Count.add last 1 - index.natAbs
  max start first

def moveToLiveStart (t : Tracker) (index : Int) : Tracker :=
  match t.segmentList?.bind (·.firstSequence?), t.segmentList?.bind (·.lastSequence?) with
  | some first, some last => t.moveTo (liveStart first last index)
  | _, _ => t

/-! ## Hints and reports -/

def takePreload (t : Tracker) : Option PreloadHint × Tracker :=
  (t.preload, { t with preload := none })

/-- The hint with its URI resolved; none if it does not resolve. -/
def resolveHint? (r : Rendition) (h : PreloadHint) : Option PreloadHint :=
  match r.resolve h.uri with
  | .ok u => some { h with uri := u.text }
  | .error _ => none

/-- The reports of the snapshot that resolve, with their URIs resolved. -/
def resolvedReports (t : Tracker) : List RenditionReport :=
  match t.snapshot with
  | none => []
  | some r => r.reports.filterMap fun report =>
    match r.resolve report.uri with
    | .ok u => some { report with uri := u.text }
    | .error _ => none

def setReports (t : Tracker) (reports : List RenditionReport) : Tracker := { t with reports }

/-! ## Loading -/

/-- Whether the end of the window is at most one segment away. -/
def nearEdge (t : Tracker) (r : Rendition) : Bool :=
  r.lastSequence?.any (· ≤ Count.add t.cursor.sequence 1)

/-- How long to wait before the next load, in nanoseconds. -/
def reloadInterval (t : Tracker) (now : Nat) : Nat :=
  match t.snapshot with
  | none => 0
  | some r =>
    Reload.interval r
      { blocking := r.serverControl.canBlock && (Reload.nextTarget? r).isSome
        needsFull := t.reload.needsFull
        unchanged := t.reload.unchanged
        nearEdge := t.nearEdge r
        failed := t.reload.failingSince.isSome
        elapsed := t.reload.elapsed now } t.config

/-- How long to wait after a wake-up, in milliseconds, to keep loads apart. -/
def wakeUpDelay (t : Tracker) (now : Nat) : Nat :=
  match t.reload.elapsed now with
  | some ms => t.config.minReloadInterval - ms
  | none => 0

/-- The next request; with `full` no delta update is asked for. A report that is used is used up. -/
def nextRequest (t : Tracker) (now : Nat) (full : Bool) : Request × Tracker :=
  match t.snapshot with
  | none => (⟨t.descriptor.playlistUrl, none⟩, t)
  | some r =>
    if !r.live then (⟨r.playlistUrl, none⟩, t)
    else
      let mayBlock := r.serverControl.canBlock && !t.reload.unchanged
      let reported := if mayBlock then Reload.reportedTarget? r t.reports else none
      let target := if mayBlock then reported <|> Reload.nextTarget? r else none
      let skip := !full && !t.reload.needsFull && Reload.canSkip r (t.reload.elapsed now)
      (⟨Reload.requestUrl r.playlistUrl target skip, target⟩,
        if reported.isSome then { t with reports := [] } else t)

/-- The data to be used for the first load, which are then used up. -/
def takeInitial (t : Tracker) : Option (List UInt8) × Tracker :=
  (t.initial, { t with initial := none })

/-- The rendition that data describe, with what is known about it from a master playlist. -/
def readSnapshot (t : Tracker) (data : List UInt8) : Except Failure Rendition := do
  let p ← Playlist.ofBytes t.descriptor.playlistUrl data
  if p.isMaster then throw (.masterInstead t.descriptor.playlistUrl)
  match p.firstRendition? with
  | some r => return { r with variant := t.descriptor.variant }
  | none => throw .noRendition

/-- The rendition with the segments that a delta update leaves out. -/
def completeDelta (t : Tracker) (r : Rendition) : Except Failure Rendition :=
  if r.skipped = 0 then .ok r
  else match t.segmentList?, r.segmentList with
    | some previous, some delta =>
      match delta.restore previous r.skipped with
      | .ok l => .ok { r with segmentList := some l }
      | .error missing => .error (.missingSegments missing.count)
    | _, _ => .error (.missingSegments r.skipped)

def edge (r : Rendition) : Option (Nat × Nat) :=
  r.lastSegment?.map fun s => (s.sequence, s.parts.length)

/-- The cursor and the seek flag once the window begins with `first`. -/
def followWindow (t : Tracker) (first : Option Nat) : Tracker :=
  match first with
  | none => t
  | some first =>
    if t.seeked then { t with seeked := false }
    else if t.cursor.sequence < first then t.moveTo first
    else t

/-- Takes over the hint of a snapshot unless it is the one before. -/
def followHint (t : Tracker) (r : Rendition) : Tracker :=
  if r.preloadHint = t.lastHint then t
  else { t with lastHint := r.preloadHint, preload := r.preloadHint.bind (resolveHint? r) }

def install (t : Tracker) (now : Nat) (r : Rendition) : Tracker :=
  let unchanged := t.snapshot.any fun previous => edge previous == edge r
  let reload := { t.reload with needsFull := false }.recordSuccess now unchanged
  let t := ({ t with reload }.followWindow r.firstSequence?).followHint r
  { t with snapshot := some r }

def apply (t : Tracker) (now : Nat) (data : List UInt8) : Except Failure Tracker := do
  let r ← t.readSnapshot data
  let r ← t.completeDelta r
  return t.install now r

def recordFailure (t : Tracker) (now : Nat) : Tracker :=
  { t with reload := t.reload.recordFailure now }

/-- The end of an attempt to load. One that was interrupted leaves no trace. -/
def conclude (t : Tracker) (now : Nat) (answer : Except Failure (List UInt8)) :
    Except Failure Unit × Tracker :=
  match answer with
  | .error .interrupted => (.error .interrupted, t)
  | .error e => (.error e, t.recordFailure now)
  | .ok data =>
    match t.apply now data with
    | .ok t => (.ok (), t)
    | .error e => (.error e, t.recordFailure now)

def demandFull (t : Tracker) : Tracker :=
  { t with reload := { t.reload with needsFull := true } }

/-! ## Questions -/

def duration (t : Tracker) : Int :=
  match t.snapshot with
  | some r => if r.live then 0 else (r.segmentList.map (·.totalDuration)).getD 0
  | none => 0

def targetDuration (t : Tracker) : Int := (t.snapshot.map (·.targetDuration)).getD 0

def size (t : Tracker) : Nat := (t.segmentList?.map (·.size)).getD 0

def remaining (t : Tracker) : Nat :=
  (t.segmentList?.map (·.remaining t.cursor.sequence)).getD 0

def sequenceAt? (t : Tracker) (time : Int) : Option Nat :=
  t.segmentList?.bind (·.sequenceAt? time)

/-- Whether loads have kept failing for as long as is put up with. -/
def isStalled (t : Tracker) (now : Nat) : Bool :=
  t.reload.failingSince.any fun since => t.config.failureTimeout ≤ now - since

@[simp] theorem moveTo_cursor (t : Tracker) (n : Nat) : (t.moveTo n).cursor = { sequence := n } :=
  rfl
@[simp] theorem moveTo_snapshot (t : Tracker) (n : Nat) : (t.moveTo n).snapshot = t.snapshot := rfl
@[simp] theorem recordFailure_snapshot (t : Tracker) (now : Nat) :
    (t.recordFailure now).snapshot = t.snapshot := rfl
@[simp] theorem recordFailure_cursor (t : Tracker) (now : Nat) :
    (t.recordFailure now).cursor = t.cursor := rfl
@[simp] theorem install_snapshot (t : Tracker) (now : Nat) (r : Rendition) :
    (t.install now r).snapshot = some r := rfl

end Tracker

end AdaptiveHls
