import AdaptiveHls.Playlist.Directive
import AdaptiveHls.Media.Rendition
import AdaptiveHls.Calendar

/-!
# From directives to segments

The directives of a media playlist are read in order, and each changes one record. Some directives
speak of the playlist, some of all segments that follow, and some of the next segment alone; a URI
makes a segment out of what has been gathered. Parts that no URI follows are the segment that is
still being published.

Numbers and times saturate at their bounds. The greatest sequence number is never given to a
segment, so that the number after a segment's is always a number.
-/

namespace AdaptiveHls

structure Timeline where
  /-- The playlist as described so far. -/
  rendition : Rendition
  segments : List Segment := []
  /-- The number of the next segment. -/
  sequence : Nat := 0
  startTime : Int := 0
  utcTime : Option Int := none
  discontinuity : Nat := 0
  /-- The duration stated for the next segment. -/
  duration : Option Int := none
  /-- The byte range stated for the next segment. -/
  range : Option RangeSpec := none
  /-- The offset after the newest segment that has a byte range. -/
  rangeEnd : Nat := 0
  /-- The offset after the newest part of the next segment that has a byte range. -/
  partRangeEnd : Nat := 0
  keys : List Key := []
  /-- Whether a segment has used the keys, so that a new key starts a new set. -/
  keysUsed : Bool := true
  initSegment : Option InitSegment := none
  parts : List Part := []

namespace Timeline

def start (r : Rendition) : Timeline := { rendition := { r with live := true } }

/-- Sixteen bytes, zeros in front, if there are no more than that. -/
def padIv? (bytes : List UInt8) : Option (List UInt8) :=
  if bytes.length ≤ 16 then some (List.replicate (16 - bytes.length) 0 ++ bytes) else none

/-- The key that a directive describes, which may be that there is none. -/
def readKey (a : Attributes) : Key :=
  let text (name : String) := (a.get? name).map (·.text)
  let iv := ((a.get? "IV").bind (·.bytes?)).bind padIv?
  let method := ((a.get? "METHOD").map (·.raw)).getD ""
  match text "URI" with
  | some uri =>
    if method == "AES-128" then { method := .aes128, uri, iv, ivFixed := iv.isSome }
    else if method == "SAMPLE-AES" then
      { method := .sampleAes, uri, iv, ivFixed := iv.isSome, format := (text "KEYFORMAT").getD "" }
    else readPrivate method iv
  | none => readPrivate method iv
where
  readPrivate (method : String) (iv : Option (List UInt8)) : Key :=
    match a.get? "DATE" with
    | some date => if method == "AES-PRIVATE" then { method := .privateAes, uri := date.text, iv } else {}
    | none => {}

/-- The byte range of the next segment, and the offset after it. Without an offset of its own it
follows the one before. -/
def takeRange (t : Timeline) : Option ByteRange × Nat :=
  match t.range with
  | none => (none, t.rangeEnd)
  | some spec =>
    match ByteRange.ofLength? (spec.offset.getD t.rangeEnd) spec.length with
    | some r => (some r, r.next)
    | none => (none, t.rangeEnd)

def push (t : Timeline) (uri : String) (duration : Int) (parts : List Part) : Timeline :=
  let (byteRange, rangeEnd) := t.takeRange
  let segment : Segment := {
    sequence := t.sequence
    startTime := t.startTime
    duration
    utcTime := t.utcTime
    uri
    byteRange
    discontinuity := t.discontinuity
    initSegment := t.initSegment
    parts
    keys := t.keys }
  { t with
    segments := t.segments ++ [segment]
    startTime := Ticks.add t.startTime duration
    utcTime := t.utcTime.map (Ticks.add · duration)
    range := none
    rangeEnd
    keysUsed := t.keysUsed || !t.keys.isEmpty }

/-- Makes a segment of what has been gathered, unless the numbers are used up. -/
def emit (t : Timeline) (uri : String) : Timeline :=
  let duration := t.duration.getD t.rendition.targetDuration
  let parts := t.parts
  let t := { t with duration := none, parts := [], partRangeEnd := 0 }
  if t.sequence < Count.greatest then
    { t.push uri duration parts with sequence := t.sequence + 1 }
  else { t with range := none }

def addPart (t : Timeline) (a : Attributes) : Timeline :=
  let duration := (((a.get? "DURATION").bind (·.number?)).map Number.ticksOfSeconds).getD 0
  let byteRange := ((a.get? "BYTERANGE").bind (·.range?)).bind fun spec =>
    ByteRange.ofLength? (spec.offset.getD t.partRangeEnd) spec.length
  let part : Part := {
    index := t.parts.length
    duration
    uri := ((a.get? "URI").map (·.text)).getD ""
    byteRange
    independent := ((a.get? "INDEPENDENT").map (·.isYes)).getD false }
  { t with
    rendition := { t.rendition with partTarget := max t.rendition.partTarget duration }
    partRangeEnd := (byteRange.map (·.next)).getD t.partRangeEnd
    parts := t.parts ++ [part] }

def addKey (t : Timeline) (a : Attributes) : Timeline :=
  { t with keys := (if t.keysUsed then [] else t.keys) ++ [readKey a], keysUsed := false }

def setInit (t : Timeline) (a : Attributes) : Timeline :=
  match a.get? "URI" with
  | none => t
  | some uri =>
    let byteRange := ((a.get? "BYTERANGE").bind (·.range?)).bind fun spec =>
      ByteRange.ofLength? (spec.offset.getD 0) spec.length
    { t with initSegment := some { uri := uri.text, byteRange } }

def readControl (c : ServerControl) (a : Attributes) : ServerControl :=
  let number (name : String) (known : Float) := ((a.get? name).bind (·.number?)).getD known
  { canBlock := ((a.get? "CAN-BLOCK-RELOAD").map (·.isYes)).getD c.canBlock
    skipUntil := number "CAN-SKIP-UNTIL" c.skipUntil
    holdBack := number "HOLD-BACK" c.holdBack
    partHoldBack := number "PART-HOLD-BACK" c.partHoldBack }

def readHint (a : Attributes) : PreloadHint :=
  let start := ((a.get? "BYTERANGE-START").bind (·.count?)).getD 0
  { isPart := (a.get? "TYPE").any (·.raw == "PART")
    uri := ((a.get? "URI").map (·.text)).getD ""
    byteRange := ((a.get? "BYTERANGE-LENGTH").bind (·.count?)).bind (ByteRange.ofLength? start) }

def readReport (a : Attributes) : RenditionReport where
  uri := ((a.get? "URI").map (·.text)).getD ""
  lastSequence := (a.get? "LAST-MSN").bind (·.count?)
  lastPart := (a.get? "LAST-PART").bind (·.count?)

def setRendition (t : Timeline) (change : Rendition → Rendition) : Timeline :=
  { t with rendition := change t.rendition }

def stepSingle (t : Timeline) (kind : SingleKind) (value : Value) : Timeline :=
  match kind with
  | .uri => if value.isEmpty then { t with duration := none, range := none } else t.emit value.raw
  | .version => t.setRendition ({ · with version := value.count? })
  | .mediaSequence =>
    let n := value.count?.getD 0
    { t with sequence := n, rendition := { t.rendition with mediaSequence := n } }
  | .discontinuitySequence =>
    t.setRendition ({ · with discontinuitySequence := value.count?.getD 0 })
  | .targetDuration =>
    let seconds := Float.ofNat (value.count?.getD 0)
    t.setRendition ({ · with targetDuration := Number.ticksOfSeconds seconds })
  | .playlistType => t.setRendition ({ · with live := value.raw != "VOD" })
  | .endList => t.setRendition ({ · with live := false })
  | .byteRange => { t with range := value.range? }
  | .programDateTime =>
    match Calendar.microseconds? value.raw with
    | some time => { t with utcTime := some time }
    | none => t
  | .discontinuity => { t with discontinuity := Count.add t.discontinuity 1 }
  | .iFramesOnly => t.setRendition ({ · with iFramesOnly := true })
  | .independentSegments => t.setRendition ({ · with independentSegments := true })

def stepList (t : Timeline) (kind : ListKind) (a : Attributes) : Timeline :=
  match kind with
  | .key => t.addKey a
  | .map => t.setInit a
  | .part => t.addPart a
  | .partInf =>
    match (a.get? "PART-TARGET").bind (·.number?) with
    | some target => t.setRendition ({ · with partTarget := Number.ticksOfSeconds target })
    | none => t
  | .serverControl =>
    t.setRendition fun r => { r with serverControl := readControl r.serverControl a }
  | .preloadHint =>
    if t.rendition.preloadHint.any (·.isPart) then t
    else t.setRendition ({ · with preloadHint := some (readHint a) })
  | .skip =>
    let n := ((a.get? "SKIPPED-SEGMENTS").bind (·.count?)).getD 0
    { t with
      sequence := Count.add t.sequence n
      rendition := { t.rendition with skipped := Count.add t.rendition.skipped n } }
  | .renditionReport => t.setRendition fun r => { r with reports := r.reports ++ [readReport a] }
  | .streamInf | .media => t

def step (t : Timeline) : Directive → Timeline
  | .single kind value => t.stepSingle kind value
  | .list kind a => t.stepList kind a
  | .inf a =>
    { t with duration := ((a.get? "DURATION").bind (·.number?)).map Number.ticksOfSeconds }

def run (t : Timeline) (directives : List Directive) : Timeline := directives.foldl step t

/-- The parts that are left at the end are a segment still being published. -/
def close (t : Timeline) : Timeline :=
  if t.parts.isEmpty || t.sequence = Count.greatest then t
  else t.push "" (Part.total t.parts) t.parts

def assemble (r : Rendition) (directives : List Directive) : Rendition :=
  let t := ((start r).run directives).close
  { t.rendition with segmentList := some ⟨t.segments⟩ }

@[simp] theorem run_nil (t : Timeline) : t.run [] = t := rfl
@[simp] theorem run_cons (t : Timeline) (d : Directive) (rest : List Directive) :
    t.run (d :: rest) = (t.step d).run rest := rfl
@[simp] theorem run_append (t : Timeline) (before after : List Directive) :
    t.run (before ++ after) = (t.run before).run after := by simp [run]

end Timeline

end AdaptiveHls
