import AdaptiveHls.Media.ByteRange

/-!
# Segments and what belongs to them

A segment is one numbered stretch of media. While it is being published only its parts are known
and it has no URI of its own; it is then in progress. Times are in ticks from the start of the
playlist's window, and, if the playlist dates its segments, also on the wall clock.
-/

namespace AdaptiveHls

/-- Data a decoder has to see before the segments that follow. -/
structure InitSegment where
  uri : String
  byteRange : Option ByteRange
  deriving DecidableEq, Repr

inductive KeyMethod where
  | none
  | aes128
  | sampleAes
  | privateAes
  deriving DecidableEq, Repr

/-- A key in effect for a segment. An initialisation vector, if there is one, has sixteen bytes. -/
structure Key where
  method : KeyMethod := .none
  uri : String := ""
  iv : Option (List UInt8) := .none
  ivFixed : Bool := false
  format : String := ""
  deriving DecidableEq, Repr

def bigEndian16 (n : Nat) : List UInt8 :=
  (List.range 16).map fun i => UInt8.ofNat (n >>> (8 * (15 - i)))

/-- The vector for the segment numbered `sequence`: the stated one, or the number itself. -/
def Key.ivFor (key : Key) (sequence : Nat) : List UInt8 := key.iv.getD (bigEndian16 sequence)

/-- A piece of a segment that is published before the whole. -/
structure Part where
  /-- Place within the segment. -/
  index : Nat
  duration : Int
  uri : String
  byteRange : Option ByteRange
  independent : Bool
  deriving DecidableEq, Repr

structure Segment where
  sequence : Nat
  startTime : Int := 0
  duration : Int
  utcTime : Option Int := none
  uri : String
  byteRange : Option ByteRange := none
  discontinuity : Nat := 0
  initSegment : Option InitSegment := none
  parts : List Part := []
  keys : List Key := []
  deriving DecidableEq, Repr

/-- What may be fetched ahead of its announcement. -/
structure PreloadHint where
  isPart : Bool
  uri : String
  byteRange : Option ByteRange
  deriving DecidableEq, Repr

/-- How far a sibling playlist has got. -/
structure RenditionReport where
  uri : String
  lastSequence : Option Nat
  lastPart : Option Nat
  deriving DecidableEq, Repr

def Part.total (parts : List Part) : Int := Ticks.total (parts.map (·.duration))

namespace Segment

def inProgress (s : Segment) : Bool := s.uri.isEmpty

def endTime (s : Segment) : Int := Ticks.add s.startTime s.duration

def isEncrypted (s : Segment) : Bool := s.keys.any (·.method != .none)

/-- The segment without its first `count` parts, to be had through its other parts alone. -/
def withoutParts (s : Segment) (count : Nat) : Segment :=
  let skipped := Part.total (s.parts.take count)
  let parts := s.parts.drop count
  { s with
    startTime := Ticks.add s.startTime skipped
    duration := Part.total parts
    utcTime := s.utcTime.map (Ticks.add · skipped)
    uri := ""
    byteRange := none
    parts }

@[simp] theorem withoutParts_parts (s : Segment) (count : Nat) :
    (s.withoutParts count).parts = s.parts.drop count := rfl
@[simp] theorem withoutParts_sequence (s : Segment) (count : Nat) :
    (s.withoutParts count).sequence = s.sequence := rfl
@[simp] theorem withoutParts_inProgress (s : Segment) (count : Nat) :
    (s.withoutParts count).inProgress = true := rfl

end Segment

end AdaptiveHls
