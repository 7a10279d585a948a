import AdaptiveHls.Playlist.Timeline

/-!
# What a directive changes

Each field of the record that is folded over the directives is touched by few of them. What one
directive says about a field is a function of its own here, and for each field there is one lemma
about a step. Only a URI makes a segment; what it adds is `nextSegment`.
-/

namespace AdaptiveHls

namespace Directive

def isUri : Directive → Bool
  | .single .uri _ => true
  | _ => false

/-- Whether a directive speaks of the next segment or of all that follow. -/
def isSegmentTag : Directive → Bool
  | .single .byteRange _ | .single .programDateTime _ | .single .discontinuity _ => true
  | .list .key _ | .list .map _ | .list .part _ => true
  | .inf _ => true
  | _ => false

/-- Whether a directive speaks of the playlist as a whole, and leaves no segment out. -/
def isPlaylistTag : Directive → Bool
  | .single .uri _ | .list .skip _ => false
  | d => !d.isSegmentTag

def isDiscontinuity : Directive → Bool
  | .single .discontinuity _ => true
  | _ => false

def key? : Directive → Option Key
  | .list .key a => some (Timeline.readKey a)
  | _ => none

def initSegment? : Directive → Option InitSegment
  | .list .map a => (a.get? "URI").map fun uri =>
    { uri := uri.text
      byteRange := ((a.get? "BYTERANGE").bind (·.range?)).bind fun spec =>
        ByteRange.ofLength? (spec.offset.getD 0) spec.length }
  | _ => none

def date? : Directive → Option Int
  | .single .programDateTime value => Calendar.microseconds? value.raw
  | _ => none

def duration? : Directive → Option (Option Int)
  | .inf a => some (((a.get? "DURATION").bind (·.number?)).map Number.ticksOfSeconds)
  | _ => none

def range? : Directive → Option (Option RangeSpec)
  | .single .byteRange value => some value.range?
  | _ => none

theorem eq_uri_of_isUri {d : Directive} (h : d.isUri = true) : ∃ value, d = .single .uri value := by
  cases d with
  | single kind value => cases kind <;> simp_all [isUri]
  | _ => cases h

/-- A URI speaks of nothing that holds beyond the segment it makes. -/
theorem silent_of_isUri {d : Directive} (h : d.isUri = true) :
    d.isDiscontinuity = false ∧ d.initSegment? = none ∧ d.date? = none ∧ d.key? = none := by
  obtain ⟨value, rfl⟩ := eq_uri_of_isUri h
  exact ⟨rfl, rfl, rfl, rfl⟩

theorem isUri_of_isSegmentTag {d : Directive} (h : d.isSegmentTag) : d.isUri = false := by
  cases d with
  | single kind value => cases kind <;> simp_all [isSegmentTag, isUri]
  | list kind a => rfl
  | inf a => rfl

end Directive

namespace Timeline

open Directive

variable (t : Timeline) (d : Directive)

def nextSegment (uri : String) : Segment where
  sequence := t.sequence
  startTime := t.startTime
  duration := t.duration.getD t.rendition.targetDuration
  utcTime := t.utcTime
  uri
  byteRange := t.takeRange.1
  discontinuity := t.discontinuity
  initSegment := t.initSegment
  parts := t.parts
  keys := t.keys

theorem emit_eq (uri : String) (h : t.sequence < Count.greatest) :
    t.emit uri =
      { t with
        segments := t.segments ++ [t.nextSegment uri]
        sequence := t.sequence + 1
        startTime := Ticks.add t.startTime (t.nextSegment uri).duration
        utcTime := t.utcTime.map (Ticks.add · (t.nextSegment uri).duration)
        duration := none
        range := none
        rangeEnd := t.takeRange.2
        partRangeEnd := 0
        keysUsed := t.keysUsed || !t.keys.isEmpty
        parts := [] } := by
  simp only [emit, if_pos h]
  rfl

theorem emit_rendition (uri : String) : (t.emit uri).rendition = t.rendition := by
  by_cases hnumber : t.sequence < Count.greatest
  · rw [emit_eq t uri hnumber]
  · simp only [emit, if_neg hnumber]

theorem setInit_eq (a : Attributes) :
    t.setInit a = { t with initSegment := (Directive.list .map a).initSegment?.or t.initSegment } := by
  simp only [setInit, initSegment?]
  cases a.get? "URI" <;> rfl

/-- Whatever is no URI adds no segment and moves no time on, and each of the attributes of the next
segment is changed by the directives of one kind alone. -/
theorem step_eq (h : d.isUri = false) :
    t.step d =
      { t with
        rendition := (t.step d).rendition
        sequence := (t.step d).sequence
        utcTime := d.date?.or t.utcTime
        discontinuity := if d.isDiscontinuity then Count.add t.discontinuity 1 else t.discontinuity
        duration := d.duration?.getD t.duration
        range := d.range?.getD t.range
        partRangeEnd := (t.step d).partRangeEnd
        keys := d.key?.elim t.keys fun key => (if t.keysUsed then [] else t.keys) ++ [key]
        keysUsed := t.keysUsed && d.key?.isNone
        initSegment := d.initSegment?.or t.initSegment
        parts := (t.step d).parts } := by
  cases d with
  | single kind value =>
    cases kind with
    | uri => simp [isUri] at h
    | programDateTime =>
      simp only [step, stepSingle, date?]
      split <;> simp_all [isDiscontinuity, duration?, range?, key?, initSegment?]
    | _ =>
      simp [step, stepSingle, setRendition, date?, isDiscontinuity, duration?, range?, key?,
        initSegment?]
  | list kind a =>
    cases kind with
    | map =>
      simp [step, stepList, setInit_eq, date?, isDiscontinuity, duration?, range?, key?]
    | preloadHint | partInf =>
      simp only [step, stepList]
      split <;>
        simp [setRendition, date?, isDiscontinuity, duration?, range?, key?, initSegment?]
    | _ =>
      simp [step, stepList, addKey, addPart, setRendition, date?, isDiscontinuity, duration?,
        range?, key?, initSegment?]
  | inf a => simp [step, date?, isDiscontinuity, duration?, range?, key?, initSegment?]

/-- Whether or not a URI makes a segment, what is stated for the next segment alone is gone, and what
holds for all that follow goes on to hold. -/
theorem step_of_isUri (h : d.isUri = true) :
    t.step d =
      { t with
        segments := (t.step d).segments
        sequence := (t.step d).sequence
        startTime := (t.step d).startTime
        utcTime := (t.step d).utcTime
        duration := none
        range := none
        rangeEnd := (t.step d).rangeEnd
        partRangeEnd := (t.step d).partRangeEnd
        keysUsed := (t.step d).keysUsed
        parts := (t.step d).parts } := by
  obtain ⟨value, rfl⟩ := eq_uri_of_isUri h
  simp only [step, stepSingle]
  split
  · rfl
  · simp only [emit]
    split <;> rfl

theorem step_discontinuity :
    (t.step d).discontinuity =
      if d.isDiscontinuity then Count.add t.discontinuity 1 else t.discontinuity := by
  cases hd : d.isUri with
  | false => rw [step_eq t d hd]
  | true => rw [step_of_isUri t d hd, (silent_of_isUri hd).1]; rfl

theorem step_initSegment : (t.step d).initSegment = d.initSegment?.or t.initSegment := by
  cases hd : d.isUri with
  | false => rw [step_eq t d hd]
  | true => rw [step_of_isUri t d hd, (silent_of_isUri hd).2.1]; rfl

end Timeline

end AdaptiveHls
