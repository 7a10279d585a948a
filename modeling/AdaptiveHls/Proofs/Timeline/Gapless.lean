import AdaptiveHls.Proofs.Timeline.Sound
import Mathlib.Data.List.Chain

/-!
# Times without gaps

Start times come from two places. The timeline counts them as it adds segments, and a delta update
that has been filled in has all of them counted anew. Both give what counting from zero on gives, so
the segments follow each other without gaps and end where the sum of their durations is, also where
that sum has been held at a bound on the way.
-/

namespace AdaptiveHls

/-- Time runs from zero on through the segments without a gap, up to their total duration. -/
structure SegmentList.Gapless (l : SegmentList) : Prop where
  first : ∀ s ∈ l.first?, s.startTime = 0
  next : l.segments.IsChain fun a b => b.startTime = a.endTime
  last : ∀ s ∈ l.last?, s.endTime = l.totalDuration

namespace SegmentList

variable (start : Int) (xs : List Segment)

@[simp] theorem retime_durations :
    (retime start xs).map (·.duration) = xs.map (·.duration) := by
  induction xs generalizing start with
  | nil => rfl
  | cons s rest ih => simp [retime, ih]

theorem isChain_retime : (retime start xs).IsChain fun a b => b.startTime = a.endTime := by
  induction xs generalizing start with
  | nil => exact .nil
  | cons s rest ih =>
    cases rest with
    | nil => exact .singleton _
    | cons s' rest => exact .cons_cons rfl (ih (Ticks.add start s.duration))

/-- The times end with the sum of the durations, from the start on. -/
theorem endTime_last_retime : ∀ s ∈ (retime start xs).getLast?,
    s.endTime = (xs.map (·.duration)).foldl Ticks.add start := by
  induction xs generalizing start with
  | nil => simp
  | cons s rest ih =>
    intro last hlast
    cases rest with
    | nil =>
      obtain rfl : { s with startTime := start } = last := by simpa [retime] using hlast
      rfl
    | cons s' rest =>
      rw [List.map_cons, List.foldl_cons]
      refine ih (Ticks.add start s.duration) last ?_
      rwa [retime, retime, List.getLast?_cons_cons] at hlast

/-- Times that are counted from zero on have no gaps. -/
theorem gapless_retime : Gapless ⟨retime 0 xs⟩ where
  first s hs := by
    cases xs with
    | nil => cases hs
    | cons x rest =>
      obtain rfl : { x with startTime := 0 } = s := by simpa [first?, retime] using hs
      rfl
  next := isChain_retime 0 xs
  last s hs := by
    rw [totalDuration, retime_durations]
    exact endTime_last_retime 0 xs s hs

theorem retime_append_singleton (s : Segment) :
    retime start (xs ++ [s]) =
      retime start xs ++
        [{ s with startTime := (xs.map (·.duration)).foldl Ticks.add start }] := by
  induction xs generalizing start with
  | nil => rfl
  | cons x rest ih => simp [retime, ih]

/-- Filling in what a delta update leaves out counts the times anew, unless the update lists no
segment and there is nothing to count. -/
theorem gapless_restore {l previous merged : SegmentList} {skipped : Nat}
    (h : l.restore previous skipped = .ok merged) : merged.Gapless := by
  simp only [SegmentList.restore] at h
  split at h
  · next hfirst =>
    cases h
    have hnil : l.segments = [] := by simpa [firstSequence?, first?] using hfirst
    exact ⟨by simp [first?, hnil], by simp [hnil], by simp [last?, hnil]⟩
  · split at h
    · cases h
    · cases h
      exact gapless_retime _

end SegmentList

namespace Timeline

variable {t : Timeline}

/-- The times given so far are counted from zero on, and the next segment starts where they end. -/
structure Timed (t : Timeline) : Prop where
  segments : SegmentList.retime 0 t.segments = t.segments
  startTime : t.startTime = Ticks.total (t.segments.map (·.duration))

theorem start_timed (r : Rendition) : (start r).Timed := ⟨rfl, rfl⟩

/-- A segment starts where the one in front ends. -/
theorem Timed.push (ht : t.Timed) (uri : String) (duration : Int) (parts : List Part) :
    (t.push uri duration parts).Timed := by
  have hstart := ht.startTime
  rw [Ticks.total] at hstart
  constructor
  · simp only [Timeline.push]
    rw [SegmentList.retime_append_singleton, ht.segments, ← hstart]
  · simp only [Timeline.push, Ticks.total, List.map_append, List.foldl_append, ← hstart]
    rfl

/-- Only a URI touches segments or times; what it resets in front of the segment bears on neither. -/
theorem Timed.step (ht : t.Timed) (d : Directive) : (t.step d).Timed := by
  cases hd : d.isUri with
  | false =>
    rw [step_eq t d hd]
    exact ⟨ht.segments, ht.startTime⟩
  | true =>
    obtain ⟨value, rfl⟩ := Directive.eq_uri_of_isUri hd
    simp only [Timeline.step, stepSingle]
    split
    · exact ⟨ht.segments, ht.startTime⟩
    · simp only [emit]
      split
      · have hpush := Timed.push (t := { t with duration := none, parts := [], partRangeEnd := 0 })
          ⟨ht.segments, ht.startTime⟩ value.raw (t.duration.getD t.rendition.targetDuration) t.parts
        exact ⟨hpush.segments, hpush.startTime⟩
      · exact ⟨ht.segments, ht.startTime⟩

theorem Timed.run (ht : t.Timed) (directives : List Directive) : (t.run directives).Timed := by
  induction directives generalizing t with
  | nil => exact ht
  | cons d rest ih => exact ih (ht.step d)

theorem Timed.close (ht : t.Timed) : t.close.Timed := by
  rw [Timeline.close]
  split
  · exact ht
  · exact ht.push "" (Part.total t.parts) t.parts

theorem gapless_assemble (r : Rendition) (directives : List Directive) :
    ∃ l, (assemble r directives).segmentList = some l ∧ l.Gapless := by
  refine ⟨_, rfl, ?_⟩
  rw [← ((start_timed r).run directives).close.segments]
  exact SegmentList.gapless_retime _

end Timeline

namespace Tracker

variable {t : Tracker} {r r' : Rendition}

theorem gapless_readSnapshot {data : List UInt8} (h : t.readSnapshot data = .ok r) :
    ∃ l, r.segmentList = some l ∧ l.Gapless := by
  rw [readSnapshot_eq_ok h]
  exact Timeline.gapless_assemble _ _

/-- A list that is filled in has no gap either. -/
theorem gapless_completeDelta (hr : ∃ l, r.segmentList = some l ∧ l.Gapless)
    (h : t.completeDelta r = .ok r') : ∃ l, r'.segmentList = some l ∧ l.Gapless := by
  obtain ⟨l, hl, hgapless⟩ := hr
  simp only [completeDelta] at h
  split at h
  · cases h
    exact ⟨l, hl, hgapless⟩
  · split at h
    · next previous delta _ hdelta =>
      cases hl.symm.trans hdelta
      split at h
      · next merged hmerged =>
        cases h
        exact ⟨merged, rfl, SegmentList.gapless_restore hmerged⟩
      · cases h
    · cases h

end Tracker

end AdaptiveHls
