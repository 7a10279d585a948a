import AdaptiveHls.Proofs.Playlist.Written
import AdaptiveHls.Proofs.Timeline.Steps
import AdaptiveHls.Tracker.Basic

/-!
# What holds of every segment

Whatever bytes a playlist is read from, its segments have numbers below the greatest one, their
parts are counted from zero, and those without a URI have parts. The same goes for the segments that
fill the gap of a delta update, as they come from an older playlist.
-/

namespace AdaptiveHls

def Segment.indices (s : Segment) : List Nat := s.parts.map (·.index)

structure Segment.Sound (s : Segment) : Prop where
  sequence_lt : s.sequence < Count.greatest
  indices : s.indices = List.range s.parts.length
  parts_ne_nil : s.inProgress = true → s.parts ≠ []

/-- The number after a sound segment's is a number. -/
theorem Segment.Sound.add_one {s : Segment} (h : s.Sound) :
    Count.add s.sequence 1 = s.sequence + 1 :=
  Count.add_of_le h.sequence_lt

def Rendition.Sound (r : Rendition) : Prop := ∀ s ∈ r.segments, s.Sound

/-- A timeline of which sound segments can be made. -/
structure Timeline.Sound (t : Timeline) : Prop where
  segments : ∀ s ∈ t.segments, s.Sound
  sequence_le : t.sequence ≤ Count.greatest
  indices : t.parts.map (·.index) = List.range t.parts.length

namespace Timeline

variable {t : Timeline}

theorem start_sound (r : Rendition) : (start r).Sound := by
  constructor
  · intro s hs
    cases hs
  · exact Nat.zero_le _
  · rfl

theorem Sound.push (ht : t.Sound) {uri : String} {duration : Int} {parts : List Part}
    (room : t.sequence < Count.greatest)
    (indices : parts.map (·.index) = List.range parts.length)
    (whole : uri.isEmpty = true → parts ≠ []) :
    ∀ s ∈ (t.push uri duration parts).segments, s.Sound := by
  intro s hs
  simp only [Timeline.push, List.mem_append, List.mem_singleton] at hs
  rcases hs with hs | rfl
  · exact ht.segments s hs
  · exact ⟨room, indices, whole⟩

theorem Sound.emit (ht : t.Sound) {uri : String} (huri : uri.isEmpty = false) :
    (t.emit uri).Sound := by
  by_cases room : t.sequence < Count.greatest
  · rw [emit_eq t uri room]
    refine ⟨?_, room, rfl⟩
    intro s hs
    rcases List.mem_append.1 hs with hs | hs
    · exact ht.segments s hs
    · rw [List.mem_singleton.1 hs]
      exact ⟨room, ht.indices, fun h => by simp [Segment.inProgress, nextSegment, huri] at h⟩
  · simp only [Timeline.emit, if_neg room]
    exact ⟨ht.segments, ht.sequence_le, rfl⟩

theorem Sound.addPart (ht : t.Sound) (a : Attributes) : (t.addPart a).Sound := by
  refine ⟨ht.segments, ht.sequence_le, ?_⟩
  simp only [Timeline.addPart, List.map_append, List.length_append, ht.indices]
  exact List.range_succ.symm

theorem Sound.step (ht : t.Sound) (d : Directive) : (t.step d).Sound := by
  cases d with
  | single kind value =>
    cases kind with
    | uri =>
      simp only [Timeline.step, stepSingle]
      split
      · exact ⟨ht.segments, ht.sequence_le, ht.indices⟩
      · next h => exact ht.emit (by simpa [Value.isEmpty] using h)
    | mediaSequence =>
      have hn := value.getD_count?_le
      simp only [Timeline.step, stepSingle]
      generalize value.count?.getD 0 = n at hn ⊢
      exact ⟨ht.segments, hn, ht.indices⟩
    | programDateTime =>
      simp only [Timeline.step, stepSingle]
      split
      · exact ⟨ht.segments, ht.sequence_le, ht.indices⟩
      · exact ht
    | _ =>
      simp only [Timeline.step, stepSingle, setRendition]
      exact ⟨ht.segments, ht.sequence_le, ht.indices⟩
  | list kind a =>
    cases kind with
    | map =>
      simp only [Timeline.step, stepList, setInit_eq]
      exact ⟨ht.segments, ht.sequence_le, ht.indices⟩
    | part => exact ht.addPart a
    | skip =>
      simp only [Timeline.step, stepList]
      exact ⟨ht.segments, Count.add_le _ _, ht.indices⟩
    | partInf | preloadHint =>
      simp only [Timeline.step, stepList]
      split <;> exact ⟨ht.segments, ht.sequence_le, ht.indices⟩
    | _ => exact ⟨ht.segments, ht.sequence_le, ht.indices⟩
  | inf a => exact ⟨ht.segments, ht.sequence_le, ht.indices⟩

theorem Sound.run (ht : t.Sound) (directives : List Directive) : (t.run directives).Sound := by
  induction directives generalizing t with
  | nil => exact ht
  | cons d rest ih => exact ih (ht.step d)

/-- Only a segment with parts is left in progress. -/
theorem Sound.close (ht : t.Sound) : ∀ s ∈ t.close.segments, s.Sound := by
  simp only [Timeline.close]
  split
  · exact ht.segments
  · next h =>
    simp only [Bool.or_eq_true, List.isEmpty_iff, decide_eq_true_eq, not_or] at h
    have room : t.sequence < Count.greatest := Nat.lt_of_le_of_ne ht.sequence_le h.2
    exact ht.push room ht.indices fun _ => h.1

theorem assemble_sound (r : Rendition) (directives : List Directive) :
    (assemble r directives).Sound :=
  ((start_sound r).run directives).close

end Timeline

namespace SegmentList

theorem sound_of_mem_retime {start : Int} {xs : List Segment} (h : ∀ s ∈ xs, s.Sound) :
    ∀ s ∈ retime start xs, s.Sound := by
  induction xs generalizing start with
  | nil => simp
  | cons x rest ih =>
    intro s hs
    rcases List.mem_cons.1 hs with rfl | hs
    · have hx := h x List.mem_cons_self
      exact ⟨hx.sequence_lt, hx.indices, hx.parts_ne_nil⟩
    · exact ih (fun y hy => h y (List.mem_cons_of_mem _ hy)) s hs

/-- Filling the gap makes no new segments but for their times. -/
theorem sound_of_restore {l previous merged : SegmentList} {skipped : Nat}
    (hl : ∀ s ∈ l.segments, s.Sound) (hprevious : ∀ s ∈ previous.segments, s.Sound)
    (h : l.restore previous skipped = .ok merged) : ∀ s ∈ merged.segments, s.Sound := by
  simp only [restore] at h
  split at h
  · cases h; exact hl
  · split at h
    · cases h
    · cases h
      apply sound_of_mem_retime
      intro s hs
      rcases List.mem_append.1 hs with hs | hs
      · exact hprevious s (List.mem_filter.1 hs).1
      · exact hl s hs

end SegmentList

def Playlist.directivesOf (data : List UInt8) : List Directive :=
  Entries.ofLines (Text.Lines.ofBytes data).tail

/-- What is read from bytes without a variant stream among its directives. -/
theorem Playlist.eq_media_of_ofBytes {url : Url} {data : List UInt8} {p : Playlist}
    (h : ofBytes url data = .ok p) (hp : p.isMaster = false) : p = media url (directivesOf data) := by
  simp only [ofBytes, ofLines, ofDirectives] at h
  split at h
  · split at h
    · cases h
    · split at h
      · cases h
        cases hp
      · cases h
        rfl
  · cases h

namespace Tracker

variable {t : Tracker} {r r' : Rendition}

/-- A snapshot is what the directives describe, with what is known about the variant. -/
theorem readSnapshot_eq_ok {data : List UInt8} (h : t.readSnapshot data = .ok r) :
    r = { Timeline.assemble (.ofUrl t.descriptor.playlistUrl) (Playlist.directivesOf data) with
      variant := t.descriptor.variant } := by
  simp only [readSnapshot, bind, Except.bind] at h
  cases hp : Playlist.ofBytes t.descriptor.playlistUrl data with
  | error e => rw [hp] at h; cases h
  | ok p =>
    rw [hp] at h
    cases hm : p.isMaster with
    | true => simp [hm, throw, throwThe, MonadExceptOf.throw] at h
    | false =>
      cases Playlist.eq_media_of_ofBytes hp hm
      cases h
      rfl

theorem readSnapshot_segments {data : List UInt8} (h : t.readSnapshot data = .ok r) :
    r.segments = (Timeline.assemble (.ofUrl t.descriptor.playlistUrl)
      (Playlist.directivesOf data)).segments := by
  rw [readSnapshot_eq_ok h]
  rfl

theorem readSnapshot_sound {data : List UInt8} (h : t.readSnapshot data = .ok r) : r.Sound := by
  rw [Rendition.Sound, readSnapshot_segments h]
  exact Timeline.assemble_sound _ _

theorem completeDelta_sound (ht : ∀ l, t.segmentList? = some l → ∀ s ∈ l.segments, s.Sound)
    (hr : r.Sound) (h : t.completeDelta r = .ok r') : r'.Sound := by
  simp only [completeDelta] at h
  split at h
  · cases h; exact hr
  · split at h
    · next previous delta hprevious hdelta =>
      split at h
      · next merged hmerged =>
        cases h
        have hdelta : ∀ s ∈ delta.segments, s.Sound := by
          simpa only [Rendition.Sound, Rendition.segments, hdelta] using hr
        exact SegmentList.sound_of_restore hdelta (ht previous hprevious) hmerged
      · cases h
    · cases h

end Tracker

end AdaptiveHls
