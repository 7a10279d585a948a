import AdaptiveHls.Proofs.Timeline.Order
import AdaptiveHls.Proofs.Tracker.Attempts
import AdaptiveHls.Proofs.Tracker.Cursor
import AdaptiveHls.Proofs.Tracker.Runs

/-!
# Snapshots and the record of loads

Only the end of an attempt to load changes the snapshot or the record of how loads went; `Steady`
says what stays in between. An attempt that ends well installs what it has read, and in front of a
delta update it puts the segments that the snapshot before has in the gap. Numbers that rise go on
rising over such a gap, but a segment that was in progress when it was taken over is then no longer
the last one.
-/

namespace AdaptiveHls

/-- What `u` has in common with `t` when no attempt to load has ended in between. -/
structure Tracker.Steady (t u : Tracker) : Prop where
  descriptor : u.descriptor = t.descriptor
  config : u.config = t.config
  snapshot : u.snapshot = t.snapshot
  reload : u.reload = t.reload

namespace Tracker

variable {t u v : Tracker} {now : Nat} {answer : Except Failure (List UInt8)} {e : Failure}
  {r r' : Rendition}

theorem Steady.refl (t : Tracker) : Steady t t := ⟨rfl, rfl, rfl, rfl⟩

theorem Steady.trans (h : Steady t u) (h' : Steady u v) : Steady t v :=
  ⟨h'.descriptor.trans h.descriptor, h'.config.trans h.config, h'.snapshot.trans h.snapshot,
    h'.reload.trans h.reload⟩

theorem Steady.isLive (h : Steady t u) : u.isLive = t.isLive := by
  rw [Tracker.isLive, Tracker.isLive, h.snapshot]

theorem segmentAtCursor_moves (t : Tracker) : ∃ cursor, t.segmentAtCursor.2 = { t with cursor } := by
  rcases t.segmentAtCursor_cases with ⟨_, hn⟩ | ⟨s, _, hs⟩ | ⟨s, _, hs⟩
  · exact ⟨t.cursor, by rw [hn]⟩
  · exact ⟨t.cursor, by rw [hs]⟩
  · exact ⟨_, by rw [hs]; rfl⟩

theorem pass_moves (t : Tracker) (s : Segment) : ∃ cursor, t.pass s = { t with cursor } := by
  rw [pass]
  split <;> exact ⟨_, rfl⟩

/-- Handing out a segment moves nothing but the cursor. -/
theorem handOut_moves (t : Tracker) : ∃ cursor, t.handOut.2 = { t with cursor } := by
  obtain ⟨seen, hlook⟩ := t.segmentAtCursor_moves
  rw [handOut]
  split
  · next s u hu =>
    have hu : u = { t with cursor := seen } := by rwa [hu] at hlook
    obtain ⟨cursor, hpass⟩ := u.pass_moves s
    exact ⟨cursor, hpass.trans (by rw [hu])⟩
  · next u hu =>
    rw [hu] at hlook
    exact ⟨seen, hlook⟩

/-- Asking for the next segment moves nothing but the cursor. -/
theorem next_moves (t : Tracker) : ∃ cursor, t.next.2 = { t with cursor } := by
  obtain ⟨seen, hlook⟩ := t.segmentAtCursor_moves
  rw [next]
  split
  · next u hu =>
    rw [hu] at hlook
    exact ⟨seen, hlook⟩
  · next s u hu =>
    have hu : u = { t with cursor := seen } := by rwa [hu] at hlook
    obtain ⟨passed, hpass⟩ := u.pass_moves s
    obtain ⟨cursor, hout⟩ := (u.moveTo (Count.add s.sequence 1)).handOut_moves
    repeat' split
    · exact ⟨passed, hpass.trans (by rw [hu])⟩
    · exact ⟨passed, hpass.trans (by rw [hu])⟩
    · exact ⟨seen, hu⟩
    · exact ⟨cursor, hout.trans (by rw [hu]; rfl)⟩

/-- A call changes no more than where the cursor is and what can be used up. -/
theorem call_changes (t : Tracker) (c : Call) :
    ∃ cursor seeked preload reports, t.call c = { t with cursor, seeked, preload, reports } := by
  cases c with
  | next =>
    obtain ⟨cursor, h⟩ := t.next_moves
    exact ⟨cursor, _, _, _, h⟩
  | look =>
    obtain ⟨cursor, h⟩ := t.segmentAtCursor_moves
    exact ⟨cursor, _, _, _, h⟩
  | moveToLiveStart index =>
    simp only [call, moveToLiveStart]
    split <;> exact ⟨_, _, _, _, rfl⟩
  | seek | setPosition | takePreload | setReports => exact ⟨_, _, _, _, rfl⟩

theorem segmentAtCursor_steady (t : Tracker) : Steady t t.segmentAtCursor.2 := by
  obtain ⟨cursor, h⟩ := t.segmentAtCursor_moves
  rw [h]
  exact ⟨rfl, rfl, rfl, rfl⟩

theorem call_steady (t : Tracker) (c : Call) : Steady t (t.call c) := by
  obtain ⟨_, _, _, _, h⟩ := t.call_changes c
  rw [h]
  exact ⟨rfl, rfl, rfl, rfl⟩

theorem takeInitial_steady (t : Tracker) : Steady t t.takeInitial.2 := ⟨rfl, rfl, rfl, rfl⟩

theorem nextRequest_steady (t : Tracker) (now : Nat) (full : Bool) :
    Steady t (t.nextRequest now full).2 := by
  rcases t.nextRequest_eq now full with h | h
  · rw [h]; exact .refl t
  · rw [h]; exact ⟨rfl, rfl, rfl, rfl⟩

theorem followWindow_steady (t : Tracker) (first : Option Nat) : Steady t (t.followWindow first) := by
  simp only [followWindow]
  repeat' split
  all_goals exact ⟨rfl, rfl, rfl, rfl⟩

theorem followHint_steady (t : Tracker) (r : Rendition) : Steady t (t.followHint r) := by
  rw [followHint]
  split <;> exact ⟨rfl, rfl, rfl, rfl⟩

/-- A snapshot leaves the settings alone, and what is recorded of it is whether it ends where the
one before ended. -/
theorem install_steady (t : Tracker) (now : Nat) (r : Rendition) :
    (t.install now r).descriptor = t.descriptor ∧ (t.install now r).config = t.config ∧
      (t.install now r).reload = { t.reload with needsFull := false }.recordSuccess now
        (t.snapshot.any fun previous => edge previous == edge r) := by
  let unchanged := t.snapshot.any fun previous => edge previous == edge r
  let u : Tracker :=
    { t with reload := { t.reload with needsFull := false }.recordSuccess now unchanged }
  have h : u.Steady ((u.followWindow r.firstSequence?).followHint r) :=
    (u.followWindow_steady r.firstSequence?).trans (followHint_steady _ r)
  exact ⟨h.descriptor, h.config, h.reload⟩

/-- A snapshot clears what is remembered of failures. -/
theorem install_record (t : Tracker) (now : Nat) (r : Rendition) :
    (t.install now r).descriptor = t.descriptor ∧ (t.install now r).config = t.config ∧
      (t.install now r).reload.lastLoad = some now ∧
      (t.install now r).reload.failingSince = none ∧
      (t.install now r).reload.needsFull = false := by
  obtain ⟨hdescriptor, hconfig, hreload⟩ := t.install_steady now r
  rw [hreload]
  exact ⟨hdescriptor, hconfig, rfl, rfl, rfl⟩

theorem conclude_interrupted (t : Tracker) (now : Nat) :
    t.conclude now (.error .interrupted) = (.error .interrupted, t) := rfl

/-- An attempt that fails leaves a record of its failure and nothing else, unless it was
interrupted. -/
theorem conclude_eq_recordFailure (ha : answer ≠ .error .interrupted)
    (h : (t.conclude now answer).1 = .error e) : (t.conclude now answer).2 = t.recordFailure now := by
  cases answer with
  | error f =>
    cases f with
    | interrupted => exact absurd rfl ha
    | _ => rfl
  | ok data =>
    simp only [conclude] at h ⊢
    cases happly : t.apply now data with
    | ok u => simp [happly] at h
    | error f => rfl

/-- What an attempt that was not interrupted leaves recorded. -/
theorem conclude_record (t : Tracker) (now : Nat) (ha : answer ≠ .error .interrupted) :
    (t.conclude now answer).2.reload.lastLoad = some now ∧
      ((t.conclude now answer).1 = .ok () →
        (t.conclude now answer).2.reload.failingSince = none ∧
          (t.conclude now answer).2.reload.needsFull = false) ∧
      ((t.conclude now answer).1 ≠ .ok () →
        (t.conclude now answer).2.reload.failingSince.isSome = true) := by
  rcases t.conclude_cases now answer with ⟨e, he, _⟩ | ⟨_, _, complete, _, _, _, heq⟩
  · rw [conclude_eq_recordFailure ha he, he]
    exact ⟨rfl, fun hok => (nomatch hok), fun _ => rfl⟩
  · have hinstall := t.install_record now complete
    rw [heq]
    exact ⟨hinstall.2.2.1, fun _ => hinstall.2.2.2, fun hne => absurd rfl hne⟩

/-! ## Delta updates -/

/-- The segments of the snapshot that a rendition leaves out. -/
def takenOver (t : Tracker) (r : Rendition) : List Segment :=
  match t.segmentList?, r.firstSequence? with
  | some previous, some first => previous.segments.filter fun s =>
      first - r.skipped ≤ s.sequence && s.sequence < first
  | _, _ => []

/-- But for their times, the segments of a completed rendition are those taken over and its own. -/
theorem completeDelta_segments (h : t.completeDelta r = .ok r') :
    r'.segments.map (·.untimed) = (t.takenOver r ++ r.segments).map (·.untimed) := by
  simp only [completeDelta] at h
  split at h
  · next hskip =>
    cases h
    have hnone : t.takenOver r = [] := by
      simp only [takenOver]
      split
      · simp [hskip]
      · rfl
    rw [hnone, List.nil_append]
  · split at h
    · next previous delta hprevious hdelta =>
      have hfirst : r.firstSequence? = delta.firstSequence? := by
        simp [Rendition.firstSequence?, hdelta]
      have hsegments : r.segments = delta.segments := by simp [Rendition.segments, hdelta]
      simp only [SegmentList.restore] at h
      rw [takenOver, hprevious, hfirst, hsegments]
      cases hf : delta.firstSequence? with
      | none =>
        simp only [hf] at h
        cases h
        simp [Rendition.segments]
      | some first =>
        simp only [hf] at h
        split at h
        · next merged hmerged =>
          split at hmerged
          · cases hmerged
          · cases hmerged
            cases h
            simp only [Rendition.segments, SegmentList.untimed_retime]
        · cases h
    · cases h

theorem takenOver_eq_nil (h : r.segments = []) : t.takenOver r = [] := by
  have hfirst : r.firstSequence? = none := by
    rw [Rendition.firstSequence?]
    cases hl : r.segmentList with
    | none => rfl
    | some l =>
      have hnil : l.segments = [] := by simpa [Rendition.segments, hl] using h
      simp [SegmentList.firstSequence?, SegmentList.first?, hnil]
  rw [takenOver, hfirst]
  cases t.segmentList? <;> rfl

/-- What is taken over has numbers below all others. -/
theorem lt_of_mem_takenOver {s first : Segment} (hs : s ∈ t.takenOver r)
    (hfirst : r.segments.head? = some first) : s.sequence < first.sequence := by
  have hsequence : r.firstSequence? = some first.sequence := by
    rw [Rendition.firstSequence?]
    cases hl : r.segmentList with
    | none => simp [Rendition.segments, hl] at hfirst
    | some l =>
      have hl : l.segments.head? = some first := by simpa [Rendition.segments, hl] using hfirst
      simp [SegmentList.firstSequence?, SegmentList.first?, hl]
  rw [takenOver, hsequence] at hs
  split at hs
  · next previous n _ hn =>
    cases hn
    simp only [List.mem_filter, Bool.and_eq_true, decide_eq_true_eq] at hs
    exact hs.2.2
  · cases hs

theorem rising_takenOver (h : ∀ l, t.segmentList? = some l → Rising l.segments) :
    Rising (t.takenOver r) := by
  rw [takenOver]
  split
  · next previous first hprevious _ =>
    exact (h previous hprevious).sublist (List.filter_sublist.map _)
  · exact .nil

/-- Over a gap numbers rise if they do on both sides of it. -/
theorem rising_completeDelta_iff (hprevious : ∀ l, t.segmentList? = some l → Rising l.segments)
    (h : t.completeDelta r = .ok r') : Rising r'.segments ↔ Rising r.segments := by
  rw [rising_iff_of_untimed (completeDelta_segments h), rising_append_iff]
  constructor
  · rintro ⟨_, hown, _⟩
    exact hown
  · intro hown
    refine ⟨rising_takenOver hprevious, hown, fun a ha b hb => ?_⟩
    exact lt_of_mem_takenOver (List.mem_of_getLast? ha) hb

/-- In front of other segments no segment in progress may be taken over. -/
theorem completeButLast_completeDelta_iff (hown : CompleteButLast r.segments)
    (h : t.completeDelta r = .ok r') :
    CompleteButLast r'.segments ↔ ∀ s ∈ t.takenOver r, s.inProgress = false := by
  rw [completeButLast_iff_of_untimed (completeDelta_segments h)]
  by_cases hnil : r.segments = []
  · simp [takenOver_eq_nil hnil, hnil, CompleteButLast]
  · rw [completeButLast_append_iff hnil]
    exact and_iff_left hown

end Tracker

end AdaptiveHls
