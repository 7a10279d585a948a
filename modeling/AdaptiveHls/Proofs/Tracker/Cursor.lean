import AdaptiveHls.Tracker.Basic

/-!
# Looking at the cursor and moving it

A cursor is abreast of the window if it is not in front of it. Looking at such a cursor moves
nothing, and what the next segment is depends on the segment with the cursor's number, on how many
of its parts are out, and on whether it is complete. Once it is complete and passed over, the
segment behind it is the next one, as no part of that can be out.
-/

namespace AdaptiveHls

theorem SegmentList.of_get? {l : SegmentList} {n : Nat} {s : Segment} (h : l.get? n = some s) :
    s ∈ l.segments ∧ s.sequence = n := by
  rw [get?, Option.filter_eq_some_iff] at h
  exact ⟨List.mem_of_getElem? h.1, by simpa using h.2⟩

namespace Tracker

variable {t : Tracker} {s : Segment}

def segment? (t : Tracker) : Option Segment := t.segmentList?.bind (·.get? t.cursor.sequence)

/-- The cursor is not in front of the window. -/
def Abreast (t : Tracker) : Prop :=
  ∀ first, t.segmentList?.bind (·.firstSequence?) = some first → first ≤ t.cursor.sequence

theorem segment?_eq_some (h : t.segment? = some s) :
    ∃ l, t.segmentList? = some l ∧ s ∈ l.segments ∧ s.sequence = t.cursor.sequence := by
  obtain ⟨l, hl, hs⟩ := Option.bind_eq_some_iff.1 h
  exact ⟨l, hl, SegmentList.of_get? hs⟩

/-- Either nothing is seen, or the segment with the cursor's number, or a cursor in front of the
window moves to a segment in it. -/
theorem segmentAtCursor_cases (t : Tracker) :
    (t.segment? = none ∧ t.segmentAtCursor = (none, t)) ∨
      (∃ s, t.segment? = some s ∧ t.segmentAtCursor = (some s, t)) ∨
      ∃ s, ¬ t.Abreast ∧ t.segmentAtCursor = (some s, t.moveTo s.sequence) := by
  simp only [segmentAtCursor, segment?, Abreast]
  cases t.segmentList? with
  | none => exact .inl ⟨rfl, rfl⟩
  | some l =>
    simp only [Option.bind_some]
    cases l.get? t.cursor.sequence with
    | some s => exact .inr (.inl ⟨s, rfl, rfl⟩)
    | none =>
      cases l.firstSequence? with
      | none => exact .inl ⟨rfl, rfl⟩
      | some first =>
        by_cases h : first ≤ t.cursor.sequence
        · simp [h]
        · cases l.atOrAfter? t.cursor.sequence with
          | none => simp [h]
          | some s => exact .inr (.inr ⟨s, fun habreast => h (habreast first rfl), by simp [h]⟩)

/-- Whatever is seen at the cursor is a segment of the window. -/
theorem mem_of_segmentAtCursor (h : t.segmentAtCursor.1 = some s) :
    ∃ l, t.segmentList? = some l ∧ s ∈ l.segments := by
  simp only [segmentAtCursor] at h
  cases hl : t.segmentList? with
  | none => simp [hl] at h
  | some l =>
    refine ⟨l, rfl, ?_⟩
    simp only [hl] at h
    cases hget : l.get? t.cursor.sequence with
    | some found =>
      simp only [hget, Option.some.injEq] at h
      exact h ▸ (SegmentList.of_get? hget).1
    | none =>
      simp only [hget] at h
      split at h
      · cases h
      · split at h
        · cases h
        · split at h
          · next found hfound =>
            cases h
            exact List.mem_of_getElem? hfound
          · cases h

/-- Looking at the cursor moves nothing unless there is a segment to be seen. -/
theorem segmentAtCursor_of_none (h : t.segmentAtCursor.1 = none) : t.segmentAtCursor.2 = t := by
  rcases t.segmentAtCursor_cases with ⟨_, hn⟩ | ⟨s, _, hs⟩ | ⟨s, _, hs⟩
  · rw [hn]
  · rw [hs] at h; cases h
  · rw [hs] at h; cases h

theorem segmentAtCursor_of_abreast (h : t.Abreast) : t.segmentAtCursor = (t.segment?, t) := by
  rcases t.segmentAtCursor_cases with ⟨hsegment, hn⟩ | ⟨s, hsegment, hs⟩ | ⟨s, hbehind, _⟩
  · rw [hn, hsegment]
  · rw [hs, hsegment]
  · exact absurd h hbehind

theorem followHint_cursor (t : Tracker) (r : Rendition) :
    (t.followHint r).cursor = t.cursor ∧ (t.followHint r).seeked = t.seeked := by
  rw [followHint]
  split <;> exact ⟨rfl, rfl⟩

/-- A cursor that nobody has placed follows the window. -/
theorem followWindow_cursor (first : Option Nat) (h : t.seeked = false) :
    (t.followWindow first).seeked = false ∧
      (t.followWindow first).cursor =
        match first with
        | none => t.cursor
        | some first => if t.cursor.sequence < first then { sequence := first } else t.cursor := by
  cases first with
  | none => exact ⟨h, rfl⟩
  | some first =>
    by_cases hlt : t.cursor.sequence < first
    · simp [followWindow, h, hlt, moveTo]
    · simp [followWindow, h, hlt]

theorem install_cursor (t : Tracker) (now : Nat) (r : Rendition) (h : t.seeked = false) :
    (t.install now r).seeked = false ∧
      (t.install now r).cursor =
        match r.firstSequence? with
        | none => t.cursor
        | some first => if t.cursor.sequence < first then { sequence := first } else t.cursor := by
  simp only [install, followHint_cursor]
  exact followWindow_cursor r.firstSequence? h

/-- A cursor that nobody has placed is not left behind by a new snapshot. -/
theorem install_abreast (t : Tracker) (now : Nat) (r : Rendition) (h : t.seeked = false) :
    (t.install now r).Abreast := by
  intro first hfirst
  have hcursor := (t.install_cursor now r h).2
  rw [show r.firstSequence? = some first from hfirst] at hcursor
  rw [hcursor]
  dsimp only
  split
  · exact Nat.le_refl _
  · next hnot => exact Nat.le_of_not_lt hnot

/-- An empty window moves no cursor, and a placed one stays placed. -/
theorem install_cursor_of_none (t : Tracker) (now : Nat) {r : Rendition}
    (h : r.firstSequence? = none) :
    (t.install now r).cursor = t.cursor ∧ (t.install now r).seeked = t.seeked := by
  simp only [install, followHint_cursor, h, followWindow, and_self]

/-- The first window that is not empty leaves a placed cursor where it is. -/
theorem install_cursor_of_seeked (now : Nat) {r : Rendition} {first : Nat} (hseeked : t.seeked = true)
    (h : r.firstSequence? = some first) :
    (t.install now r).cursor = t.cursor ∧ (t.install now r).seeked = false := by
  simp only [install, followHint_cursor, h, followWindow, hseeked, if_true, and_self]

/-- With no part out, a segment is handed out as it is. -/
theorem handOut_eq_next (h : t.cursor.part = 0) : t.handOut = t.next := by
  rw [handOut, next]
  rcases t.segmentAtCursor_cases with ⟨_, hn⟩ | ⟨s, _, hs⟩ | ⟨s, _, hs⟩
  · rw [hn]
  · rw [hs]; simp [h]
  · rw [hs]; simp

/-- With no part out, the next segment is what a look at the cursor sees. -/
theorem next_of_part_eq_zero (h : t.segmentAtCursor.2.cursor.part = 0) :
    t.next.1 = t.segmentAtCursor.1 := by
  rw [next]
  split
  · next u hu => rw [hu]
  · next s u hu =>
    rw [hu] at h ⊢
    rw [if_pos h]

/-- A cursor that is not in front of the window finds the segment of its number or nothing. -/
theorem next_eq (h : t.Abreast) :
    t.next =
      match t.segment? with
      | none => (none, t)
      | some s =>
        if t.cursor.part = 0 then (some s, t.pass s)
        else if t.cursor.part < s.parts.length then
          (some (s.withoutParts t.cursor.part), t.pass s)
        else if s.inProgress then (none, t)
        else (t.moveTo (Count.add s.sequence 1)).next := by
  rw [next, segmentAtCursor_of_abreast h]
  cases t.segment? with
  | none => rfl
  | some s => simp only [handOut_eq_next (t := t.moveTo (Count.add s.sequence 1)) rfl]

end Tracker

end AdaptiveHls
