import AdaptiveHls.Proofs.Timeline.Sound
import AdaptiveHls.Proofs.Tracker.Attempts
import AdaptiveHls.Proofs.Tracker.Cursor
import AdaptiveHls.Proofs.Tracker.Runs

/-!
# What is handed out, in which order

The cursor keeps a bare count of the parts that are out. What the count means is said by
`Delivery`, which relates a tracker to all that it has handed out: nothing with a greater number than
the cursor's, of the cursor's number the parts below the count and nothing else. It holds of a new
tracker, and whatever happens to the tracker keeps it, unless the cursor is placed on purpose. Of
the snapshot nothing is needed but that its segments are sound: it may list any segments, and any
parts of them, however little they have to do with those listed before.
-/

namespace AdaptiveHls

def partsOf (ds : List Segment) (n : Nat) : List Nat :=
  (ds.filter (·.sequence == n)).flatMap (·.indices)

/-- Where `a` is handed out, `b` may be handed out later. -/
def Segment.Before (a b : Segment) : Prop :=
  a.sequence < b.sequence ∨
    a.sequence = b.sequence ∧ a.inProgress = true ∧ b.inProgress = true ∧
      ∀ p ∈ a.parts, ∀ q ∈ b.parts, p.index < q.index

/-- How what has been handed out, the cursor and the snapshot belong together. -/
structure Delivery (ds : List Segment) (t : Tracker) : Prop where
  seeked : t.seeked = false
  sound : ∀ l, t.segmentList? = some l → ∀ s ∈ l.segments, s.Sound
  abreast : t.Abreast
  sequence_le : ∀ d ∈ ds, d.sequence ≤ t.cursor.sequence
  /-- Of the segment at the cursor only parts can be out. -/
  started : ∀ d ∈ ds, d.sequence = t.cursor.sequence → d.inProgress = true
  parts_ne_nil : ∀ d ∈ ds, d.inProgress = true → d.parts ≠ []
  parts : partsOf ds t.cursor.sequence = List.range t.cursor.part
  inOrder : ds.Pairwise Segment.Before

theorem Segment.withoutParts_indices (s : Segment) (count : Nat) :
    (s.withoutParts count).indices = s.indices.drop count := by
  rw [indices, withoutParts_parts, List.map_drop, indices]

theorem partsOf_append (ds es : List Segment) (n : Nat) :
    partsOf (ds ++ es) n = partsOf ds n ++ partsOf es n := by
  simp [partsOf]

theorem partsOf_singleton {d : Segment} {n : Nat} (h : d.sequence = n) :
    partsOf [d] n = d.indices := by
  simp [partsOf, h]

theorem partsOf_eq_nil {ds : List Segment} {n : Nat} (h : ∀ d ∈ ds, d.sequence ≠ n) :
    partsOf ds n = [] := by
  simp only [partsOf, List.flatMap_eq_nil_iff, List.mem_filter]
  intro d hd
  simp [h d hd.1] at hd

theorem index_mem_partsOf {ds : List Segment} {d : Segment} {p : Part} (hd : d ∈ ds)
    (hp : p ∈ d.parts) : p.index ∈ partsOf ds d.sequence := by
  simp only [partsOf, List.mem_flatMap, List.mem_filter]
  exact ⟨d, ⟨hd, by simp⟩, List.mem_map_of_mem hp⟩

namespace Delivery

variable {ds : List Segment} {t u : Tracker} {s v : Segment}

/-- A tracker with the same place of the cursor has handed out the same. -/
theorem of_cursor (h : Delivery ds t) (hsequence : u.cursor.sequence = t.cursor.sequence)
    (hpart : u.cursor.part = t.cursor.part) (hseeked : u.seeked = false)
    (hsound : ∀ l, u.segmentList? = some l → ∀ s ∈ l.segments, s.Sound) (habreast : u.Abreast) :
    Delivery ds u where
  seeked := hseeked
  sound := hsound
  abreast := habreast
  sequence_le := by rw [hsequence]; exact h.sequence_le
  started := by rw [hsequence]; exact h.started
  parts_ne_nil := h.parts_ne_nil
  parts := by rw [hsequence, hpart]; exact h.parts
  inOrder := h.inOrder

theorem untouched (h : Delivery ds t) (hu : t.Untouched u) : Delivery ds u := by
  refine h.of_cursor (by rw [hu.cursor]) (by rw [hu.cursor]) (hu.seeked.trans h.seeked) ?_ ?_
  · rw [hu.segmentList?]
    exact h.sound
  · rw [Tracker.Abreast, hu.segmentList?, hu.cursor]
    exact h.abreast

/-- Behind the cursor nothing is out. -/
theorem moveTo (h : Delivery ds t) {n : Nat} (hn : t.cursor.sequence < n) :
    Delivery ds (t.moveTo n) where
  seeked := h.seeked
  sound := h.sound
  abreast := fun first hfirst => Nat.le_of_lt (Nat.lt_of_le_of_lt (h.abreast first hfirst) hn)
  sequence_le := fun d hd => Nat.le_of_lt (Nat.lt_of_le_of_lt (h.sequence_le d hd) hn)
  started := fun d hd he => by
    have := h.sequence_le d hd
    simp only [Tracker.moveTo_cursor] at he
    omega
  parts_ne_nil := h.parts_ne_nil
  parts := partsOf_eq_nil fun d hd => by
    have := h.sequence_le d hd
    simp only [Tracker.moveTo_cursor]
    omega
  inOrder := h.inOrder

/-- A new snapshot pulls the cursor along if the window has left it behind. -/
theorem install (h : Delivery ds t) {r : Rendition} (hr : r.Sound) (now : Nat) :
    Delivery ds (t.install now r) ∧ t.cursor.sequence ≤ (t.install now r).cursor.sequence := by
  have hsound : ∀ l, (t.install now r).segmentList? = some l → ∀ s ∈ l.segments, s.Sound := by
    intro l hl
    rw [Tracker.segmentList?, Tracker.install_snapshot, Option.bind_some] at hl
    simpa only [Rendition.Sound, Rendition.segments, hl] using hr
  obtain ⟨hseeked, hcursor⟩ := t.install_cursor now r h.seeked
  have habreast := t.install_abreast now r h.seeked
  have hstays (hsame : (t.install now r).cursor = t.cursor) : Delivery ds (t.install now r) ∧
      t.cursor.sequence ≤ (t.install now r).cursor.sequence :=
    ⟨h.of_cursor (by rw [hsame]) (by rw [hsame]) hseeked hsound habreast, by rw [hsame]⟩
  cases hr : r.firstSequence? with
  | none =>
    simp only [hr] at hcursor
    exact hstays hcursor
  | some first =>
    simp only [hr] at hcursor
    by_cases hlt : t.cursor.sequence < first
    · rw [if_pos hlt] at hcursor
      refine ⟨(h.moveTo hlt).of_cursor (by rw [hcursor]; rfl) (by rw [hcursor]; rfl) hseeked hsound
        habreast, ?_⟩
      rw [hcursor]
      exact Nat.le_of_lt hlt
    · exact hstays (hcursor.trans (if_neg hlt))

/-- With no part out, nothing of the segment at the cursor is. -/
theorem sequence_lt (h : Delivery ds t) (hpart : t.cursor.part = 0) :
    ∀ d ∈ ds, d.sequence < t.cursor.sequence := by
  intro d hd
  rcases Nat.lt_or_eq_of_le (h.sequence_le d hd) with hlt | heq
  · exact hlt
  · obtain ⟨p, rest, hp⟩ := List.exists_cons_of_ne_nil (h.parts_ne_nil d hd (h.started d hd heq))
    have hmem := index_mem_partsOf hd (p := p) (by rw [hp]; exact List.mem_cons_self)
    rw [heq, h.parts, hpart] at hmem
    cases hmem

/-- Parts of the segment at the cursor that are not out yet are handed out. -/
theorem handParts (h : Delivery ds t) (hv : v.sequence = t.cursor.sequence)
    (hprogress : v.inProgress = true) {count : Nat} (hcount : 0 < count)
    (hparts : v.indices = List.range' t.cursor.part count) :
    Delivery (ds ++ [v])
      { t with cursor := { t.cursor with part := t.cursor.part + count } } where
  seeked := h.seeked
  sound := h.sound
  abreast := h.abreast
  sequence_le := List.forall_mem_append.2 ⟨h.sequence_le, by simp [hv]⟩
  started := List.forall_mem_append.2 ⟨h.started, by simp [hprogress]⟩
  parts_ne_nil := by
    refine List.forall_mem_append.2 ⟨h.parts_ne_nil, ?_⟩
    have hlength := congrArg List.length hparts
    simp only [Segment.indices, List.length_map, List.length_range'] at hlength
    simp only [List.forall_mem_singleton]
    intro _ hnil
    rw [hnil, List.length_nil] at hlength
    omega
  parts := by
    rw [partsOf_append, h.parts, partsOf_singleton hv, hparts, List.range_eq_range',
      List.range_eq_range', ← List.range'_append_1, Nat.zero_add]
  inOrder := by
    refine List.pairwise_append.2 ⟨h.inOrder, List.pairwise_singleton _ _, ?_⟩
    simp only [List.forall_mem_singleton]
    intro d hd
    rcases Nat.lt_or_eq_of_le (h.sequence_le d hd) with hlt | heq
    · exact .inl (by rw [hv]; exact hlt)
    · refine .inr ⟨by rw [hv, heq], h.started d hd heq, hprogress, ?_⟩
      intro p hp q hq
      have hp := index_mem_partsOf hd hp
      have hq : q.index ∈ v.indices := List.mem_map_of_mem hq
      rw [heq, h.parts, List.mem_range] at hp
      rw [hparts, List.mem_range'_1] at hq
      omega

/-- A complete segment of which nothing is out is handed out, and the cursor moves on. -/
theorem handWhole (h : Delivery ds t) (hv : v.sequence = t.cursor.sequence)
    (hpart : t.cursor.part = 0) (hwhole : v.inProgress = false) :
    Delivery (ds ++ [v]) (t.moveTo (v.sequence + 1)) := by
  have hmoved : Delivery ds (t.moveTo (v.sequence + 1)) := h.moveTo (by omega)
  refine { hmoved with
    sequence_le := List.forall_mem_append.2 ⟨hmoved.sequence_le, by simp⟩
    started := List.forall_mem_append.2 ⟨hmoved.started, by simp⟩
    parts_ne_nil := List.forall_mem_append.2 ⟨hmoved.parts_ne_nil, by simp [hwhole]⟩
    parts := ?_
    inOrder := ?_ }
  · have hnone : partsOf [v] (v.sequence + 1) = [] := partsOf_eq_nil (by simp)
    rw [partsOf_append, hmoved.parts]
    exact (congrArg _ hnone).trans (List.append_nil _)
  · refine List.pairwise_append.2 ⟨h.inOrder, List.pairwise_singleton _ _, ?_⟩
    simp only [List.forall_mem_singleton]
    exact fun d hd => .inl (by rw [hv]; exact h.sequence_lt hpart d hd)

/-- The segment at the cursor is handed out if none of its parts is out. -/
theorem handFirst (h : Delivery ds t) (hs : t.segment? = some s) (hpart : t.cursor.part = 0) :
    Delivery (ds ++ [s]) (t.pass s) ∧ t.cursor.sequence ≤ (t.pass s).cursor.sequence := by
  obtain ⟨l, hl, hmem, hsequence⟩ := Tracker.segment?_eq_some hs
  have hsound := h.sound l hl s hmem
  rw [Tracker.pass]
  cases hprogress : s.inProgress with
  | true =>
    have hlength : 0 < s.parts.length := List.length_pos_iff.2 (hsound.parts_ne_nil hprogress)
    have hparts := hsound.indices
    rw [List.range_eq_range', ← hpart] at hparts
    have := h.handParts hsequence hprogress hlength hparts
    rw [hpart, Nat.zero_add] at this
    exact ⟨this, Nat.le_refl _⟩
  | false =>
    rw [hsound.add_one]
    refine ⟨h.handWhole hsequence hpart hprogress, ?_⟩
    rw [hsequence]
    exact Nat.le_succ _

/-- The parts that are left are handed out if some are out and some are not. -/
theorem handRest (h : Delivery ds t) (hs : t.segment? = some s)
    (hleft : t.cursor.part < s.parts.length) :
    Delivery (ds ++ [s.withoutParts t.cursor.part]) (t.pass s) ∧
      t.cursor.sequence ≤ (t.pass s).cursor.sequence := by
  obtain ⟨l, hl, hmem, hsequence⟩ := Tracker.segment?_eq_some hs
  have hsound := h.sound l hl s hmem
  have hparts : (s.withoutParts t.cursor.part).indices =
      List.range' t.cursor.part (s.parts.length - t.cursor.part) := by
    rw [Segment.withoutParts_indices, hsound.indices, List.range_eq_range', List.drop_range',
      Nat.zero_add, Nat.mul_one]
  have hrest := h.handParts (v := s.withoutParts t.cursor.part) hsequence rfl
    (Nat.sub_pos_of_lt hleft) hparts
  rw [Nat.add_sub_cancel' (Nat.le_of_lt hleft)] at hrest
  rw [Tracker.pass]
  cases hprogress : s.inProgress with
  | true => exact ⟨hrest, Nat.le_refl _⟩
  | false =>
    rw [hsound.add_one]
    have hlt : t.cursor.sequence < s.sequence + 1 := by rw [hsequence]; exact Nat.lt_succ_self _
    exact ⟨hrest.moveTo hlt, Nat.le_of_lt hlt⟩

theorem nextFirst (h : Delivery ds t) (hpart : t.cursor.part = 0) :
    Delivery (ds ++ t.next.1.toList) t.next.2 ∧
      t.cursor.sequence ≤ t.next.2.cursor.sequence := by
  rw [Tracker.next_eq h.abreast]
  cases hs : t.segment? with
  | none => exact ⟨by simpa using h, Nat.le_refl _⟩
  | some s => simpa [hpart] using h.handFirst hs hpart

/-- What comes next fits behind what has come, and the cursor does not go back. -/
theorem next (h : Delivery ds t) :
    Delivery (ds ++ t.next.1.toList) t.next.2 ∧
      t.cursor.sequence ≤ t.next.2.cursor.sequence := by
  by_cases hpart : t.cursor.part = 0
  · exact h.nextFirst hpart
  · rw [Tracker.next_eq h.abreast]
    cases hs : t.segment? with
    | none => exact ⟨by simpa using h, Nat.le_refl _⟩
    | some s =>
      simp only [if_neg hpart]
      by_cases hleft : t.cursor.part < s.parts.length
      · rw [if_pos hleft]
        exact h.handRest hs hleft
      · rw [if_neg hleft]
        cases hprogress : s.inProgress with
        | true => exact ⟨by simpa using h, Nat.le_refl _⟩
        | false =>
          obtain ⟨l, hl, hmem, hsequence⟩ := Tracker.segment?_eq_some hs
          rw [if_neg Bool.false_ne_true, (h.sound l hl s hmem).add_one]
          have hlt : t.cursor.sequence < s.sequence + 1 := by
            rw [hsequence]; exact Nat.lt_succ_self _
          obtain ⟨hnext, hle⟩ := (h.moveTo hlt).nextFirst rfl
          exact ⟨hnext, Nat.le_trans (Nat.le_of_lt hlt) hle⟩

theorem conclude (h : Delivery ds t) (now : Nat) (answer : Except Failure (List UInt8)) :
    Delivery ds (t.conclude now answer).2 ∧
      t.cursor.sequence ≤ (t.conclude now answer).2.cursor.sequence := by
  rcases t.conclude_cases now answer with ⟨e, _, hu⟩ | ⟨data, r, complete, _, hr, hc, hok⟩
  · exact ⟨h.untouched hu, by rw [hu.cursor]⟩
  · rw [hok]
    exact h.install (Tracker.completeDelta_sound h.sound (Tracker.readSnapshot_sound hr) hc) now

/-- Whatever happens to a tracker, what it has handed out stays in order and the cursor does not
go back. -/
theorem step (h : Delivery ds t) {e : Event} (he : e.placesCursor = false) :
    Delivery (ds ++ t.handed e) (t.step e) ∧
      t.cursor.sequence ≤ (t.step e).cursor.sequence := by
  cases e with
  | call c =>
    cases c with
    | next => exact h.next
    | look =>
      simp only [Tracker.handed, Tracker.given, Tracker.step, Tracker.call, List.append_nil,
        Tracker.segmentAtCursor_of_abreast h.abreast]
      exact ⟨h, Nat.le_refl _⟩
    | seek n => cases he
    | moveToLiveStart index => cases he
    | setPosition position =>
      simp only [Tracker.handed, Tracker.given, List.append_nil]
      exact ⟨h.of_cursor rfl rfl h.seeked h.sound h.abreast, Nat.le_refl _⟩
    | takePreload | setReports reports =>
      simp only [Tracker.handed, Tracker.given, List.append_nil]
      exact ⟨h.of_cursor rfl rfl h.seeked h.sound h.abreast, Nat.le_refl _⟩
  | takeInitial =>
    simp only [Tracker.handed, List.append_nil]
    exact ⟨h.untouched t.takeInitial_untouched, Nat.le_refl _⟩
  | request now full =>
    have hu := t.nextRequest_untouched now full
    simp only [Tracker.handed, List.append_nil]
    exact ⟨h.untouched hu, Nat.le_of_eq (by rw [Tracker.step, hu.cursor])⟩
  | conclude now answer =>
    simp only [Tracker.handed, List.append_nil]
    exact h.conclude now answer
  | demandFull =>
    simp only [Tracker.handed, List.append_nil]
    exact ⟨h.untouched t.demandFull_untouched, Nat.le_refl _⟩

/-- All that a run hands out fits, if nobody places the cursor. -/
theorem run (h : Delivery ds t) {events : List Event}
    (hevents : ∀ e ∈ events, e.placesCursor = false) :
    Delivery (ds ++ t.delivered events) (t.run events) ∧
      t.cursor.sequence ≤ (t.run events).cursor.sequence := by
  induction events generalizing ds t with
  | nil => exact ⟨by simpa using h, Nat.le_refl _⟩
  | cons e rest ih =>
    obtain ⟨hstep, hle⟩ := h.step (hevents e List.mem_cons_self)
    obtain ⟨hrest, hle'⟩ := ih hstep fun d hd => hevents d (List.mem_cons_of_mem _ hd)
    rw [Tracker.delivered_cons, ← List.append_assoc]
    exact ⟨hrest, Nat.le_trans hle hle'⟩

end Delivery

end AdaptiveHls
