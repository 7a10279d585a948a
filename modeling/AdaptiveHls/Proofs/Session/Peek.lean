import AdaptiveHls.Proofs.Session.Seek

/-!
# Looking at the cursor before moving on

To look at the cursor is not to move it, but for a cursor in front of the window, which then moves to
the segment that is seen. What is handed out next does not depend on that as long as a second look
finds the same segment again. It does where numbers rise. Where they do not, the look-up by number may
miss the segment that the look-up from a number on has found, and then a look makes the next segment
another one.
-/

namespace AdaptiveHls

namespace Tracker

variable {t u : Tracker} {s v : Segment} {ds : List Segment}

/-- A second look at the cursor finds what the first one has found. -/
def Refinds (t : Tracker) : Prop := t.segmentAtCursor.2.segmentAtCursor.1 = t.segmentAtCursor.1

instance (t : Tracker) : Decidable t.Refinds :=
  inferInstanceAs (Decidable (t.segmentAtCursor.2.segmentAtCursor.1 = t.segmentAtCursor.1))

theorem next_congr (h : t.segmentAtCursor = u.segmentAtCursor) : t.next = u.next := by
  rw [next, next, h]

/-- A look that moves the cursor leaves it at the start of the segment that is seen. -/
theorem segmentAtCursor_snd (t : Tracker) :
    t.segmentAtCursor.2 = t ∨ ∃ s, t.segmentAtCursor = (some s, t.moveTo s.sequence) := by
  rcases t.segmentAtCursor_cases with ⟨_, h⟩ | ⟨s, _, h⟩ | ⟨s, _, h⟩
  · exact .inl (by rw [h])
  · exact .inl (by rw [h])
  · exact .inr ⟨s, h⟩

theorem refinds_of_same (h : t.segmentAtCursor.2 = t) : t.Refinds := by rw [Refinds, h]

/-- Where a second look finds the same, so does each further one. -/
theorem Refinds.segmentAtCursor (h : t.Refinds) :
    t.segmentAtCursor.2.segmentAtCursor = t.segmentAtCursor := by
  rcases t.segmentAtCursor_snd with hsame | ⟨s, hs⟩
  · rw [hsame]
  · rw [Refinds, hs] at h
    rw [hs]
    dsimp only at h ⊢
    rcases (t.moveTo s.sequence).segmentAtCursor_cases with ⟨_, hn⟩ | ⟨v, _, hv⟩ | ⟨v, _, hv⟩
    · rw [hn] at h; cases h
    · rw [hv] at h ⊢
      cases h
      rfl
    · rw [hv] at h ⊢
      cases h
      rfl

/-- If a second look finds something else, so does the next segment. -/
theorem next_ne_of_not_refinds (h : ¬ t.Refinds) : t.segmentAtCursor.2.next.1 ≠ t.next.1 := by
  rcases t.segmentAtCursor_snd with hsame | ⟨s, hs⟩
  · exact absurd (refinds_of_same hsame) h
  · have hpart : (t.moveTo s.sequence).segmentAtCursor.2.cursor.part = 0 := by
      rcases (t.moveTo s.sequence).segmentAtCursor_snd with hsame | ⟨v, hv⟩
      · rw [hsame]; rfl
      · rw [hv]; rfl
    have hfirst : t.next.1 = t.segmentAtCursor.1 := next_of_part_eq_zero (by rw [hs]; rfl)
    have hsecond : t.segmentAtCursor.2.next.1 = t.segmentAtCursor.2.segmentAtCursor.1 :=
      next_of_part_eq_zero (by rw [hs]; exact hpart)
    rw [hfirst, hsecond]
    exact h

theorem refinds_of_abreast (h : t.Abreast) : t.Refinds :=
  refinds_of_same (by rw [segmentAtCursor_of_abreast h])

theorem refinds_of_rising (h : ∀ l, t.segmentList? = some l → Rising l.segments) : t.Refinds := by
  by_cases habreast : t.Abreast
  · exact refinds_of_abreast habreast
  · obtain ⟨s, hlook, _, hmoved, hsegment, _⟩ := segmentAtCursor_of_not_abreast h habreast
    rw [Refinds, hlook]
    dsimp only
    rw [segmentAtCursor_of_abreast hmoved, hsegment]

/-! ## Parts that are counted as out -/

/-- Parts of the segment at the cursor are counted as out only if some have been handed out. -/
def Counted (ds : List Segment) (t : Tracker) : Prop :=
  t.cursor.part ≠ 0 → partsOf ds t.cursor.sequence ≠ []

theorem counted_of_part_eq_zero (h : t.cursor.part = 0) : Counted ds t := fun hne => absurd h hne

theorem Counted.of_cursor (h : Counted ds t) (hcursor : u.cursor = t.cursor) : Counted ds u := by
  rwa [Counted, hcursor]

/-- The cursor moves to the segment that it finds. -/
theorem sequence_of_segmentAtCursor (h : t.segmentAtCursor = (some s, u)) :
    u.cursor.sequence = s.sequence := by
  rcases t.segmentAtCursor_cases with ⟨_, hn⟩ | ⟨v, hsegment, hv⟩ | ⟨v, _, hv⟩
  · rw [hn] at h; cases h
  · rw [hv] at h
    cases h
    obtain ⟨_, _, _, hsequence⟩ := segment?_eq_some hsegment
    exact hsequence.symm
  · rw [hv] at h
    cases h
    rfl

theorem Counted.look (h : Counted ds t) : Counted ds t.segmentAtCursor.2 := by
  rcases t.segmentAtCursor_snd with hsame | ⟨s, hs⟩
  · rwa [hsame]
  · exact counted_of_part_eq_zero (by rw [hs]; rfl)

/-- What is handed out of a segment in progress is counted. -/
theorem counted_pass (hs : t.cursor.sequence = s.sequence) (hv : v.sequence = s.sequence)
    (hparts : s.inProgress = true → v.parts ≠ []) : Counted (ds ++ [v]) (t.pass s) := by
  cases hprogress : s.inProgress with
  | true =>
    have hcursor : (t.pass s).cursor.sequence = s.sequence := by rw [pass, hprogress]; exact hs
    intro _ hnil
    rw [hcursor, partsOf_append, partsOf_singleton hv, List.append_eq_nil_iff, Segment.indices,
      List.map_eq_nil_iff] at hnil
    exact hparts hprogress hnil.2
  | false => exact counted_of_part_eq_zero (by rw [pass, hprogress]; rfl)

/-- Handing out a whole segment counts no parts. -/
theorem Counted.handOut (h : Counted ds t)
    (hsound : ∀ l, t.segmentList? = some l → ∀ s ∈ l.segments, s.Sound) :
    Counted (ds ++ t.handOut.1.toList) t.handOut.2 := by
  have hlook := h.look
  rw [Tracker.handOut]
  split
  · next s u hu =>
    obtain ⟨l, hl, hmem⟩ := mem_of_segmentAtCursor (t := t) (s := s) (by rw [hu])
    exact counted_pass (sequence_of_segmentAtCursor hu) rfl (hsound l hl s hmem).parts_ne_nil
  · next u hu =>
    rw [hu] at hlook
    simpa using hlook

/-- Parts are counted when they are handed out. -/
theorem Counted.next (h : Counted ds t)
    (hsound : ∀ l, t.segmentList? = some l → ∀ s ∈ l.segments, s.Sound) :
    Counted (ds ++ t.next.1.toList) t.next.2 := by
  have hlook := h.look
  rw [Tracker.next]
  split
  · next u hu =>
    rw [hu] at hlook
    simpa using hlook
  · next s u hu =>
    rw [hu] at hlook
    obtain ⟨l, hl, hmem⟩ := mem_of_segmentAtCursor (t := t) (s := s) (by rw [hu])
    have hsequence := sequence_of_segmentAtCursor hu
    have hsame : u.segmentList? = t.segmentList? := by
      have hsteady := t.segmentAtCursor_steady
      rw [hu] at hsteady
      rw [segmentList?, segmentList?, hsteady.snapshot]
    split
    · exact counted_pass hsequence rfl (hsound l hl s hmem).parts_ne_nil
    · split
      · next hleft =>
        refine counted_pass hsequence rfl fun _ => ?_
        simp only [Segment.withoutParts_parts, ne_eq, List.drop_eq_nil_iff, Nat.not_le]
        exact hleft
      · split
        · simpa using hlook
        · refine Counted.handOut (counted_of_part_eq_zero rfl) fun l hl => hsound l ?_
          rw [← hsame]
          exact hl

/-- No call counts parts that are not handed out. -/
theorem Counted.call (h : Counted ds t)
    (hsound : ∀ l, t.segmentList? = some l → ∀ s ∈ l.segments, s.Sound) (c : Call) :
    Counted (ds ++ t.given c) (t.call c) := by
  cases c with
  | next => exact h.next hsound
  | look =>
    simp only [given, List.append_nil]
    exact h.look
  | seek n => exact counted_of_part_eq_zero rfl
  | moveToLiveStart index =>
    simp only [given, List.append_nil, Tracker.call, moveToLiveStart]
    split
    · exact counted_of_part_eq_zero rfl
    · exact h
  | setPosition | takePreload | setReports =>
    simp only [given, List.append_nil]
    exact h

/-- A new snapshot moves the cursor at most to the start of a segment. -/
theorem Counted.install (h : Counted ds t) (now : Nat) (r : Rendition) :
    Counted ds (t.install now r) := by
  cases hfirst : r.firstSequence? with
  | none => exact h.of_cursor (t.install_cursor_of_none now hfirst).1
  | some first =>
    cases hseeked : t.seeked with
    | true => exact h.of_cursor (t.install_cursor_of_seeked now hseeked hfirst).1
    | false =>
      have hcursor := (t.install_cursor now r hseeked).2
      rw [hfirst] at hcursor
      dsimp only at hcursor
      split at hcursor
      · exact counted_of_part_eq_zero (by rw [hcursor])
      · exact h.of_cursor hcursor

end Tracker

namespace Session

variable {s : Session} {ds : List Segment} {k : Nat}

def peek (s : Session) (k : Nat) : Session := s.run (List.replicate k (.call .look))

theorem move_look (s : Session) :
    s.move (.call .look) = { s with tracker := s.tracker.segmentAtCursor.2 } := by
  simp [move, Tracker.call, wakes]

theorem move_next_congr {u : Session} (h : s.tracker.next = u.tracker.next)
    (hs : s = { u with tracker := s.tracker }) : s.move (.call .next) = u.move (.call .next) := by
  rw [hs]
  simp only [move, Tracker.call, wakes, h]

/-- However often the cursor is looked at, the first look is the only one that moves it. -/
theorem peek_succ (h : s.tracker.Refinds) (k : Nat) : s.peek (k + 1) = s.move (.call .look) := by
  induction k with
  | zero => rfl
  | succ k ih =>
    have hrun : s.peek (k + 1 + 1) = (s.peek (k + 1)).move (.call .look) := by
      rw [peek, List.replicate_succ', run_append]
      rfl
    rw [hrun, ih, move_look, move_look, h.segmentAtCursor]

/-- Looking first, any number of times, changes nothing of what comes next. -/
theorem peek_next (h : s.tracker.Refinds) (k : Nat) :
    (s.peek k).tracker.next = s.tracker.next ∧
      (s.peek k).move (.call .next) = s.move (.call .next) := by
  cases k with
  | zero => exact ⟨rfl, rfl⟩
  | succ k =>
    have hnext : (s.peek (k + 1)).tracker.next = s.tracker.next := by
      rw [peek_succ h, move_look]
      exact Tracker.next_congr h.segmentAtCursor
    exact ⟨hnext, move_next_congr hnext (by rw [peek_succ h, move_look])⟩

/-- No move counts parts that are not handed out. -/
theorem move_counted (h : Tracker.Counted ds s.tracker)
    (hsound : ∀ l, s.tracker.segmentList? = some l → ∀ v ∈ l.segments, v.Sound) (m : Move) :
    Tracker.Counted (ds ++ s.handed m) (s.move m).tracker := by
  have hnone (hm : m.isCall = false) : s.handed m = [] := by
    cases m with
    | call c => cases hm
    | _ => rfl
  cases s.move_cases m with
  | called c call =>
    subst call
    exact h.call hsound c
  | untouched call _ same =>
    rw [hnone call, List.append_nil]
    exact h.of_cursor same.cursor
  | installed r complete data call _ _ _ tracker =>
    rw [hnone call, List.append_nil, tracker]
    have hinstall := h.install s.now complete
    split
    · exact hinstall.look
    · exact hinstall

/-! ## Looking before taking -/

/-- No run counts parts that have not been handed out. -/
theorem run_counted (descriptor : Rendition) (config : TrackerConfig)
    (initial : Option (List UInt8)) (server : Nat → Answer) (moves : List Move) :
    let s := fresh descriptor config initial server
    Tracker.Counted (s.delivered moves) (s.run moves).tracker := by
  intro s
  induction moves using List.reverseRecOn with
  | nil => exact Tracker.counted_of_part_eq_zero rfl
  | append_singleton before m ih =>
    rw [delivered_append_singleton, run_append]
    refine move_counted ih (fun l hl => ?_) m
    obtain ⟨r, hr, hlist⟩ := Option.bind_eq_some_iff.1 hl
    simpa [Rendition.Sound, Rendition.segments, hlist] using run_sound hr

/-- In whatever state a run leaves a session, looking at the cursor any number of times makes no
difference to the next segment, nor to the state after it, exactly if a second look finds again what
the first one finds. It does if the cursor is not in front of the window, or if the numbers rise.
If no part of the segment that is seen is out, the next segment is that segment, and it still is
after the look under the same condition. -/
theorem peeking_iff (descriptor : Rendition) (config : TrackerConfig)
    (initial : Option (List UInt8)) (server : Nat → Answer) (moves : List Move) :
    let s := (fresh descriptor config initial server).run moves
    let t := s.tracker
    let given := partsOf ((fresh descriptor config initial server).delivered moves)
    ((∀ k, (s.peek k).tracker.next.1 = t.next.1 ∧
      (s.peek k).move (.call .next) = s.move (.call .next)) ↔ t.Refinds) ∧
    (t.Abreast ∨ (∀ l, t.segmentList? = some l → Rising l.segments) → t.Refinds) ∧
    ∀ d, t.segmentAtCursor.1 = some d →
      t.segmentAtCursor.2.cursor.part = 0 ∨ given d.sequence = [] →
      t.next.1 = some d ∧ ((s.peek 1).tracker.next.1 = some d ↔ t.Refinds) := by
  intro s t given
  have hpeek : (s.peek 1).tracker = t.segmentAtCursor.2 := congrArg (·.tracker) s.move_look
  have hdiffers (h : ¬ t.Refinds) : (s.peek 1).tracker.next.1 ≠ t.next.1 := by
    rw [hpeek]
    exact Tracker.next_ne_of_not_refinds h
  refine ⟨⟨fun hall => ?_, fun h k => ?_⟩, ?_, fun d hd hout => ?_⟩
  · by_contra hnot
    exact hdiffers hnot (hall 1).1
  · obtain ⟨hnext, hmove⟩ := peek_next h k
    exact ⟨congrArg Prod.fst hnext, hmove⟩
  · rintro (habreast | hrising)
    · exact Tracker.refinds_of_abreast habreast
    · exact Tracker.refinds_of_rising hrising
  · have hpart : t.segmentAtCursor.2.cursor.part = 0 := by
      refine hout.elim id fun hgiven => ?_
      by_contra hne
      have hcounted := (run_counted descriptor config initial server moves).look hne
      rw [Tracker.sequence_of_segmentAtCursor (t := t) (Prod.ext hd rfl)] at hcounted
      exact hcounted hgiven
    have hnext : t.next.1 = some d := (Tracker.next_of_part_eq_zero hpart).trans hd
    refine ⟨hnext, fun hsame => ?_, fun h => ?_⟩
    · by_contra hnot
      exact hdiffers hnot (hsame.trans hnext.symm)
    · exact (congrArg Prod.fst (peek_next h 1).1).trans hnext

/-- A seek to the number 3, in front of a window that begins with 10. -/
def soughtBefore (body : String) : Session :=
  (served [body]).run (reloadMoves ++ [.call (.seek 3)])

/-- A look moves a cursor in front of the window into it, and the segment that it finds comes next.
-/
theorem peeking_of_window_ahead :
    let s := soughtBefore (windowBody "10")
    let t := s.tracker
    (∀ l, t.segmentList? = some l → Rising l.segments) ∧
      ∃ d, t.segmentAtCursor.1 = some d ∧ d.sequence = 10 ∧
        t.segmentAtCursor.2.cursor.part = 0 ∧ (s.peek 1).tracker.next.1 = some d ∧
        ∀ k, (s.peek k).move (.call .next) = s.move (.call .next) := by
  intro s t
  obtain ⟨hrising, d, hd, hsequence, hpart⟩ : (∀ l ∈ t.segmentList?, Rising l.segments) ∧
      ∃ d ∈ t.segmentAtCursor.1, d.sequence = 10 ∧ t.segmentAtCursor.2.cursor.part = 0 := by
    decide +kernel
  obtain ⟨hsame, hrefinds, hseen⟩ :=
    peeking_iff (served []).tracker.descriptor {} none (served [windowBody "10"]).server
      (reloadMoves ++ [.call (.seek 3)])
  have hagain : t.Refinds := hrefinds (.inr hrising)
  exact ⟨hrising, d, hd, hsequence, hpart, (hseen d hd (.inl hpart)).2.2 hagain,
    fun k => (hsame.2 hagain k).2⟩

/-- Where numbers go back, a look at the cursor can take the next segment away. -/
theorem peeking_of_restart_back :
    let s := soughtBefore "#EXTM3U\n#EXT-X-MEDIA-SEQUENCE:10\na\nb\n#EXT-X-MEDIA-SEQUENCE:7\nc\nd\n"
    (∃ d ∈ s.tracker.next.1, d.sequence = 10 ∧ s.tracker.segmentAtCursor.1 = some d ∧
      s.tracker.segmentAtCursor.2.cursor.part = 0) ∧
      (s.peek 1).tracker.next.1 = none := by
  decide +kernel

end Session

end AdaptiveHls
