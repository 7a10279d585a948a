import AdaptiveHls.Proofs.Session.Moves
import AdaptiveHls.Proofs.Tracker.Completion

/-!
# Delivery in a session

Whatever moves a new session makes, with whatever the server answers, what its user is given comes in
order and only once, as long as the user leaves the cursor alone. What is given of a segment that
completes in the meantime is all of it, unless the newest snapshot lists fewer of its parts than have
been given before.
-/

namespace AdaptiveHls

namespace Session

variable {moves : List Move}

theorem fresh_delivery (descriptor : Rendition) (config : TrackerConfig)
    (initial : Option (List UInt8)) (server : Nat → Answer) :
    Delivery [] (fresh descriptor config initial server).tracker where
  seeked := rfl
  sound := by
    intro l hl
    cases hl
  abreast := by
    intro first hfirst
    cases hfirst
  sequence_le := by simp
  started := by simp
  parts_ne_nil := by simp
  parts := rfl
  inOrder := .nil

/-- Runs that leave the cursor alone keep what has been handed out in order. -/
theorem run_delivery {s : Session} {ds : List Segment} (h : Delivery ds s.tracker)
    (hmoves : ∀ m ∈ moves, m.placesCursor = false) :
    Delivery (ds ++ s.delivered moves) (s.run moves).tracker ∧
      s.tracker.cursor.sequence ≤ (s.run moves).tracker.cursor.sequence := by
  obtain ⟨events, hrun, hdelivered, hcursor⟩ := s.run_events moves
  rw [hrun, ← hdelivered]
  exact h.run (hcursor hmoves)

section InOrder

variable (descriptor : Rendition) (config : TrackerConfig) (initial : Option (List UInt8))
  (server : Nat → Answer)

/-- The cursor never goes back; the segments given have rising numbers; a whole segment is the only
one of its number; and of one number the parts given are never given again, nor in front of others
given before. -/
theorem delivered_inOrder (hmoves : ∀ m ∈ moves, m.placesCursor = false) :
    let s := fresh descriptor config initial server
    (∀ before after, before ++ after = moves →
      (s.run before).tracker.cursor.sequence ≤ (s.run moves).tracker.cursor.sequence) ∧
    (s.delivered moves).Pairwise (fun a b => a.sequence ≤ b.sequence) ∧
    (s.delivered moves).Pairwise (fun a b => a.sequence = b.sequence →
      a.inProgress = true ∧ b.inProgress = true ∧
        ∀ p ∈ a.parts, ∀ q ∈ b.parts, p.index < q.index) ∧
    ∀ d ∈ s.delivered moves, d.inProgress = true → d.parts ≠ [] := by
  intro s
  have hfresh : Delivery [] s.tracker := fresh_delivery descriptor config initial server
  have hrun := (run_delivery hfresh hmoves).1
  rw [List.nil_append] at hrun
  refine ⟨?_, ?_, ?_, hrun.parts_ne_nil⟩
  · rintro before after rfl
    have hbefore := run_delivery hfresh fun m hm => hmoves m (List.mem_append_left _ hm)
    rw [run_append]
    exact (run_delivery hbefore.1 fun m hm => hmoves m (List.mem_append_right _ hm)).2
  · refine hrun.inOrder.imp ?_
    rintro a b (hlt | ⟨heq, _⟩)
    · exact Nat.le_of_lt hlt
    · exact Nat.le_of_eq heq
  · refine hrun.inOrder.imp ?_
    rintro a b (hlt | ⟨_, hparts⟩) heq
    · omega
    · exact hparts

/-- A playlist with a whole segment and with these parts of the one behind it, then `rest`. -/
def partsBody (parts : List String) (rest : String) : String :=
  "#EXTM3U\na\n" ++ String.join (parts.map fun uri =>
    "#EXT-X-PART:URI=" ++ uri ++ ",DURATION=1\n") ++ rest

/-- A segment grows by a part while it completes. -/
def growingBodies : List String := [partsBody ["b0"] "", partsBody ["b0", "b1"] "b\n"]

def growingMoves : List Move :=
  reloadMoves ++ [.call .next, .call .next] ++ reloadMoves ++ [.call .next, .call .next]

/-- A whole segment and then two parts of the next one, as they come. -/
theorem delivered_inOrder_of_growing :
    ((served growingBodies).delivered growingMoves).map (fun d => (d.sequence, d.uri, d.indices)) =
        [(0, "a", []), (1, "", [0]), (1, "", [1])] ∧
      (∀ m ∈ growingMoves, m.placesCursor = false) ∧
      ((served growingBodies).delivered growingMoves).Pairwise (fun a b =>
        a.sequence = b.sequence → ∀ p ∈ a.parts, ∀ q ∈ b.parts, p.index < q.index) := by
  have hmoves : ∀ m ∈ growingMoves, m.placesCursor = false := by decide
  refine ⟨by decide +kernel, hmoves, ?_⟩
  refine (delivered_inOrder _ _ _ _ hmoves).2.2.1.imp ?_
  intro a b h heq
  exact (h heq).2.2

/-- Only the segment at the cursor is passed over. A complete one is passed over exactly if some of
its parts have been given and it lists no others; if it is not, all that is left of it is given. So
what it lists is what has been given, unless it lists fewer parts than that. -/
theorem passesOver_iff (hmoves : ∀ m ∈ moves, m.placesCursor = false) :
    let s := fresh descriptor config initial server
    let t := (s.run moves).tracker
    let given := partsOf (s.delivered moves)
    (∀ n, t.PassesOver n →
      ∃ d, t.segmentAtCursor.1 = some d ∧ d.inProgress = false ∧ d.sequence = n) ∧
    ∀ d, t.segmentAtCursor.1 = some d → d.inProgress = false →
      (t.PassesOver d.sequence ↔ given d.sequence ≠ [] ∧ d.indices <+: given d.sequence) ∧
      (¬ t.PassesOver d.sequence →
        ∃ v, t.next.1 = some v ∧ v.sequence = d.sequence ∧ (given d.sequence = [] → v = d) ∧
          given d.sequence ++ v.indices = d.indices) ∧
      ((t.PassesOver d.sequence → given d.sequence = d.indices) ↔
        (given d.sequence).length ≤ d.indices.length) := by
  intro s t given
  have hfresh : Delivery [] s.tracker := fresh_delivery descriptor config initial server
  have hrun : Delivery (s.delivered moves) t := by simpa using (run_delivery hfresh hmoves).1
  rw [Tracker.segmentAtCursor_of_abreast hrun.abreast]
  refine ⟨fun n => hrun.segment_of_passesOver, ?_⟩
  intro d hd hwhole
  obtain ⟨l, hl, hmem, hsequence⟩ := Tracker.segment?_eq_some hd
  have hgiven : given d.sequence = List.range t.cursor.part := by rw [hsequence]; exact hrun.parts
  have hlisted : d.indices = List.range d.parts.length := (hrun.sound l hl d hmem).indices
  have hpass := hrun.passesOver_iff_part hd hwhole
  have hnil : given d.sequence = [] ↔ t.cursor.part = 0 := by rw [hgiven, List.range_eq_nil]
  refine ⟨?_, ?_, ?_⟩
  · rw [hpass, Ne, hnil, hlisted, hgiven, range_prefix_range_iff, Nat.pos_iff_ne_zero]
  · intro hnot
    rw [hnil, hgiven]
    exact hrun.next_of_not_passesOver hd hwhole hnot
  · rw [hpass, hgiven, hlisted, List.length_range, List.length_range]
    constructor
    · intro h
      by_cases hlost : d.parts.length < t.cursor.part
      · have := congrArg List.length (h ⟨by omega, Nat.le_of_lt hlost⟩)
        simpa using Nat.le_of_eq this
      · exact Nat.le_of_not_lt hlost
    · rintro hle ⟨_, hall⟩
      rw [Nat.le_antisymm hle hall]

/-- A segment completes with these parts after two of them have been published. -/
def completingBodies (parts : List String) : List String :=
  [partsBody ["b0", "b1"] "", partsBody parts "b\nc\n"]

def completingMoves : List Move := reloadMoves ++ [.call .next, .call .next] ++ reloadMoves

/-- A segment that completes with the parts it had is passed over once they are all out. -/
theorem passesOver_of_parts_kept :
    let s := served (completingBodies ["b0", "b1"])
    let t := (s.run completingMoves).tracker
    (∀ m ∈ completingMoves, m.placesCursor = false) ∧
      ∃ d, t.segmentAtCursor.1 = some d ∧ d.inProgress = false ∧ t.PassesOver d.sequence ∧
        partsOf (s.delivered completingMoves) d.sequence = d.indices := by
  intro s t
  have hmoves : ∀ m ∈ completingMoves, m.placesCursor = false := by decide
  have hrun : (t.segmentAtCursor.1.map fun d => (d.sequence, d.inProgress, d.indices),
      partsOf (s.delivered completingMoves) 1) = (some (1, false, [0, 1]), [0, 1]) := by
    decide +kernel
  obtain ⟨hd, hgiven⟩ := Prod.mk.inj hrun
  obtain ⟨d, hsegment, hfields⟩ := Option.map_eq_some_iff.1 hd
  obtain ⟨hsequence, hwhole, hindices⟩ : d.sequence = 1 ∧ d.inProgress = false ∧
      d.indices = [0, 1] := by simpa using hfields
  have hsame : partsOf (s.delivered completingMoves) d.sequence = d.indices := by
    rw [hsequence, hindices, hgiven]
  have hpass : t.PassesOver d.sequence ↔
      partsOf (s.delivered completingMoves) d.sequence ≠ [] ∧
        d.indices <+: partsOf (s.delivered completingMoves) d.sequence :=
    ((passesOver_iff _ _ _ _ hmoves).2 d hsegment hwhole).1
  rw [hsame, hindices] at hpass
  exact ⟨hmoves, d, hsegment, hwhole, hpass.2 ⟨by decide, List.prefix_refl _⟩, hsame⟩

/-- A segment that lists none of its parts any more is passed over, though it has not been given. -/
theorem passesOver_of_parts_dropped :
    let s := served (completingBodies [])
    let t := (s.run completingMoves).tracker
    ∃ d, t.segmentAtCursor.1 = some d ∧ d.inProgress = false ∧ t.PassesOver d.sequence ∧
      partsOf (s.delivered completingMoves) d.sequence ≠ d.indices := by
  intro s t
  have hrun : (t.segmentAtCursor.1, t.cursor.sequence, t.next.1.map (·.sequence),
      t.next.2.cursor.sequence, partsOf (s.delivered completingMoves) 1) =
        (some { sequence := 1, duration := 0, uri := "b" }, 1, some 2, 3, [0, 1]) := by
    decide +kernel
  simp only [Prod.mk.injEq] at hrun
  obtain ⟨hsegment, hcursor, hnext, hmoved, hgiven⟩ := hrun
  refine ⟨_, hsegment, by decide, ⟨Nat.le_of_eq hcursor, by rw [hmoved]; decide, ?_⟩, ?_⟩
  · intro v hv
    rw [hv, Option.map_some, Option.some.injEq] at hnext
    rw [hnext]
    decide
  · rw [hgiven]
    decide

end InOrder

end Session

end AdaptiveHls
