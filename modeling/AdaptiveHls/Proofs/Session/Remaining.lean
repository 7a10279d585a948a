import AdaptiveHls.Proofs.Session.Snapshots
import AdaptiveHls.Proofs.Timeline.Lookup

/-!
# Counting what is left

How many segments are left is counted in the list: all that have the cursor's number or a greater
one. Asking for the next segment again and again goes from number to number instead, and it stops at
a number that is missing, and behind a segment in progress. It also stops at a segment of which all
parts are out, which is still counted. So there are never more segments to be had than are counted,
and it can be told from the list and the cursor when there are as many.
-/

namespace AdaptiveHls

namespace Tracker

variable {t u : Tracker} {s : Segment} {n : Nat}

/-- Asked for the next segment again and again, a tracker gives one `n` times and then none. -/
def Yields (t : Tracker) : Nat → Prop
  | 0 => t.next.1 = none
  | n + 1 => t.next.1.isSome = true ∧ t.next.2.Yields n

def ahead (t : Tracker) : List Segment :=
  (t.segmentList?.map (·.since t.cursor.sequence)).getD []

/-- Look-ups in the window find what they are to find. -/
structure Ordered (t : Tracker) : Prop where
  rising : ∀ l, t.segmentList? = some l → Rising l.segments
  sound : ∀ l, t.segmentList? = some l → ∀ s ∈ l.segments, s.Sound

/-- Nothing keeps the segments ahead from being handed out one after the other. -/
structure Flows (t : Tracker) : Prop where
  /-- No number is missing from where a look at the cursor leaves it. -/
  numbers : t.ahead.map (·.sequence) =
    List.range' t.segmentAtCursor.2.cursor.sequence t.ahead.length
  complete : CompleteButLast t.ahead
  /-- Some of the segment at the cursor has not been handed out. -/
  parts : ∀ s, t.segment? = some s → t.cursor.part = 0 ∨ t.cursor.part < s.parts.length

instance decidableYields : (n : Nat) → (t : Tracker) → Decidable (t.Yields n)
  | 0, t => inferInstanceAs (Decidable (t.next.1 = none))
  | n + 1, t =>
    have := decidableYields n t.next.2
    inferInstanceAs (Decidable (t.next.1.isSome = true ∧ t.next.2.Yields n))

instance (t : Tracker) : Decidable t.Flows :=
  decidable_of_iff
    (t.ahead.map (·.sequence) =
        List.range' t.segmentAtCursor.2.cursor.sequence t.ahead.length ∧
      CompleteButLast t.ahead ∧
        ∀ s ∈ t.segment?, t.cursor.part = 0 ∨ t.cursor.part < s.parts.length)
    ⟨fun h => ⟨h.1, h.2.1, h.2.2⟩, fun h => ⟨h.numbers, h.complete, h.parts⟩⟩

/-- A tracker can not give two numbers of segments. -/
theorem Yields.unique {m : Nat} (hm : t.Yields m) (hn : t.Yields n) : m = n := by
  induction m generalizing t n with
  | zero =>
    cases n with
    | zero => rfl
    | succ n => rw [Yields, show t.next.1 = none from hm] at hn; cases hn.1
  | succ m ih =>
    cases n with
    | zero => rw [Yields, show t.next.1 = none from hn] at hm; cases hm.1
    | succ n => rw [ih hm.2 hn.2]

theorem yields_congr (h : t.next = u.next) : t.Yields n ↔ u.Yields n := by
  cases n <;> rw [Yields, Yields, h]

/-! ## What is ahead -/

theorem Ordered.moveTo (h : t.Ordered) (n : Nat) : (t.moveTo n).Ordered := ⟨h.rising, h.sound⟩

theorem remaining_eq (h : t.Ordered) : t.remaining = t.ahead.length := by
  rw [remaining, ahead]
  cases hl : t.segmentList? with
  | none => rfl
  | some l => exact SegmentList.remaining_eq (h.rising l hl) _

theorem segment?_eq (h : ∀ l, t.segmentList? = some l → Rising l.segments) :
    t.segment? = t.ahead.head?.filter (·.sequence == t.cursor.sequence) := by
  rw [segment?, ahead]
  cases hl : t.segmentList? with
  | none => rfl
  | some l => exact SegmentList.get?_eq_head?_since (h l hl) _

theorem ahead_of_segment (h : t.Ordered) (hs : t.segment? = some s) :
    t.ahead = s :: t.ahead.tail ∧ s.sequence = t.cursor.sequence := by
  rw [segment?_eq h.rising, Option.filter_eq_some_iff, beq_iff_eq] at hs
  exact ⟨(List.cons_head?_tail hs.1).symm, hs.2⟩

theorem ahead_moveTo_succ (h : t.Ordered) (hs : t.segment? = some s) :
    (t.moveTo (t.cursor.sequence + 1)).ahead = t.ahead.tail := by
  obtain ⟨hahead, hsequence⟩ := ahead_of_segment h hs
  obtain ⟨l, hl, _⟩ := segment?_eq_some hs
  have hmoved : (t.moveTo (t.cursor.sequence + 1)).segmentList? = some l := hl
  rw [ahead, hmoved]
  rw [ahead, hl] at hahead ⊢
  exact SegmentList.since_succ (h.rising l hl) hahead hsequence

theorem Abreast.moveTo_succ (h : t.Abreast) : (t.moveTo (t.cursor.sequence + 1)).Abreast :=
  fun first hfirst => Nat.le_succ_of_le (h first hfirst)

theorem Ordered.pass_eq (h : t.Ordered) (hs : t.segment? = some s) (hwhole : s.inProgress = false) :
    Count.add s.sequence 1 = t.cursor.sequence + 1 ∧
      t.pass s = t.moveTo (t.cursor.sequence + 1) := by
  obtain ⟨l, hl, hmem, hsequence⟩ := segment?_eq_some hs
  have hadd := (h.sound l hl s hmem).add_one
  rw [hsequence] at hadd
  rw [pass, hwhole, hsequence]
  exact ⟨hadd, congrArg t.moveTo hadd⟩

/-! ## How far the numbers go -/

/-- How many segments are handed out from the number `n` on, if none of them has been started on. -/
def reach (n : Nat) : List Segment → Nat
  | [] => 0
  | s :: rest => if s.sequence = n then (if s.inProgress then 0 else reach (n + 1) rest) + 1 else 0

theorem reach_le (n : Nat) (segments : List Segment) : reach n segments ≤ segments.length := by
  induction segments generalizing n with
  | nil => exact Nat.le_refl _
  | cons s rest ih =>
    have hrest := ih (n + 1)
    rw [reach, List.length_cons]
    split
    · split <;> omega
    · omega

/-- All segments are reached if they have the numbers from the first on, without a gap, and only the
last is in progress. -/
theorem reach_eq_length_iff (n : Nat) (segments : List Segment) :
    reach n segments = segments.length ↔
      segments.map (·.sequence) = List.range' n segments.length ∧ CompleteButLast segments := by
  induction segments generalizing n with
  | nil => simp [reach, CompleteButLast]
  | cons s rest ih =>
    rw [reach, List.map_cons, List.length_cons, List.range'_succ, List.cons.injEq]
    by_cases hs : s.sequence = n
    · rw [if_pos hs, Nat.add_right_cancel_iff]
      cases rest with
      | nil => simp [hs, reach, CompleteButLast]
      | cons v rest =>
        cases hprogress : s.inProgress with
        | true => simp [CompleteButLast, hprogress]
        | false => simpa [hs, hprogress, CompleteButLast] using ih (n + 1)
    · rw [if_neg hs]
      simp [hs]

/-- Behind what is handed out of a segment nothing is left of it, so that it depends on whether the
segment is complete how things go on. -/
theorem yields_pass (h : t.Ordered) (habreast : t.Abreast) (hs : t.segment? = some s)
    (hrest : (t.moveTo (t.cursor.sequence + 1)).Yields n) :
    (t.pass s).Yields (if s.inProgress then 0 else n) := by
  cases hprogress : s.inProgress with
  | true =>
    obtain ⟨l, hl, hmem, _⟩ := segment?_eq_some hs
    have hparts : s.parts.length ≠ 0 :=
      mt List.eq_nil_of_length_eq_zero ((h.sound l hl s hmem).parts_ne_nil hprogress)
    have hpass : t.pass s = { t with cursor := { t.cursor with part := s.parts.length } } := by
      rw [pass, hprogress]
      rfl
    have hout : (t.pass s).Abreast ∧ (t.pass s).segment? = some s ∧
        (t.pass s).cursor.part = s.parts.length := by
      rw [hpass]
      exact ⟨habreast, hs, rfl⟩
    change (t.pass s).next.1 = none
    rw [next_eq hout.1, hout.2.1]
    simp [hout.2.2, hparts, hprogress]
  | false =>
    rw [(h.pass_eq hs hprogress).2]
    exact hrest

/-- Where there is no segment at the cursor, nothing is given. -/
theorem yields_of_segment_none (h : t.Ordered) (habreast : t.Abreast) (hnone : t.segment? = none) :
    t.Yields (reach t.cursor.sequence t.ahead) := by
  have hreach : reach t.cursor.sequence t.ahead = 0 := by
    rw [segment?_eq h.rising] at hnone
    cases hahead : t.ahead with
    | nil => rfl
    | cons s rest => simpa [reach, hahead] using hnone
  rw [hreach]
  change t.next.1 = none
  rw [next_eq habreast, hnone]

/-- Where there is one, it is given, and then what comes behind it. -/
theorem yields_of_segment {v : Segment} (h : t.Ordered) (habreast : t.Abreast)
    (hs : t.segment? = some s) (hnext : t.next = (some v, t.pass s))
    (hrest : (t.moveTo (t.cursor.sequence + 1)).Yields
      (reach (t.cursor.sequence + 1) (t.moveTo (t.cursor.sequence + 1)).ahead)) :
    t.Yields (reach t.cursor.sequence t.ahead) := by
  obtain ⟨hahead, hsequence⟩ := ahead_of_segment h hs
  rw [ahead_moveTo_succ h hs] at hrest
  rw [hahead, reach, if_pos hsequence, Yields, hnext]
  exact ⟨rfl, yields_pass h habreast hs hrest⟩

/-- With no part out, all goes on as far as the numbers do: each call takes the first of what is
ahead. -/
theorem yields_of_part_eq_zero (h : t.Ordered) (habreast : t.Abreast) (hpart : t.cursor.part = 0) :
    t.Yields (reach t.cursor.sequence t.ahead) := by
  induction hahead : t.ahead generalizing t with
  | nil =>
    have hnone : t.segment? = none := by rw [segment?_eq h.rising, hahead]; rfl
    rw [← hahead]
    exact yields_of_segment_none h habreast hnone
  | cons first rest ih =>
    rw [← hahead]
    cases hs : t.segment? with
    | none => exact yields_of_segment_none h habreast hs
    | some s =>
      have hnext : t.next = (some s, t.pass s) := by rw [next_eq habreast, hs]; simp [hpart]
      have hmoved : (t.moveTo (t.cursor.sequence + 1)).ahead = rest := by
        rw [ahead_moveTo_succ h hs, hahead]
        rfl
      have hrest := ih (h.moveTo _) habreast.moveTo_succ rfl hmoved
      rw [← hmoved] at hrest
      exact yields_of_segment h habreast hs hnext hrest

/-- It makes no difference if some parts are out, as long as there are others. -/
theorem yields_of_parts_left (h : t.Ordered) (habreast : t.Abreast)
    (hparts : ∀ s, t.segment? = some s → t.cursor.part = 0 ∨ t.cursor.part < s.parts.length) :
    t.Yields (reach t.cursor.sequence t.ahead) := by
  cases hs : t.segment? with
  | none => exact yields_of_segment_none h habreast hs
  | some s =>
    by_cases hpart : t.cursor.part = 0
    · exact yields_of_part_eq_zero h habreast hpart
    · have hmore := (hparts s hs).resolve_left hpart
      have hnext : t.next = (some (s.withoutParts t.cursor.part), t.pass s) := by
        rw [next_eq habreast, hs]
        simp [hpart, hmore]
      exact yields_of_segment h habreast hs hnext
        (yields_of_part_eq_zero (h.moveTo _) habreast.moveTo_succ rfl)

/-- A segment all of whose parts are out is counted and not given. -/
theorem yields_of_parts_out (h : t.Ordered) (habreast : t.Abreast) (hs : t.segment? = some s)
    (hpart : t.cursor.part ≠ 0) (hout : s.parts.length ≤ t.cursor.part) :
    ∃ n, t.Yields n ∧ n < t.ahead.length := by
  have hnext := next_eq habreast
  rw [hs] at hnext
  simp only [if_neg hpart, if_neg (Nat.not_lt.2 hout)] at hnext
  rw [(ahead_of_segment h hs).1, List.length_cons]
  cases hprogress : s.inProgress with
  | true =>
    rw [hprogress, if_pos rfl] at hnext
    exact ⟨0, congrArg Prod.fst hnext, Nat.succ_pos _⟩
  | false =>
    rw [hprogress, if_neg (by decide), (h.pass_eq hs hprogress).1] at hnext
    have hrest := yields_of_part_eq_zero (h.moveTo _) habreast.moveTo_succ rfl
    rw [ahead_moveTo_succ h hs] at hrest
    exact ⟨_, (yields_congr hnext).2 hrest, Nat.lt_succ_of_le (reach_le _ _)⟩

/-- From a cursor that is not in front of the window, at most all segments ahead are given. -/
theorem yields_of_abreast (h : t.Ordered) (habreast : t.Abreast) :
    ∃ n, t.Yields n ∧ n ≤ t.ahead.length ∧ (n = t.ahead.length ↔ t.Flows) := by
  by_cases hparts : ∀ s, t.segment? = some s → t.cursor.part = 0 ∨ t.cursor.part < s.parts.length
  · refine ⟨_, yields_of_parts_left h habreast hparts, reach_le _ _, ?_⟩
    rw [reach_eq_length_iff]
    have hlook : t.segmentAtCursor.2 = t := by rw [segmentAtCursor_of_abreast habreast]
    constructor
    · rintro ⟨hnumbers, hcomplete⟩
      exact ⟨by rw [hlook]; exact hnumbers, hcomplete, hparts⟩
    · intro hflows
      have hnumbers := hflows.numbers
      rw [hlook] at hnumbers
      exact ⟨hnumbers, hflows.complete⟩
  · have hflows : ¬ t.Flows := fun hflows => hparts hflows.parts
    simp only [not_forall, not_or, Nat.not_lt] at hparts
    obtain ⟨s, hs, hpart, hout⟩ := hparts
    obtain ⟨n, hn, hlt⟩ := yields_of_parts_out h habreast hs hpart hout
    exact ⟨n, hn, Nat.le_of_lt hlt, iff_of_false (Nat.ne_of_lt hlt) hflows⟩

/-- A cursor in front of the window moves to its first segment, and all of it is ahead. -/
theorem segmentAtCursor_of_not_abreast (h : ∀ l, t.segmentList? = some l → Rising l.segments)
    (hbehind : ¬ t.Abreast) :
    ∃ s, t.segmentAtCursor = (some s, t.moveTo s.sequence) ∧ t.segment? = none ∧
      (t.moveTo s.sequence).Abreast ∧ (t.moveTo s.sequence).segment? = some s ∧
        (t.moveTo s.sequence).ahead = t.ahead := by
  simp only [Abreast, not_forall] at hbehind
  obtain ⟨first, hfirst, hlt⟩ := hbehind
  obtain ⟨l, hl, hlfirst⟩ := Option.bind_eq_some_iff.1 hfirst
  have hrising := h l hl
  have hle := SegmentList.le_of_firstSequence hrising hlfirst
  have hall (n : Nat) (hn : n ≤ first) : l.since n = l.segments :=
    SegmentList.since_eq_segments fun v hv => Nat.le_trans hn (hle v hv)
  obtain ⟨s, hs, rfl⟩ := Option.map_eq_some_iff.1 hlfirst
  have hcursor := hall t.cursor.sequence (by omega)
  have hget : l.get? t.cursor.sequence = none := by
    rw [SegmentList.get?_eq_head?_since hrising, hcursor, show l.segments.head? = some s from hs]
    simp only [Option.filter_eq_none_iff, Option.some.injEq, beq_iff_eq]
    rintro _ rfl
    omega
  have hfound : l.atOrAfter? t.cursor.sequence = some s := by
    rw [SegmentList.atOrAfter?_eq hrising, hcursor]
    exact hs
  have hmoved : (t.moveTo s.sequence).segmentList? = some l := hl
  refine ⟨s, ?_, ?_, ?_, ?_, ?_⟩
  · simp [segmentAtCursor, hl, hget, hlfirst, hlt, hfound]
  · simp [segment?, hl, hget]
  · intro first hfirst
    rw [hmoved, Option.bind_some, hlfirst] at hfirst
    exact Nat.le_of_eq (Option.some.inj hfirst).symm
  · rw [segment?, hmoved]
    exact (SegmentList.get?_eq_some_iff hrising).2 ⟨List.mem_of_head? hs, rfl⟩
  · rw [ahead, ahead, hmoved, hl]
    exact (hall _ (Nat.le_refl _)).trans hcursor.symm

/-- What is counted is never too small, and it is right exactly if nothing keeps the segments back.
-/
theorem yields_remaining (h : t.Ordered) :
    ∃ n, t.Yields n ∧ n ≤ t.remaining ∧ (n = t.remaining ↔ t.Flows) := by
  rw [remaining_eq h]
  by_cases habreast : t.Abreast
  · exact yields_of_abreast h habreast
  · obtain ⟨s, hlook, hnone, hmoved, hsegment, hahead⟩ :=
      segmentAtCursor_of_not_abreast h.rising habreast
    obtain ⟨n, hn, hle, hiff⟩ := yields_of_abreast (h.moveTo s.sequence) hmoved
    rw [hahead] at hle hiff
    have hsame : (t.moveTo s.sequence).segmentAtCursor = (some s, t.moveTo s.sequence) := by
      rw [segmentAtCursor_of_abreast hmoved, hsegment]
    have hnext : t.next = (t.moveTo s.sequence).next := by rw [next, next, hlook, hsame]
    refine ⟨n, (yields_congr hnext).2 hn, hle, hiff.trans ⟨fun hflows => ?_, fun hflows => ?_⟩⟩
    · have hnumbers := hflows.numbers
      rw [hahead, hsame] at hnumbers
      exact ⟨by rw [hlook]; exact hnumbers, hahead ▸ hflows.complete, by simp [hnone]⟩
    · have hnumbers := hflows.numbers
      rw [hlook] at hnumbers
      exact ⟨by rw [hahead, hsame]; exact hnumbers, hahead.symm ▸ hflows.complete, by simp⟩

end Tracker

namespace Session

/-- Rising numbers are all that look-ups need. -/
theorem run_ordered {descriptor : Rendition} {config : TrackerConfig}
    {initial : Option (List UInt8)} {server : Nat → Answer} {moves : List Move}
    (hrising : ∀ l ∈ ((fresh descriptor config initial server).run moves).tracker.segmentList?,
      Rising l.segments) :
    ((fresh descriptor config initial server).run moves).tracker.Ordered where
  rising := hrising
  sound := by
    intro l hl
    obtain ⟨r, hr, hlist⟩ := Option.bind_eq_some_iff.1 hl
    simpa [Rendition.Sound, Rendition.segments, hlist] using run_sound hr

section Count

variable (descriptor : Rendition) (config : TrackerConfig) (initial : Option (List UInt8))
  (server : Nat → Answer) (moves : List Move)

/-- In whatever state a run leaves the tracker, it comes to an end with handing out segments, and
not after more than are counted as remaining. All of these are handed out exactly if their numbers
follow one another, none but the last is in progress, and there is something left of the first. -/
theorem remaining_iff
    (hrising : ∀ l ∈ ((fresh descriptor config initial server).run moves).tracker.segmentList?,
      Rising l.segments) :
    let t := ((fresh descriptor config initial server).run moves).tracker
    (∃! n, t.Yields n) ∧ (∀ n, t.Yields n → n ≤ t.remaining) ∧
      (t.Yields t.remaining ↔ t.Flows) := by
  intro t
  obtain ⟨n, hn, hle, hiff⟩ := Tracker.yields_remaining (run_ordered hrising)
  refine ⟨⟨n, hn, fun m hm => hm.unique hn⟩, fun m hm => hm.unique hn ▸ hle, ?_⟩
  rw [← hiff]
  constructor
  · exact fun hall => hn.unique hall
  · exact fun heq => heq ▸ hn

/-- Two of three parts are out when their segment completes and another one follows. -/
theorem remaining_of_completing :
    let t := ((served (completingBodies ["b0", "b1", "b2"])).run completingMoves).tracker
    (∀ l ∈ t.segmentList?, Rising l.segments) ∧ t.cursor.part = 2 ∧ t.remaining = 2 ∧ t.Flows ∧
      t.Yields t.remaining := by
  intro t
  obtain ⟨hrising, hpart, hcount, hflows⟩ : (∀ l ∈ t.segmentList?, Rising l.segments) ∧
      t.cursor.part = 2 ∧ t.remaining = 2 ∧ t.Flows := by
    decide +kernel
  exact ⟨hrising, hpart, hcount, hflows, (remaining_iff _ _ _ _ _ hrising).2.2.2 hflows⟩

/-- With all parts of the last segment out, there is none to be had, but it is still counted. -/
theorem remaining_of_parts_out :
    let t := ((served [partsBody ["b0", "b1"] ""]).run
      (reloadMoves ++ [.call .next, .call .next])).tracker
    t.next.1 = none ∧ t.remaining = 1 ∧ ¬ t.Yields t.remaining := by
  decide +kernel

end Count

end Session

end AdaptiveHls
