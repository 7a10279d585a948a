import AdaptiveHls.Proofs.Timeline.Lookup
import AdaptiveHls.Tracker.Basic

/-!
# Where playback of a live window starts

An index tells where to start. From zero on it counts back from the last segment, and below zero
from the place behind it, so that `0` and `-1` both mean the last one. Numbers stop at their bounds
on the way, but the start is where it would be if they did not: the greatest number is never a
segment's, so there is room for the place behind the last, and whatever falls in front of the window
is moved to its first segment anyway.
-/

namespace AdaptiveHls

/-- How many numbers of a stretch are `n` or more. -/
theorem countP_range' (first len n : Nat) :
    (List.range' first len).countP (fun k => n ≤ k) = min len (first + len - n) := by
  induction len with
  | zero => simp
  | succ len ih =>
    rw [List.range'_concat, List.countP_append, ih, List.countP_singleton]
    split <;> simp at * <;> omega

namespace SegmentList

variable {l : SegmentList} {first last : Nat}

/-- The numbers of the segments are those from `first` to `last`, and there is at least one. -/
structure Spans (l : SegmentList) (first last : Nat) : Prop where
  le : first ≤ last
  numbers : l.segments.map (·.sequence) = List.range' first (last + 1 - first)

theorem Spans.size_eq (h : l.Spans first last) : l.size = last + 1 - first := by
  have := congrArg List.length h.numbers
  rwa [List.length_map, List.length_range'] at this

theorem Spans.firstSequence?_eq (h : l.Spans first last) : l.firstSequence? = some first := by
  have hle := h.le
  rw [firstSequence?, first?, ← List.head?_map, h.numbers, List.head?_range', if_neg (by omega)]

theorem Spans.lastSequence?_eq (h : l.Spans first last) : l.lastSequence? = some last := by
  have hle := h.le
  rw [lastSequence?, last?, ← List.getLast?_map, h.numbers, List.getLast?_range', if_neg (by omega)]
  congr 1
  omega

/-- In a window without gaps, what remains is a matter of counting. -/
theorem Spans.remaining_eq (h : l.Spans first last) (n : Nat) :
    l.remaining n = min l.size (last + 1 - n) := by
  have hle := h.le
  have hrising : Rising l.segments := by rw [Rising, h.numbers]; exact List.pairwise_lt_range'
  calc l.remaining n = (l.segments.map (·.sequence)).countP (fun k => n ≤ k) := by
        rw [SegmentList.remaining_eq hrising, since, ← List.countP_eq_length_filter,
          List.countP_map]
        rfl
    _ = min (last + 1 - first) (first + (last + 1 - first) - n) := by rw [h.numbers, countP_range']
    _ = min l.size (last + 1 - n) := by rw [h.size_eq]; omega

end SegmentList

namespace Tracker

variable {first last : Nat}

/-- The start is where counting without bounds puts it. -/
theorem liveStart_eq (first : Nat) (room : last < Count.greatest) (index : Int) :
    (liveStart first last index : Int) =
      max (first : Int) (if 0 ≤ index then last - index else last + 1 + index) := by
  rw [liveStart, Count.add_of_le (show last + 1 ≤ Count.greatest from room)]
  split <;> omega

theorem liveStart_mem (hle : first ≤ last) (room : last < Count.greatest) (index : Int) :
    first ≤ liveStart first last index ∧ liveStart first last index ≤ last := by
  have hstart := liveStart_eq first room index
  split at hstart <;> omega

section Placement

variable {t : Tracker} {l : SegmentList}

/-- Playback of a window starts within it, where the index says, with as many segments to play as it
says or else all of them. Nothing but the cursor moves, and of the segment at the cursor nothing has
been consumed. -/
theorem live_start_placed (list : t.segmentList? = some l) (spans : l.Spans first last)
    (room : last < Count.greatest) (index : Int) :
    let u := t.moveToLiveStart index
    first ≤ u.cursor.sequence ∧ u.cursor.sequence ≤ last ∧
      (u.cursor.sequence : Int) =
        max (first : Int) (if 0 ≤ index then last - index else last + 1 + index) ∧
      u.remaining =
        (if 0 ≤ index then min l.size (index.toNat + 1) else min l.size index.natAbs) ∧
      u.cursor.position = 0 ∧ u.cursor.part = 0 ∧ u.seeked = t.seeked ∧
      u = { t with cursor := u.cursor } := by
  intro u
  have hu : u = t.moveTo (liveStart first last index) := by
    simp only [u, moveToLiveStart, list, Option.bind_some, spans.firstSequence?_eq,
      spans.lastSequence?_eq]
  have hstart := liveStart_eq first room index
  have hmem := liveStart_mem spans.le room index
  have hremaining : u.remaining = min l.size (last + 1 - liveStart first last index) := by
    rw [hu, ← spans.remaining_eq]
    simp [remaining, show (t.moveTo (liveStart first last index)).segmentList? = some l from list]
  rw [hremaining, spans.size_eq, hu]
  refine ⟨hmem.1, hmem.2, hstart, ?_, rfl, rfl, rfl, rfl⟩
  split at hstart
  · next hindex => rw [if_pos hindex]; omega
  · next hindex => rw [if_neg hindex]; omega

/-- The least and the greatest index of 64 bits go to the first of three segments, the last of which
has the greatest number there is for a segment; a smaller index goes to the second. -/
theorem live_start_placed_at_bounds :
    let last := Count.greatest - 1
    let l : SegmentList := ⟨[{ sequence := last - 2, duration := 4, uri := "a.ts" },
      { sequence := last - 1, duration := 4, uri := "b.ts" },
      { sequence := last, duration := 4, uri := "c.ts" }]⟩
    let r : Rendition := .ofUrl { scheme := "https", path := .segments ["live.m3u8"] }
    let t : Tracker := { descriptor := r, snapshot := some { r with segmentList := some l },
                         cursor := { sequence := last, position := 7, part := 2 }, seeked := true }
    t.segmentList? = some l ∧ l.Spans (last - 2) last ∧ last < Count.greatest ∧
      (t.moveToLiveStart (-0x8000000000000000)).remaining = 3 ∧
      (t.moveToLiveStart 0x7FFFFFFFFFFFFFFF).remaining = 3 ∧
      (t.moveToLiveStart (-2)).remaining = 2 ∧ (t.moveToLiveStart (-2)).cursor.position = 0 ∧
      (t.moveToLiveStart (-2)).cursor.part = 0 ∧ (t.moveToLiveStart (-2)).seeked = true := by
  intro last l r t
  have hlist : t.segmentList? = some l := rfl
  have hspans : l.Spans (last - 2) last := ⟨by decide, by decide +kernel⟩
  have hroom : last < Count.greatest := by decide
  have hleast := live_start_placed hlist hspans hroom (-0x8000000000000000)
  have hgreatest := live_start_placed hlist hspans hroom 0x7FFFFFFFFFFFFFFF
  obtain ⟨-, -, -, hremaining, hposition, hpart, hseeked, -⟩ :=
    live_start_placed hlist hspans hroom (-2)
  exact ⟨hlist, hspans, hroom, hleast.2.2.2.1.trans (by decide),
    hgreatest.2.2.2.1.trans (by decide), hremaining.trans (by decide), hposition, hpart, hseeked⟩

end Placement

end Tracker

end AdaptiveHls
