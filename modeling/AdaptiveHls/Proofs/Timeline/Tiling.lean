import AdaptiveHls.Media.Segment
import Mathlib.Algebra.BigOperators.Group.List.Basic
import Mathlib.Algebra.Ring.Int.Defs
import Mathlib.Data.List.Basic

/-!
# Segments cut between their parts

What is left of a segment without its first parts has times of its own, and they are counted anew
over the parts: those that are gone put off the start, and those that are left make up the duration.
Where none of the sums leaves the range of times, these are the times at which the parts begin. The
durations are added up before the time of the start is, so this is to be asked of their sums by
themselves and of those with the start; it is not enough that no time at which a part begins or ends
leaves the range.

What is asked passes on to what is left. So it is one whether parts are taken off at once or in
several turns, and wherever a segment is cut, what is left begins where the parts in front of it end
and ends where the whole does.
-/

namespace AdaptiveHls

namespace Ticks

variable {a b start : Int} {durations : List Int}

def InRange (t : Int) : Prop := least ≤ t ∧ t ≤ greatest

instance (t : Int) : Decidable (InRange t) := inferInstanceAs (Decidable (_ ∧ _))

theorem add_of_inRange (h : InRange (a + b)) : add a b = a + b := clamp_of_mem h.1 h.2

/-- A running sum that never leaves the range is exact. -/
theorem foldl_add_of_inRange (h : ∀ count, InRange (start + (durations.take count).sum)) :
    durations.foldl add start = start + durations.sum := by
  induction durations generalizing start with
  | nil => simp
  | cons d rest ih =>
    have hfirst : InRange (start + d) := by simpa using h 1
    have hrest (count : Nat) : InRange (start + d + (rest.take count).sum) := by
      simpa [Int.add_assoc] using h (count + 1)
    rw [List.foldl_cons, add_of_inRange hfirst, ih hrest, List.sum_cons, Int.add_assoc]

end Ticks

namespace Part

variable {parts : List Part}

/-- The time that parts take, in range or not. -/
def span (parts : List Part) : Int := (parts.map (·.duration)).sum

theorem span_append (xs ys : List Part) : span (xs ++ ys) = span xs + span ys := by
  simp [span]

theorem total_of_inRange (h : ∀ count, Ticks.InRange (span (parts.take count))) :
    total parts = span parts := by
  rw [total, Ticks.total, Ticks.foldl_add_of_inRange, Int.zero_add, span]
  intro count
  rw [Int.zero_add, ← List.map_take]
  exact h count

end Part

namespace Segment

variable {s : Segment} {a b : Nat}

/-! ## Parts in a row -/

def partsBetween (s : Segment) (first last : Nat) : List Part :=
  (s.parts.drop first).take (last - first)

theorem partsBetween_add (s : Segment) (first count : Nat) :
    s.partsBetween first (first + count) = (s.parts.drop first).take count := by
  rw [partsBetween, Nat.add_sub_cancel_left]

theorem partsBetween_append_drop (s : Segment) (h : a ≤ b) :
    s.partsBetween a b ++ s.parts.drop b = s.parts.drop a := by
  obtain ⟨n, rfl⟩ := Nat.exists_eq_add_of_le h
  rw [partsBetween_add, ← List.drop_drop, List.take_append_drop]

/-- The parts in front of one index and those from there up to another, counted from a time on. -/
theorem add_span_partsBetween (s : Segment) (time : Int) (h : a ≤ b) :
    time + Part.span (s.parts.take a) + Part.span (s.partsBetween a b) =
      time + Part.span (s.parts.take b) := by
  obtain ⟨n, rfl⟩ := Nat.exists_eq_add_of_le h
  rw [partsBetween_add, Int.add_assoc, ← Part.span_append, List.take_add]

/-- Indexes behind the last part stand for its end. -/
theorem partsBetween_min (s : Segment) (first last : Nat) :
    s.partsBetween (min first s.parts.length) (min last s.parts.length) =
      s.partsBetween first last := by
  rw [partsBetween, partsBetween, ← List.drop_eq_drop_min, List.take_eq_take_iff, List.length_drop]
  omega

theorem partsBetween_withoutParts (s : Segment) (count first last : Nat) :
    (s.withoutParts count).partsBetween first last =
      s.partsBetween (count + first) (count + last) := by
  rw [partsBetween, partsBetween, withoutParts_parts, List.drop_drop, Nat.add_sub_add_left]

/-! ## Sums in range -/

/-- No sum of the durations of parts in a row leaves the range of times, by itself or with the time
at which the segment starts. -/
structure SumsInRange (s : Segment) : Prop where
  parts : ∀ first last, Ticks.InRange (Part.span (s.partsBetween first last))
  start : ∀ count, Ticks.InRange (s.startTime + Part.span (s.parts.take count))
  utc : ∀ time ∈ s.utcTime, ∀ count, Ticks.InRange (time + Part.span (s.parts.take count))

/-- It is enough to look at indexes up to the last part's end. -/
theorem sumsInRange_iff :
    s.SumsInRange ↔
      (∀ first < s.parts.length + 1, ∀ last < s.parts.length + 1,
        Ticks.InRange (Part.span (s.partsBetween first last))) ∧
      (∀ count < s.parts.length + 1,
        Ticks.InRange (s.startTime + Part.span (s.parts.take count))) ∧
      ∀ time ∈ s.utcTime, ∀ count < s.parts.length + 1,
        Ticks.InRange (time + Part.span (s.parts.take count)) := by
  constructor
  · rintro ⟨hparts, hstart, hutc⟩
    exact ⟨fun first _ last _ => hparts first last, fun count _ => hstart count,
      fun time htime count _ => hutc time htime count⟩
  · rintro ⟨hparts, hstart, hutc⟩
    have hlt (count : Nat) : min count s.parts.length < s.parts.length + 1 := by omega
    constructor
    · intro first last
      rw [← partsBetween_min]
      exact hparts _ (hlt first) _ (hlt last)
    · intro count
      rw [List.take_eq_take_min]
      exact hstart _ (hlt count)
    · intro time htime count
      rw [List.take_eq_take_min]
      exact hutc time htime _ (hlt count)

instance (s : Segment) : Decidable s.SumsInRange := decidable_of_iff _ sumsInRange_iff.symm

namespace SumsInRange

theorem total_take (h : s.SumsInRange) (count : Nat) :
    Part.total (s.parts.take count) = Part.span (s.parts.take count) := by
  apply Part.total_of_inRange
  intro n
  rw [List.take_take]
  exact h.parts 0 (min n count)

theorem total_drop (h : s.SumsInRange) (count : Nat) :
    Part.total (s.parts.drop count) = Part.span (s.parts.drop count) := by
  apply Part.total_of_inRange
  intro n
  rw [← partsBetween_add]
  exact h.parts count (count + n)

/-- What is left, with exact sums for its times. -/
theorem withoutParts_eq (h : s.SumsInRange) (count : Nat) :
    s.withoutParts count =
      { s with
        startTime := s.startTime + Part.span (s.parts.take count)
        duration := Part.span (s.parts.drop count)
        utcTime := s.utcTime.map (· + Part.span (s.parts.take count))
        uri := ""
        byteRange := none
        parts := s.parts.drop count } := by
  have hutc : s.utcTime.map (Ticks.add · (Part.span (s.parts.take count))) =
      s.utcTime.map (· + Part.span (s.parts.take count)) :=
    Option.map_congr fun time htime => Ticks.add_of_inRange (h.utc time htime count)
  rw [Segment.withoutParts, h.total_take, h.total_drop, Ticks.add_of_inRange (h.start count), hutc]

/-- What is left has its sums in range as well. -/
theorem withoutParts (h : s.SumsInRange) (count : Nat) : (s.withoutParts count).SumsInRange := by
  have hleft := h.withoutParts_eq count
  have hle (n : Nat) : count ≤ count + n := Nat.le_add_right count n
  constructor
  · intro first last
    rw [partsBetween_withoutParts]
    exact h.parts _ _
  · intro n
    rw [hleft, ← partsBetween_add, s.add_span_partsBetween _ (hle n)]
    exact h.start (count + n)
  · intro time htime n
    rw [hleft] at htime ⊢
    obtain ⟨t, ht, rfl⟩ := Option.map_eq_some_iff.1 htime
    rw [← partsBetween_add, s.add_span_partsBetween _ (hle n)]
    exact h.utc t ht (count + n)

theorem withoutParts_withoutParts (h : s.SumsInRange) (a b : Nat) :
    (s.withoutParts a).withoutParts b = s.withoutParts (a + b) := by
  have hspan (time : Int) := s.add_span_partsBetween time (Nat.le_add_right a b)
  rw [(h.withoutParts a).withoutParts_eq, h.withoutParts_eq, h.withoutParts_eq]
  simp [List.drop_drop, ← partsBetween_add, hspan, Function.comp_def]

/-- What is left behind one index begins as much later than what is left behind an index before it
as the parts between them take. -/
theorem startTime_withoutParts (h : s.SumsInRange) (hab : a ≤ b) :
    (s.withoutParts b).startTime =
      (s.withoutParts a).startTime + Part.span (s.partsBetween a b) := by
  rw [h.withoutParts_eq, h.withoutParts_eq, s.add_span_partsBetween _ hab]

theorem utcTime_withoutParts (h : s.SumsInRange) (hab : a ≤ b) :
    (s.withoutParts b).utcTime =
      (s.withoutParts a).utcTime.map (· + Part.span (s.partsBetween a b)) := by
  rw [h.withoutParts_eq, h.withoutParts_eq]
  simp [Function.comp_def, s.add_span_partsBetween _ hab]

/-- Whatever is gone, the end is that of all parts. -/
theorem endTime_withoutParts (h : s.SumsInRange) (count : Nat) :
    (s.withoutParts count).endTime = s.startTime + Part.span s.parts := by
  have hspan : s.startTime + Part.span (s.parts.take count) + Part.span (s.parts.drop count) =
      s.startTime + Part.span s.parts := by
    rw [Int.add_assoc, ← Part.span_append, List.take_append_drop]
  have hall := h.start s.parts.length
  rw [List.take_length, ← hspan] at hall
  rw [h.withoutParts_eq, endTime, Ticks.add_of_inRange hall, hspan]

end SumsInRange

/-! ## Segments cut at their parts -/

/-- Parts that are taken off in two turns are as good as taken off in one. The parts between two
indexes and those behind the second are those behind the first; what is left behind the second
begins where the parts between them end, and it ends where what is left behind the first does. -/
theorem withoutParts_tiles (h : s.SumsInRange) :
    (∀ a b, (s.withoutParts a).withoutParts b = s.withoutParts (a + b)) ∧
    ∀ a b, a ≤ b →
      s.partsBetween a b ++ (s.withoutParts b).parts = (s.withoutParts a).parts ∧
      (s.withoutParts b).startTime =
        (s.withoutParts a).startTime + Part.span (s.partsBetween a b) ∧
      (s.withoutParts b).utcTime =
        (s.withoutParts a).utcTime.map (· + Part.span (s.partsBetween a b)) ∧
      (s.withoutParts b).endTime = (s.withoutParts a).endTime := by
  constructor
  · exact h.withoutParts_withoutParts
  · intro a b hab
    have hends : (s.withoutParts b).endTime = (s.withoutParts a).endTime := by
      rw [h.endTime_withoutParts, h.endTime_withoutParts]
    exact ⟨s.partsBetween_append_drop hab, h.startTime_withoutParts hab,
      h.utcTime_withoutParts hab, hends⟩

/-- A part that takes time back stands between two others, of which the first one goes up to the
greatest time. -/
theorem withoutParts_tiles_of_negative :
    let part (index : Nat) (duration : Int) : Part :=
      ⟨index, duration, "a.mp4", none, index == 0⟩
    let s : Segment :=
      { sequence := 4
        startTime := -40
        duration := 2
        utcTime := some (-1000)
        uri := "4.ts"
        parts := [part 0 Ticks.greatest, part 1 (-50), part 2 7] }
    s.SumsInRange ∧
      (s.withoutParts 1).withoutParts 1 = s.withoutParts 2 ∧
      (s.withoutParts 2).withoutParts 5 = s.withoutParts 7 ∧
      s.partsBetween 1 2 ++ (s.withoutParts 2).parts = (s.withoutParts 1).parts ∧
      (s.withoutParts 2).startTime =
        (s.withoutParts 1).startTime + Part.span (s.partsBetween 1 2) ∧
      (s.withoutParts 2).endTime = (s.withoutParts 1).endTime := by
  intro part s
  have hs : s.SumsInRange := by decide
  obtain ⟨hturns, hcut⟩ := withoutParts_tiles hs
  obtain ⟨hparts, hstart, -, hends⟩ := hcut 1 2 (by decide)
  exact ⟨hs, hturns 1 1, hturns 2 5, hparts, hstart, hends⟩

/-- No sum of the durations of parts in a row leaves the range together with a time at which the
segment starts; by itself it may. -/
structure TimesInRange (s : Segment) : Prop where
  start : ∀ first last, Ticks.InRange (s.startTime + Part.span (s.partsBetween first last))
  utc : ∀ time ∈ s.utcTime, ∀ first last,
    Ticks.InRange (time + Part.span (s.partsBetween first last))

/-- Two parts take longer than the greatest time together, but the segment starts early enough. The
sum of both stays at the bound, so what is left behind them begins too early. -/
theorem withoutParts_untiled_of_early_start :
    let part (index : Nat) (duration : Int) : Part := ⟨index, duration, "", none, index == 0⟩
    let s : Segment :=
      { sequence := 4
        startTime := -100
        duration := Ticks.greatest
        uri := ""
        parts := [part 0 Ticks.greatest, part 1 10] }
    s.TimesInRange ∧ ¬ s.SumsInRange ∧
      (s.withoutParts 1).withoutParts 1 ≠ s.withoutParts 2 ∧
      (s.withoutParts 2).startTime ≠
        (s.withoutParts 1).startTime + Part.span (s.partsBetween 1 2) ∧
      (s.withoutParts 2).endTime ≠ (s.withoutParts 1).endTime := by
  intro part s
  have htimes : ∀ first < 3, ∀ last < 3,
      Ticks.InRange (s.startTime + Part.span (s.partsBetween first last)) := by decide
  refine ⟨⟨fun first last => ?_, by simp [s]⟩, by decide, fun heq => ?_, by decide, by decide⟩
  · rw [← partsBetween_min]
    exact htimes _ (Nat.lt_succ_of_le (Nat.min_le_right first 2)) _
      (Nat.lt_succ_of_le (Nat.min_le_right last 2))
  · exact absurd (congrArg Segment.startTime heq) (by decide)

end Segment

end AdaptiveHls
