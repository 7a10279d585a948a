import AdaptiveHls.Proofs.Timeline.Gapless

/-!
# Looking up times

A look-up by time goes through the segments to the first one that ends behind the time, and asks
nothing about starts. Where time runs without gaps this is enough: the segment in front of it has
ended by then, and that is when it starts. It does not matter that durations may be negative, so
that ends go back and forth. What a later time finds is never further to the front.
-/

namespace AdaptiveHls

namespace SegmentList

/-- Where the segment stands that a time finds: the first one that ends behind it, or else the last.
-/
def indexAt? (l : SegmentList) (time : Int) : Option Nat :=
  if time < 0 then none
  else (l.segments.findIdx? fun s => time < s.endTime) <|>
    if l.segments.isEmpty then none else some (l.size - 1)

/-- A list that is made from the directives of a playlist, or by filling in what one leaves out. -/
inductive Built : SegmentList → Prop
  | assembled {r : Rendition} {directives : List Directive} {l : SegmentList}
      (made : (Timeline.assemble r directives).segmentList = some l) : Built l
  | restored {l previous merged : SegmentList} {skipped : Nat}
      (filled : l.restore previous skipped = .ok merged) : Built merged

/-- Segment `s`, at index `i`, is what a time finds: the first that ends behind it, or the last. -/
structure Finds (l : SegmentList) (time : Int) (i : Nat) (s : Segment) : Prop where
  segment : l.segments[i]? = some s
  passed : ∀ j < i, ∀ u ∈ l.segments[j]?, u.endTime ≤ time
  last : s.endTime ≤ time → i + 1 = l.size

variable {l : SegmentList} {s : Segment} {time later : Int} {i j : Nat}

theorem Built.gapless (h : l.Built) : l.Gapless := by
  cases h with
  | assembled made =>
    obtain ⟨l', hl', hgapless⟩ := Timeline.gapless_assemble _ _
    cases hl'.symm.trans made
    exact hgapless
  | restored filled => exact gapless_restore filled

/-! ## What a time finds -/

/-- A look-up gives the number of the segment that is found. -/
theorem sequenceAt?_eq (l : SegmentList) (time : Int) :
    l.sequenceAt? time = (l.indexAt? time).bind fun i => l.segments[i]?.map (·.sequence) := by
  rw [sequenceAt?, indexAt?]
  split
  · rfl
  rw [List.find?_eq_bind_findIdx?_getElem?]
  cases hfound : l.segments.findIdx? fun s => time < s.endTime with
  | none =>
    cases hempty : l.segments.isEmpty with
    | true => simp [last?, List.isEmpty_iff.1 hempty]
    | false => simp [last?, size, List.getLast?_eq_getElem?]
  | some i =>
    have hi := (List.findIdx?_eq_some_iff_getElem.1 hfound).1
    simp [hi]

/-- Where there is any segment, a time that is not negative finds one: the last, if all have ended by
then. -/
theorem exists_finds (htime : 0 ≤ time) (hne : l.segments ≠ []) :
    ∃ i s, l.indexAt? time = some i ∧ l.Finds time i s := by
  rw [indexAt?, if_neg (Int.not_lt.2 htime)]
  cases hfound : l.segments.findIdx? fun s => time < s.endTime with
  | some i =>
    obtain ⟨hi, hends, hpassed⟩ := List.findIdx?_eq_some_iff_getElem.1 hfound
    refine ⟨i, l.segments[i], rfl, List.getElem?_eq_getElem hi, fun j hj u hu => ?_, fun hle => ?_⟩
    · obtain ⟨-, rfl⟩ := List.getElem?_eq_some_iff.1 hu
      simpa using hpassed j hj
    · exact absurd (of_decide_eq_true hends) (Int.not_lt.2 hle)
  | none =>
    have hall : ∀ u ∈ l.segments, u.endTime ≤ time := by simpa using hfound
    have hpos : 0 < l.size := List.length_pos_of_ne_nil hne
    have hlast : l.size - 1 < l.segments.length := Nat.sub_lt hpos Nat.one_pos
    refine ⟨l.size - 1, l.segments[l.size - 1], by simp [hne], List.getElem?_eq_getElem hlast,
      fun j _ u hu => hall u (List.mem_of_getElem? hu), fun _ => Nat.sub_add_cancel hpos⟩

theorem ne_nil_of_indexAt? (h : l.indexAt? time = some i) : l.segments ≠ [] := by
  intro hnil
  simp [indexAt?, hnil] at h

/-- What a later time finds does not stand further to the front. -/
theorem Finds.le {u : Segment} (h : l.Finds time i s) (hlater : l.Finds later j u)
    (hle : time ≤ later) : i ≤ j := by
  by_contra hlt
  have hends := h.passed j (Nat.not_le.1 hlt) u hlater.segment
  have hlast := hlater.last (Int.le_trans hends hle)
  have hi : i < l.size := (List.getElem?_eq_some_iff.1 h.segment).1
  omega

/-! ## In a list without gaps -/

/-- A segment starts when the one in front of it ends, and the first at zero. -/
theorem Finds.startTime_le (h : l.Finds time i s) (hl : l.Gapless) (htime : 0 ≤ time) :
    s.startTime ≤ time := by
  obtain ⟨hi, rfl⟩ := List.getElem?_eq_some_iff.1 h.segment
  cases i with
  | zero =>
    rw [hl.first l.segments[0] (by rw [first?, List.head?_eq_getElem?]; exact h.segment)]
    exact htime
  | succ j =>
    rw [List.isChain_iff_getElem.1 hl.next j hi]
    exact h.passed j (Nat.lt_succ_self j) _ (List.getElem?_eq_getElem _)

/-- The last segment ends where all durations do. -/
theorem Finds.lt_endTime (h : l.Finds time i s) (hl : l.Gapless) (htime : time < l.totalDuration) :
    time < s.endTime := by
  by_contra hends
  have hends := Int.not_lt.1 hends
  have hlast : l.last? = some s := by
    rw [last?, List.getLast?_eq_getElem?, ← h.segment]
    exact congrArg (l.segments[·]?) (Nat.sub_eq_of_eq_add (h.last hends).symm)
  rw [← hl.last s hlast] at htime
  exact absurd htime (Int.not_lt.2 hends)

/-! ## Looking up by time -/

/-- A look-up in a list that has been built gives the number of the segment that the time finds. A
time within the total duration finds one that covers it, and what a later time finds does not stand
further to the front. -/
theorem lookup_by_time (built : l.Built) :
    (∀ time, l.sequenceAt? time =
      (l.indexAt? time).bind fun i => l.segments[i]?.map (·.sequence)) ∧
    (∀ time, 0 ≤ time → time < l.totalDuration →
      ∃ i s, l.indexAt? time = some i ∧ l.segments[i]? = some s ∧
        l.sequenceAt? time = some s.sequence ∧ s.startTime ≤ time ∧ time < s.endTime) ∧
    ∀ time later, 0 ≤ time → time ≤ later → ∀ i, l.indexAt? time = some i →
      ∃ j, l.indexAt? later = some j ∧ i ≤ j := by
  refine ⟨l.sequenceAt?_eq, fun time htime hlt => ?_, fun time later htime hle i hi => ?_⟩
  · have hne : l.segments ≠ [] := by
      intro hnil
      rw [totalDuration, hnil] at hlt
      exact absurd hlt (Int.not_lt.2 htime)
    obtain ⟨i, s, hi, hfinds⟩ := exists_finds htime hne
    refine ⟨i, s, hi, hfinds.segment, ?_, hfinds.startTime_le built.gapless htime,
      hfinds.lt_endTime built.gapless hlt⟩
    rw [sequenceAt?_eq, hi, Option.bind_some, hfinds.segment, Option.map_some]
  · have hne := ne_nil_of_indexAt? hi
    obtain ⟨k, s, hk, hfinds⟩ := exists_finds htime hne
    obtain ⟨j, u, hj, hlater⟩ := exists_finds (Int.le_trans htime hle) hne
    obtain rfl := Option.some.inj (hk.symm.trans hi)
    exact ⟨j, hj, hfinds.le hlater hle⟩

/-- The second of three segments takes time back, so that it ends before the first one does, and the
third starts there. -/
theorem lookup_by_time_of_negative :
    let previous : SegmentList := ⟨[{ sequence := 10, duration := 5, uri := "10.ts" },
      { sequence := 11, duration := -3, uri := "11.ts" }]⟩
    let update : SegmentList := ⟨[{ sequence := 12, duration := 4, uri := "12.ts" }]⟩
    ∃ l, update.restore previous 2 = .ok l ∧ l.Built ∧ 5 < l.totalDuration ∧
      (∃ i s, l.indexAt? 5 = some i ∧ l.segments[i]? = some s ∧
        l.sequenceAt? 5 = some s.sequence ∧ s.startTime ≤ 5 ∧ 5 < s.endTime) ∧
      l.indexAt? 5 = some 2 ∧ ∃ j, l.indexAt? 9 = some j ∧ 2 ≤ j := by
  intro previous update
  obtain ⟨l, hl, htotal, hindex⟩ : ∃ l, update.restore previous 2 = .ok l ∧ 5 < l.totalDuration ∧
      l.indexAt? 5 = some 2 :=
    ⟨⟨retime 0 (previous.segments ++ update.segments)⟩, by decide, by decide, by decide⟩
  have hbuilt := Built.restored hl
  obtain ⟨-, hcovers, hlater⟩ := lookup_by_time hbuilt
  exact ⟨l, hl, hbuilt, htotal, hcovers 5 (by decide) htotal, hindex,
    hlater 5 9 (by decide) (by decide) 2 hindex⟩

end SegmentList

end AdaptiveHls
