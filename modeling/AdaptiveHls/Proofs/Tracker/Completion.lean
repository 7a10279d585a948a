import AdaptiveHls.Proofs.Tracker.Delivery

/-!
# What becomes of a segment that completes

When a segment is complete whose parts have been handed out one by one, the tracker compares how many
are out with how many the newest snapshot lists. With more to come it hands out the rest; otherwise
it passes the segment over. So nothing is lost if the list has grown or is as it was, but a list that
has become shorter, or has gone, counts as handed out as well.
-/

namespace AdaptiveHls

/-- Asking for the next segment moves the cursor behind the number `n`, and gives nothing of that
number. -/
def Tracker.PassesOver (t : Tracker) (n : Nat) : Prop :=
  t.cursor.sequence ≤ n ∧ n < t.next.2.cursor.sequence ∧
    ∀ v, t.next.1 = some v → v.sequence ≠ n

theorem range_prefix_range_iff {m n : Nat} : List.range m <+: List.range n ↔ m ≤ n := by
  rw [List.prefix_iff_eq_take, List.take_range, List.length_range]
  constructor
  · intro h
    have := congrArg List.length h
    simp only [List.length_range] at this
    omega
  · intro h
    rw [Nat.min_eq_left h]

namespace Delivery

variable {ds : List Segment} {t : Tracker} {s : Segment}

theorem next_of_part_eq_zero (h : Delivery ds t) (hpart : t.cursor.part = 0) :
    t.next.1 = t.segment? := by
  have hlook := Tracker.segmentAtCursor_of_abreast h.abreast
  rw [Tracker.next_of_part_eq_zero (by rw [hlook]; exact hpart), hlook]

/-- Passing a segment moves the cursor behind it if it is complete. -/
theorem pass_sequence (h : Delivery ds t) (hs : t.segment? = some s) :
    (t.pass s).cursor.sequence = if s.inProgress then t.cursor.sequence else s.sequence + 1 := by
  obtain ⟨l, hl, hmem, _⟩ := Tracker.segment?_eq_some hs
  rw [Tracker.pass]
  split
  · rfl
  · rw [Tracker.moveTo_cursor, (h.sound l hl s hmem).add_one]

/-- A segment of which nothing is out is not passed over. -/
theorem not_passesOver (h : Delivery ds t) (hpart : t.cursor.part = 0) (n : Nat) :
    ¬ t.PassesOver n := by
  rintro ⟨hle, hlt, hnone⟩
  rw [h.next_of_part_eq_zero hpart] at hnone
  rw [Tracker.next_eq h.abreast] at hlt
  cases hs : t.segment? with
  | none =>
    rw [hs] at hlt
    exact absurd hlt (Nat.not_lt_of_le hle)
  | some s =>
    obtain ⟨_, _, _, hsequence⟩ := Tracker.segment?_eq_some hs
    have hne : s.sequence ≠ n := hnone s hs
    simp only [hs, hpart, if_true, h.pass_sequence hs] at hlt
    split at hlt
    · exact absurd hlt (Nat.not_lt_of_le hle)
    · omega

/-- A complete segment is passed over exactly if parts of it are out and it lists no more. -/
theorem passesOver_iff_part (h : Delivery ds t) (hs : t.segment? = some s)
    (hwhole : s.inProgress = false) :
    t.PassesOver s.sequence ↔ 0 < t.cursor.part ∧ s.parts.length ≤ t.cursor.part := by
  obtain ⟨l, hl, hmem, hsequence⟩ := Tracker.segment?_eq_some hs
  constructor
  · intro hpass
    have hpart : t.cursor.part ≠ 0 := fun hpart => h.not_passesOver hpart _ hpass
    refine ⟨Nat.pos_of_ne_zero hpart, Nat.le_of_not_lt fun hleft => ?_⟩
    apply hpass.2.2 (s.withoutParts t.cursor.part)
    · simp [Tracker.next_eq h.abreast, hs, hpart, hleft]
    · rfl
  · rintro ⟨hpart, hall⟩
    have hlt : t.cursor.sequence < s.sequence + 1 := by omega
    have hmoved := h.moveTo hlt
    have hnext : t.next = (t.moveTo (s.sequence + 1)).next := by
      rw [Tracker.next_eq h.abreast, hs, ← (h.sound l hl s hmem).add_one]
      simp [Nat.ne_of_gt hpart, Nat.not_lt.2 hall, hwhole]
    have hle : s.sequence + 1 ≤ _ := (hmoved.nextFirst rfl).2
    rw [Tracker.PassesOver, hnext]
    refine ⟨Nat.le_of_eq hsequence.symm, hle, ?_⟩
    intro v hv
    rw [hmoved.next_of_part_eq_zero rfl] at hv
    obtain ⟨_, _, _, hsequence'⟩ := Tracker.segment?_eq_some hv
    simp only [Tracker.moveTo_cursor] at hsequence'
    omega

/-- Only the segment at the cursor can be passed over, and only if it is complete. -/
theorem segment_of_passesOver (h : Delivery ds t) {n : Nat} (hpass : t.PassesOver n) :
    ∃ s, t.segment? = some s ∧ s.inProgress = false ∧ s.sequence = n := by
  have hpart : t.cursor.part ≠ 0 := fun hpart => h.not_passesOver hpart n hpass
  obtain ⟨hle, hlt, hnone⟩ := hpass
  have hstays : ¬ n < t.cursor.sequence := Nat.not_lt_of_le hle
  rw [Tracker.next_eq h.abreast] at hlt hnone
  cases hs : t.segment? with
  | none =>
    rw [hs] at hlt
    exact absurd hlt hstays
  | some s =>
    obtain ⟨l, hl, hmem, hsequence⟩ := Tracker.segment?_eq_some hs
    simp only [hs, if_neg hpart] at hlt hnone
    cases hprogress : s.inProgress with
    | true =>
      simp only [hprogress, if_true] at hlt
      split at hlt
      · rw [h.pass_sequence hs, if_pos hprogress] at hlt
        exact absurd hlt hstays
      · exact absurd hlt hstays
    | false =>
      refine ⟨s, rfl, hprogress, ?_⟩
      by_cases hleft : t.cursor.part < s.parts.length
      · simp only [hleft, if_true, h.pass_sequence hs, hprogress, Bool.false_eq_true,
          if_false] at hlt
        omega
      · simp only [hleft, hprogress, if_false, Bool.false_eq_true,
          (h.sound l hl s hmem).add_one] at hlt hnone
        have hmoved : Delivery ds (t.moveTo (s.sequence + 1)) := h.moveTo (by omega)
        have hnot := hmoved.not_passesOver rfl n
        simp only [Tracker.PassesOver, Tracker.moveTo_cursor, hlt, true_and, not_and] at hnot
        have hn : ¬ s.sequence + 1 ≤ n := fun hn => hnot hn hnone
        omega

/-- Otherwise what is left of a complete segment is handed out. -/
theorem next_of_not_passesOver (h : Delivery ds t) (hs : t.segment? = some s)
    (hwhole : s.inProgress = false) (hpass : ¬ t.PassesOver s.sequence) :
    ∃ v, t.next.1 = some v ∧ v.sequence = s.sequence ∧ (t.cursor.part = 0 → v = s) ∧
      List.range t.cursor.part ++ v.indices = s.indices := by
  rw [h.passesOver_iff_part hs hwhole] at hpass
  obtain ⟨l, hl, hmem, hsequence⟩ := Tracker.segment?_eq_some hs
  by_cases hpart : t.cursor.part = 0
  · refine ⟨s, ?_, rfl, fun _ => rfl, by simp [hpart]⟩
    rw [h.next_of_part_eq_zero hpart, hs]
  · have hleft : t.cursor.part < s.parts.length := by omega
    refine ⟨s.withoutParts t.cursor.part, ?_, rfl, fun h => absurd h hpart, ?_⟩
    · simp [Tracker.next_eq h.abreast, hs, hpart, hleft]
    · have hout : List.range t.cursor.part = s.indices.take t.cursor.part := by
        rw [(h.sound l hl s hmem).indices, List.take_range, Nat.min_eq_left (Nat.le_of_lt hleft)]
      rw [Segment.withoutParts_indices, hout, List.take_append_drop]

end Delivery

end AdaptiveHls
