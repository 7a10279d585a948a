import AdaptiveHls.Proofs.Timeline.Order
import Mathlib.Data.Finset.Card
import Mathlib.Data.Nat.Basic
import Mathlib.Order.Interval.Finset.Nat

/-!
# Filling a gap

What a delta update leaves out is taken from an older list, and whether that list has all of it is
decided by counting. The count is enough because the numbers of the older list rise: then those that
fall into the gap are all different, and as many of them as the gap is long are all that it takes.
-/

namespace AdaptiveHls.SegmentList

variable {l previous : SegmentList} {first skipped : Nat}

/-- Whether there is room for a gap in front of a number, and a list has a segment for each number
in the gap. -/
def Covers (previous : SegmentList) (first skipped : Nat) : Prop :=
  skipped ≤ first ∧ ∀ n, first - skipped ≤ n → n < first → ∃ s ∈ previous.segments, s.sequence = n

instance (previous : SegmentList) (first skipped : Nat) :
    Decidable (previous.Covers first skipped) :=
  inferInstanceAs (Decidable (_ ∧ ∀ n, first - skipped ≤ n → n < first → _))

/-- The numbers in the gap that a list has a segment for. -/
def supplied (previous : SegmentList) (first skipped : Nat) : Finset Nat :=
  (Finset.Ico (first - skipped) first).filter fun n => ∃ s ∈ previous.segments, s.sequence = n

def within (previous : SegmentList) (first skipped : Nat) : List Segment :=
  previous.segments.filter fun s => first - skipped ≤ s.sequence && s.sequence < first

/-- Segments in a row, the first of them starting at zero. -/
def inARow (segments : List Segment) : List Segment :=
  segments.mapIdx fun i s =>
    { s with startTime := Ticks.total ((segments.take i).map (·.duration)) }

theorem retime_eq_mapIdx (start : Int) (xs : List Segment) :
    retime start xs = xs.mapIdx fun i s =>
      { s with startTime := ((xs.take i).map (·.duration)).foldl Ticks.add start } := by
  induction xs generalizing start with
  | nil => rfl
  | cons s rest ih =>
    rw [retime, ih, List.mapIdx_cons]
    rfl

theorem retime_zero (xs : List Segment) : retime 0 xs = inARow xs := retime_eq_mapIdx 0 xs

theorem rising_within (h : Rising previous.segments) : Rising (previous.within first skipped) :=
  h.sublist (List.filter_sublist.map _)

/-- As the numbers rise, segments and numbers in the gap are equally many. -/
theorem length_within (h : Rising previous.segments) :
    (previous.within first skipped).length = (previous.supplied first skipped).card := by
  have hnodup : ((previous.within first skipped).map (·.sequence)).Nodup :=
    (rising_within h).imp fun hlt => hlt.ne
  have hnumbers : ((previous.within first skipped).map (·.sequence)).toFinset =
      previous.supplied first skipped := by
    ext n
    simp only [within, supplied, List.mem_toFinset, List.mem_map, List.mem_filter,
      Finset.mem_filter, Finset.mem_Ico, Bool.and_eq_true, decide_eq_true_eq]
    constructor
    · rintro ⟨s, ⟨hs, hrange⟩, rfl⟩
      exact ⟨hrange, s, hs, rfl⟩
    · rintro ⟨hrange, s, hs, rfl⟩
      exact ⟨s, ⟨hs, hrange⟩, rfl⟩
  rw [← hnumbers, List.toFinset_card_of_nodup hnodup, List.length_map]

/-- A list supplies as many numbers as the gap is long exactly if it covers the gap. -/
theorem skipped_le_card_supplied_iff :
    skipped ≤ (previous.supplied first skipped).card ↔ previous.Covers first skipped := by
  have hle := Finset.card_filter_le (Finset.Ico (first - skipped) first)
    fun n => ∃ s ∈ previous.segments, s.sequence = n
  rw [Nat.card_Ico] at hle
  by_cases hroom : skipped ≤ first
  · have hlength : (Finset.Ico (first - skipped) first).card = skipped := by
      rw [Nat.card_Ico]; omega
    calc skipped ≤ (previous.supplied first skipped).card
        ↔ (previous.supplied first skipped).card = (Finset.Ico (first - skipped) first).card := by
          rw [hlength, supplied]; omega
      _ ↔ ∀ n ∈ Finset.Ico (first - skipped) first, ∃ s ∈ previous.segments, s.sequence = n :=
          Finset.card_filter_eq_iff
      _ ↔ previous.Covers first skipped := by simp [Covers, hroom]
  · refine iff_of_false ?_ fun h => hroom h.1
    rw [supplied]; omega

/-- What is taken over then are the segments of the gap, one for each number. -/
theorem within_sequences (h : Rising previous.segments) (hcovers : previous.Covers first skipped) :
    (previous.within first skipped).map (·.sequence) = List.range' (first - skipped) skipped := by
  refine (rising_within h).eq_of_mem_iff List.pairwise_lt_range' fun n => ?_
  have hroom := hcovers.1
  simp only [within, List.mem_map, List.mem_filter, Bool.and_eq_true, decide_eq_true_eq,
    List.mem_range'_1]
  constructor
  · rintro ⟨s, ⟨-, hlow, hhigh⟩, rfl⟩
    omega
  · rintro ⟨hlow, hhigh⟩
    obtain ⟨s, hs, rfl⟩ := hcovers.2 n hlow (by omega)
    exact ⟨s, ⟨hs, hlow, by omega⟩, rfl⟩

theorem restore_eq (hfirst : l.firstSequence? = some first) :
    l.restore previous skipped =
      if (previous.within first skipped).length < skipped then
        .error ⟨skipped - (previous.within first skipped).length⟩
      else .ok ⟨inARow (previous.within first skipped ++ l.segments)⟩ := by
  rw [restore, hfirst, ← retime_zero]
  rfl

theorem restore_of_covers (hfirst : l.firstSequence? = some first)
    (h : Rising previous.segments) (hcovers : previous.Covers first skipped) :
    l.restore previous skipped = .ok ⟨inARow (previous.within first skipped ++ l.segments)⟩ := by
  have hlong := skipped_le_card_supplied_iff.2 hcovers
  rw [← length_within h] at hlong
  rw [restore_eq hfirst, if_neg hlong.not_gt]

theorem restore_of_not_covers (hfirst : l.firstSequence? = some first)
    (h : Rising previous.segments) (hcovers : ¬ previous.Covers first skipped) :
    l.restore previous skipped = .error ⟨skipped - (previous.supplied first skipped).card⟩ := by
  have hshort := mt skipped_le_card_supplied_iff.1 hcovers
  rw [← length_within h] at hshort ⊢
  rw [restore_eq hfirst, if_pos (Nat.not_le.1 hshort)]

/-! ## Filling the gap -/

/-- A gap is filled exactly if the older list has all numbers in it, and then with those segments of
the older list, in front of the others and with the times counted anew. Otherwise the failure tells
how many numbers are missing. -/
theorem restore_exact (hfirst : l.firstSequence? = some first) (hrising : Rising previous.segments)
    (skipped : Nat) :
    ((∃ merged, l.restore previous skipped = .ok merged) ↔ previous.Covers first skipped) ∧
    (previous.Covers first skipped → ∃ filling,
      filling.Sublist previous.segments ∧
      filling.map (·.sequence) = List.range' (first - skipped) skipped ∧
      l.restore previous skipped = .ok ⟨inARow (filling ++ l.segments)⟩) ∧
    (¬ previous.Covers first skipped →
      l.restore previous skipped =
        .error ⟨skipped - (previous.supplied first skipped).card⟩) := by
  by_cases hcovers : previous.Covers first skipped
  · have hfilled := restore_of_covers hfirst hrising hcovers
    exact ⟨iff_of_true ⟨_, hfilled⟩ hcovers,
      fun _ => ⟨_, List.filter_sublist, within_sequences hrising hcovers, hfilled⟩,
      fun hnot => absurd hcovers hnot⟩
  · have hfails := restore_of_not_covers hfirst hrising hcovers
    refine ⟨iff_of_false ?_ hcovers, fun h => absurd h hcovers, fun _ => hfails⟩
    rintro ⟨merged, hmerged⟩
    cases hfails.symm.trans hmerged

/-- The two segments in front of an update that overlaps with the third are taken over; of four that
it leaves out, two are not known. -/
theorem restore_exact_of_overlap :
    let segment (n : Nat) : Segment := { sequence := n, duration := 4, uri := "media.ts" }
    let previous : SegmentList := ⟨[segment 10, segment 11, segment 12]⟩
    let update : SegmentList := ⟨[segment 12, segment 13]⟩
    update.firstSequence? = some 12 ∧ Rising previous.segments ∧
      (∃ filling, filling.Sublist previous.segments ∧
        filling.map (·.sequence) = List.range' 10 2 ∧
        update.restore previous 2 = .ok ⟨inARow (filling ++ update.segments)⟩) ∧
      update.restore previous 4 = .error ⟨2⟩ := by
  intro segment previous update
  have hfirst : update.firstSequence? = some 12 := rfl
  have hrising : Rising previous.segments := by decide
  have hmissing : 4 - (previous.supplied 12 4).card = 2 := by decide
  refine ⟨hfirst, hrising, (restore_exact hfirst hrising 2).2.1 (by decide), ?_⟩
  rw [(restore_exact hfirst hrising 4).2.2 (by decide), hmissing]

end AdaptiveHls.SegmentList
