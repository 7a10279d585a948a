import AdaptiveHls.Proofs.Timeline.Ended
import AdaptiveHls.Proofs.Timeline.Numbers

/-!
# The numbers that are left out

A gap takes up the running number by as many segments as it leaves out. None of the numbers in
between is given to a segment after that, as only a restart takes the running number back. Where all
gaps stand in front of the segments, their numbers are those just below the number of the first one.
The numbers of a gap behind a segment are above it.
-/

namespace AdaptiveHls

/-- Nothing is left out behind the URI of a segment. -/
def GapsInFront (directives : List Directive) : Prop :=
  directives.Pairwise fun a b => 0 < b.leftOut → a.segmentUri? = none

instance (directives : List Directive) : Decidable (GapsInFront directives) :=
  inferInstanceAs (Decidable (List.Pairwise _ _))

theorem Directive.isRestart_of_isCounted {d : Directive} (h : d.isCounted = true) :
    d.isRestart = false := by
  cases d with
  | single kind value =>
    cases kind with
    | mediaSequence => cases h
    | _ => rfl
  | _ => rfl

/-- How many segments are left out. -/
def leftOutCount (directives : List Directive) : Nat := (directives.map (·.leftOut)).sum

theorem leftOutCount_cons (d : Directive) (rest : List Directive) :
    leftOutCount (d :: rest) = d.leftOut + leftOutCount rest := by
  rw [leftOutCount, List.map_cons, List.sum_cons, leftOutCount]

theorem leftOutCount_eq_zero_iff {directives : List Directive} :
    leftOutCount directives = 0 ↔ ∀ d ∈ directives, d.leftOut = 0 := by
  induction directives with
  | nil => exact iff_of_true rfl (by simp)
  | cons d rest ih => rw [leftOutCount_cons, Nat.add_eq_zero_iff, ih, List.forall_mem_cons]

namespace Timeline

variable {t : Timeline} {d : Directive} {ds rest : List Directive} {first : Segment}

/-- The numbers of the segments that directives leave out. -/
def leftOut (t : Timeline) : List Directive → List Nat
  | [] => []
  | d :: rest => List.range' t.sequence d.leftOut ++ (t.step d).leftOut rest

theorem leftOut_cons_of_zero (h : d.leftOut = 0) :
    t.leftOut (d :: rest) = (t.step d).leftOut rest := by
  rw [leftOut, h, List.range'_zero, List.nil_append]

theorem leftOut_length (t : Timeline) (ds : List Directive) :
    (t.leftOut ds).length = leftOutCount ds := by
  induction ds generalizing t with
  | nil => rfl
  | cons d rest ih => rw [leftOut, List.length_append, List.length_range', ih, leftOutCount_cons]

theorem made_sound (ht : t.Sound) (ds : List Directive) : ∀ s ∈ t.made ds, s.Sound :=
  (ht.run ds).close

/-- Without a restart, the running number passes over what is left out, or it is given away, or it
has come to its bound. -/
theorem step_cases (ht : t.Sound) (hd : d.isRestart = false) :
    (d.segmentUri? = none ∧ (t.step d).segments = t.segments ∧
      (t.step d).sequence = Count.add t.sequence d.leftOut) ∨
    d.segmentUri?.isSome = true ∧ d.leftOut = 0 ∧
      ((∃ s, s.sequence = t.sequence ∧ (t.step d).segments = t.segments ++ [s] ∧
          (t.step d).sequence = t.sequence + 1) ∨
        (t.step d).segments = t.segments ∧ t.sequence = Count.greatest ∧
          (t.step d).sequence = Count.greatest) := by
  cases huri : d.segmentUri? with
  | none =>
    have hrestart : d.restart? = none := by
      rw [Option.eq_none_iff_forall_ne_some]
      intro n hn
      obtain ⟨_, value, rfl⟩ := Directive.eq_mediaSequence_of_restart hn
      cases hd
    obtain ⟨hsegments, hsequence, _⟩ := step_of_no_segment ht.sequence_le huri
    rw [hrestart] at hsequence
    exact .inl ⟨rfl, hsegments, hsequence⟩
  | some uri =>
    have hleft : d.leftOut = 0 := by rw [(Directive.eq_uri_of_segmentUri huri).2]; rfl
    refine .inr ⟨rfl, hleft, ?_⟩
    rw [step_of_segmentUri huri]
    by_cases room : t.sequence < Count.greatest
    · rw [emit_eq t uri room]
      exact .inl ⟨t.nextSegment uri, rfl, rfl, rfl⟩
    · have hfull : t.sequence = Count.greatest :=
        Nat.le_antisymm ht.sequence_le (Nat.not_lt.1 room)
      refine .inr ⟨?_, hfull, ?_⟩ <;> simp [emit, hfull]

/-- From some point on, all numbers are at least the running number there, those of segments and
those left out, and no number is both. -/
theorem later_numbers (ht : t.Sound) (hds : ∀ d ∈ ds, d.isRestart = false) :
    (∃ later, t.made ds = t.segments ++ later ∧
      ∀ s ∈ later, t.sequence ≤ s.sequence ∧ s.sequence ∉ t.leftOut ds) ∧
    ∀ n ∈ t.leftOut ds, t.sequence ≤ n := by
  induction ds generalizing t with
  | nil =>
    refine ⟨?_, by simp [leftOut]⟩
    rcases t.close_numbers with hsame | ⟨s, hs, hpush⟩
    · exact ⟨[], by simp [made, hsame], by simp⟩
    · exact ⟨[s], hpush, by simp [hs, leftOut]⟩
  | cons d rest ih =>
    obtain ⟨⟨later, hmade, hlater⟩, hleft⟩ :=
      ih (ht.step d) fun e he => hds e (List.mem_cons_of_mem _ he)
    change t.made (d :: rest) = _ at hmade
    have hbound := ht.sequence_le
    rcases step_cases ht (hds d List.mem_cons_self) with
      ⟨_, hsegments, hsequence⟩ | ⟨_, hzero, ⟨s, hs, hpush, hsequence⟩ | ⟨hsame, hfull, hsequence⟩⟩
    · rw [hsegments] at hmade
      rw [hsequence, Count.add] at hlater hleft
      refine ⟨⟨later, hmade, fun s hs => ?_⟩, fun n hn => ?_⟩
      · have hlow := hlater s hs
        have hsound := made_sound ht (d :: rest) s (hmade ▸ List.mem_append_right _ hs)
        have hlt := hsound.sequence_lt
        rw [leftOut, List.mem_append, List.mem_range'_1, not_or]
        exact ⟨by omega, by omega, hlow.2⟩
      · rw [leftOut, List.mem_append, List.mem_range'_1] at hn
        rcases hn with hn | hn
        · exact hn.1
        · have hlow := hleft n hn
          omega
    · rw [hpush, List.append_assoc] at hmade
      rw [hsequence] at hlater hleft
      rw [leftOut_cons_of_zero hzero]
      refine ⟨⟨s :: later, hmade, ?_⟩, fun n hn => Nat.le_of_succ_le (hleft n hn)⟩
      rw [List.forall_mem_cons, hs]
      refine ⟨⟨Nat.le_refl _, fun hmem => Nat.not_succ_le_self _ (hleft _ hmem)⟩, fun v hv => ?_⟩
      exact ⟨Nat.le_of_succ_le (hlater v hv).1, (hlater v hv).2⟩
    · rw [hsame] at hmade
      rw [hsequence, ← hfull] at hlater hleft
      rw [leftOut_cons_of_zero hzero]
      exact ⟨⟨later, hmade, hlater⟩, hleft⟩

/-- A segment that is still to be made has a running number below the bound in front of it. -/
theorem sequence_le_head (ht : t.Sound) (hds : ∀ d ∈ ds, d.isRestart = false)
    (hnone : t.segments = []) (hfirst : (t.made ds).head? = some first) :
    t.sequence ≤ first.sequence ∧ first.sequence < Count.greatest := by
  obtain ⟨⟨later, hmade, hlater⟩, _⟩ := later_numbers ht hds
  have hmem := List.mem_of_head? hfirst
  refine ⟨?_, (made_sound ht ds first hmem).sequence_lt⟩
  rw [hmade, hnone, List.nil_append] at hmem
  exact (hlater first hmem).1

/-- On the way to the first segment the running number is exact, and no URI is passed over. -/
theorem step_to_head (ht : t.Sound) (hds : ∀ e ∈ d :: rest, e.isRestart = false)
    (hnone : t.segments = []) (hfirst : (t.made (d :: rest)).head? = some first) :
    (d.segmentUri? = none ∧ (t.step d).segments = [] ∧
      (t.step d).sequence = t.sequence + d.leftOut) ∨
    d.segmentUri?.isSome = true ∧ d.leftOut = 0 ∧ first.sequence = t.sequence ∧
      (t.step d).sequence = t.sequence + 1 := by
  obtain ⟨hd, hrest⟩ := List.forall_mem_cons.1 hds
  have hlater : ((t.step d).made rest).head? = some first := hfirst
  rcases step_cases ht hd with
    ⟨huri, hsegments, hsequence⟩ | ⟨huri, hzero, ⟨s, hs, hpush, hsequence⟩ | ⟨hsame, _, hfull⟩⟩
  · have hbound := sequence_le_head (ht.step d) hrest (hsegments.trans hnone) hlater
    refine .inl ⟨huri, hsegments.trans hnone, ?_⟩
    rw [hsequence, Count.add] at hbound ⊢
    omega
  · obtain ⟨later, hmade⟩ := segments_prefix_made (ht.step d) rest
    rw [hpush, hnone] at hmade
    rw [← hmade] at hlater
    have hfirst : s = first := Option.some.inj hlater
    exact .inr ⟨huri, hzero, hfirst ▸ hs, hsequence⟩
  · have hbound := sequence_le_head (ht.step d) hrest (hsame.trans hnone) hlater
    rw [hfull] at hbound
    omega

/-- With all gaps in front, what is left out are the numbers just below the first. -/
theorem leftOut_eq_range' (ht : t.Sound) (hds : ∀ d ∈ ds, d.isRestart = false)
    (hnone : t.segments = []) (hfirst : (t.made ds).head? = some first) (hfront : GapsInFront ds) :
    t.leftOut ds = List.range' t.sequence (leftOutCount ds) ∧
      first.sequence = t.sequence + leftOutCount ds := by
  induction ds generalizing t with
  | nil =>
    refine ⟨rfl, ?_⟩
    rcases t.close_numbers with hsame | ⟨s, hs, hpush⟩
    · simp [made, hsame, hnone] at hfirst
    · have hfirst : s = first := by simpa [made, hpush, hnone] using hfirst
      rw [← hfirst, hs]
      rfl
  | cons d rest ih =>
    rw [leftOutCount_cons]
    rcases step_to_head ht hds hnone hfirst with
      ⟨_, hsegments, hsequence⟩ | ⟨huri, hzero, hnumber, _⟩
    · obtain ⟨hleft, hnumber⟩ :=
        ih (ht.step d) (List.forall_mem_cons.1 hds).2 hsegments hfirst hfront.of_cons
      rw [leftOut, hleft, hnumber, hsequence, List.range'_append_1]
      exact ⟨rfl, Nat.add_assoc _ _ _⟩
    · have hcount : leftOutCount rest = 0 :=
        leftOutCount_eq_zero_iff.2 fun e he => Nat.eq_zero_of_not_pos fun hpos => by
          rw [List.rel_of_pairwise_cons hfront he hpos] at huri
          cases huri
      have hnil : (t.step d).leftOut rest = [] := by
        rw [← List.length_eq_zero_iff, leftOut_length, hcount]
      rw [leftOut_cons_of_zero hzero, hnil, hzero, hcount]
      exact ⟨rfl, hnumber⟩

/-- A gap behind a segment leaves out greater numbers. -/
theorem exists_leftOut_gt (ht : t.Sound) (hds : ∀ d ∈ ds, d.isRestart = false)
    (hnone : t.segments = []) (hfirst : (t.made ds).head? = some first)
    (hlate : ¬ GapsInFront ds) : ∃ n ∈ t.leftOut ds, first.sequence < n := by
  induction ds generalizing t with
  | nil => exact absurd .nil hlate
  | cons d rest ih =>
    have hrest := (List.forall_mem_cons.1 hds).2
    rcases step_to_head ht hds hnone hfirst with
      ⟨huri, hsegments, _⟩ | ⟨_, hzero, hnumber, hsequence⟩
    · have hlate : ¬ GapsInFront rest := fun hfront =>
        hlate (List.pairwise_cons.2 ⟨fun _ _ _ => huri, hfront⟩)
      obtain ⟨n, hn, hlt⟩ := ih (ht.step d) hrest hsegments hfirst hlate
      exact ⟨n, List.mem_append_right _ hn, hlt⟩
    · have hsome : (t.step d).leftOut rest ≠ [] := by
        intro hnil
        have hcount : leftOutCount (d :: rest) = 0 := by
          rw [leftOutCount_cons, hzero, ← (t.step d).leftOut_length, hnil]
          rfl
        have hall := leftOutCount_eq_zero_iff.1 hcount
        refine hlate (List.pairwise_of_forall_mem_list fun a _ e he hpos => ?_)
        rw [hall e he] at hpos
        cases hpos
      obtain ⟨n, hn⟩ := List.exists_mem_of_ne_nil _ hsome
      have hlow := (later_numbers (ht.step d) hrest).2 n hn
      rw [hsequence] at hlow
      rw [leftOut_cons_of_zero hzero, hnumber]
      exact ⟨n, hn, hlow⟩

/-- Where the start of the numbers is stated in front, nothing comes before it, and no restart
comes after it. -/
theorem exists_behind_start (ht : t.Sound) (hnone : t.segments = [])
    (hds : ds.Pairwise fun a b => b.isRestart = true → a.isCounted = false) :
    ∃ u : Timeline, ∃ rest, u.Sound ∧ u.segments = [] ∧ (∀ d ∈ rest, d.isRestart = false) ∧
      t.made ds = u.made rest ∧ t.leftOut ds = u.leftOut rest ∧
      leftOutCount ds = leftOutCount rest ∧ (GapsInFront ds ↔ GapsInFront rest) := by
  induction ds generalizing t with
  | nil => exact ⟨t, [], ht, hnone, by simp, rfl, rfl, rfl, .rfl⟩
  | cons d rest ih =>
    obtain ⟨hd, hrest⟩ := List.pairwise_cons.1 hds
    cases hcounted : d.isCounted with
    | true =>
      refine ⟨t, d :: rest, ht, hnone, ?_, rfl, rfl, rfl, .rfl⟩
      refine List.forall_mem_cons.2 ⟨Directive.isRestart_of_isCounted hcounted, fun e he => ?_⟩
      rw [← Bool.not_eq_true]
      intro hrestart
      rw [hd e he hrestart] at hcounted
      cases hcounted
    | false =>
      obtain ⟨huri, hzero, _⟩ := Directive.numberless_of_uncounted hcounted
      have hsegments := (step_of_no_segment ht.sequence_le huri).1
      obtain ⟨u, behind, hu, hsame, hstart, hmade, hleft, hcount, hfront⟩ :=
        ih (ht.step d) (hsegments.trans hnone) hrest
      refine ⟨u, behind, hu, hsame, hstart, hmade, (leftOut_cons_of_zero hzero).trans hleft, ?_, ?_⟩
      · rw [leftOutCount_cons, hzero, hcount, Nat.zero_add]
      · rw [← hfront]
        exact List.pairwise_cons.trans (and_iff_right fun _ _ _ => huri)

/-- What a playlist leaves out has none of the numbers of its own segments. It is all below the
first of them exactly if all gaps stand in front, and then there is no number in between. -/
theorem leftOut_spec (ht : t.Sound) (hnone : t.segments = [])
    (hds : ds.Pairwise fun a b => b.isRestart = true → a.isCounted = false)
    (hfirst : (t.made ds).head? = some first) :
    (∀ s ∈ t.made ds, s.sequence ∉ t.leftOut ds) ∧
      ((∀ n ∈ t.leftOut ds, n < first.sequence) ↔ GapsInFront ds) ∧
      (GapsInFront ds → leftOutCount ds ≤ first.sequence ∧
        t.leftOut ds = List.range' (first.sequence - leftOutCount ds) (leftOutCount ds)) := by
  obtain ⟨u, rest, hu, hempty, hrest, hmade, hleft, hcount, hfront⟩ := exists_behind_start ht hnone hds
  rw [hmade] at hfirst ⊢
  rw [hleft, hcount, hfront]
  have hbelow (h : GapsInFront rest) := leftOut_eq_range' hu hrest hempty hfirst h
  obtain ⟨⟨later, hlater, hown⟩, _⟩ := later_numbers hu hrest
  refine ⟨?_, ⟨fun hall => ?_, fun h n hn => ?_⟩, fun h => ?_⟩
  · rw [hlater, hempty, List.nil_append]
    exact fun s hs => (hown s hs).2
  · by_contra hlate
    obtain ⟨n, hn, hlt⟩ := exists_leftOut_gt hu hrest hempty hfirst hlate
    exact absurd (hall n hn) (Nat.lt_asymm hlt)
  · rw [(hbelow h).1, List.mem_range'_1] at hn
    rw [(hbelow h).2]
    exact hn.2
  · obtain ⟨hrange, hnumber⟩ := hbelow h
    rw [hrange, hnumber, Nat.add_sub_cancel]
    exact ⟨Nat.le_add_left _ _, rfl⟩

/-! ## The count that the rendition keeps -/

theorem step_skipped (h : t.rendition.skipped ≤ Count.greatest) (d : Directive) :
    (t.step d).rendition.skipped = Count.add t.rendition.skipped d.leftOut := by
  have hzero : Count.add t.rendition.skipped 0 = t.rendition.skipped := Count.add_of_le h
  cases d with
  | single kind value =>
    cases kind with
    | uri =>
      simp only [step, stepSingle, Directive.leftOut, hzero]
      split
      · rfl
      · rw [emit_rendition]
    | programDateTime =>
      simp only [step, stepSingle, Directive.leftOut, hzero]
      split <;> rfl
    | _ => simp [step, stepSingle, setRendition, Directive.leftOut, hzero]
  | list kind a =>
    cases kind with
    | partInf | preloadHint =>
      simp only [step, stepList, Directive.leftOut, hzero]
      split <;> rfl
    | _ =>
      simp [step, stepList, addKey, addPart, setInit_eq, setRendition, Directive.leftOut, hzero]
  | inf a => simp [step, Directive.leftOut, hzero]

/-- What is left out is counted up, as far as the bound. -/
theorem run_skipped (h : t.rendition.skipped ≤ Count.greatest) (ds : List Directive) :
    (t.run ds).rendition.skipped = Count.add t.rendition.skipped (leftOutCount ds) := by
  induction ds generalizing t with
  | nil =>
    have hzero : Count.add t.rendition.skipped 0 = t.rendition.skipped := Count.add_of_le h
    exact hzero.symm
  | cons d rest ih =>
    have hstep := step_skipped h d
    have hle : (t.step d).rendition.skipped ≤ Count.greatest := hstep ▸ Count.add_le _ _
    rw [run_cons, ih hle, hstep, leftOutCount_cons]
    simp only [Count.add]
    omega

theorem assemble_skipped (r : Rendition) (hr : r.skipped = 0) (ds : List Directive) :
    (assemble r ds).skipped = min (leftOutCount ds) Count.greatest := by
  have hzero : (start r).rendition.skipped = 0 := hr
  have hrun := run_skipped (t := start r) (by rw [hzero]; exact Nat.zero_le _) ds
  rw [hzero, Count.add, Nat.zero_add] at hrun
  rw [assemble, close_rendition, hrun]

end Timeline

end AdaptiveHls
