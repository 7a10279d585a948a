import AdaptiveHls.Proofs.Timeline.Agreement
import AdaptiveHls.Proofs.Timeline.Sound
import Mathlib.Data.List.Chain
import Mathlib.Data.List.Infix

/-!
# The order within a list of segments

Look-ups rest on numbers that rise, and a cursor that waits for a segment rests on nothing standing
behind it. Neither is checked when a list is made. The directives that touch the running number are
few: a URI and a gap take it up, the end of the playlist uses it, and a media sequence tag sets it
to whatever it says. So numbers rise unless such a tag, standing between two segments, takes them
back. A segment without a URI is made at the end only, so in a list that directives make it is the
last one; a delta update, however, may take it over from an older list and put others behind it.
-/

namespace AdaptiveHls

/-- The numbers of the segments rise strictly. -/
def Rising (segments : List Segment) : Prop := (segments.map (·.sequence)).Pairwise (· < ·)

/-- Only the last segment may still be in progress. -/
def CompleteButLast (segments : List Segment) : Prop :=
  ∀ s ∈ segments.dropLast, s.inProgress = false

instance (segments : List Segment) : Decidable (Rising segments) :=
  inferInstanceAs (Decidable (List.Pairwise _ _))

instance (segments : List Segment) : Decidable (CompleteButLast segments) :=
  inferInstanceAs (Decidable (∀ s ∈ segments.dropLast, s.inProgress = false))

def Directive.isRestart : Directive → Bool
  | .single .mediaSequence _ => true
  | _ => false

section Lists

variable {segments xs ys : List Segment}

/-- It is enough that each segment has a greater number than the one before it. -/
theorem rising_append_iff :
    Rising (xs ++ ys) ↔ Rising xs ∧ Rising ys ∧
      ∀ a ∈ xs.getLast?, ∀ b ∈ ys.head?, a.sequence < b.sequence := by
  simp [Rising, ← List.isChain_iff_pairwise, List.isChain_append]

theorem rising_singleton (s : Segment) : Rising [s] := List.pairwise_singleton _ _

/-- Rising and completeness do not depend on the times. -/
theorem sequences_eq_of_untimed (h : xs.map (·.untimed) = ys.map (·.untimed)) :
    xs.map (·.sequence) = ys.map (·.sequence) := by
  have := congrArg (List.map (·.sequence)) h
  rwa [List.map_map, List.map_map] at this

theorem rising_iff_of_untimed (h : xs.map (·.untimed) = ys.map (·.untimed)) :
    Rising xs ↔ Rising ys := by
  rw [Rising, Rising, sequences_eq_of_untimed h]

theorem completeButLast_iff_of_untimed (h : xs.map (·.untimed) = ys.map (·.untimed)) :
    CompleteButLast xs ↔ CompleteButLast ys := by
  have key (zs : List Segment) :
      CompleteButLast zs ↔ ∀ u ∈ (zs.map (·.untimed)).dropLast, u.inProgress = false := by
    simp [CompleteButLast, ← List.map_dropLast, Segment.untimed, Segment.inProgress]
  rw [key, key, h]

/-- Behind a segment of the first list there is always one of the second. -/
theorem completeButLast_append_iff (h : ys ≠ []) :
    CompleteButLast (xs ++ ys) ↔ (∀ s ∈ xs, s.inProgress = false) ∧ CompleteButLast ys := by
  rw [CompleteButLast, List.dropLast_append_of_ne_nil h, List.forall_mem_append, CompleteButLast]

/-- Where only the last segment may be in progress, one that is stands at the end. -/
theorem getLast?_of_inProgress {s : Segment} (h : CompleteButLast segments) (hs : s ∈ segments)
    (hprogress : s.inProgress = true) : segments.getLast? = some s := by
  obtain ⟨last, hlast⟩ := Option.ne_none_iff_exists'.1
    (mt List.getLast?_eq_none_iff.1 (List.ne_nil_of_mem hs))
  rw [← List.dropLast_append_getLast? last hlast, List.mem_append, List.mem_singleton] at hs
  rcases hs with hs | rfl
  · rw [h s hs] at hprogress
    cases hprogress
  · exact hlast

end Lists

namespace Timeline

variable {t : Timeline} {directives : List Directive}

/-- A directive makes a segment with the running number, or it makes none, and then only a restart
takes the running number back. -/
theorem step_numbers (ht : t.Sound) (d : Directive) :
    (∃ s, s.sequence = t.sequence ∧ s.inProgress = false ∧
      (t.step d).segments = t.segments ++ [s] ∧ (t.step d).sequence = t.sequence + 1) ∨
    (t.step d).segments = t.segments ∧ (d.isRestart = false → t.sequence ≤ (t.step d).sequence) := by
  cases hd : d.isUri with
  | false =>
    refine .inr ⟨by rw [step_eq t d hd], fun hrestart => ?_⟩
    cases d with
    | single kind value =>
      cases kind with
      | mediaSequence => cases hrestart
      | uri => cases hd
      | programDateTime =>
        simp only [step, stepSingle]
        split <;> exact Nat.le_refl _
      | _ => simp [step, stepSingle, setRendition]
    | list kind a =>
      cases kind with
      | skip =>
        simp only [step, stepList, Count.add]
        exact Nat.le_min.2 ⟨Nat.le_add_right _ _, ht.sequence_le⟩
      | map => simp [step, stepList, setInit_eq]
      | partInf | preloadHint =>
        simp only [step, stepList]
        split <;> simp [setRendition]
      | _ => simp [step, stepList, addKey, addPart, setRendition]
    | inf a => simp [step]
  | true =>
    obtain ⟨value, rfl⟩ := Directive.eq_uri_of_isUri hd
    cases hempty : value.isEmpty with
    | true =>
      refine .inr ?_
      simp [step, stepSingle, hempty]
    | false =>
      have hemit : t.step (.single .uri value) = t.emit value.raw := by
        simp [step, stepSingle, hempty]
      rw [hemit]
      by_cases room : t.sequence < Count.greatest
      · rw [emit_eq t value.raw room]
        exact .inl ⟨t.nextSegment value.raw, rfl, hempty, rfl, rfl⟩
      · refine .inr ?_
        simp [emit, room]

/-- The end makes a segment of parts that are left, with the running number. -/
theorem close_numbers (t : Timeline) :
    t.close.segments = t.segments ∨
      ∃ s, s.sequence = t.sequence ∧ t.close.segments = t.segments ++ [s] := by
  simp only [close]
  split
  · exact .inl rfl
  · exact .inr ⟨_, rfl, rfl⟩

def made (t : Timeline) (directives : List Directive) : List Segment :=
  (t.run directives).close.segments

/-- What has been made stays, and more is put behind it. -/
theorem segments_prefix_made (ht : t.Sound) (directives : List Directive) :
    t.segments <+: t.made directives := by
  induction directives generalizing t with
  | nil =>
    rcases t.close_numbers with hsame | ⟨s, _, hpush⟩
    · exact ⟨[], by simp [made, hsame]⟩
    · exact ⟨[s], by simp [made, hpush]⟩
  | cons d rest ih =>
    have hrest : (t.step d).segments <+: t.made (d :: rest) := ih (ht.step d)
    rcases step_numbers ht d with ⟨s, _, _, hpush, _⟩ | ⟨hsame, _⟩
    · exact (hpush ▸ List.prefix_append _ _).trans hrest
    · exact hsame ▸ hrest

/-- The newest segment that has been made, and the first that is still to be made, rise. -/
def GoesOn (t : Timeline) (directives : List Directive) : Prop :=
  ∀ a ∈ t.segments.getLast?, ∀ b ∈ (t.made directives)[t.segments.length]?,
    a.sequence < b.sequence

/-- Wherever the running number is set anew between two segments, numbers go on rising. -/
def RestartsAhead (t : Timeline) (directives : List Directive) : Prop :=
  ∀ before restart after, directives = before ++ restart :: after → restart.isRestart = true →
    (t.run before).GoesOn (restart :: after)

theorem RestartsAhead.tail {d : Directive} (h : t.RestartsAhead (d :: directives)) :
    (t.step d).RestartsAhead directives := by
  intro before restart after hsplit hrestart
  exact h (d :: before) restart after (by rw [hsplit]; rfl) hrestart

theorem made_getElem? {s : Segment} (h : (t.segments ++ [s]) <+: t.made directives) :
    (t.made directives)[t.segments.length]? = some s := by
  obtain ⟨rest, hrest⟩ := h
  rw [← hrest]
  simp

/-- With a running number above all numbers given, only a restart can keep them from rising. -/
theorem goesOn_of_ahead (ht : t.Sound) (ahead : ∀ a ∈ t.segments.getLast?, a.sequence < t.sequence)
    (h : t.RestartsAhead directives) : t.GoesOn directives := by
  induction directives generalizing t with
  | nil =>
    intro a ha b hb
    rcases t.close_numbers with hsame | ⟨s, hs, hpush⟩
    · simp [made, hsame] at hb
    · simp [made, hpush] at hb
      rw [← hb, hs]
      exact ahead a ha
  | cons d rest ih =>
    by_cases hrestart : d.isRestart = true
    · exact h [] d rest rfl hrestart
    · intro a ha b hb
      rcases step_numbers ht d with ⟨s, hs, _, hpush, _⟩ | ⟨hsame, hle⟩
      · have hmade : (t.made (d :: rest))[t.segments.length]? = some s :=
          made_getElem? (hpush ▸ segments_prefix_made (ht.step d) rest)
        have hbs : b = s := Option.some.inj (hb.symm.trans hmade)
        rw [hbs, hs]
        exact ahead a ha
      · have hle := hle (by simpa using hrestart)
        refine ih (ht.step d) ?_ h.tail a (by rw [hsame]; exact ha) b (by rw [hsame]; exact hb)
        intro c hc
        rw [hsame] at hc
        exact Nat.lt_of_lt_of_le (ahead c hc) hle

/-- Numbers that rise at each place where they are set anew rise throughout. -/
theorem rising_made (ht : t.Sound) (hrise : Rising t.segments) (hnext : t.GoesOn directives)
    (h : t.RestartsAhead directives) : Rising (t.made directives) := by
  induction directives generalizing t with
  | nil =>
    rcases t.close_numbers with hsame | ⟨s, hs, hpush⟩
    · exact (congrArg Rising hsame).mpr hrise
    · have hmade : t.made [] = t.segments ++ [s] := hpush
      rw [hmade, rising_append_iff]
      refine ⟨hrise, rising_singleton s, fun a ha b hb => hnext a ha b ?_⟩
      rw [hmade]
      simpa using hb
  | cons d rest ih =>
    have hprefix := segments_prefix_made (ht.step d) rest
    rcases step_numbers ht d with ⟨s, hs, _, hpush, hsequence⟩ | ⟨hsame, _⟩
    · refine ih (ht.step d) ?_ (goesOn_of_ahead (ht.step d) ?_ h.tail) h.tail
      · rw [hpush, rising_append_iff]
        refine ⟨hrise, rising_singleton s, fun a ha b hb => hnext a ha b ?_⟩
        have hbs : s = b := by simpa using hb
        have hmade : (t.made (d :: rest))[t.segments.length]? = some s :=
          made_getElem? (hpush ▸ hprefix)
        exact hbs ▸ hmade
      · intro a ha
        rw [hpush] at ha
        have has : s = a := by simpa using ha
        rw [hsequence, ← has, hs]
        exact Nat.lt_succ_self _
    · refine ih (ht.step d) (by rw [hsame]; exact hrise) ?_ h.tail
      intro a ha b hb
      rw [hsame] at ha hb
      exact hnext a ha b hb

/-- Numbers rise exactly if no restart takes them back. -/
theorem rising_assemble_iff (r : Rendition) (directives : List Directive) :
    Rising (assemble r directives).segments ↔ (start r).RestartsAhead directives := by
  change Rising ((start r).made directives) ↔ _
  constructor
  · intro hrise before restart after hsplit _ a ha b hb
    have hprefix := segments_prefix_made ((start_sound r).run before) (restart :: after)
    obtain ⟨rest, hrest⟩ := hprefix
    have hmade : (start r).made directives = ((start r).run before).made (restart :: after) := by
      rw [made, hsplit, run_append]
      rfl
    rw [hmade, ← hrest, rising_append_iff] at hrise
    refine hrise.2.2 a ha b ?_
    rw [← hrest, List.getElem?_append_right (Nat.le_refl _), Nat.sub_self] at hb
    rwa [List.head?_eq_getElem?]
  · intro h
    exact rising_made (start_sound r) List.Pairwise.nil (by simp [GoesOn, start]) h

/-- All segments that are made in front of the end are complete. -/
theorem complete_run (ht : t.Sound) (h : ∀ s ∈ t.segments, s.inProgress = false)
    (directives : List Directive) : ∀ s ∈ (t.run directives).segments, s.inProgress = false := by
  induction directives generalizing t with
  | nil => exact h
  | cons d rest ih =>
    refine ih (ht.step d) ?_
    rcases step_numbers ht d with ⟨s, _, hs, hpush, _⟩ | ⟨hsame, _⟩
    · rw [hpush]
      exact List.forall_mem_append.2 ⟨h, by simpa using hs⟩
    · rw [hsame]
      exact h

/-- Only the parts at the end make a segment that is in progress. -/
theorem completeButLast_assemble (r : Rendition) (directives : List Directive) :
    CompleteButLast (assemble r directives).segments := by
  have hrun := complete_run (start_sound r) (by simp [start]) directives
  change CompleteButLast ((start r).run directives).close.segments
  rcases ((start r).run directives).close_numbers with hsame | ⟨s, _, hpush⟩
  · rw [hsame]
    exact fun s hs => hrun s (List.mem_of_mem_dropLast hs)
  · rw [hpush, completeButLast_append_iff (List.cons_ne_nil _ _)]
    exact ⟨hrun, by simp [CompleteButLast]⟩

end Timeline

end AdaptiveHls
