import AdaptiveHls.Proofs.Timeline.Numbers

/-!
# Where segments are made

A segment is due in front of each URI, and at the end if parts are left there. Whether it is made
hangs on the running number alone, which the directives in front of the place tell without anything
else being read. So the segments of a playlist are, one for one, what the timeline behind the
directives in front of each such place makes, and what holds of a segment is what those directives
have left in the record. What speaks of the next segment alone is forgotten at every URI, also at an
empty one and at one that gets no number.
-/

namespace AdaptiveHls

namespace Directive

/-- By how many segments a directive takes the running number up. -/
def taken (d : Directive) : Nat := d.leftOut + d.segmentUri?.toList.length

/-- The running number behind a directive if it is `n` in front. -/
def numberAfter (d : Directive) (n : Nat) : Nat := d.restart?.getD (Count.add n d.taken)

/-- A URI does nothing to the running number but to take it up by one. -/
theorem numbers_of_segmentUri {d : Directive} {uri : String} (h : d.segmentUri? = some uri) :
    d.restart? = none ∧ d.taken = 1 := by
  rw [taken, h, (eq_uri_of_segmentUri h).2]
  exact ⟨rfl, rfl⟩

end Directive

/-- The running number behind directives. -/
def runningNumber (directives : List Directive) : Nat :=
  directives.foldl (fun n d => d.numberAfter n) 0

/-- Whether there is a number left for the segment that is due. -/
def Place.hasNumber (p : Place) : Bool := runningNumber p.before < Count.greatest

/-- All places where a segment is due: in front of each URI, and at the end if parts are left. -/
def places (directives : List Directive) : List Place :=
  uriPlaces directives ++ if endsInParts directives then [⟨directives, ""⟩] else []

def filledPlaces (directives : List Directive) : List Place :=
  (places directives).filter (·.hasNumber)

def filledUris (directives : List Directive) : List Place :=
  (uriPlaces directives).filter (·.hasNumber)

/-- The directives behind the last line with a URI, be it an empty one. -/
def sinceUri (directives : List Directive) : List Directive :=
  directives.rtakeWhile fun d => !d.isUri

section Prefixes

variable (ds : List Directive) (d : Directive)

theorem runningNumber_append_singleton :
    runningNumber (ds ++ [d]) = d.numberAfter (runningNumber ds) := by
  rw [runningNumber, List.foldl_append]
  rfl

theorem sinceUri_append_singleton :
    sinceUri (ds ++ [d]) = if d.isUri then [] else sinceUri ds ++ [d] := by
  rw [sinceUri, List.rtakeWhile_concat]
  cases d.isUri <;> rfl

theorem filledUris_append_singleton :
    filledUris (ds ++ [d]) =
      filledUris ds ++ ((d.segmentUri?.map (⟨ds, ·⟩)).toList.filter (·.hasNumber)) := by
  rw [filledUris, uriPlaces_append_singleton, List.filter_append, filledUris]

/-- One more directive makes no segment, or it is a URI that makes one. -/
theorem filledUris_cases :
    (filledUris (ds ++ [d]) = filledUris ds ∧
        (d.segmentUri?.isSome = true → ¬ runningNumber ds < Count.greatest)) ∨
      ∃ uri, d.segmentUri? = some uri ∧ runningNumber ds < Count.greatest ∧
        filledUris (ds ++ [d]) = filledUris ds ++ [⟨ds, uri⟩] := by
  rw [filledUris_append_singleton]
  cases huri : d.segmentUri? with
  | none => exact .inl ⟨by simp, fun h => nomatch h⟩
  | some uri =>
    by_cases room : runningNumber ds < Count.greatest
    · exact .inr ⟨uri, rfl, room, by simp [Place.hasNumber, room]⟩
    · exact .inl ⟨by simp [Place.hasNumber, room], fun _ => room⟩

theorem uriPlaces_prefix_append (more : List Directive) :
    uriPlaces ds <+: uriPlaces (ds ++ more) := by
  induction more using List.reverseRecOn with
  | nil => rw [List.append_nil]
  | append_singleton more d ih =>
    rw [← List.append_assoc, uriPlaces_append_singleton]
    exact ih.trans (List.prefix_append _ _)

/-- In front of a place stand directives of the list, and the URI behind them is not empty. -/
theorem uri_of_mem_uriPlaces {p : Place} (hp : p ∈ uriPlaces ds) :
    p.uri.isEmpty = false ∧ ∃ after, ds = p.before ++ .single .uri ⟨p.uri⟩ :: after := by
  induction ds using List.reverseRecOn with
  | nil => cases hp
  | append_singleton ds d ih =>
    rw [uriPlaces_append_singleton, List.mem_append] at hp
    rcases hp with hp | hp
    · obtain ⟨huri, after, hafter⟩ := ih hp
      exact ⟨huri, after ++ [d], by rw [hafter]; simp⟩
    · cases hd : d.segmentUri? with
      | none => simp [hd] at hp
      | some uri =>
        obtain rfl : p = ⟨ds, uri⟩ := by simpa [hd] using hp
        obtain ⟨huri, rfl⟩ := Directive.eq_uri_of_segmentUri hd
        exact ⟨huri, [], rfl⟩

end Prefixes

namespace Timeline

variable {t : Timeline} (r : Rendition) (ds : List Directive)

theorem run_append_singleton (d : Directive) : t.run (ds ++ [d]) = (t.run ds).step d := by
  rw [run_append, run_cons, run_nil]

/-- A field that URIs clear is in the end what has been stated last since the last of them. -/
theorem run_since {β : Type} (field : Timeline → Option β) (stated : Directive → Option (Option β))
    (step : ∀ t d, field (t.step d) = if d.isUri then none else (stated d).getD (field t))
    (cleared : field t = none) :
    field (t.run ds) = ((sinceUri ds).reverse.findSome? stated).join := by
  induction ds using List.reverseRecOn with
  | nil => exact cleared
  | append_singleton ds d ih =>
    rw [run_append_singleton, step, ih, sinceUri_append_singleton]
    cases d.isUri with
    | true => rfl
    | false => cases hd : stated d <;> simp [hd]

theorem run_range_since :
    ((start r).run ds).range = ((sinceUri ds).reverse.findSome? (·.range?)).join := by
  refine run_since ds (·.range) _ (fun t d => ?_) rfl
  cases hd : d.isUri with
  | false => rw [step_eq t d hd]; rfl
  | true => rw [step_of_isUri t d hd]; rfl

theorem run_duration_since :
    ((start r).run ds).duration = ((sinceUri ds).reverse.findSome? (·.duration?)).join := by
  refine run_since ds (·.duration) _ (fun t d => ?_) rfl
  cases hd : d.isUri with
  | false => rw [step_eq t d hd]; rfl
  | true => rw [step_of_isUri t d hd]; rfl

theorem run_sequence_le : ((start r).run ds).sequence ≤ Count.greatest :=
  ((start_sound r).run ds).sequence_le

/-- A directive sets the running number, or takes it up by the segments it makes or leaves out. -/
theorem step_sequence (ht : t.sequence ≤ Count.greatest) (d : Directive) :
    (t.step d).sequence = d.numberAfter t.sequence := by
  cases huri : d.segmentUri? with
  | none =>
    rw [(step_of_no_segment ht huri).2.1, Directive.numberAfter, Directive.taken, huri]
    rfl
  | some uri =>
    obtain ⟨hrestart, htaken⟩ := Directive.numbers_of_segmentUri huri
    rw [step_of_segmentUri huri, (emit_numbers t uri).2.1, Directive.numberAfter, hrestart, htaken,
      Option.getD_none, Count.add]
    split <;> omega

theorem run_sequence_eq : ((start r).run ds).sequence = runningNumber ds := by
  induction ds using List.reverseRecOn with
  | nil => rfl
  | append_singleton ds d ih =>
    rw [run_append_singleton, runningNumber_append_singleton, step_sequence (run_sequence_le r ds),
      ih]

/-- Where no segment is made, no time moves on, and the keys and the end of the ranges are not used. -/
theorem step_of_no_room {d : Directive}
    (h : d.segmentUri?.isSome = true → ¬ t.sequence < Count.greatest) :
    t.step d =
      { t with
        rendition := (t.step d).rendition
        sequence := (t.step d).sequence
        utcTime := d.date?.or t.utcTime
        discontinuity := (t.step d).discontinuity
        duration := (t.step d).duration
        range := (t.step d).range
        partRangeEnd := (t.step d).partRangeEnd
        keys := d.key?.elim t.keys fun key => (if t.keysUsed then [] else t.keys) ++ [key]
        keysUsed := t.keysUsed && d.key?.isNone
        initSegment := (t.step d).initSegment
        parts := (t.step d).parts } := by
  cases hd : d.isUri with
  | false =>
    rw [step_eq t d hd]
  | true =>
    obtain ⟨value, rfl⟩ := Directive.eq_uri_of_isUri hd
    simp only [step, stepSingle]
    split
    · simp [Directive.date?, Directive.key?]
    · next hvalue =>
      have full : ¬ t.sequence < Count.greatest := h (by simp [Directive.segmentUri?, hvalue])
      simp [emit, full, Directive.date?, Directive.key?]

theorem run_parts_isEmpty : ((start r).run ds).parts.isEmpty = !endsInParts ds := by
  induction ds using List.reverseRecOn with
  | nil => rfl
  | append_singleton ds d ih =>
    rw [run_append_singleton, endsInParts_append_singleton]
    cases huri : d.segmentUri? with
    | none =>
      rw [(step_of_no_segment (run_sequence_le r ds) huri).2.2, ih]
      cases endsInParts ds <;> rfl
    | some uri =>
      rw [step_of_segmentUri huri, (emit_numbers _ uri).2.2]
      rfl

end Timeline

/-- The segment that is made at a place. What is still being published lasts as long as its
parts. -/
def Place.segment (p : Place) (r : Rendition) : Segment :=
  let t := (Timeline.start r).run p.before
  let s := t.nextSegment p.uri
  { s with duration := if p.uri.isEmpty then Part.total t.parts else s.duration }

theorem Place.segment_of_uri {p : Place} (r : Rendition) (h : p.uri.isEmpty = false) :
    p.segment r = ((Timeline.start r).run p.before).nextSegment p.uri := by
  rw [Place.segment, h]
  rfl

/-- At the end there may be one more segment than the URIs make. -/
theorem filledPlaces_eq (ds : List Directive) :
    filledPlaces ds =
      filledUris ds ++ if endsInParts ds && Place.hasNumber ⟨ds, ""⟩ then [⟨ds, ""⟩] else [] := by
  rw [filledPlaces, places, List.filter_append, filledUris]
  cases endsInParts ds with
  | false => rfl
  | true => cases hnumber : Place.hasNumber ⟨ds, ""⟩ <;> simp [hnumber]

/-- In front of a place at the end stand all those that there were. -/
theorem take_filledUris_append {ds : List Directive} {uri : String}
    (ih : ∀ {i p}, (filledUris ds)[i]? = some p → (filledUris ds).take i = filledUris p.before)
    {i : Nat} {p : Place} (h : (filledUris ds ++ [Place.mk ds uri])[i]? = some p) :
    (filledUris ds ++ [Place.mk ds uri]).take i = filledUris p.before := by
  by_cases hi : i < (filledUris ds).length
  · rw [List.getElem?_append_left hi] at h
    rw [List.take_append_of_le_length hi.le, ih h]
  · obtain ⟨hlt, hp⟩ := List.getElem?_eq_some_iff.1 h
    obtain rfl : i = (filledUris ds).length := by
      rw [List.length_append, List.length_singleton] at hlt
      omega
    obtain rfl : Place.mk ds uri = p := by simpa using hp
    exact List.take_left

/-- In front of a place stand the places that are filled by the directives in front of it. -/
theorem take_filledUris {ds : List Directive} {i : Nat} {p : Place}
    (h : (filledUris ds)[i]? = some p) : (filledUris ds).take i = filledUris p.before := by
  induction ds using List.reverseRecOn generalizing i p with
  | nil => cases h
  | append_singleton ds d ih =>
    rcases filledUris_cases ds d with ⟨hsame, -⟩ | ⟨uri, -, -, hnew⟩
    · rw [hsame] at h ⊢
      exact ih h
    · rw [hnew] at h ⊢
      exact take_filledUris_append ih h

/-- In front of a place segments are made at those places that the directives in front of it have
themselves. -/
theorem take_filledPlaces {ds : List Directive} {i : Nat} {p : Place}
    (h : (filledPlaces ds)[i]? = some p) : (filledPlaces ds).take i = filledUris p.before := by
  rw [filledPlaces_eq] at h ⊢
  split at h
  · next hend =>
    rw [if_pos hend]
    exact take_filledUris_append take_filledUris h
  · next hend =>
    rw [if_neg hend, List.append_nil]
    exact take_filledUris (by simpa using h)

namespace Timeline

variable (r : Rendition) (ds : List Directive)

/-- A URI that gets a number makes a segment of the record in front of it, and nothing else makes
one. -/
theorem run_segments_eq : ((start r).run ds).segments = (filledUris ds).map (·.segment r) := by
  induction ds using List.reverseRecOn with
  | nil => rfl
  | append_singleton ds d ih =>
    rw [run_append_singleton, filledUris_append_singleton, List.map_append, ← ih]
    cases huri : d.segmentUri? with
    | none =>
      rw [(step_of_no_segment (run_sequence_le r ds) huri).1]
      simp
    | some uri =>
      rw [step_of_segmentUri huri]
      have hnumber : Place.hasNumber ⟨ds, uri⟩ =
          decide (((start r).run ds).sequence < Count.greatest) := by
        rw [run_sequence_eq]
        rfl
      have hsegment := Place.segment_of_uri (p := ⟨ds, uri⟩) r (Directive.eq_uri_of_segmentUri huri).1
      by_cases room : ((start r).run ds).sequence < Count.greatest
      · rw [emit_eq _ uri room]
        simp [hnumber, room, hsegment]
      · simp [emit, hnumber, room]

/-- The segments of a playlist are those that are made at the places that get a number, one for
one. -/
theorem assemble_segments : (assemble r ds).segments = (filledPlaces ds).map (·.segment r) := by
  change ((start r).run ds).close.segments = _
  rw [filledPlaces_eq, List.map_append, ← run_segments_eq, close, run_parts_isEmpty]
  have hnumber : Place.hasNumber ⟨ds, ""⟩ =
      !decide (((start r).run ds).sequence = Count.greatest) := by
    have hle := run_sequence_le r ds
    rw [run_sequence_eq] at hle ⊢
    simp only [Place.hasNumber, ← decide_not]
    exact decide_eq_decide.2 (by omega)
  rw [hnumber]
  cases endsInParts ds with
  | false => simp
  | true =>
    by_cases hlast : ((start r).run ds).sequence = Count.greatest
    · simp [hlast]
    · simp [hlast, push, Place.segment, nextSegment]

end Timeline

end AdaptiveHls
