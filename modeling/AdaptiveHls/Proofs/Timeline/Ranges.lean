import AdaptiveHls.Proofs.Timeline.Parts

/-!
# Byte ranges that follow each other

A byte range without an offset begins where the nearest one in front of it that there is ends. The
record keeps that end and not the ranges, once for all segments and once for the parts of the next
one, and takes each up only where a range comes about. So both are found by the same rule from what is
stated, each by its own tags: those for segments behind the last URI line, those for parts in the
part tags themselves.
-/

namespace AdaptiveHls

/-- One past the end of the nearest range in front, or zero. -/
def ByteRange.endOf (earlier : List (Option ByteRange)) : Nat :=
  ((earlier.reverse.findSome? id).map (·.last + 1)).getD 0

/-- The range that is meant behind earlier ones. There is none without a byte, and none that ends
beyond the greatest offset. -/
def RangeSpec.locate? (earlier : List (Option ByteRange)) (spec : RangeSpec) : Option ByteRange :=
  let start := spec.offset.getD (ByteRange.endOf earlier)
  if spec.length = 0 ∨ Count.greatest < start + spec.length then none
  else some ⟨start, start + spec.length - 1⟩

/-- The ranges that are meant one behind the other, where something is stated for each or not. -/
def RangeSpec.locateAll (stated : List (Option RangeSpec)) : List (Option ByteRange) :=
  stated.foldl (fun earlier spec => earlier ++ [spec.bind (locate? earlier)]) []

namespace Directive

def partRange? : Directive → Option (Option RangeSpec)
  | .list .part a => some ((a.get? "BYTERANGE").bind (·.range?))
  | _ => none

def isByteRange : Directive → Bool
  | .single .byteRange _ => true
  | _ => false

variable {d : Directive}

theorem partRange?_of_not_part (h : d.isPart = false) : d.partRange? = none := by
  cases d with
  | list kind a =>
    cases kind with
    | part => cases h
    | _ => rfl
  | _ => rfl

theorem eq_of_isByteRange (h : d.isByteRange = true) : ∃ value, d = .single .byteRange value := by
  cases d with
  | single kind value =>
    cases kind with
    | byteRange => exact ⟨value, rfl⟩
    | _ => cases h
  | _ => cases h

end Directive

/-- What is stated of the bytes of the next segment: the last range since the last line with a
URI. -/
def statedRange (directives : List Directive) : Option RangeSpec :=
  ((sinceUri directives).reverse.findSome? (·.range?)).join

/-- What is stated of the bytes of the parts behind the last URI that is not empty. -/
def partRanges (directives : List Directive) : List (Option RangeSpec) :=
  (sinceDue directives).filterMap (·.partRange?)

namespace ByteRange

variable (earlier : List (Option ByteRange))

theorem endOf_append_singleton (o : Option ByteRange) :
    endOf (earlier ++ [o]) = (o.map (·.last + 1)).getD (endOf earlier) := by
  rw [endOf, List.reverse_concat, List.findSome?_cons]
  cases o <;> rfl

theorem ofLength?_eq_locate? (spec : RangeSpec) :
    ofLength? (spec.offset.getD (endOf earlier)) spec.length = spec.locate? earlier := by
  simp only [ofLength?, Count.add?, RangeSpec.locate?]
  by_cases hzero : spec.length = 0
  · simp [hzero]
  · by_cases hroom : spec.offset.getD (endOf earlier) + spec.length ≤ Count.greatest
    · rw [if_neg hzero, if_pos hroom, if_neg (by omega), Option.map_some]
    · rw [if_neg hzero, if_neg hroom, if_pos (by omega), Option.map_none]

/-- The end that goes on being kept is that of the nearest range, the new one if there is one. -/
theorem endOf_append_located (spec : Option RangeSpec) :
    ((spec.bind (RangeSpec.locate? earlier)).map (·.next)).getD (endOf earlier) =
      endOf (earlier ++ [spec.bind (RangeSpec.locate? earlier)]) := by
  rw [endOf_append_singleton]
  cases hr : spec.bind (RangeSpec.locate? earlier) with
  | none => rfl
  | some range =>
    obtain ⟨spec, rfl, hspec⟩ := Option.bind_eq_some_iff.1 hr
    rw [← ofLength?_eq_locate?, ofLength?_eq_some] at hspec
    obtain ⟨hpos, hroom, rfl⟩ := hspec
    exact Count.add_of_le (by simp only; omega)

end ByteRange

theorem RangeSpec.locateAll_append_singleton (stated : List (Option RangeSpec))
    (spec : Option RangeSpec) :
    locateAll (stated ++ [spec]) = locateAll stated ++ [spec.bind (locate? (locateAll stated))] := by
  rw [locateAll, List.foldl_append]
  rfl

section Prefixes

variable (ds : List Directive) (d : Directive)

theorem statedRange_append_singleton :
    statedRange (ds ++ [d]) = if d.isUri then none else d.range?.getD (statedRange ds) := by
  rw [statedRange, sinceUri_append_singleton]
  cases d.isUri with
  | true => rfl
  | false => cases hr : d.range? <;> simp [statedRange, hr]

theorem partRanges_append_singleton :
    partRanges (ds ++ [d]) =
      if d.segmentUri?.isNone then partRanges ds ++ d.partRange?.toList else [] := by
  rw [partRanges, sinceDue_append_singleton]
  split
  · rw [List.filterMap_append]
    cases hd : d.partRange? <;> simp [partRanges, hd]
  · rfl

end Prefixes

namespace Timeline

variable {t : Timeline} {d : Directive} (r : Rendition) (ds : List Directive)

/-- The ends that the record keeps are those of the nearest ranges. -/
structure Ranged (t : Timeline) : Prop where
  rangeEnd : t.rangeEnd = ByteRange.endOf (t.segments.map (·.byteRange))
  partRangeEnd : t.partRangeEnd = ByteRange.endOf (t.parts.map (·.byteRange))

theorem start_ranged : (start r).Ranged := ⟨rfl, rfl⟩

theorem takeRange_snd (t : Timeline) :
    t.takeRange.2 = (t.takeRange.1.map (·.next)).getD t.rangeEnd := by
  simp only [takeRange]
  split
  · rfl
  · split <;> rfl

theorem Ranged.takeRange_fst (h : t.Ranged) :
    t.takeRange.1 = t.range.bind (RangeSpec.locate? (t.segments.map (·.byteRange))) := by
  rw [takeRange, h.rangeEnd]
  cases t.range with
  | none => rfl
  | some spec =>
    simp only [ByteRange.ofLength?_eq_locate?, Option.bind_some]
    cases spec.locate? (t.segments.map (·.byteRange)) <;> rfl

theorem Ranged.emit (h : t.Ranged) (uri : String) : (t.emit uri).Ranged := by
  by_cases room : t.sequence < Count.greatest
  · rw [emit_eq t uri room]
    refine ⟨?_, rfl⟩
    simp only [List.map_append, List.map_singleton, nextSegment]
    rw [takeRange_snd, h.takeRange_fst, h.rangeEnd, ByteRange.endOf_append_located]
  · simp only [Timeline.emit, if_neg room]
    exact ⟨h.rangeEnd, rfl⟩

/-- The bytes of a new part follow those of the parts in front of it. -/
theorem Ranged.parts_addPart (h : t.Ranged) (a : Attributes) :
    (t.addPart a).parts.map (·.byteRange) =
      t.parts.map (·.byteRange) ++ [((a.get? "BYTERANGE").bind (·.range?)).bind
        (RangeSpec.locate? (t.parts.map (·.byteRange)))] := by
  simp only [addPart, List.map_append, List.map_singleton, h.partRangeEnd,
    ByteRange.ofLength?_eq_locate?]

theorem Ranged.addPart (h : t.Ranged) (a : Attributes) : (t.addPart a).Ranged := by
  refine ⟨h.rangeEnd, ?_⟩
  rw [h.parts_addPart a, ← ByteRange.endOf_append_located]
  simp only [Timeline.addPart, h.partRangeEnd, ByteRange.ofLength?_eq_locate?]

/-- The ends of the nearest ranges are kept with every directive. -/
theorem Ranged.step (h : t.Ranged) (d : Directive) : (t.step d).Ranged := by
  cases huri : d.segmentUri? with
  | some uri => rw [step_of_segmentUri huri]; exact h.emit uri
  | none =>
    cases hpart : d.isPart with
    | true =>
      obtain ⟨a, rfl⟩ := Directive.eq_part_of_isPart hpart
      exact h.addPart a
    | false =>
      have hsame := step_of_no_room (t := t) (d := d) (by simp [huri])
      obtain ⟨hsegments, hend⟩ :
          (t.step d).segments = t.segments ∧ (t.step d).rangeEnd = t.rangeEnd := by
        rw [hsame]
        exact ⟨rfl, rfl⟩
      obtain ⟨hparts, hpartEnd⟩ := step_parts_of_no_part (t := t) huri hpart
      exact ⟨by rw [hsegments, hend, h.rangeEnd], by rw [hparts, hpartEnd, h.partRangeEnd]⟩

theorem ranged_run : ((start r).run ds).Ranged := by
  induction ds using List.reverseRecOn with
  | nil => exact start_ranged r
  | append_singleton ds d ih => rw [run_append_singleton]; exact ih.step d

/-- The range of a segment is what is stated for it behind the ranges of those in front. -/
theorem byteRange_segment (uri : String) :
    (Place.segment ⟨ds, uri⟩ r).byteRange =
      (statedRange ds).bind
        (RangeSpec.locate? ((filledUris ds).map fun p => (p.segment r).byteRange)) := by
  change ((start r).run ds).takeRange.1 = _
  rw [(ranged_run r ds).takeRange_fst, run_range_since, run_segments_eq, List.map_map]
  rfl

theorem byteRanges_append (uri : String)
    (h : (filledUris ds).map (fun p => (p.segment r).byteRange) =
      RangeSpec.locateAll ((filledUris ds).map fun p => statedRange p.before)) :
    (filledUris ds ++ [Place.mk ds uri]).map (fun p => (p.segment r).byteRange) =
      RangeSpec.locateAll ((filledUris ds ++ [Place.mk ds uri]).map fun p =>
        statedRange p.before) := by
  rw [List.map_append, List.map_append, List.map_singleton, List.map_singleton,
    RangeSpec.locateAll_append_singleton, ← h, byteRange_segment]

/-- The ranges of the segments follow one from the other, by what is stated in front of each. -/
theorem byteRanges_filledUris :
    (filledUris ds).map (fun p => (p.segment r).byteRange) =
      RangeSpec.locateAll ((filledUris ds).map fun p => statedRange p.before) := by
  induction ds using List.reverseRecOn with
  | nil => rfl
  | append_singleton ds d ih =>
    rcases filledUris_cases ds d with ⟨hsame, -⟩ | ⟨uri, -, -, hnew⟩
    · rw [hsame, ih]
    · rw [hnew, byteRanges_append r ds uri ih]

theorem byteRanges_filledPlaces :
    (filledPlaces ds).map (fun p => (p.segment r).byteRange) =
      RangeSpec.locateAll ((filledPlaces ds).map fun p => statedRange p.before) := by
  rw [filledPlaces_eq]
  split
  · exact byteRanges_append r ds "" (byteRanges_filledUris r ds)
  · rw [List.append_nil, byteRanges_filledUris]

/-- The ranges of the parts do the same, from zero on in each segment. -/
theorem run_partRanges :
    ((start r).run ds).parts.map (·.byteRange) = RangeSpec.locateAll (partRanges ds) := by
  induction ds using List.reverseRecOn with
  | nil => rfl
  | append_singleton ds d ih =>
    rw [run_append_singleton, partRanges_append_singleton]
    cases huri : d.segmentUri? with
    | some uri => rw [step_of_segmentUri huri, (emit_numbers _ uri).2.2]; rfl
    | none =>
      rw [Option.isNone_none, if_pos rfl]
      cases hpart : d.isPart with
      | false =>
        rw [(step_parts_of_no_part huri hpart).1, Directive.partRange?_of_not_part hpart, ih,
          Option.toList_none, List.append_nil]
      | true =>
        obtain ⟨a, rfl⟩ := Directive.eq_part_of_isPart hpart
        change ((((start r).run ds).addPart a).parts).map _ = _
        rw [(ranged_run r ds).parts_addPart a, ih]
        exact (RangeSpec.locateAll_append_singleton _ _).symm

end Timeline

/-! ## Segments and parts apart from each other -/

/-- Two playlists differ in nothing but directives of one kind. -/
def AgreeBut (kind : Directive → Bool) : List Directive → List Directive → Prop :=
  List.Forall₂ fun d e => d = e ∨ kind d = true ∧ kind e = true

namespace AgreeBut

variable {kind : Directive → Bool} {ds es : List Directive}

/-- Along two such playlists one can go directive by directive. -/
theorem along {P : List Directive → List Directive → Prop} (nil : P [] [])
    (append_singleton : ∀ ds es d e, P ds es → (d = e ∨ kind d = true ∧ kind e = true) →
      P (ds ++ [d]) (es ++ [e]))
    (h : AgreeBut kind ds es) : P ds es := by
  have hreverse : AgreeBut kind ds.reverse es.reverse := List.forall₂_reverse_iff.2 h
  rw [← ds.reverse_reverse, ← es.reverse_reverse]
  generalize ds.reverse = xs, es.reverse = ys at hreverse
  induction hreverse with
  | nil => exact nil
  | cons hhead _ ih =>
    rw [List.reverse_cons, List.reverse_cons]
    exact append_singleton _ _ _ _ ih hhead

/-- If the directives of the kind are alike for the running number and for what is due where, the same
places are filled, and what is read in front of them is the same if one directive more makes no
difference to it. -/
theorem map_filledPlaces {β : Type} (g : List Directive → β)
    (alike : ∀ d e, kind d = true → kind e = true →
      d.restart? = e.restart? ∧ d.taken = e.taken ∧ d.segmentUri? = e.segmentUri? ∧
        d.isPart = e.isPart)
    (step : ∀ ds es d e, g ds = g es → (d = e ∨ kind d = true ∧ kind e = true) →
      g (ds ++ [d]) = g (es ++ [e]))
    (h : AgreeBut kind ds es) :
    (filledPlaces ds).map (fun p => g p.before) = (filledPlaces es).map (fun p => g p.before) := by
  obtain ⟨hnumber, hends, hg, huris⟩ := h.along (P := fun ds es =>
      runningNumber ds = runningNumber es ∧ endsInParts ds = endsInParts es ∧ g ds = g es ∧
        (filledUris ds).map (fun p => g p.before) = (filledUris es).map fun p => g p.before)
      ⟨rfl, rfl, rfl, rfl⟩ fun ds es d e ih hde => by
    obtain ⟨hnumber, hends, hg, huris⟩ := ih
    obtain ⟨hrestart, htaken, huri, hpart⟩ : d.restart? = e.restart? ∧ d.taken = e.taken ∧
        d.segmentUri? = e.segmentUri? ∧ d.isPart = e.isPart := by
      rcases hde with rfl | ⟨hd, he⟩
      · exact ⟨rfl, rfl, rfl, rfl⟩
      · exact alike d e hd he
    refine ⟨?_, ?_, step ds es d e hg hde, ?_⟩
    · rw [runningNumber_append_singleton, runningNumber_append_singleton, Directive.numberAfter,
        Directive.numberAfter, hrestart, htaken, hnumber]
    · rw [endsInParts_append_singleton, endsInParts_append_singleton, huri, hpart, hends]
    · rw [filledUris_append_singleton, filledUris_append_singleton, List.map_append,
        List.map_append, huris, huri]
      cases e.segmentUri? with
      | none => rfl
      | some uri =>
        have hsame : Place.hasNumber ⟨ds, uri⟩ = Place.hasNumber ⟨es, uri⟩ := by
          simp only [Place.hasNumber, hnumber]
        cases hn : Place.hasNumber ⟨es, uri⟩ <;> simp [hsame, hn, hg]
  have hsame : Place.hasNumber ⟨ds, ""⟩ = Place.hasNumber ⟨es, ""⟩ := by
    simp only [Place.hasNumber, hnumber]
  rw [filledPlaces_eq, filledPlaces_eq, List.map_append, List.map_append, huris, hends, hsame]
  split
  · rw [List.map_singleton, List.map_singleton, hg]
  · rfl

/-- Part tags have no say in what is stated for segments. -/
theorem map_statedRange (h : AgreeBut (·.isPart) ds es) :
    (filledPlaces ds).map (fun p => statedRange p.before) =
      (filledPlaces es).map fun p => statedRange p.before := by
  refine h.map_filledPlaces statedRange (fun d e hd he => ?_) fun ds es d e hg hde => ?_
  · obtain ⟨a, rfl⟩ := Directive.eq_part_of_isPart hd
    obtain ⟨b, rfl⟩ := Directive.eq_part_of_isPart he
    exact ⟨rfl, rfl, rfl, rfl⟩
  · rw [statedRange_append_singleton, statedRange_append_singleton, hg]
    rcases hde with rfl | ⟨hd, he⟩
    · rfl
    · obtain ⟨a, rfl⟩ := Directive.eq_part_of_isPart hd
      obtain ⟨b, rfl⟩ := Directive.eq_part_of_isPart he
      rfl

/-- The ranges of segments have no say in what is stated for parts. -/
theorem map_partRanges (h : AgreeBut (·.isByteRange) ds es) :
    (filledPlaces ds).map (fun p => partRanges p.before) =
      (filledPlaces es).map fun p => partRanges p.before := by
  refine h.map_filledPlaces partRanges (fun d e hd he => ?_) fun ds es d e hg hde => ?_
  · obtain ⟨v, rfl⟩ := Directive.eq_of_isByteRange hd
    obtain ⟨w, rfl⟩ := Directive.eq_of_isByteRange he
    exact ⟨rfl, rfl, rfl, rfl⟩
  · rw [partRanges_append_singleton, partRanges_append_singleton, hg]
    rcases hde with rfl | ⟨hd, he⟩
    · rfl
    · obtain ⟨v, rfl⟩ := Directive.eq_of_isByteRange hd
      obtain ⟨w, rfl⟩ := Directive.eq_of_isByteRange he
      rfl

end AgreeBut

namespace Timeline

variable (r : Rendition) (ds : List Directive)

/-- Segments and parts have the ranges that are meant by what is stated for them, each behind the
earlier ones of its own sort: segments behind all segments in front, parts behind the parts of the
same segment. So a part tag makes no difference to the range of a segment, and the range of a segment
none to those of parts. -/
theorem assemble_byteRanges :
    (assemble r ds).segments.map (·.byteRange) =
        RangeSpec.locateAll ((filledPlaces ds).map fun p => statedRange p.before) ∧
      (assemble r ds).segments.map (fun s => s.parts.map (·.byteRange)) =
        (filledPlaces ds).map (fun p => RangeSpec.locateAll (partRanges p.before)) ∧
      (∀ es, AgreeBut (·.isPart) ds es →
        (assemble r es).segments.map (·.byteRange) = (assemble r ds).segments.map (·.byteRange)) ∧
      ∀ es, AgreeBut (·.isByteRange) ds es →
        (assemble r es).segments.map (fun s => s.parts.map (·.byteRange)) =
          (assemble r ds).segments.map fun s => s.parts.map (·.byteRange) := by
  have hsegments (ds : List Directive) : (assemble r ds).segments.map (·.byteRange) =
      RangeSpec.locateAll ((filledPlaces ds).map fun p => statedRange p.before) := by
    rw [assemble_segments, List.map_map]
    exact byteRanges_filledPlaces r ds
  have hparts (ds : List Directive) :
      (assemble r ds).segments.map (fun s => s.parts.map (·.byteRange)) =
        (filledPlaces ds).map fun p => RangeSpec.locateAll (partRanges p.before) := by
    rw [assemble_segments, List.map_map]
    exact List.map_congr_left fun p _ => run_partRanges r p.before
  refine ⟨hsegments ds, hparts ds, fun es h => ?_, fun es h => ?_⟩
  · rw [hsegments, hsegments, h.map_statedRange]
  · have hsame := congrArg (List.map RangeSpec.locateAll) h.map_partRanges
    rw [List.map_map, List.map_map] at hsame
    rw [hparts, hparts]
    exact hsame.symm

/-- A segment with a range, one without, and one that follows the first, with a part of its own. -/
def followingRanges (part : Attributes) : List Directive :=
  [.single .byteRange ⟨"10@5"⟩, .single .uri ⟨"a"⟩, .single .uri ⟨"b"⟩,
    .single .byteRange ⟨"5"⟩, .list .part part, .single .uri ⟨"c"⟩]

theorem assemble_byteRanges_of_followingRanges :
    let r : Rendition := .ofUrl { scheme := "https", path := .segments ["live.m3u8"] }
    let ds := followingRanges ⟨[⟨"BYTERANGE", ⟨"3"⟩⟩]⟩
    let es := followingRanges ⟨[⟨"BYTERANGE", ⟨"7@100"⟩⟩]⟩
    AgreeBut (·.isPart) ds es ∧
      (assemble r es).segments.map (·.byteRange) = [some ⟨5, 14⟩, none, some ⟨15, 19⟩] ∧
      (assemble r ds).segments.map (fun s => s.parts.map (·.byteRange)) =
        [[], [], [some ⟨0, 2⟩]] := by
  intro r ds es
  have hagree : AgreeBut (·.isPart) ds es :=
    .cons (.inl rfl) (.cons (.inl rfl) (.cons (.inl rfl) (.cons (.inl rfl)
      (.cons (.inr ⟨rfl, rfl⟩) (.cons (.inl rfl) .nil)))))
  obtain ⟨hsegments, hparts, hsame, -⟩ := assemble_byteRanges r ds
  exact ⟨hagree, (hsame es hagree).trans (hsegments.trans (by decide +kernel)),
    hparts.trans (by decide +kernel)⟩

end Timeline

end AdaptiveHls
