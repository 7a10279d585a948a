import AdaptiveHls.Proofs.Timeline.Places

/-!
# The parts of segments

Parts are gathered until the URI of their segment comes, and the end of the playlist takes those that
are left. An empty URI does not take them, as no segment is due there. So, as long as there are
numbers for all segments that are due, each part tag is a part of one segment, the one that is due
next.
-/

namespace AdaptiveHls

/-- A part apart from its place among the others: without its index and without its bytes, which may
follow those of the part in front. -/
def Part.placeless (p : Part) : Part := { p with index := 0, byteRange := none }

/-- The part that a tag describes, apart from its place among the others. -/
def Directive.part? : Directive → Option Part
  | .list .part a => some
    { index := 0
      duration := (((a.get? "DURATION").bind (·.number?)).map Number.ticksOfSeconds).getD 0
      uri := ((a.get? "URI").map (·.text)).getD ""
      byteRange := none
      independent := ((a.get? "INDEPENDENT").map (·.isYes)).getD false }
  | _ => none

/-- The directives behind the last URI that is not empty. -/
def sinceDue (directives : List Directive) : List Directive :=
  directives.rtakeWhile (·.segmentUri?.isNone)

/-- The parts that are described behind the last URI that is not empty. -/
def gatheredParts (directives : List Directive) : List Part :=
  (sinceDue directives).filterMap (·.part?)

namespace Directive

variable {d : Directive}

theorem isSome_part? (d : Directive) : d.part?.isSome = d.isPart := by
  cases d with
  | list kind a => cases kind <;> rfl
  | _ => rfl

theorem eq_part_of_isPart (h : d.isPart = true) : ∃ a, d = .list .part a := by
  cases d with
  | list kind a =>
    cases kind with
    | part => exact ⟨a, rfl⟩
    | _ => cases h
  | _ => cases h

theorem part?_of_segmentUri {uri : String} (h : d.segmentUri? = some uri) : d.part? = none := by
  rw [(eq_uri_of_segmentUri h).2]
  rfl

end Directive

section Prefixes

variable (ds : List Directive) (d : Directive)

theorem sinceDue_append_singleton :
    sinceDue (ds ++ [d]) = if d.segmentUri?.isNone then sinceDue ds ++ [d] else [] :=
  List.rtakeWhile_concat ..

theorem gatheredParts_append_singleton :
    gatheredParts (ds ++ [d]) =
      if d.segmentUri?.isNone then gatheredParts ds ++ d.part?.toList else [] := by
  rw [gatheredParts, sinceDue_append_singleton]
  split
  · rw [List.filterMap_append]
    cases hd : d.part? <;> simp [gatheredParts, hd]
  · rfl

/-- There are parts behind the last URI exactly if some have been gathered. -/
theorem endsInParts_eq : endsInParts ds = !(gatheredParts ds).isEmpty := by
  rw [endsInParts, gatheredParts, sinceDue, Bool.eq_iff_iff]
  simp [List.filterMap_eq_nil_iff, ← Directive.isSome_part?, Option.isSome_iff_ne_none]

/-- What is gathered at the URIs, and behind the last of them, are all parts that are described. -/
theorem flatMap_gatheredParts_uriPlaces :
    (uriPlaces ds).flatMap (fun p => gatheredParts p.before) ++ gatheredParts ds =
      ds.filterMap (·.part?) := by
  induction ds using List.reverseRecOn with
  | nil => rfl
  | append_singleton ds d ih =>
    rw [uriPlaces_append_singleton, gatheredParts_append_singleton, List.filterMap_append, ← ih]
    cases huri : d.segmentUri? with
    | none => cases hd : d.part? <;> simp [hd]
    | some uri => simp [Directive.part?_of_segmentUri huri]

theorem flatMap_gatheredParts_places :
    (places ds).flatMap (fun p => gatheredParts p.before) = ds.filterMap (·.part?) := by
  rw [← flatMap_gatheredParts_uriPlaces, places, List.flatMap_append, endsInParts_eq]
  cases h : (gatheredParts ds).isEmpty with
  | false => simp
  | true => simp [List.isEmpty_iff.1 h]

/-- The only place without a URI is the one at the end. -/
theorem uri_isEmpty_of_mem_places {p : Place} (hp : p ∈ places ds) (huri : p.uri.isEmpty = true) :
    endsInParts ds = true ∧ (places ds).getLast? = some p := by
  rcases List.mem_append.1 hp with hmem | hend
  · rw [(uri_of_mem_uriPlaces ds hmem).1] at huri
    cases huri
  · cases hparts : endsInParts ds with
    | false => simp [hparts] at hend
    | true =>
      obtain rfl : p = ⟨ds, ""⟩ := by simpa [hparts] using hend
      simp [places, hparts]

end Prefixes

namespace Timeline

variable {t : Timeline} {d : Directive} (r : Rendition) (ds : List Directive)

/-- Without a segment being due, only a part tag bears on the parts. -/
theorem step_parts_of_no_part (hd : d.segmentUri? = none) (hpart : d.isPart = false) :
    (t.step d).parts = t.parts ∧ (t.step d).partRangeEnd = t.partRangeEnd := by
  cases d with
  | single kind value =>
    cases kind with
    | uri =>
      have hempty : value.isEmpty = true := by simpa [Directive.segmentUri?] using hd
      simp [step, stepSingle, hempty]
    | programDateTime =>
      simp only [step, stepSingle]
      split <;> simp
    | _ => simp [step, stepSingle, setRendition]
  | list kind a =>
    cases kind with
    | part => cases hpart
    | map => simp [step, stepList, setInit_eq]
    | partInf | preloadHint =>
      simp only [step, stepList]
      split <;> simp [setRendition]
    | _ => simp [step, stepList, addKey, setRendition]
  | inf a => simp [step]

/-- A part is added to those gathered, as its tag describes it. -/
theorem step_parts_placeless (hd : d.segmentUri? = none) :
    (t.step d).parts.map (·.placeless) = t.parts.map (·.placeless) ++ d.part?.toList := by
  cases hpart : d.isPart with
  | false =>
    have hnone : d.part? = none := by
      rw [← Option.not_isSome_iff_eq_none, Directive.isSome_part?, hpart]
      exact Bool.false_ne_true
    rw [(step_parts_of_no_part hd hpart).1, hnone, Option.toList_none, List.append_nil]
  | true =>
    obtain ⟨a, rfl⟩ := Directive.eq_part_of_isPart hpart
    simp [step, stepList, addPart, Part.placeless, Directive.part?]

/-- The parts that are gathered are those described since the last URI. -/
theorem run_parts_placeless :
    ((start r).run ds).parts.map (·.placeless) = gatheredParts ds := by
  induction ds using List.reverseRecOn with
  | nil => rfl
  | append_singleton ds d ih =>
    rw [run_append_singleton, gatheredParts_append_singleton]
    cases huri : d.segmentUri? with
    | none => rw [step_parts_placeless huri, ih]; rfl
    | some uri => rw [step_of_segmentUri huri, (emit_numbers _ uri).2.2]; rfl

/-- If there is a number for every segment that is due, each part tag is a part of the segment due
next behind it, the one without a URI if none has one; and that one is there only for such parts, at
the end, and lasts as long as they do together. -/
theorem assemble_parts (h : ∀ p ∈ places ds, p.hasNumber = true) :
    (assemble r ds).segments.map (fun s => (s.uri, s.parts.map (·.placeless))) =
        (places ds).map (fun p => (p.uri, gatheredParts p.before)) ∧
      ((assemble r ds).segments.flatMap (·.parts)).map (·.placeless) =
        ds.filterMap (·.part?) ∧
      (∀ s ∈ (assemble r ds).segments, s.indices = List.range s.parts.length) ∧
      ((∃ s ∈ (assemble r ds).segments, s.inProgress = true) ↔ endsInParts ds = true) ∧
      ∀ s ∈ (assemble r ds).segments, s.inProgress = true →
        (assemble r ds).segments.getLast? = some s ∧
          s.duration = (s.parts.map (·.duration)).foldl Ticks.add 0 := by
  have hfilled : filledPlaces ds = places ds := List.filter_eq_self.2 h
  have hparts (p : Place) : (p.segment r).parts.map (·.placeless) = gatheredParts p.before :=
    run_parts_placeless r p.before
  have hsegments := assemble_segments r ds
  rw [hfilled] at hsegments
  refine ⟨?_, ?_, fun s hs => (assemble_sound r ds s hs).indices, ⟨?_, ?_⟩, ?_⟩
  · rw [hsegments, List.map_map]
    exact List.map_congr_left fun p _ => congrArg (p.uri, ·) (hparts p)
  · rw [hsegments, List.map_flatMap, List.flatMap_map, ← flatMap_gatheredParts_places]
    exact List.flatMap_congr fun p _ => hparts p
  · rintro ⟨s, hs, hprogress⟩
    rw [hsegments] at hs
    obtain ⟨p, hp, rfl⟩ := List.mem_map.1 hs
    exact (uri_isEmpty_of_mem_places ds hp hprogress).1
  · intro hends
    refine ⟨Place.segment ⟨ds, ""⟩ r, ?_, rfl⟩
    rw [hsegments]
    exact List.mem_map_of_mem (by simp [places, hends])
  · intro s hs hprogress
    rw [hsegments] at hs ⊢
    obtain ⟨p, hp, rfl⟩ := List.mem_map.1 hs
    have huri : p.uri.isEmpty = true := hprogress
    rw [List.getLast?_map, (uri_isEmpty_of_mem_places ds hp huri).2]
    have hduration : (p.segment r).duration = Part.total (p.segment r).parts := by
      simp [Place.segment, huri, nextSegment]
    exact ⟨rfl, hduration⟩

def partTag (seconds uri : String) : Directive :=
  .list .part ⟨[⟨"DURATION", ⟨seconds⟩⟩, ⟨"URI", ⟨uri⟩⟩]⟩

/-- Two parts with an empty URI between them, their segment, and two parts that no URI follows. -/
def publishedInParts : List Directive :=
  [partTag "1.5" "0.0", .single .uri ⟨""⟩, partTag "0.5" "0.1", .single .uri ⟨"0.ts"⟩,
    partTag "1" "1.0", partTag "0.25" "1.1"]

/-- The time that a text in seconds gives; what it is in ticks is a matter of doubles. -/
def ticksOfText (seconds : String) : Int :=
  ((Value.number? ⟨seconds⟩).map Number.ticksOfSeconds).getD 0

/-- Two parts go to the segment behind them, and two to the one that is still being published. -/
theorem assemble_parts_of_publishedInParts :
    let segments := (assemble (.ofUrl { scheme := "https", path := .segments ["live.m3u8"] })
      publishedInParts).segments
    (∀ p ∈ places publishedInParts, p.hasNumber = true) ∧
      segments.map (fun s => (s.uri, s.parts.map (·.uri))) =
        [("0.ts", ["0.0", "0.1"]), ("", ["1.0", "1.1"])] ∧
      ∃ s ∈ segments, s.inProgress = true ∧
        s.duration = Ticks.add (Ticks.add 0 (ticksOfText "1")) (ticksOfText "0.25") := by
  have hnumber : ∀ p ∈ places publishedInParts, p.hasNumber = true := by decide +kernel
  have hparts := assemble_parts (.ofUrl { scheme := "https", path := .segments ["live.m3u8"] })
    publishedInParts hnumber
  obtain ⟨s, hs, hprogress⟩ := hparts.2.2.2.1.2 (by decide)
  obtain ⟨hlast, hduration⟩ := hparts.2.2.2.2 s hs hprogress
  have hdurations : s.parts.map (·.duration) = [ticksOfText "1", ticksOfText "0.25"] := by
    have hgathered : (places publishedInParts).getLast?.map (fun p =>
        (gatheredParts p.before).map (·.duration)) = some [ticksOfText "1", ticksOfText "0.25"] := rfl
    have hends := congrArg (fun gs => gs.getLast?.map fun g => g.2.map (·.duration)) hparts.1
    rw [List.getLast?_map, List.getLast?_map, hlast, Option.map_map] at hends
    simpa [Function.comp_def, Part.placeless] using hends.trans hgathered
  refine ⟨hnumber, ?_, s, hs, hprogress, by rw [hduration, hdurations]; rfl⟩
  have huris := congrArg (List.map fun g => (g.1, g.2.map (·.uri))) hparts.1
  rw [List.map_map, List.map_map] at huris
  simpa [Function.comp_def, Part.placeless] using huris.trans (by decide +kernel)

end Timeline

end AdaptiveHls
