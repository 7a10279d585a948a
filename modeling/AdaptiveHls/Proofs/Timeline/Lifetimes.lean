import AdaptiveHls.Proofs.Timeline.Places
import AdaptiveHls.Proofs.Timeline.Blocks

/-!
# How long a statement holds

What a segment takes from the directives in front of it has four lifetimes. Discontinuities are
counted, an initialization segment holds until the next one is named, a duration is for the next URI
line alone, and a stated moment is a clock that every segment moves on, until another moment is
stated. All four are found from the directives in front of the URI without the record, the clock from
the durations of the segments since it was set.
-/

namespace AdaptiveHls

def Directive.target? : Directive → Option Int
  | .single .targetDuration value =>
    some (Number.ticksOfSeconds (Float.ofNat (value.count?.getD 0)))
  | _ => none

/-- The duration of the next segment: the last one stated since the last line with a URI. -/
def statedDuration (directives : List Directive) : Option Int :=
  ((sinceUri directives).reverse.findSome? (·.duration?)).join

/-- The directives up to the last one that states a moment. -/
def untilDated (directives : List Directive) : List Directive :=
  directives.rdropWhile (·.date?.isNone)

/-- The clock in front of the next segment, if the segments so far are those: the moment that was
stated last, moved on by the segments that were made since. -/
def clock (directives : List Directive) (made : List Segment) : Option Int :=
  (directives.reverse.findSome? (·.date?)).map fun moment =>
    ((made.drop (filledUris (untilDated directives)).length).map (·.duration)).foldl Ticks.add
      moment

section Prefixes

variable {ds : List Directive} {d : Directive}

theorem clock_of_date {moment : Int} {made : List Segment} (h : d.date? = some moment)
    (hmade : made.length ≤ (filledUris (ds ++ [d])).length) :
    clock (ds ++ [d]) made = some moment := by
  have hlast : untilDated (ds ++ [d]) = ds ++ [d] :=
    List.rdropWhile_concat_neg _ _ _ (by simp [h])
  rw [clock, hlast, List.drop_eq_nil_of_le hmade, List.reverse_concat, List.findSome?_cons, h]
  rfl

theorem clock_of_no_date (made : List Segment) (h : d.date? = none) :
    clock (ds ++ [d]) made = clock ds made := by
  have hlast : untilDated (ds ++ [d]) = untilDated ds :=
    List.rdropWhile_concat_pos _ _ _ (by simp [h])
  rw [clock, hlast, List.reverse_concat, List.findSome?_cons, h, clock]

/-- A segment moves the clock on. -/
theorem clock_append_singleton (made : List Segment) (s : Segment)
    (h : (filledUris ds).length ≤ made.length) :
    clock ds (made ++ [s]) = (clock ds made).map (Ticks.add · s.duration) := by
  have hle : (filledUris (untilDated ds)).length ≤ made.length := by
    obtain ⟨more, hmore⟩ := List.rdropWhile_prefix (p := fun d : Directive => d.date?.isNone) ds
    have hprefix := (uriPlaces_prefix_append (untilDated ds) more).filter (·.hasNumber)
    rw [untilDated, hmore] at hprefix
    exact hprefix.length_le.trans h
  rw [clock, List.drop_append_of_le_length hle, clock, Option.map_map, List.map_append]
  simp [Function.comp_def]

end Prefixes

/-- What the directives in front of a place make of its segment, with the segments in front of that. -/
structure Place.Tells (p : Place) (r : Rendition) (earlier : List Segment) (s : Segment) : Prop where
  uri : s.uri = p.uri
  discontinuity : s.discontinuity = min (p.before.countP (·.isDiscontinuity)) Count.greatest
  /-- The count stops short in none but a list longer than the greatest number. -/
  discontinuity_eq : p.before.length ≤ Count.greatest →
    s.discontinuity = p.before.countP (·.isDiscontinuity)
  initSegment : s.initSegment = p.before.reverse.findSome? (·.initSegment?)
  duration : s.inProgress = false → s.duration = (statedDuration p.before).getD
    ((p.before.reverse.findSome? (·.target?)).getD r.targetDuration)
  utcTime : s.utcTime = clock p.before earlier

namespace Timeline

variable (r : Rendition) (ds : List Directive)

theorem step_targetDuration (t : Timeline) (d : Directive) :
    (t.step d).rendition.targetDuration = d.target?.getD t.rendition.targetDuration := by
  cases d with
  | single kind value =>
    cases kind with
    | uri =>
      simp only [step, stepSingle]
      split <;> simp [emit_rendition, Directive.target?]
    | programDateTime =>
      simp only [step, stepSingle]
      split <;> simp [Directive.target?]
    | _ => simp [step, stepSingle, setRendition, Directive.target?]
  | list kind a =>
    cases kind with
    | partInf | preloadHint =>
      simp only [step, stepList]
      split <;> simp [setRendition, Directive.target?]
    | _ => simp [step, stepList, addKey, addPart, setInit_eq, setRendition, Directive.target?]
  | inf a => simp [step, Directive.target?]

/-- The target duration is the one that was stated last. -/
theorem run_target :
    ((start r).run ds).rendition.targetDuration =
      (ds.reverse.findSome? (·.target?)).getD r.targetDuration := by
  have hlast : some ((start r).run ds).rendition.targetDuration =
      (ds.reverse.findSome? (·.target?)).or (some r.targetDuration) :=
    run_last (fun t => some t.rendition.targetDuration) (·.target?) (fun _ => True)
      (fun t d _ => by rw [step_targetDuration]; cases d.target? <;> rfl) fun _ _ => trivial
  cases htarget : ds.reverse.findSome? (·.target?) with
  | none => rw [htarget] at hlast; exact Option.some.inj hlast
  | some target => rw [htarget] at hlast; exact Option.some.inj hlast

/-- The clock is the last moment stated, moved on by the segments behind it. -/
theorem run_clock : ((start r).run ds).utcTime = clock ds ((start r).run ds).segments := by
  induction ds using List.reverseRecOn with
  | nil => rfl
  | append_singleton ds d ih =>
    have hlength (ds : List Directive) :
        ((start r).run ds).segments.length = (filledUris ds).length := by
      rw [run_segments_eq, List.length_map]
    rcases filledUris_cases ds d with ⟨hsame, hnone⟩ | ⟨uri, huri, room, hnew⟩
    · have hstep := step_of_no_room (t := (start r).run ds) (d := d) (by rwa [run_sequence_eq])
      cases hdate : d.date? with
      | none =>
        rw [clock_of_no_date _ hdate, run_append_singleton, hstep, hdate]
        exact ih
      | some moment =>
        rw [clock_of_date hdate (hlength _).le, run_append_singleton, hstep, hdate]
        rfl
    · have hdate : d.date? = none := by
        rw [(Directive.eq_uri_of_segmentUri huri).2]
        rfl
      rw [clock_of_no_date _ hdate, run_append_singleton, step_of_segmentUri huri,
        emit_eq _ uri (by rwa [run_sequence_eq])]
      simp only
      rw [clock_append_singleton _ _ (hlength ds).ge, ih]

/-- What is made in front of a segment is what the directives in front of its place make. -/
theorem take_assemble_segments {i : Nat} {p : Place} (h : (filledPlaces ds)[i]? = some p) :
    (assemble r ds).segments.take i = ((start r).run p.before).segments := by
  rw [assemble_segments, ← List.map_take, take_filledPlaces h, run_segments_eq]

/-- Each segment has what the directives in front of its place tell, and nothing else has a say in
it. -/
theorem assemble_tells {i : Nat} {s : Segment} (h : (assemble r ds).segments[i]? = some s) :
    ∃ p, (filledPlaces ds)[i]? = some p ∧ p.Tells r ((assemble r ds).segments.take i) s := by
  rw [assemble_segments, List.getElem?_map, Option.map_eq_some_iff] at h
  obtain ⟨p, hp, rfl⟩ := h
  refine ⟨p, hp, ?_⟩
  rw [take_assemble_segments r ds hp]
  have hcount : ((start r).run p.before).discontinuity =
      min (p.before.countP (·.isDiscontinuity)) Count.greatest := by
    rw [run_discontinuity (Nat.zero_le _)]
    exact congrArg (min · _) (Nat.zero_add _)
  constructor
  · rfl
  · exact hcount
  · intro hlength
    exact hcount.trans (Nat.min_eq_left (List.countP_le_length.trans hlength))
  · change ((start r).run p.before).initSegment = _
    rw [run_initSegment]
    exact Option.or_none
  · intro huri
    rw [Place.segment_of_uri r huri, ← run_target, statedDuration, ← run_duration_since r]
    rfl
  · exact run_clock r p.before

/-- Three segments. The first states its duration and the moment it begins, a target duration is
known behind it, and what is stated in front of the empty URI is for no segment. -/
def fourLifetimes : List Directive :=
  [.list .map ⟨[⟨"URI", ⟨"init.mp4"⟩⟩]⟩, .single .discontinuity ⟨""⟩,
    .single .programDateTime ⟨"1970-01-01T00:00:01Z"⟩, .inf ⟨[⟨"DURATION", ⟨"1.5"⟩⟩]⟩,
    .single .uri ⟨"a"⟩, .single .targetDuration ⟨"2"⟩, .single .uri ⟨"b"⟩,
    .inf ⟨[⟨"DURATION", ⟨"9"⟩⟩]⟩, .single .uri ⟨""⟩, .single .discontinuity ⟨""⟩,
    .single .uri ⟨"c"⟩]

/-- What each of the four attributes comes to for the third segment. -/
theorem assemble_tells_of_fourLifetimes :
    let segments := (assemble (.ofUrl { scheme := "https", path := .segments ["live.m3u8"] })
      fourLifetimes).segments
    let third : Segment :=
      { sequence := 2
        startTime := 3500000
        duration := 2000000
        utcTime := some 4500000
        uri := "c"
        discontinuity := 2
        initSegment := some { uri := "init.mp4", byteRange := none } }
    segments[2]? = some third ∧
      Place.Tells ⟨fourLifetimes.dropLast, "c"⟩
        (.ofUrl { scheme := "https", path := .segments ["live.m3u8"] }) (segments.take 2) third := by
  intro segments third
  have hthird : segments[2]? = some third := by decide +kernel
  have hplace : (filledPlaces fourLifetimes)[2]? = some ⟨fourLifetimes.dropLast, "c"⟩ := by
    decide +kernel
  obtain ⟨p, hp, htells⟩ := assemble_tells _ fourLifetimes hthird
  obtain rfl := Option.some.inj (hp.symm.trans hplace)
  exact ⟨hthird, htells⟩

end Timeline

end AdaptiveHls
