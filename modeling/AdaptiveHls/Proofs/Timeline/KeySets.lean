import AdaptiveHls.Proofs.Timeline.Places

/-!
# Key sets

A key holds for all segments behind it until another set of keys takes its place. What makes a set is
that no segment is made between its keys: the URIs that make segments cut a playlist into stretches,
and the keys of one stretch belong together. The record does not cut anything. It marks a set as used
when a segment is made with it, and a key that finds the mark starts a new set.
-/

namespace AdaptiveHls

/-- The directives behind the newest segment. -/
def sinceSegment (directives : List Directive) : List Directive :=
  directives.drop (((filledUris directives).getLast?.map (·.before.length + 1)).getD 0)

/-- What stands between the URIs that make segments: each of them ends a stretch, and the last one
lies behind the newest segment. -/
def stretches (directives : List Directive) : List (List Directive) :=
  ((filledUris directives).map (·.before) ++ [directives]).map sinceSegment

def keysOf (directives : List Directive) : List Key := directives.filterMap (·.key?)

/-- The latest set that has a key, if there is one. -/
def latestSet (sets : List (List Key)) : List Key := (sets.reverse.find? (!·.isEmpty)).getD []

section Stretches

variable {ds : List Directive} {d : Directive}

/-- The newest stretch is the last of all. -/
theorem stretches_eq (ds : List Directive) :
    stretches ds = (filledUris ds).map (fun p => sinceSegment p.before) ++ [sinceSegment ds] := by
  rw [stretches, List.map_append, List.map_map]
  rfl

/-- A segment starts a new stretch. -/
theorem stretches_of_segment {uri : String}
    (h : filledUris (ds ++ [d]) = filledUris ds ++ [⟨ds, uri⟩]) :
    sinceSegment (ds ++ [d]) = [] ∧ stretches (ds ++ [d]) = stretches ds ++ [[]] := by
  have hsince : sinceSegment (ds ++ [d]) = [] := by simp [sinceSegment, h]
  exact ⟨hsince, by simp [stretches, h, hsince]⟩

/-- Whatever makes no segment goes into the newest stretch. -/
theorem stretches_of_no_segment (h : filledUris (ds ++ [d]) = filledUris ds) :
    sinceSegment (ds ++ [d]) = sinceSegment ds ++ [d] := by
  rw [sinceSegment, sinceSegment, h]
  refine List.drop_append_of_le_length ?_
  cases hlast : (filledUris ds).getLast? with
  | none => exact Nat.zero_le _
  | some p =>
    have hp := List.mem_of_mem_filter (List.mem_of_getLast? hlast)
    obtain ⟨-, after, rfl⟩ := uri_of_mem_uriPlaces ds hp
    simp

end Stretches

@[simp] theorem latestSet_append_singleton (sets : List (List Key)) (set : List Key) :
    latestSet (sets ++ [set]) = if set.isEmpty then latestSet sets else set := by
  rw [latestSet, List.reverse_concat]
  cases h : set.isEmpty <;> simp [latestSet, h]

namespace Timeline

variable {t : Timeline} {d : Directive} {ds : List Directive}

/-- How the keys stand behind directives: they are the latest set, which is open to more keys only if
it is that of the newest stretch. -/
structure Keyed (ds : List Directive) (t : Timeline) : Prop where
  keys : t.keys = latestSet ((stretches ds).map keysOf)
  keysUsed : t.keysUsed = (keysOf (sinceSegment ds)).isEmpty

/-- A set that is still open is that of the newest stretch. -/
theorem Keyed.open_keys (h : Keyed ds t) :
    (if t.keysUsed then [] else t.keys) = keysOf (sinceSegment ds) := by
  rw [h.keysUsed, h.keys, stretches_eq, List.map_append, List.map_singleton,
    latestSet_append_singleton]
  cases hnone : (keysOf (sinceSegment ds)).isEmpty with
  | true => exact (List.isEmpty_iff.1 hnone).symm
  | false => rfl

/-- A segment has the latest set, which has a key if no segment has used it yet: a key has opened
it. -/
theorem Keyed.of_segment {uri : String} (h : Keyed ds t) (huri : d.segmentUri? = some uri)
    (room : t.sequence < Count.greatest)
    (hnew : filledUris (ds ++ [d]) = filledUris ds ++ [⟨ds, uri⟩]) :
    Keyed (ds ++ [d]) (t.step d) := by
  obtain ⟨hsince, hstretches⟩ := stretches_of_segment hnew
  rw [step_of_segmentUri huri, emit_eq t uri room]
  constructor
  · rw [hstretches, List.map_append, List.map_singleton, latestSet_append_singleton]
    exact h.keys
  · rw [hsince]
    change (t.keysUsed || !t.keys.isEmpty) = true
    have hopen := h.open_keys
    have hused := h.keysUsed
    rw [← hopen] at hused
    cases hopened : t.keysUsed with
    | true => rfl
    | false => simpa [hopened] using hused

/-- Without a segment the stretch goes on, and a key may open a new set. -/
theorem Keyed.of_no_segment (h : Keyed ds t)
    (hnone : d.segmentUri?.isSome = true → ¬ t.sequence < Count.greatest)
    (hsame : filledUris (ds ++ [d]) = filledUris ds) : Keyed (ds ++ [d]) (t.step d) := by
  have hsince : keysOf (sinceSegment (ds ++ [d])) = keysOf (sinceSegment ds) ++ d.key?.toList := by
    rw [stretches_of_no_segment hsame, keysOf, List.filterMap_append]
    cases hkey : d.key? <;> simp [keysOf, hkey]
  rw [step_of_no_room hnone]
  constructor
  · simp only [h.open_keys, stretches_eq, hsame, List.map_append, List.map_singleton,
      latestSet_append_singleton, hsince]
    cases d.key? with
    | none => simp [h.keys, stretches_eq]
    | some key => simp
  · rw [hsince]
    cases hkey : d.key? <;> simp [h.keysUsed]

theorem keyed_run (r : Rendition) (ds : List Directive) : Keyed ds ((start r).run ds) := by
  induction ds using List.reverseRecOn with
  | nil => exact ⟨rfl, rfl⟩
  | append_singleton ds d ih =>
    rw [run_append_singleton]
    rcases filledUris_cases ds d with ⟨hsame, hnone⟩ | ⟨uri, huri, room, hnew⟩
    · exact ih.of_no_segment (by rwa [run_sequence_eq]) hsame
    · exact ih.of_segment huri (by rwa [run_sequence_eq]) hnew

/-- The keys of a segment are those of the latest stretch in front of it that has any, the one that
the segment ends included, and a segment in front of all keys has none. -/
theorem assemble_keys (r : Rendition) (ds : List Directive) :
    (assemble r ds).segments.map (·.keys) =
      (filledPlaces ds).map fun p => latestSet ((stretches p.before).map keysOf) := by
  rw [assemble_segments, List.map_map]
  exact List.map_congr_left fun p _ => (keyed_run r p.before).keys

end Timeline

end AdaptiveHls
