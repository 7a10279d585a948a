import AdaptiveHls.Proofs.Playlist.Sets
import Mathlib.Data.List.Sort

/-!
# The order of the alternatives

Of a master playlist's alternatives the sets depend on two things: on the first one with each URI,
and on whether any without a URI refines the kind of a stream. The order in which they stand bears
on the first only, and only where two have the same URI. So a playlist whose alternatives have
different URIs may list them in any order and at any place.
-/

namespace AdaptiveHls

namespace Master

variable {directives directives' : List Directive} {alternatives alternatives' : List Attributes}
  {a : Attributes} {uri : String}

/-! ## The first alternative with a URI -/

/-- Of alternatives with different URIs each is the first with its own. -/
theorem firstAt?_eq_some_iff (distinct : (alternatives.filterMap (·.uriText?)).Nodup) :
    firstAt? alternatives uri = some a ↔ a ∈ alternatives ∧ a.uriText? = some uri := by
  induction alternatives with
  | nil => simp [firstAt?]
  | cons first rest ih =>
    rw [firstAt?, List.find?_cons, List.mem_cons]
    by_cases hfirst : first.uriText? = some uri
    · have hnone : ∀ b ∈ rest, b.uriText? ≠ some uri := by
        rw [List.filterMap_cons_some hfirst, List.nodup_cons] at distinct
        exact fun b hb hburi => distinct.1 (List.mem_filterMap.2 ⟨b, hb, hburi⟩)
      rw [hfirst, beq_self_eq_true]
      constructor
      · rintro ⟨⟩
        exact ⟨.inl rfl, hfirst⟩
      · rintro ⟨rfl | ha, hauri⟩
        · rfl
        · exact absurd hauri (hnone a ha)
    · have hrest := ih (distinct.sublist ((List.sublist_cons_self first rest).filterMap _))
      rw [beq_eq_false_iff_ne.2 hfirst]
      refine hrest.trans (and_congr_left fun hauri => ⟨.inr, ?_⟩)
      rintro (rfl | ha)
      · exact absurd hauri hfirst
      · exact ha

theorem firstAt?_of_perm (perm : alternatives.Perm alternatives')
    (distinct : (alternatives.filterMap (·.uriText?)).Nodup) (uri : String) :
    firstAt? alternatives uri = firstAt? alternatives' uri := by
  have distinct' : (alternatives'.filterMap (·.uriText?)).Nodup :=
    (perm.filterMap _).nodup_iff.1 distinct
  ext a
  rw [firstAt?_eq_some_iff distinct, firstAt?_eq_some_iff distinct', perm.mem_iff]

/-- What is gathered depends on the first alternative with each URI alone. -/
theorem groups_congr (first : ∀ uri, firstAt? (mediaAttributes directives) uri =
    firstAt? (mediaAttributes directives') uri) : groups directives = groups directives' := by
  obtain ⟨hordered, hmem⟩ := gathered (mediaAttributes directives)
  obtain ⟨hordered', hmem'⟩ := gathered (mediaAttributes directives')
  have : Std.Irrefl fun g h : String × Attributes => g.1 < h.1 := ⟨fun g => lt_irrefl g.1⟩
  have : Std.Antisymm fun g h : String × Attributes => g.1 < h.1 :=
    ⟨fun g h hgh hhg => absurd hgh (lt_asymm hhg)⟩
  refine hordered.eq_of_mem_iff hordered' fun g => ?_
  rw [groups_eq, hmem, hmem', first]

/-! ## The alternatives without a URI -/

theorem refinedKind_of_perm (perm : alternatives.Perm alternatives') (stream : Attributes)
    (kind : StreamKind) :
    refinedKind stream kind alternatives = refinedKind stream kind alternatives' := by
  unfold refinedKind
  rw [perm.any_eq]

theorem stream?_of_perm (perm : alternatives.Perm alternatives')
    (known : List (String × Attributes)) (base : Url) :
    stream? known alternatives base = stream? known alternatives' base := by
  funext a
  simp only [stream?, refinedKind_of_perm perm]

/-- The sets depend on the streams, on the first alternative with each URI, and on which
alternatives have no URI. -/
theorem sets_congr (streams : streamAttributes directives = streamAttributes directives')
    (first : ∀ uri, firstAt? (mediaAttributes directives) uri =
      firstAt? (mediaAttributes directives') uri)
    (withoutUris : (withoutUri directives).Perm (withoutUri directives')) (base : Url) :
    sets directives base = sets directives' base := by
  simp only [sets, groups_congr first, streams, stream?_of_perm withoutUris]

/-! ## All sets -/

/-- The order of the alternatives makes no difference if no two of them have the same URI. -/
theorem sets_of_perm (base : Url)
    (streams : streamAttributes directives = streamAttributes directives')
    (perm : (mediaAttributes directives).Perm (mediaAttributes directives'))
    (distinct : ((mediaAttributes directives).filterMap (·.uriText?)).Nodup) :
    sets directives base = sets directives' base :=
  sets_congr streams (firstAt?_of_perm perm distinct) (perm.filter _) base

/-- A stream takes its kind from an alternative without a URI, which stands behind it in one
playlist and in front of it in the other; the alternatives with a URI change places around it. -/
theorem sets_of_perm_around_stream :
    let base : Url := { scheme := "https", authority := some { host := .domain "example.com" },
                        path := .segments ["live", "master.m3u8"] }
    let stream : Directive := .list .streamInf
      ⟨[⟨"CODECS", ⟨"avc1.4d401e"⟩⟩, ⟨"AUDIO", ⟨"aud"⟩⟩, ⟨"URI", ⟨"video.m3u8"⟩⟩]⟩
    let plain : Directive := .list .media ⟨[⟨"TYPE", ⟨"AUDIO"⟩⟩, ⟨"GROUP-ID", ⟨"aud"⟩⟩]⟩
    let english : Directive := .list .media
      ⟨[⟨"TYPE", ⟨"AUDIO"⟩⟩, ⟨"GROUP-ID", ⟨"aud"⟩⟩, ⟨"URI", ⟨"en.m3u8"⟩⟩]⟩
    let german : Directive := .list .media
      ⟨[⟨"TYPE", ⟨"AUDIO"⟩⟩, ⟨"GROUP-ID", ⟨"aud"⟩⟩, ⟨"URI", ⟨"de.m3u8"⟩⟩]⟩
    let directives := [english, german, stream, plain]
    let directives' := [plain, german, stream, english]
    streamAttributes directives = streamAttributes directives' ∧
      (mediaAttributes directives).Perm (mediaAttributes directives') ∧
      ((mediaAttributes directives).filterMap (·.uriText?)).Nodup ∧
      sets directives base = sets directives' base := by
  intro base stream plain english german directives directives'
  have hstreams : streamAttributes directives = streamAttributes directives' := by decide +kernel
  have hperm : (mediaAttributes directives).Perm (mediaAttributes directives') := by decide +kernel
  have hdistinct : ((mediaAttributes directives).filterMap (·.uriText?)).Nodup := by decide +kernel
  exact ⟨hstreams, hperm, hdistinct, sets_of_perm base hstreams hperm hdistinct⟩

end Master

end AdaptiveHls
