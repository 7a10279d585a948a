import AdaptiveHls.Playlist.Master
import AdaptiveHls.Proofs.Text.Pieces
import AdaptiveHls.Proofs.Text.Utf8
import Mathlib.Data.List.Forall2
import Mathlib.Data.List.Induction
import Mathlib.Data.String.Basic

/-!
# The sets of a master playlist

Alternatives are gathered one at a time, in the order of their URIs, and an alternative whose URI is
there already is left out. So what is gathered in the end is, for each URI, the first alternative
that has it. From that and from the streams one rendition each is made or none, and nothing else is
in the sets.
-/

namespace AdaptiveHls

def Attributes.uriText? (a : Attributes) : Option String := (a.get? "URI").map (·.text)

def Directive.attributes? (kind : ListKind) : Directive → Option Attributes
  | .list k a => if k = kind then some a else none
  | _ => none

namespace Master

/-! ## What an alternative tells -/

/-- The kind of the rendition for an alternative of a type, or of none. -/
inductive TypeTells : Option String → StreamKind → Prop
  | audio : TypeTells (some "AUDIO") .audio
  | video : TypeTells (some "VIDEO") .video
  | subtitles : TypeTells (some "SUBTITLES") .subtitle
  | other {type : Option String} (notAudio : type ≠ some "AUDIO") (notVideo : type ≠ some "VIDEO")
    (notSubtitles : type ≠ some "SUBTITLES") : TypeTells type .mixed

/-- A text that may stand for a language: one to three bytes. -/
def IsShort (s : String) : Prop := s ≠ "" ∧ s.utf8ByteSize ≤ 3

/-- The part of a tag in front of its first hyphen. -/
def IsPrimary (tag primary : String) : Prop :=
  '-' ∉ primary.toList ∧ ∃ rest : String, tag.toList = primary.toList ++ '-' :: rest.toList

/-- The language that a tag tells: the part in front of its first hyphen if that is short, else the
whole of it if that is, else none. -/
inductive TagTells (tag : String) : Option String → Prop
  | primary {primary : String} (front : IsPrimary tag primary) (short : IsShort primary) :
    TagTells tag (some primary)
  | whole (noPrimary : ∀ primary, IsPrimary tag primary → ¬ IsShort primary)
    (short : IsShort tag) : TagTells tag (some tag)
  | nothing (noPrimary : ∀ primary, IsPrimary tag primary → ¬ IsShort primary)
    (long : ¬ IsShort tag) : TagTells tag none

def firstAt? (alternatives : List Attributes) (uri : String) : Option Attributes :=
  alternatives.find? fun a => a.uriText? == some uri

def resolves (base : Url) (uri : String) : Bool := (base.join uri).toOption.isSome

/-- Whether a stream has a URI that is not that of an alternative and that resolves. -/
def isOwn (alternatives : List Attributes) (base : Url) (a : Attributes) : Bool :=
  match a.get? "URI" with
  | some uri => !alternatives.any (fun m => m.uriText? == some uri.raw) && resolves base uri.raw
  | none => false

/-- What a master playlist knows of a stream: where it is, and what its attributes say. -/
structure IsStream (alternatives : List Attributes) (base : Url) (a : Attributes)
    (r : Rendition) : Prop where
  url : ∃ uri, a.get? "URI" = some uri ∧ base.join uri.raw = .ok r.playlistUrl
  variant : r.variant = { readVariant a with
    kind := refinedKind a (readVariant a).kind (alternatives.filter fun m => (m.get? "URI").isNone) }
  nothingElse : r = { Rendition.ofUrl r.playlistUrl with variant := r.variant }

/-- What a master playlist knows of an alternative: where it is, and what its attributes say. -/
structure IsAlternative (base : Url) (uri : String) (a : Attributes) (r : Rendition) : Prop where
  url : base.join uri = .ok r.playlistUrl
  kind : TypeTells ((a.get? "TYPE").map (·.raw)) r.variant.kind
  language : match a.get? "LANGUAGE" with
    | some tag => TagTells (Text.trim tag.text) r.variant.language
    | none => r.variant.language = none
  groupId : r.variant.groupId = (a.get? "GROUP-ID").map (·.text)
  name : r.variant.name = (a.get? "NAME").map (·.text)
  others : r.variant = { readVariant a with
    kind := r.variant.kind
    language := r.variant.language
    groupId := r.variant.groupId
    name := r.variant.name }
  nothingElse : r = { Rendition.ofUrl r.playlistUrl with variant := r.variant }

theorem typeTells (type : Option Value) : TypeTells (type.map (·.raw)) (kindOfType type) := by
  rw [kindOfType]
  split
  · next h => exact h ▸ .audio
  · next h => exact h ▸ .video
  · next h => exact h ▸ .subtitles
  · next hAudio hVideo hSubtitles => exact .other hAudio hVideo hSubtitles

/-- Where the part in front of a hyphen does not count, the whole tag does, if it is short. -/
theorem tagTells_unbroken {tag : String}
    (noPrimary : ∀ primary, IsPrimary tag primary → ¬ IsShort primary) :
    TagTells tag (if tag.utf8ByteSize ≤ 3 && !tag.isEmpty then some tag else none) := by
  split
  · next h =>
    apply TagTells.whole noPrimary
    simpa [IsShort, and_comm] using h
  · next h =>
    apply TagTells.nothing noPrimary
    simpa [IsShort, and_comm] using h

/-- The language that is read is the one that the tag tells. -/
theorem tagTells (tag : String) : TagTells (Text.trim tag) (language? tag) := by
  rw [language?]
  cases hcut : Text.cut? (· == '-') (Text.trim tag) with
  | none =>
    refine tagTells_unbroken fun primary hprimary => ?_
    obtain ⟨hfirst, rest, htag⟩ := hprimary
    rw [Text.cut?_eq_some_iff.2 ⟨htag, hfirst⟩] at hcut
    cases hcut
  | some parts =>
    obtain ⟨front, back⟩ := parts
    obtain ⟨htag, hfirst⟩ := Text.cut?_eq_some_iff.1 hcut
    dsimp only
    split
    · next h =>
      apply TagTells.primary ⟨hfirst, back, htag⟩
      simpa [IsShort] using h
    · next h =>
      refine tagTells_unbroken fun primary hprimary hshort => ?_
      obtain ⟨hfirst', rest, htag'⟩ := hprimary
      rw [Text.cut?_eq_some_iff.2 ⟨htag', hfirst'⟩] at hcut
      obtain ⟨rfl, -⟩ : primary = front ∧ rest = back := by simpa using hcut
      exact h (by simpa [IsShort] using hshort)

theorem languageTells (tag? : Option Value) : match tag? with
    | some tag => TagTells (Text.trim tag.text) (tag?.bind fun tag => language? tag.text)
    | none => (tag?.bind fun tag => language? tag.text) = none := by
  cases tag? with
  | some tag => simpa only [Option.bind_some] using tagTells tag.text
  | none => rfl

/-! ## The first alternative with a URI -/

variable {known : List (String × Attributes)} {uri : String} {a : Attributes}
  {g : String × Attributes}

def Ordered (known : List (String × Attributes)) : Prop := known.Pairwise fun g h => g.1 < h.1

/-- A URI that is there already keeps its alternative; another one comes in. -/
theorem mem_insertGroup (h : Ordered known) (uri : String) (a : Attributes) :
    g ∈ insertGroup uri a known ↔ g ∈ known ∨ g = (uri, a) ∧ ∀ b, (uri, b) ∉ known := by
  induction known with
  | nil => simp [insertGroup]
  | cons first rest ih =>
    obtain ⟨hfirst, hrest⟩ := List.pairwise_cons.1 h
    rw [insertGroup]
    split_ifs with hlt heq
    · have hnone : ∀ b, (uri, b) ∉ first :: rest := by
        intro b hb
        rcases List.mem_cons.1 hb with rfl | hb
        · exact lt_irrefl _ hlt
        · exact lt_asymm hlt (hfirst _ hb)
      rw [and_iff_left hnone, List.mem_cons, or_comm]
    · have hsome : ∃ b, (uri, b) ∈ first :: rest :=
        ⟨first.2, by rw [eq_of_beq heq]; exact List.mem_cons_self⟩
      rw [or_iff_left]
      rintro ⟨-, hnone⟩
      exact hsome.elim hnone
    · have hne : ∀ b, (uri, b) ≠ first := by
        rintro b rfl
        exact heq (beq_self_eq_true _)
      rw [List.mem_cons, ih hrest]
      simp only [List.mem_cons, hne, false_or, or_assoc]

/-- An alternative is put in its place by its URI. -/
theorem insertGroup_ordered (h : Ordered known) (uri : String) (a : Attributes) :
    Ordered (insertGroup uri a known) := by
  induction known with
  | nil => exact List.pairwise_singleton _ _
  | cons first rest ih =>
    obtain ⟨hfirst, hrest⟩ := List.pairwise_cons.1 h
    rw [insertGroup]
    split_ifs with hlt heq
    · refine List.pairwise_cons.2 ⟨fun g hg => ?_, h⟩
      rcases List.mem_cons.1 hg with rfl | hg
      · exact hlt
      · exact lt_trans hlt (hfirst g hg)
    · exact h
    · refine List.pairwise_cons.2 ⟨fun g hg => ?_, ih hrest⟩
      rcases (mem_insertGroup hrest uri a).1 hg with hg | ⟨rfl, -⟩
      · exact hfirst g hg
      · exact lt_of_le_of_ne (not_lt.1 hlt) fun heq' => heq (beq_iff_eq.2 heq'.symm)

def gather (known : List (String × Attributes)) (a : Attributes) : List (String × Attributes) :=
  match a.get? "URI" with
  | some uri => insertGroup uri.text a known
  | none => known

theorem mediaAttributes_eq (directives : List Directive) :
    mediaAttributes directives = directives.filterMap (·.attributes? .media) := by
  apply List.filterMap_congr
  intro d _
  cases d with
  | list kind a => cases kind <;> rfl
  | single | inf => rfl

theorem streamAttributes_eq (directives : List Directive) :
    streamAttributes directives = directives.filterMap (·.attributes? .streamInf) := by
  apply List.filterMap_congr
  intro d _
  cases d with
  | list kind a => cases kind <;> rfl
  | single | inf => rfl

theorem groups_eq (directives : List Directive) :
    groups directives = (mediaAttributes directives).foldl gather [] := rfl

theorem firstAt?_append_singleton_eq_some_iff (alternatives : List Attributes) (a b : Attributes)
    (uri : String) : firstAt? (alternatives ++ [a]) uri = some b ↔
      firstAt? alternatives uri = some b ∨
        firstAt? alternatives uri = none ∧ a.uriText? = some uri ∧ a = b := by
  simp [firstAt?, List.find?_append, Option.or_eq_some_iff]

/-- What is gathered is, for each URI, the first alternative that has it. -/
theorem gathered (alternatives : List Attributes) :
    Ordered (alternatives.foldl gather []) ∧
      ∀ g, g ∈ alternatives.foldl gather [] ↔ firstAt? alternatives g.1 = some g.2 := by
  induction alternatives using List.reverseRecOn with
  | nil => exact ⟨.nil, by simp [firstAt?]⟩
  | append_singleton alternatives a ih =>
    obtain ⟨hordered, hmem⟩ := ih
    simp only [List.foldl_append, List.foldl_cons, List.foldl_nil, gather,
      firstAt?_append_singleton_eq_some_iff, Attributes.uriText?]
    cases huri : a.get? "URI" with
    | none => exact ⟨hordered, fun g => by simp [hmem]⟩
    | some uri =>
      refine ⟨insertGroup_ordered hordered _ _, fun g => ?_⟩
      have hnone : (∀ b, (uri.text, b) ∉ alternatives.foldl gather []) ↔
          firstAt? alternatives uri.text = none := by
        simp only [hmem]
        exact Option.eq_none_iff_forall_ne_some.symm
      rw [mem_insertGroup hordered, hmem, hnone]
      refine or_congr_right ⟨?_, ?_⟩
      · rintro ⟨rfl, hnew⟩
        exact ⟨hnew, rfl, rfl⟩
      · rintro ⟨hnew, hat, rfl⟩
        have hat : uri.text = g.1 := Option.some.inj hat
        exact ⟨Prod.ext hat.symm rfl, hat ▸ hnew⟩

/-- There is a first alternative with a URI exactly if there is any. -/
theorem exists_firstAt?_iff {alternatives : List Attributes} {uri : String} :
    (∃ b, firstAt? alternatives uri = some b) ↔ ∃ m ∈ alternatives, m.uriText? = some uri := by
  rw [← Option.isSome_iff_exists, firstAt?, List.find?_isSome]
  simp

/-- The URIs that are known are those of the alternatives. -/
theorem any_groups (directives : List Directive) (uri : String) :
    (groups directives).any (·.1 == uri) =
      (mediaAttributes directives).any fun m => m.uriText? == some uri := by
  have hmem := (gathered (mediaAttributes directives)).2
  rw [Bool.eq_iff_iff]
  calc (groups directives).any (·.1 == uri) = true
      ↔ ∃ b, (uri, b) ∈ groups directives := by simp
    _ ↔ ∃ b, firstAt? (mediaAttributes directives) uri = some b := by simp only [groups_eq, hmem]
    _ ↔ ∃ m ∈ mediaAttributes directives, m.uriText? = some uri := exists_firstAt?_iff
    _ ↔ ((mediaAttributes directives).any fun m => m.uriText? == some uri) = true := by simp

/-! ## Renditions -/

/-- What `f` makes of the elements that it makes something of, in their order. -/
theorem forall₂_filterMap {α β : Type} {p : α → Bool} {f : α → Option β} {R : α → β → Prop}
    {l : List α} (made : ∀ a ∈ l, p a = true → ∃ b, f a = some b ∧ R a b)
    (dropped : ∀ a ∈ l, p a = false → f a = none) :
    List.Forall₂ R (l.filter p) (l.filterMap f) := by
  induction l with
  | nil => exact .nil
  | cons a l ih =>
    have hrest := ih (fun b hb => made b (List.mem_cons_of_mem _ hb))
      (fun b hb => dropped b (List.mem_cons_of_mem _ hb))
    cases hp : p a with
    | true =>
      obtain ⟨b, hb, hR⟩ := made a List.mem_cons_self hp
      rw [List.filter_cons_of_pos hp, List.filterMap_cons_some hb]
      exact .cons hR hrest
    | false =>
      rw [List.filter_cons_of_neg (by simp [hp]),
        List.filterMap_cons_none (dropped a List.mem_cons_self hp)]
      exact hrest

theorem resolves_iff {base : Url} {uri : String} :
    resolves base uri = true ↔ ∃ url, base.join uri = .ok url := by
  unfold resolves
  cases base.join uri <;> simp [Except.toOption]

theorem rendition?_of_ok (a : Attributes) {uri : String} {base url : Url}
    (h : base.join uri = .ok url) :
    rendition? a uri base = some { Rendition.ofUrl url with variant := readVariant a } := by
  rw [rendition?, h]

theorem rendition?_eq_none (a : Attributes) {uri : String} {base : Url}
    (h : resolves base uri = false) : rendition? a uri base = none := by
  unfold rendition?
  cases hjoin : base.join uri with
  | ok url => simp [resolves_iff.2 ⟨url, hjoin⟩] at h
  | error e => rfl

/-- A stream of its own has a rendition, of which its attributes say all. -/
theorem stream?_of_isOwn (directives : List Directive) (base : Url) {a : Attributes}
    (h : isOwn (mediaAttributes directives) base a = true) :
    ∃ r, stream? (groups directives) (withoutUri directives) base a = some r ∧
      IsStream (mediaAttributes directives) base a r := by
  unfold isOwn at h
  split at h
  · next uri huri =>
    obtain ⟨hnew, hresolves⟩ := Bool.and_eq_true_iff.1 h
    obtain ⟨url, hurl⟩ := resolves_iff.1 hresolves
    have hnone : (groups directives).any (·.1 == uri.raw) = false := by
      rw [any_groups]
      simpa only [Bool.not_eq_true'] using hnew
    have hr : stream? (groups directives) (withoutUri directives) base a =
        some { Rendition.ofUrl url with variant := { readVariant a with
          kind := refinedKind a (readVariant a).kind (withoutUri directives) } } := by
      simp [stream?, huri, hnone, rendition?_of_ok a hurl]
    exact ⟨_, hr, ⟨uri, huri, hurl⟩, rfl, rfl⟩
  · cases h

/-- A stream without a URI, with that of an alternative, or with one that does not resolve has no
rendition. -/
theorem stream?_of_not_isOwn (directives : List Directive) (base : Url) {a : Attributes}
    (h : isOwn (mediaAttributes directives) base a = false) :
    stream? (groups directives) (withoutUri directives) base a = none := by
  unfold isOwn at h
  cases huri : a.get? "URI" with
  | none => simp [stream?, huri]
  | some uri =>
    rw [huri] at h
    rcases Bool.and_eq_false_iff.1 h with hknown | hresolves
    · have hsome : (groups directives).any (·.1 == uri.raw) = true := by
        rw [any_groups]
        simpa only [Bool.not_eq_false'] using hknown
      simp [stream?, huri, hsome]
    · simp [stream?, huri, rendition?_eq_none a hresolves]

/-- An alternative has a rendition if its URI resolves. -/
theorem alternative?_of_resolves {base : Url} (h : resolves base g.1 = true) :
    ∃ r, alternative? base g = some r ∧ IsAlternative base g.1 g.2 r := by
  obtain ⟨url, hurl⟩ := resolves_iff.1 h
  obtain ⟨v, hv⟩ : ∃ v : Variant, v = { readVariant g.2 with
      kind := kindOfType (g.2.get? "TYPE")
      language := (g.2.get? "LANGUAGE").bind fun tag => language? tag.text
      groupId := (g.2.get? "GROUP-ID").map (·.text)
      name := (g.2.get? "NAME").map (·.text) } := ⟨_, rfl⟩
  have hr : alternative? base g = some { Rendition.ofUrl url with variant := v } := by
    rw [alternative?, rendition?_of_ok g.2 hurl, hv]
    rfl
  refine ⟨_, hr, ?_⟩
  constructor
  · exact hurl
  · rw [hv]
    exact typeTells (g.2.get? "TYPE")
  · have hlanguage : v.language = (g.2.get? "LANGUAGE").bind fun tag => language? tag.text := by
      rw [hv]
    have htells := languageTells (g.2.get? "LANGUAGE")
    rw [← hlanguage] at htells
    exact htells
  · rw [hv]
  · rw [hv]
  · rw [hv]
  · rfl

theorem alternative?_eq_none {base : Url} (h : resolves base g.1 = false) :
    alternative? base g = none := by
  rw [alternative?, rendition?_eq_none _ h, Option.map_none]

/-- The streams with a URI of their own make one rendition each, and the others make none. -/
theorem forall₂_streams (directives : List Directive) (base : Url) :
    List.Forall₂ (IsStream (mediaAttributes directives) base)
      ((streamAttributes directives).filter (isOwn (mediaAttributes directives) base))
      ((streamAttributes directives).filterMap
        (stream? (groups directives) (withoutUri directives) base)) :=
  forall₂_filterMap (fun _ _ => stream?_of_isOwn directives base)
    (fun _ _ => stream?_of_not_isOwn directives base)

/-! ## All sets by their directives -/

/-- The sets are, in this order: one with a rendition for each stream that has a URI of its own that
resolves, in the order of the streams, if there is any; and one for each URI of an alternative that
resolves, in the order of the bytes, with a rendition for the first alternative that has it. -/
theorem sets_shape (directives : List Directive) (base : Url) :
    let media := directives.filterMap (·.attributes? .media)
    ∃ (streams : List Rendition) (uris : List String) (alternatives : List Rendition),
      sets directives base =
        (if streams.isEmpty then [] else [⟨streams⟩]) ++ alternatives.map (fun r => ⟨[r]⟩) ∧
      List.Forall₂ (IsStream media base)
        ((directives.filterMap (·.attributes? .streamInf)).filter (isOwn media base)) streams ∧
      uris.Pairwise (fun u v => Text.Utf8.encode u < Text.Utf8.encode v) ∧
      (∀ u, u ∈ uris ↔ (∃ m ∈ media, m.uriText? = some u) ∧ resolves base u = true) ∧
      List.Forall₂ (fun u r => ∃ first, firstAt? media u = some first ∧ IsAlternative base u first r)
        uris alternatives := by
  rw [← mediaAttributes_eq, ← streamAttributes_eq]
  obtain ⟨hordered, hmem⟩ := gathered (mediaAttributes directives)
  rw [← groups_eq] at hordered hmem
  let streams := (streamAttributes directives).filterMap
    (stream? (groups directives) (withoutUri directives) base)
  let found := (groups directives).filter fun g => resolves base g.1
  refine ⟨streams, found.map (·.1), (groups directives).filterMap (alternative? base),
    ?_, ?_, ?_, ?_, ?_⟩
  · simp only [sets]
    split <;> simp_all [streams]
  · exact forall₂_streams directives base
  · rw [List.pairwise_map]
    exact (hordered.filter _).imp Text.Utf8.encode_lt_encode
  · intro u
    rw [← exists_firstAt?_iff]
    simp only [found, List.mem_map, List.mem_filter, hmem]
    constructor
    · rintro ⟨g, ⟨hfirst, hresolves⟩, rfl⟩
      exact ⟨⟨g.2, hfirst⟩, hresolves⟩
    · rintro ⟨⟨b, hfirst⟩, hresolves⟩
      exact ⟨(u, b), ⟨hfirst, hresolves⟩, rfl⟩
  · rw [List.forall₂_map_left_iff]
    refine forall₂_filterMap (fun g hg h => ?_) (fun g _ h => alternative?_eq_none h)
    obtain ⟨r, hr, his⟩ := alternative?_of_resolves h
    exact ⟨r, hr, g.2, (hmem g).1 hg, his⟩

end Master

end AdaptiveHls
