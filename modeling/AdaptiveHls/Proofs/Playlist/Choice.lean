import AdaptiveHls.Command.Report
import AdaptiveHls.Proofs.Playlist.Ignored
import AdaptiveHls.Proofs.Playlist.Sets

/-!
# The variant to follow

The choice is made in the first set. If a stream of a master playlist has a URI of its own, the
first set holds such streams and nothing else, so one of them is chosen: the widest within the
bound, or the narrowest of all if none is within it. A stream that shares its URI with an
alternative is not looked at, whatever its bandwidth.
-/

namespace AdaptiveHls

def Attributes.bandwidth (a : Attributes) : Nat :=
  ((a.get? "BANDWIDTH").bind (·.count?)).getD 0

namespace Report

/-! ## The best of a list -/

section Best

variable {α β : Type}

def within (most : Option Nat) (bandwidth : Nat) : Bool := most.all (bandwidth ≤ ·)

/-- In the list and the widest within the bound, or the narrowest of all if none is within it. -/
def IsBest (bandwidth : α → Nat) (most : Option Nat) (l : List α) (a : α) : Prop :=
  a ∈ l ∧
    ((within most (bandwidth a) = true ∧
        ∀ b ∈ l, within most (bandwidth b) = true → bandwidth b ≤ bandwidth a) ∨
      ((∀ b ∈ l, within most (bandwidth b) = false) ∧ ∀ b ∈ l, bandwidth a ≤ bandwidth b))

instance [DecidableEq α] (bandwidth : α → Nat) (most : Option Nat) (l : List α) (a : α) :
    Decidable (IsBest bandwidth most l a) :=
  inferInstanceAs (Decidable (_ ∧ _))

/-- A fold that keeps one of the two it compares ends with one that is as good as any. At its end it
has the best of all others to compare with, so the induction is from there. -/
theorem exists_foldl_best (asGood : α → α → Prop) {step : Option α → α → Option α}
    (refl : ∀ a, asGood a a) (trans : ∀ {a b c}, asGood a b → asGood b c → asGood a c)
    (first : ∀ a, step none a = some a)
    (next : ∀ a b, step (some b) a = some a ∧ asGood a b ∨ step (some b) a = some b ∧ asGood b a)
    {l : List α} (h : l ≠ []) :
    ∃ best ∈ l, l.foldl step none = some best ∧ ∀ a ∈ l, asGood best a := by
  induction l using List.reverseRecOn with
  | nil => exact absurd rfl h
  | append_singleton l a ih =>
    rw [List.foldl_append, List.foldl_cons, List.foldl_nil]
    rcases eq_or_ne l [] with rfl | hl
    · exact ⟨a, by simp, first a, by simp [refl]⟩
    obtain ⟨best, hmem, hfold, hbest⟩ := ih hl
    rw [hfold]
    rcases next a best with ⟨hstep, hgood⟩ | ⟨hstep, hgood⟩
    · refine ⟨a, by simp, hstep, fun b hb => ?_⟩
      rcases List.mem_append.1 hb with hb | hb
      · exact trans hgood (hbest b hb)
      · exact List.mem_singleton.1 hb ▸ refl a
    · refine ⟨best, by simp [hmem], hstep, fun b hb => ?_⟩
      rcases List.mem_append.1 hb with hb | hb
      · exact hbest b hb
      · exact List.mem_singleton.1 hb ▸ hgood

variable {R : α → β → Prop} {l : List α} {l' : List β} {b : β}

theorem ne_nil_of_forall₂ (h : List.Forall₂ R l l') (hl : l ≠ []) : l' ≠ [] := by
  rintro rfl
  exact hl (List.forall₂_nil_right_iff.1 h)

theorem exists_left_of_forall₂ (h : List.Forall₂ R l l') (hb : b ∈ l') : ∃ a ∈ l, R a b := by
  induction h with
  | nil => cases hb
  | cons hR hrest ih =>
    rcases List.mem_cons.1 hb with rfl | hb
    · exact ⟨_, List.mem_cons_self, hR⟩
    · obtain ⟨a, ha, hR⟩ := ih hb
      exact ⟨a, List.mem_cons_of_mem _ ha, hR⟩

/-- Where each thing is made of one with the same bandwidth, the best is made of a best one. -/
theorem IsBest.of_forall₂ {bandwidth' : β → Nat} {most : Option Nat}
    (best : IsBest bandwidth' most l' b) (bandwidth : α → Nat) (h : List.Forall₂ R l l')
    (same : ∀ a b, R a b → bandwidth' b = bandwidth a) :
    ∃ a, R a b ∧ IsBest bandwidth most l a := by
  have hall : ∀ P : Nat → Prop, (∀ b ∈ l', P (bandwidth' b)) → ∀ a ∈ l, P (bandwidth a) := by
    intro P hP a ha
    obtain ⟨b, hb, hR⟩ := exists_left_of_forall₂ (R := flip R) h.flip ha
    exact same a b hR ▸ hP b hb
  obtain ⟨hmem, hbest⟩ := best
  obtain ⟨a, ha, hR⟩ := exists_left_of_forall₂ h hmem
  rw [same a b hR] at hbest
  refine ⟨a, hR, ha, hbest.imp ?_ ?_⟩
  · rintro ⟨hfits, hwidest⟩
    exact ⟨hfits, hall (fun n => within most n = true → n ≤ bandwidth a) hwidest⟩
  · rintro ⟨hnone, hnarrowest⟩
    exact ⟨hall (fun n => within most n = false) hnone, hall (fun n => bandwidth a ≤ n) hnarrowest⟩

end Best

/-! ## The choice in the first set -/

variable {l : List Rendition}

/-- The widest of some renditions is one of them, and none is wider. -/
theorem widest?_spec (h : l ≠ []) :
    ∃ r ∈ l, widest? l = some r ∧ ∀ s ∈ l, s.variant.bandwidth ≤ r.variant.bandwidth := by
  refine exists_foldl_best (fun r s => s.variant.bandwidth ≤ r.variant.bandwidth)
    (fun _ => le_rfl) (fun hab hbc => hbc.trans hab) ?first ?next h
  case first => exact fun _ => rfl
  case next =>
    intro r b
    by_cases hle : b.variant.bandwidth ≤ r.variant.bandwidth
    · exact .inl ⟨if_pos hle, hle⟩
    · exact .inr ⟨if_neg hle, (not_le.1 hle).le⟩

/-- The narrowest of some renditions is one of them, and none is narrower. -/
theorem narrowest?_spec (h : l ≠ []) :
    ∃ r ∈ l, narrowest? l = some r ∧ ∀ s ∈ l, r.variant.bandwidth ≤ s.variant.bandwidth := by
  refine exists_foldl_best (fun r s => r.variant.bandwidth ≤ s.variant.bandwidth)
    (fun _ => le_rfl) le_trans ?first ?next h
  case first => exact fun _ => rfl
  case next =>
    intro r b
    by_cases hlt : r.variant.bandwidth < b.variant.bandwidth
    · exact .inl ⟨if_pos hlt, hlt.le⟩
    · exact .inr ⟨if_neg hlt, not_lt.1 hlt⟩

/-- A variant is chosen if there is one, and no other is better. -/
theorem chooseVariant_spec {p : Playlist} (h : variants p ≠ []) (most : Option Nat) :
    ∃ r, chooseVariant p most = some r ∧
      IsBest (fun r : Rendition => r.variant.bandwidth) most (variants p) r := by
  let fits (r : Rendition) : Bool := within most r.variant.bandwidth
  have hchoice : chooseVariant p most =
      (widest? ((variants p).filter fits) <|> narrowest? (variants p)) := rfl
  rcases eq_or_ne ((variants p).filter fits) [] with hnone | hsome
  · obtain ⟨r, hr, hnarrowest, hbest⟩ := narrowest?_spec h
    refine ⟨r, by rw [hchoice, hnone, hnarrowest]; rfl, hr, .inr ⟨fun s hs => ?_, hbest⟩⟩
    simpa [fits] using List.filter_eq_nil_iff.1 hnone s hs
  · obtain ⟨r, hr, hwidest, hbest⟩ := widest?_spec hsome
    obtain ⟨hr, hfits⟩ := List.mem_filter.1 hr
    exact ⟨r, by rw [hchoice, hwidest]; rfl, hr,
      .inl ⟨hfits, fun s hs hs' => hbest s (List.mem_filter.2 ⟨hs, hs'⟩)⟩⟩

/-! ## The streams of a master playlist -/

def resolvedStreams (url : Url) (directives : List Directive) : List Attributes :=
  (Master.streamAttributes directives).filter fun a =>
    (a.get? "URI").any fun uri => Master.resolves url uri.raw

/-- The streams whose URI resolves and is not that of an alternative. -/
def ownStreams (url : Url) (directives : List Directive) : List Attributes :=
  (Master.streamAttributes directives).filter
    (Master.isOwn (Master.mediaAttributes directives) url)

/-- What is chosen is where the URI of a stream leads that is best among some streams. -/
def ChoosesFrom (streams : List Attributes) (url : Url) (p : Playlist) (most : Option Nat) : Prop :=
  ∃ r, chooseVariant p most = some r ∧
    ∃ a, IsBest Attributes.bandwidth most streams a ∧
      ∃ uri, a.get? "URI" = some uri ∧ url.join uri.raw = .ok r.playlistUrl

variable {url : Url} {directives : List Directive}

/-- With a stream of its own a master playlist has those in the first set. -/
theorem variants_master (h : ownStreams url directives ≠ []) :
    List.Forall₂ (Master.IsStream (Master.mediaAttributes directives) url)
      (ownStreams url directives) (variants (Playlist.master url directives)) := by
  have hmade := Master.forall₂_streams directives url
  have hsome := List.isEmpty_eq_false_iff.2 (ne_nil_of_forall₂ hmade h)
  have hfirst : variants (Playlist.master url directives) =
      (Master.streamAttributes directives).filterMap (Master.stream?
        (Master.groups directives) (Master.withoutUri directives) url) := by
    simp [variants, Playlist.master, Master.sets, hsome]
  rw [hfirst]
  exact hmade

variable {lines : List String} {p : Playlist}

theorem isHeader_of_ofLines (read : Playlist.ofLines url lines = .ok p) :
    Playlist.isHeader (lines.headD "") = true := by
  by_contra invalid
  rw [Playlist.ofLines, if_neg invalid] at read
  cases read

/-- Lines behind a header, with a stream of their own, make a master playlist. -/
theorem ofLines_of_own (valid : Playlist.isHeader (lines.headD "") = true)
    (own : ownStreams url (Entries.ofLines lines.tail) ≠ []) :
    Playlist.ofLines url lines = .ok (Playlist.master url (Entries.ofLines lines.tail)) := by
  obtain ⟨a, ha⟩ := List.exists_mem_of_ne_nil _ own
  have hstream : Directive.list .streamInf a ∈ Entries.ofLines lines.tail := by
    obtain ⟨d, hd, hda⟩ := List.mem_filterMap.1 (List.mem_filter.1 ha).1
    split at hda
    · exact Option.some.inj hda ▸ hd
    · cases hda
  rw [Playlist.ofLines, if_pos valid, Playlist.ofDirectives_of_streamInf url hstream]

/-! ## The variant that is chosen -/

/-- In a master playlist in which a stream has a URI of its own that resolves, the variant chosen
is the widest such stream within the bound, or the narrowest if none is within it. -/
theorem chooseVariant_own (url : Url) (lines : List String) (p : Playlist) (most : Option Nat)
    (read : Playlist.ofLines url lines = .ok p)
    (own : ownStreams url (Entries.ofLines lines.tail) ≠ []) :
    ChoosesFrom (ownStreams url (Entries.ofLines lines.tail)) url p most := by
  rw [ofLines_of_own (isHeader_of_ofLines read) own] at read
  obtain rfl := Except.ok.inj read
  have hmade := variants_master own
  obtain ⟨r, hr, hbest⟩ := chooseVariant_spec (ne_nil_of_forall₂ hmade own) most
  obtain ⟨b, hstream, hbest⟩ := hbest.of_forall₂ Attributes.bandwidth hmade
    fun _ _ hs => by rw [hs.variant]; rfl
  exact ⟨r, hr, b, hbest, hstream.url⟩

/-- Of two streams that are no alternatives, one is within the bound. -/
theorem chooseVariant_own_of_two :
    let url : Url := { scheme := "https", authority := some { host := .domain "example.com" },
                       path := .segments ["live", "master.m3u8"] }
    let lines := ["#EXTM3U", "#EXT-X-STREAM-INF:BANDWIDTH=1280000", "low.m3u8",
      "#EXT-X-STREAM-INF:BANDWIDTH=2560000", "high.m3u8"]
    ∃ p, Playlist.ofLines url lines = .ok p ∧ ownStreams url (Entries.ofLines lines.tail) ≠ [] ∧
      ChoosesFrom (ownStreams url (Entries.ofLines lines.tail)) url p (some 2000000) := by
  intro url lines
  have hvalid : Playlist.isHeader (lines.headD "") = true := by decide +kernel
  have hown : ownStreams url (Entries.ofLines lines.tail) ≠ [] := by decide +kernel
  have hread := ofLines_of_own hvalid hown
  exact ⟨_, hread, hown, chooseVariant_own url lines _ (some 2000000) hread hown⟩

/-- A stream within the bound that shares its URI with an alternative is passed over, and a stream
past the bound is chosen. -/
theorem chooseVariant_shared :
    let url : Url := { scheme := "https", authority := some { host := .domain "example.com" },
                       path := .segments ["live", "master.m3u8"] }
    let lines := ["#EXTM3U",
      "#EXT-X-MEDIA:TYPE=AUDIO,GROUP-ID=\"aud\",URI=\"play.m3u8?audio\"",
      "#EXT-X-STREAM-INF:BANDWIDTH=1280000", "play.m3u8?video",
      "#EXT-X-STREAM-INF:BANDWIDTH=64000", "play.m3u8?audio"]
    ∃ p, Playlist.ofLines url lines = .ok p ∧ p.isMaster = true ∧
      resolvedStreams url (Entries.ofLines lines.tail) ≠ [] ∧
      ¬ ChoosesFrom (resolvedStreams url (Entries.ofLines lines.tail)) url p (some 100000) := by
  intro url lines
  have hvalid : Playlist.isHeader (lines.headD "") = true := by decide +kernel
  have hown : ownStreams url (Entries.ofLines lines.tail) ≠ [] := by decide +kernel
  have hchosen : (chooseVariant (Playlist.master url (Entries.ofLines lines.tail))
      (some 100000)).bind (·.playlistUrl.query) = some "video" := by decide +kernel
  have hbetter : ∀ a ∈ resolvedStreams url (Entries.ofLines lines.tail),
      IsBest Attributes.bandwidth (some 100000)
        (resolvedStreams url (Entries.ofLines lines.tail)) a →
      a.get? "URI" = some ⟨"play.m3u8?audio"⟩ := by decide +kernel
  have hother : (url.join "play.m3u8?audio").toOption.bind (·.query) =
      some "audio" := by decide +kernel
  refine ⟨_, ofLines_of_own hvalid hown, rfl, by decide +kernel, ?_⟩
  rintro ⟨r, hr, a, hbest, uri, huri, hjoin⟩
  obtain rfl := Option.some.inj (huri.symm.trans (hbetter a hbest.1 hbest))
  have hsame : some "video" = some "audio" := by
    rw [← hchosen, hr, ← hother, hjoin]
    rfl
  simp at hsame

end Report

end AdaptiveHls
