import AdaptiveHls.Proofs.Timeline.Gap
import AdaptiveHls.Proofs.Timeline.LeftOut
import AdaptiveHls.Proofs.Tracker.Snapshots

/-!
# What a delta update leaves out

A delta update says how many segments it leaves out, and a load completes it from the snapshot
before. The segments that are taken over are those just in front of the first one that the update
lists. So the new snapshot has everything that was left out if the gaps stand in front of the
segments of the update and there is such a segment. Of a gap behind a segment nothing is kept, and
an update that lists no segment at all leaves an empty snapshot behind.
-/

namespace AdaptiveHls

namespace Tracker

variable {t : Tracker} {r r' : Rendition} {first : Nat}

/-- An update that can be completed finds its whole gap in the snapshot, once for each number. -/
theorem takenOver_sequences (hrising : ∀ l, t.segmentList? = some l → Rising l.segments)
    (hskipped : r.skipped ≠ 0) (hfirst : r.firstSequence? = some first)
    (h : t.completeDelta r = .ok r') :
    r.skipped ≤ first ∧
      (t.takenOver r).map (·.sequence) = List.range' (first - r.skipped) r.skipped := by
  simp only [completeDelta, if_neg hskipped] at h
  split at h
  · next previous delta hprevious hdelta =>
    have hdeltaFirst : delta.firstSequence? = some first := by
      simpa [Rendition.firstSequence?, hdelta] using hfirst
    have hcovers : previous.Covers first r.skipped := by
      by_contra hnot
      rw [SegmentList.restore_of_not_covers hdeltaFirst (hrising previous hprevious) hnot] at h
      cases h
    rw [takenOver, hprevious, hfirst]
    exact ⟨hcovers.1, SegmentList.within_sequences (hrising previous hprevious) hcovers⟩
  · cases h

/-- The numbers in a completed rendition are those of its gap and its own. -/
theorem mem_completeDelta (h : t.completeDelta r = .ok r') (n : Nat) :
    (∃ s ∈ r'.segments, s.sequence = n) ↔
      n ∈ (t.takenOver r).map (·.sequence) ∨ ∃ s ∈ r.segments, s.sequence = n := by
  have hnumbers := sequences_eq_of_untimed (completeDelta_segments h)
  rw [← List.mem_map, hnumbers, List.map_append, List.mem_append, List.mem_map (l := r.segments)]

/-- The timeline of which a snapshot is made. -/
def timeline (t : Tracker) : Timeline := .start (.ofUrl t.descriptor.playlistUrl)

theorem timeline_sound (t : Tracker) : t.timeline.Sound := Timeline.start_sound _

theorem readSnapshot_made {data : List UInt8} (h : t.readSnapshot data = .ok r) :
    r.segments = t.timeline.made (Playlist.directivesOf data) ∧
      r.firstSequence? = (t.timeline.made (Playlist.directivesOf data)).head?.map (·.sequence) ∧
      r.skipped = min (leftOutCount (Playlist.directivesOf data)) Count.greatest := by
  rw [readSnapshot_eq_ok h]
  exact ⟨rfl, rfl, Timeline.assemble_skipped _ rfl _⟩

/-- What is taken over is as much as the update leaves out, with the numbers just below its first. As
that one is below the bound, the count of what is left out has not been cut. -/
theorem takenOver_leftOut {data : List UInt8} {head : Segment}
    (hrising : ∀ l, t.segmentList? = some l → Rising l.segments)
    (hleft : t.timeline.leftOut (Playlist.directivesOf data) ≠ [])
    (hhead : (t.timeline.made (Playlist.directivesOf data)).head? = some head)
    (hr : t.readSnapshot data = .ok r) (h : t.completeDelta r = .ok r') :
    leftOutCount (Playlist.directivesOf data) ≤ head.sequence ∧
      (t.takenOver r).map (·.sequence) =
        List.range' (head.sequence - leftOutCount (Playlist.directivesOf data))
          (leftOutCount (Playlist.directivesOf data)) := by
  obtain ⟨_, hfirst, hskipped⟩ := readSnapshot_made hr
  have hcount : 0 < leftOutCount (Playlist.directivesOf data) := by
    rw [← t.timeline.leftOut_length]
    exact List.length_pos_of_ne_nil hleft
  have hsome : r.skipped ≠ 0 := by
    rw [hskipped, Count.greatest]
    omega
  rw [hhead, Option.map_some] at hfirst
  obtain ⟨hroom, htaken⟩ := takenOver_sequences hrising hsome hfirst h
  have hlt : head.sequence < Count.greatest :=
    (Timeline.made_sound t.timeline_sound _ head (List.mem_of_head? hhead)).sequence_lt
  have hall : r.skipped = leftOutCount (Playlist.directivesOf data) := by omega
  rw [hall] at hroom htaken
  exact ⟨hroom, htaken⟩

/-- What an update leaves out is in the new snapshot exactly if it is left out in front of all its
segments, of which there are some. -/
theorem leftOut_kept_iff {data : List UInt8}
    (hrising : ∀ l, t.segmentList? = some l → Rising l.segments)
    (hstart : (Playlist.directivesOf data).Pairwise fun a b =>
      b.isRestart = true → a.isCounted = false)
    (hleft : t.timeline.leftOut (Playlist.directivesOf data) ≠ [])
    (hr : t.readSnapshot data = .ok r) (h : t.completeDelta r = .ok r') :
    (∀ n ∈ t.timeline.leftOut (Playlist.directivesOf data), ∃ s ∈ r'.segments, s.sequence = n) ↔
      GapsInFront (Playlist.directivesOf data) ∧
        t.timeline.made (Playlist.directivesOf data) ≠ [] := by
  have hsegments := (readSnapshot_made hr).1
  simp only [mem_completeDelta h, hsegments]
  cases hhead : (t.timeline.made (Playlist.directivesOf data)).head? with
  | none =>
    have hnil := List.head?_eq_none_iff.1 hhead
    rw [takenOver_eq_nil (hsegments.trans hnil), hnil]
    obtain ⟨n, hn⟩ := List.exists_mem_of_ne_nil _ hleft
    exact iff_of_false (fun hall => by simpa using hall n hn) fun hmade => hmade.2 rfl
  | some head =>
    obtain ⟨hown, hbelow, hrange⟩ :=
      Timeline.leftOut_spec t.timeline_sound rfl hstart hhead
    obtain ⟨hroom, htaken⟩ := takenOver_leftOut hrising hleft hhead hr h
    have hmade : t.timeline.made (Playlist.directivesOf data) ≠ [] :=
      List.ne_nil_of_mem (List.mem_of_head? hhead)
    rw [and_iff_left hmade]
    constructor
    · intro hall
      refine hbelow.1 fun n hn => ?_
      rcases hall n hn with htake | ⟨s, hs, rfl⟩
      · rw [htaken, List.mem_range'_1] at htake
        omega
      · exact absurd hn (hown s hs)
    · intro hfront n hn
      rw [(hrange hfront).2, ← htaken] at hn
      exact .inl hn

/-! ## The window behind a merge -/

/-- Whatever data a tracker reads, either the load fails and the snapshot stays, or a new snapshot
comes. If the data leave something out, all of that is in the new snapshot exactly if nothing is left
out behind the URI of a segment, and there is a segment at all. -/
theorem window_kept_iff (t : Tracker) (now : Nat) (data : List UInt8) :
    ((t.conclude now (.ok data)).1 ≠ .ok () →
      (t.conclude now (.ok data)).2.snapshot = t.snapshot) ∧
    ((t.conclude now (.ok data)).1 = .ok () →
      let directives := Playlist.directivesOf data
      let left := t.timeline.leftOut directives
      ∃ r, (t.conclude now (.ok data)).2.snapshot = some r ∧
        (left ≠ [] → (∀ l ∈ t.segmentList?, Rising l.segments) →
          (directives.Pairwise fun a b => b.isRestart = true → a.isCounted = false) →
          ((∀ n ∈ left, ∃ s ∈ r.segments, s.sequence = n) ↔
            GapsInFront directives ∧ t.timeline.made directives ≠ []))) := by
  rcases t.conclude_cases now (.ok data) with ⟨e, he, hu⟩ | ⟨_, r, complete, hdata, hr, hc, heq⟩
  · rw [he]
    exact ⟨fun _ => hu.snapshot, fun hok => (nomatch hok)⟩
  · cases hdata
    rw [heq]
    refine ⟨fun hne => absurd rfl hne, fun _ => ⟨complete, rfl, fun hleft hrising hstart => ?_⟩⟩
    exact leftOut_kept_iff hrising hstart hleft hr hc

def threeSegments : Tracker :=
  let t : Tracker := { descriptor := .ofUrl { scheme := "https", path := .segments ["live.m3u8"] } }
  (t.conclude 0 (.ok "#EXTM3U\n#EXT-X-MEDIA-SEQUENCE:10\na\nb\nc\n".toUTF8.toList)).2

/-- An update that begins with `number`, leaves out so many segments and goes on with `rest`. -/
def updateBody (number skipped rest : String) : List UInt8 :=
  let body := "#EXTM3U\n#EXT-X-MEDIA-SEQUENCE:" ++ number ++
    "\n#EXT-X-SKIP:SKIPPED-SEGMENTS=" ++ skipped ++ "\n" ++ rest
  body.toUTF8.toList

/-- An update that leaves out two segments in front of one that it brings keeps both. -/
theorem window_kept_of_front :
    let t := threeSegments
    let data := updateBody "11" "2" "d\n"
    (t.conclude 0 (.ok data)).1 = .ok () ∧
      t.timeline.leftOut (Playlist.directivesOf data) = [11, 12] ∧
      ∃ r, (t.conclude 0 (.ok data)).2.snapshot = some r ∧
        ∀ n ∈ [11, 12], ∃ s ∈ r.segments, s.sequence = n := by
  intro t data
  obtain ⟨hok, hleft, hrising, hstart, hfront, hmade⟩ :
      (t.conclude 0 (.ok data)).1 = .ok () ∧
      t.timeline.leftOut (Playlist.directivesOf data) = [11, 12] ∧
      (∀ l ∈ t.segmentList?, Rising l.segments) ∧
      ((Playlist.directivesOf data).Pairwise fun a b => b.isRestart = true → a.isCounted = false) ∧
      GapsInFront (Playlist.directivesOf data) ∧
      t.timeline.made (Playlist.directivesOf data) ≠ [] := by
    decide +kernel
  obtain ⟨r, hr, hkept⟩ := (window_kept_iff t 0 data).2 hok
  have hsome : t.timeline.leftOut (Playlist.directivesOf data) ≠ [] := by rw [hleft]; decide
  refine ⟨hok, hleft, r, hr, ?_⟩
  rw [← hleft]
  exact (hkept hsome hrising hstart).2 ⟨hfront, hmade⟩

/-- An update that leaves out the whole window and lists nothing behind it takes the window away. -/
theorem window_kept_of_nothing :
    let t := threeSegments
    let data := updateBody "10" "3" ""
    t.segmentList?.map (fun l => l.segments.map (·.sequence)) = some [10, 11, 12] ∧
      (t.conclude 0 (.ok data)).1 = .ok () ∧
      t.timeline.leftOut (Playlist.directivesOf data) = [10, 11, 12] ∧
      (t.conclude 0 (.ok data)).2.snapshot.map (·.segments) = some [] := by
  decide +kernel

end Tracker

end AdaptiveHls
