import AdaptiveHls.Proofs.Playlist.Written
import AdaptiveHls.Proofs.Timeline.Agreement

/-!
# Delta updates against full playlists

A delta update is a playlist whose first blocks are replaced by one line that counts them. The
blocks behind that line are read without those in front of it, from a timeline that carries
nothing. Filling the gap from the older list gives the segments in the gap as they were; those
behind it come out right exactly if they resume without the gap.
-/

namespace AdaptiveHls

open Timeline

namespace Directive

def skipLine (n : Nat) : Directive := .list .skip ⟨[⟨"SKIPPED-SEGMENTS", ⟨toString n⟩⟩]⟩

/-- The line as it is written. -/
theorem read?_skip (n : Nat) :
    read? "EXT-X-SKIP" ("SKIPPED-SEGMENTS=" ++ toString n) = some (skipLine n) := by
  have hkind : SingleKind.ofName? "EXT-X-SKIP" = none := by decide
  have hlist : ListKind.ofName? "EXT-X-SKIP" = some .skip := by decide
  have hbody : "SKIPPED-SEGMENTS=" ++ toString n =
      String.ofList ("SKIPPED-SEGMENTS".toList ++ '=' :: Nat.toDigits 10 n) := by
    rw [← String.toList_inj]; simp
  have hread := Attributes.read_pair "SKIPPED-SEGMENTS".toList (Nat.toDigits 10 n)
    (by decide) (by simp [Text.isBlank]) fun c hc => by
      have hdigit := Number.isDigit_of_mem_toDigits hc
      refine ⟨?_, ?_, Number.isBlank_of_isDigit hdigit⟩
      · rintro rfl; exact absurd hdigit (by decide)
      · rintro rfl; exact absurd hdigit (by decide)
  simp only [read?, hkind, hlist, hbody, hread]
  rw [if_pos (by simp [ListKind.mandatory, Attributes.contains, Attributes.get?])]
  rfl

end Directive

open Directive (skipLine)

/-- A media playlist in full: lines about the playlist, then blocks. -/
def fullPlaylist (head : List Directive) (blocks : List Block) : List Directive :=
  head ++ blocks.flatMap (·.directives)

/-- The same playlist with one line in place of its first `n` blocks. -/
def deltaPlaylist (head : List Directive) (blocks : List Block) (n : Nat) : List Directive :=
  head ++ skipLine n :: (blocks.drop n).flatMap (·.directives)

/-- The segments that directives make, as a list of its own. -/
def Timeline.listOf (r : Rendition) (directives : List Directive) : SegmentList :=
  ⟨(assemble r directives).segments⟩

namespace Timeline

variable {t u : Timeline} {r : Rendition} {head : List Directive}

/-- A line about the playlist changes neither segments nor what is gathered for them. -/
theorem step_playlistTag {d : Directive} (h : d.isPlaylistTag) :
    t.step d = { t with rendition := (t.step d).rendition, sequence := (t.step d).sequence } := by
  cases d with
  | single kind value =>
    cases kind <;> simp [Directive.isPlaylistTag, Directive.isSegmentTag] at h <;>
      simp [step, stepSingle, setRendition]
  | list kind a =>
    cases kind <;> simp [Directive.isPlaylistTag, Directive.isSegmentTag] at h <;>
      simp [step, stepList, setRendition]
    all_goals split <;> rfl
  | inf a => simp [Directive.isPlaylistTag, Directive.isSegmentTag] at h

/-- The lines about the playlist as a whole leave all else as it is at the start. -/
theorem run_head (h : ∀ d ∈ head, d.isPlaylistTag) :
    t.run head = { t with rendition := (t.run head).rendition, sequence := (t.run head).sequence } := by
  induction head generalizing t with
  | nil => rfl
  | cons d rest ih =>
    rw [run_cons, ih fun e he => h e (List.mem_cons_of_mem _ he),
      step_playlistTag (h d List.mem_cons_self)]

/-- A line in place of blocks moves the running number on by as many. -/
theorem step_skipLine {n : Nat} (h : n ≤ Count.greatest) :
    t.step (skipLine n) =
      { t with
        sequence := Count.add t.sequence n
        rendition := { t.rendition with skipped := Count.add t.rendition.skipped n } } := by
  have hget : (⟨[⟨"SKIPPED-SEGMENTS", ⟨toString n⟩⟩]⟩ : Attributes).get? "SKIPPED-SEGMENTS" =
      some ⟨toString n⟩ := by simp [Attributes.get?]
  simp only [skipLine, step, stepList, hget, Option.bind_some, Value.count?_toString h,
    Option.getD_some]

/-- The timeline in front of the first block, before and after a line that skips blocks. -/
structure Opened (t : Timeline) : Prop where
  segments : t.segments = []
  startTime : t.startTime = 0
  rangeEnd : t.rangeEnd = 0
  carried : t.carried = {}
  fresh : t.Fresh

theorem opened_head (h : ∀ d ∈ head, d.isPlaylistTag) : ((start r).run head).Opened := by
  rw [run_head h]
  exact ⟨rfl, rfl, rfl, rfl, ⟨Nat.zero_le _, rfl, rfl, rfl, rfl, rfl⟩⟩

theorem Opened.step_skipLine {n : Nat} (ht : t.Opened) (hn : n ≤ Count.greatest) :
    (t.step (skipLine n)).Opened := by
  obtain ⟨hs, ht, hr, hc, hf⟩ := ht
  rw [Timeline.step_skipLine hn]
  exact ⟨hs, ht, hr, hc, ⟨hf.1, hf.2, hf.3, hf.4, hf.5, hf.6⟩⟩

/-- The list of a playlist is the segments of its blocks. -/
theorem listOf_blocks {ds : List Directive} (blocks : List Block)
    (ht : ((start r).run ds).Opened)
    (room : ((start r).run ds).sequence + blocks.length ≤ Count.greatest) :
    listOf r (ds ++ blocks.flatMap (·.directives)) = ⟨((start r).run ds).segmentsOf blocks⟩ := by
  obtain ⟨hsegments, -, -, hfresh⟩ := run_blocks blocks ht.fresh room
  have hclose : ((start r).run (ds ++ blocks.flatMap (·.directives))).close =
      (start r).run (ds ++ blocks.flatMap (·.directives)) := by
    rw [run_append, close, hfresh.parts]; rfl
  simp only [listOf, assemble, Rendition.segments, hclose]
  rw [run_append, hsegments, ht.segments, List.nil_append]

end Timeline

section Gap

variable {r : Rendition} {head : List Directive} {blocks : List Block} {n : Nat}

/-- Filling the gap takes the segments of the missing blocks from the full list, and counts the
times of all anew. -/
theorem restore_deltaPlaylist (hhead : ∀ d ∈ head, d.isPlaylistTag) (hn : n < blocks.length)
    (room : ((start r).run head).sequence + blocks.length ≤ Count.greatest) :
    (listOf r (deltaPlaylist head blocks n)).restore (listOf r (fullPlaylist head blocks)) n =
      .ok ⟨SegmentList.retime 0 (((start r).run head).segmentsOf (blocks.take n) ++
        (((start r).run head).step (skipLine n)).segmentsOf (blocks.drop n))⟩ := by
  have hopen := opened_head (r := r) hhead
  have hfull : listOf r (fullPlaylist head blocks) = _ := listOf_blocks blocks hopen room
  have hdelta : _ → _ → listOf r ((head ++ [skipLine n]) ++ _) = _ :=
    listOf_blocks (r := r) (blocks.drop n)
  simp only [run_append, run_cons, run_nil, List.append_assoc, List.singleton_append,
    List.length_drop] at hdelta
  have hgap := run_blocks (blocks.take n) hopen.fresh (by simp; omega)
  have hparts := segmentsOf_append (t := (start r).run head) (blocks.take n) (blocks.drop n)
  rw [List.take_append_drop] at hparts
  generalize (start r).run head = t at *
  have hsequence : (t.step (skipLine n)).sequence = t.sequence + n := by
    rw [step_skipLine (by omega)]
    exact Count.add_of_le (by omega)
  have hskip := hopen.step_skipLine (n := n) (by omega)
  have hdelta : listOf r (deltaPlaylist head blocks n) = _ := hdelta hskip (by omega)
  have hfirst : (listOf r (deltaPlaylist head blocks n)).firstSequence? = some (t.sequence + n) := by
    rw [hdelta]
    obtain ⟨b, rest, hb⟩ := List.exists_cons_of_length_pos (l := blocks.drop n) (by simp; omega)
    rw [hb, segmentsOf_cons, ← hsequence]
    simp [SegmentList.firstSequence?, SegmentList.first?, b.segment_eq hskip.fresh]
  have hknown : (t.segmentsOf blocks).filter (fun s =>
      t.sequence + n - n ≤ s.sequence && s.sequence < t.sequence + n) =
        t.segmentsOf (blocks.take n) := by
    rw [hparts, List.filter_append, List.filter_eq_self.2, List.filter_eq_nil_iff.2,
      List.append_nil]
    · intro s hs
      have := sequence_of_mem_segmentsOf hgap.2.2.2 (by simp [hgap.2.1]; omega) hs
      simp [hgap.2.1] at this ⊢
      omega
    · intro s hs
      have := sequence_of_mem_segmentsOf hopen.fresh (by simp; omega) hs
      simp at this ⊢
      omega
  rw [SegmentList.restore, hfirst]
  simp only [hfull, hknown, segmentsOf_length, List.length_take]
  rw [if_neg (by omega), hdelta]

/-- Behind the gap the blocks make the same segments with and without it exactly if they resume
without it. -/
theorem untimed_drop_eq_iff_resumes {t : Timeline} (ht : t.Opened) (hn : n < blocks.length)
    (room : t.sequence + blocks.length ≤ Count.greatest) :
    ((t.run ((blocks.take n).flatMap (·.directives))).segmentsOf (blocks.drop n)).map (·.untimed) =
        ((t.step (skipLine n)).segmentsOf (blocks.drop n)).map (·.untimed) ↔
      Resumes (blocks.take n) (blocks.drop n) := by
  have htake : (blocks.take n).length = n := List.length_take_of_le (by omega)
  have hroom : t.sequence + (blocks.take n).length ≤ Count.greatest := by omega
  obtain ⟨-, hsequence, htarget, hfresh⟩ := run_blocks (blocks.take n) ht.fresh hroom
  have hskip := ht.step_skipLine (n := n) (by omega)
  have hu : (t.step (skipLine n)).sequence = t.sequence + n ∧
      (t.step (skipLine n)).rendition.targetDuration = t.rendition.targetDuration := by
    rw [step_skipLine (by omega)]
    exact ⟨Count.add_of_le (by omega), rfl⟩
  obtain ⟨b, rest, hb⟩ := List.exists_cons_of_length_pos (l := blocks.drop n) (by simp; omega)
  have hlength : (b :: rest).length = blocks.length - n := by rw [← hb, List.length_drop]
  rw [hb, untimed_segmentsOf_cons_eq_iff b rest hfresh hskip.fresh (by omega)
      (by rw [htarget, hu.2]) (by omega),
    hskip.carried, hskip.rangeEnd, b.tell_eq_tell_nothing_iff, byteRanges_eq_byteRanges_zero_iff,
    carried_keys_eq_nil_iff ht.fresh hroom, carried_initSegment_eq_none_iff ht.fresh hroom,
    carried_utcTime_eq_none_iff ht.fresh hroom, carried_discontinuity_eq_zero_iff ht.fresh hroom,
    rangeEnd_eq_zero_iff ht.fresh hroom]
  simp only [ht.carried, ht.rangeEnd, true_and]
  constructor
  · rintro ⟨⟨hutc, hdisc, hkeys, hinit⟩, hrange⟩
    exact ⟨by simpa using hkeys, by simpa using hinit, by simpa using hutc, by simpa using hdisc,
      hrange⟩
  · rintro ⟨hkeys, hinit, hutc, hdisc, hrange⟩
    exact ⟨⟨by simpa using hutc, by simpa using hdisc, by simpa using hkeys, by simpa using hinit⟩,
      hrange⟩

/-- What is put together from a delta update and the full list is the full list exactly if the
blocks that are there state for themselves whatever the skipped ones would have carried to them. -/
theorem restore_delta_eq_full_iff (hhead : ∀ d ∈ head, d.isPlaylistTag) (hn : n < blocks.length)
    (room : ((start r).run head).sequence + blocks.length ≤ Count.greatest) :
    ∃ merged, (listOf r (deltaPlaylist head blocks n)).restore
        (listOf r (fullPlaylist head blocks)) n = .ok merged ∧
      (merged = listOf r (fullPlaylist head blocks) ↔
        Resumes (blocks.take n) (blocks.drop n)) := by
  have hopen := opened_head (r := r) hhead
  have hfull : listOf r (fullPlaylist head blocks) = _ := listOf_blocks blocks hopen room
  have hparts := segmentsOf_append (t := (start r).run head) (blocks.take n) (blocks.drop n)
  rw [List.take_append_drop] at hparts
  refine ⟨_, restore_deltaPlaylist hhead hn room, ?_⟩
  rw [hfull, ← retime_segmentsOf hopen.fresh room, hopen.startTime, hparts,
    SegmentList.mk.injEq, SegmentList.retime_eq_retime_iff, List.map_append, List.map_append,
    List.append_cancel_left_eq, eq_comm]
  exact untimed_drop_eq_iff_resumes hopen hn room

end Gap

section Example

def exampleRendition : Rendition := .ofUrl { scheme := "https", path := .segments ["live.m3u8"] }

def keyBlock (uri : String) (h : uri.isEmpty = false) : Block where
  tags := [.list .key ⟨[⟨"METHOD", ⟨"AES-128"⟩⟩, ⟨"URI", ⟨"key.bin"⟩⟩]⟩]
  uri := ⟨uri⟩
  isSegmentTag_of_mem := by simp [Directive.isSegmentTag]
  uri_nonempty := h

def plainBlock (uri : String) (h : uri.isEmpty = false) : Block where
  tags := []
  uri := ⟨uri⟩
  isSegmentTag_of_mem := by simp
  uri_nonempty := h

/-- The key is stated in front of the gap and behind it. -/
def rekeyedBlocks : List Block := [keyBlock "10.ts" (by decide), keyBlock "11.ts" (by decide)]

/-- The key is stated in front of the gap only. -/
def keyedBlocks : List Block := [keyBlock "10.ts" (by decide), plainBlock "11.ts" (by decide)]

/-- With the key stated again behind the gap, the merged list is the full one. -/
theorem restore_delta_of_key_restated :
    (∀ d ∈ ([] : List Directive), d.isPlaylistTag) ∧ 1 < rekeyedBlocks.length ∧
      ((start exampleRendition).run []).sequence + rekeyedBlocks.length ≤ Count.greatest ∧
      ∃ merged, (listOf exampleRendition (deltaPlaylist [] rekeyedBlocks 1)).restore
          (listOf exampleRendition (fullPlaylist [] rekeyedBlocks)) 1 = .ok merged ∧
        merged = listOf exampleRendition (fullPlaylist [] rekeyedBlocks) := by
  have hhead : ∀ d ∈ ([] : List Directive), d.isPlaylistTag := by simp
  have hn : 1 < rekeyedBlocks.length := by decide
  have room : ((start exampleRendition).run []).sequence + rekeyedBlocks.length ≤ Count.greatest :=
    by decide
  obtain ⟨merged, hmerged, hfull⟩ := restore_delta_eq_full_iff hhead hn room
  refine ⟨hhead, hn, room, merged, hmerged, hfull.2 ?_⟩
  constructor
  · exact .inr (by decide)
  · exact .inl (by decide)
  · exact .inl (by decide)
  · exact .inl (by decide)
  · exact .inl (by decide)

/-- A key stated in a skipped block is lost to the blocks behind the gap. -/
theorem restore_delta_ne_full_of_key_skipped :
    (listOf exampleRendition (deltaPlaylist [] keyedBlocks 1)).restore
        (listOf exampleRendition (fullPlaylist [] keyedBlocks)) 1 ≠
      .ok (listOf exampleRendition (fullPlaylist [] keyedBlocks)) := by
  decide

end Example

end AdaptiveHls
