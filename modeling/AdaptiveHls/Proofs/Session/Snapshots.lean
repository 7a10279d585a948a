import AdaptiveHls.Proofs.Session.Answers
import AdaptiveHls.Proofs.Session.Delivery
import AdaptiveHls.Proofs.Timeline.Gapless

/-!
# Snapshots in a session

What is asked of all snapshots of a run can be asked of the data that are installed in it, one after
the other, as nothing else makes a snapshot. So the numbers rise in all of them exactly if none of
the data takes them back, and only the last segment is ever in progress exactly if no delta update
has one taken over that is. That time runs through the segments without a gap asks nothing of the
data.
-/

namespace AdaptiveHls

/-- In these data the numbers go on rising wherever they are set anew. -/
def Playlist.RestartsAhead (url : Url) (data : List UInt8) : Prop :=
  (Timeline.start (.ofUrl url)).RestartsAhead (directivesOf data)

/-- What these data leave out is complete in the snapshot. -/
def Tracker.TakesComplete (t : Tracker) (data : List UInt8) : Prop :=
  ∀ r, t.readSnapshot data = .ok r → ∀ s ∈ t.takenOver r, s.inProgress = false

instance (t : Tracker) (data : List UInt8) : Decidable (t.TakesComplete data) :=
  match h : t.readSnapshot data with
  | .ok r => decidable_of_iff (∀ s ∈ t.takenOver r, s.inProgress = false) (by
      simp [Tracker.TakesComplete, h])
  | .error e => .isTrue (by simp [Tracker.TakesComplete, h])

theorem Playlist.segments_of_ofBytes {url : Url} {data : List UInt8} {p : Playlist} {r : Rendition}
    (h : ofBytes url data = .ok p) (hp : p.isMaster = false) (hr : r ∈ p.renditions) :
    r.segments = (Timeline.assemble (.ofUrl url) (directivesOf data)).segments := by
  cases eq_media_of_ofBytes h hp
  simp only [renditions, renditionSets, media, List.flatMap_singleton, List.mem_singleton] at hr
  rw [hr]
  rfl

namespace Session

/-- `P` holds of every snapshot that there is while a session makes these moves. -/
def Throughout (s : Session) (moves : List Move) (P : Rendition → Prop) : Prop :=
  ∀ before after, before ++ after = moves → ∀ r, (s.run before).tracker.snapshot = some r → P r

variable {s : Session} {P : Rendition → Prop} {Q : Tracker → List UInt8 → Prop}

theorem throughout_cons {m : Move} {rest : List Move} :
    s.Throughout (m :: rest) P ↔
      (∀ r, s.tracker.snapshot = some r → P r) ∧ (s.move m).Throughout rest P := by
  constructor
  · intro h
    refine ⟨h [] (m :: rest) rfl, fun before after hsplit => ?_⟩
    exact h (m :: before) after (by rw [List.cons_append, hsplit])
  · rintro ⟨hnow, hlater⟩ before after hsplit
    cases before with
    | nil => exact hnow
    | cons n before =>
      rw [List.cons_append, List.cons.injEq] at hsplit
      obtain ⟨rfl, hsplit⟩ := hsplit
      exact hlater before after hsplit

/-- If it depends on the data alone whether a new snapshot is as wanted, given that the one before
is, then so it does for all snapshots of a run. -/
theorem throughout_iff
    (hinstall : ∀ t data r complete, t.readSnapshot data = .ok r →
      t.completeDelta r = .ok complete → (∀ previous, t.snapshot = some previous → P previous) →
        (P complete ↔ Q t data))
    (moves : List Move) (hs : ∀ r, s.tracker.snapshot = some r → P r) :
    s.Throughout moves P ↔ ∀ p ∈ s.installed moves, Q p.1 p.2 := by
  induction moves generalizing s with
  | nil =>
    simp only [installed_nil, List.not_mem_nil, false_implies, implies_true, iff_true]
    intro before after hsplit
    rw [(List.append_eq_nil_iff.1 hsplit).1]
    exact hs
  | cons m rest ih =>
    rw [throughout_cons, installed_cons, List.forall_mem_append, and_iff_right hs]
    cases hdata : s.installs? m with
    | none =>
      have hsame := move_snapshot_of_installs_none hdata
      rw [ih (by rw [hsame]; exact hs)]
      simp
    | some data =>
      obtain ⟨_, r, complete, hr, hc, hsteady⟩ := move_of_installs hdata
      have hnew : (s.move m).tracker.snapshot = some complete := hsteady.snapshot
      have hiff := hinstall s.tracker data r complete hr hc hs
      simp only [Option.map_some, Option.toList_some, List.forall_mem_singleton, ← hiff]
      constructor
      · intro h
        have hcomplete : P complete := h [] rest rfl complete hnew
        exact ⟨hcomplete, (ih (by simpa [hnew] using hcomplete)).1 h⟩
      · rintro ⟨hcomplete, hrest⟩
        exact (ih (by simpa [hnew] using hcomplete)).2 hrest

/-- No data make anything but sound segments the snapshot. -/
theorem throughout_sound (moves : List Move)
    (hs : ∀ r, s.tracker.snapshot = some r → r.Sound) : s.Throughout moves Rendition.Sound := by
  refine (throughout_iff (Q := fun _ _ => True) ?_ moves hs).2 (by simp)
  intro t data r complete hr hc hprevious
  refine iff_of_true (Tracker.completeDelta_sound ?_ (Tracker.readSnapshot_sound hr) hc) trivial
  intro l hl
  obtain ⟨previous, hsnapshot, hl⟩ := Option.bind_eq_some_iff.1 hl
  simpa [Rendition.Sound, Rendition.segments, hl] using hprevious previous hsnapshot

theorem run_sound {descriptor : Rendition} {config : TrackerConfig}
    {initial : Option (List UInt8)} {server : Nat → Answer} {moves : List Move} {r : Rendition}
    (h : ((fresh descriptor config initial server).run moves).tracker.snapshot = some r) :
    r.Sound :=
  throughout_sound moves (by simp [fresh]) moves [] (List.append_nil _) r h

section Installed

variable (descriptor : Rendition) (config : TrackerConfig) (initial : Option (List UInt8))
  (server : Nat → Answer) (moves : List Move)

/-- Numbers rise in every media playlist, and in every snapshot of every run, exactly if the data
that are read never take them back: where a media sequence tag stands between two segments, the
second of these has to have the greater number all the same. Delta updates need no more than that. -/
theorem snapshots_rising_iff :
    (∀ url data p, Playlist.ofBytes url data = .ok p → p.isMaster = false → ∀ r ∈ p.renditions,
      (Rising r.segments ↔ Playlist.RestartsAhead url data)) ∧
    let s := fresh descriptor config initial server
    (s.Throughout moves (fun r => Rising r.segments) ↔
      ∀ p ∈ s.installed moves, Playlist.RestartsAhead p.1.descriptor.playlistUrl p.2) := by
  constructor
  · intro url data p hp hmedia r hr
    rw [Playlist.segments_of_ofBytes hp hmedia hr]
    exact Timeline.rising_assemble_iff _ _
  · intro s
    refine throughout_iff (s := s) (P := fun r => Rising r.segments)
      (Q := fun t data => Playlist.RestartsAhead t.descriptor.playlistUrl data) ?_ moves
      (by simp [s, fresh])
    intro t data r complete hr hc hprevious
    have hlist : ∀ l, t.segmentList? = some l → Rising l.segments := by
      intro l hl
      obtain ⟨previous, hsnapshot, hl⟩ := Option.bind_eq_some_iff.1 hl
      simpa [Rendition.segments, hl] using hprevious previous hsnapshot
    rw [Tracker.rising_completeDelta_iff hlist hc, Tracker.readSnapshot_segments hr]
    exact Timeline.rising_assemble_iff _ _

/-- Two segments, the second of which is numbered anew. -/
def restartedBody (number : String) : String :=
  "#EXTM3U\n#EXT-X-MEDIA-SEQUENCE:5\na\n#EXT-X-MEDIA-SEQUENCE:" ++ number ++ "\nb\n"

/-- A number that is set ahead leaves the numbers rising. -/
theorem snapshots_rising_of_restart_ahead :
    let s := served [restartedBody "9"]
    let url := s.tracker.descriptor.playlistUrl
    let data := (restartedBody "9").toUTF8.toList
    (∃ p r, Playlist.ofBytes url data = .ok p ∧ p.isMaster = false ∧ r ∈ p.renditions ∧
      r.segments.map (·.sequence) = [5, 9]) ∧
    Playlist.RestartsAhead url data ∧ (s.installed reloadMoves).length = 1 ∧
    s.Throughout reloadMoves (fun r => Rising r.segments) := by
  intro s url data
  obtain ⟨p, r, hp, hmedia, hr, hsequences⟩ : ∃ p r, Playlist.ofBytes url data = .ok p ∧
      p.isMaster = false ∧ r ∈ p.renditions ∧ r.segments.map (·.sequence) = [5, 9] := by
    have hread : ∃ p ∈ (Playlist.ofBytes url data).toOption, p.isMaster = false ∧
        ∃ r ∈ p.renditions, r.segments.map (·.sequence) = [5, 9] := by
      decide +kernel
    obtain ⟨p, hp, hmedia, r, hr, hsequences⟩ := hread
    refine ⟨p, r, ?_, hmedia, hr, hsequences⟩
    cases hdata : Playlist.ofBytes url data with
    | ok _ =>
      rw [hdata] at hp
      exact congrArg Except.ok (Option.some.inj hp)
    | error e =>
      rw [hdata] at hp
      cases hp
  have hrising := snapshots_rising_iff s.tracker.descriptor {} none s.server reloadMoves
  have hahead : Playlist.RestartsAhead url data := by
    refine (hrising.1 url data p hp hmedia r hr).1 ?_
    rw [Rising, hsequences]
    decide
  have hinstalled : (s.installed reloadMoves).map
      (fun p => (p.1.descriptor.playlistUrl, p.2)) = [(url, data)] := by
    decide +kernel
  refine ⟨⟨p, r, hp, hmedia, hr, hsequences⟩, hahead, ?_, hrising.2.2 ?_⟩
  · simpa using congrArg List.length hinstalled
  · intro q (hq : q ∈ s.installed reloadMoves)
    have hpair := List.mem_map_of_mem (f := fun p => (p.1.descriptor.playlistUrl, p.2)) hq
    rw [hinstalled, List.mem_singleton, Prod.mk.injEq] at hpair
    rw [hpair.1, hpair.2]
    exact hahead

/-- A number that is taken back stands behind greater ones, in the playlist and in the snapshot. -/
theorem snapshots_rising_of_restart_back :
    ((served [restartedBody "1"]).run reloadMoves).tracker.snapshot.map
      (fun r => r.segments.map (·.sequence)) = some [5, 1] := by
  decide +kernel

/-- Only the last segment of a media playlist is in progress. The same holds of every snapshot of
every run exactly if no delta update leaves out a segment that is in progress in the snapshot; and
then nothing stands behind the segment that the cursor waits for. -/
theorem snapshots_completeButLast_iff :
    (∀ url data p, Playlist.ofBytes url data = .ok p → p.isMaster = false → ∀ r ∈ p.renditions,
      CompleteButLast r.segments) ∧
    let s := fresh descriptor config initial server
    (s.Throughout moves (fun r => CompleteButLast r.segments) ↔
      ∀ p ∈ s.installed moves, p.1.TakesComplete p.2) ∧
    ((∀ p ∈ s.installed moves, p.1.TakesComplete p.2) →
      ∀ r d, (s.run moves).tracker.snapshot = some r →
        (s.run moves).tracker.segmentAtCursor.1 = some d → d.inProgress = true →
          r.segments.getLast? = some d) := by
  have hparse (url : Url) (data : List UInt8) : CompleteButLast
      (Timeline.assemble (.ofUrl url) (Playlist.directivesOf data)).segments :=
    Timeline.completeButLast_assemble _ _
  refine ⟨?_, ?_⟩
  · intro url data p hp hmedia r hr
    rw [Playlist.segments_of_ofBytes hp hmedia hr]
    exact hparse url data
  · intro s
    have hrun : s.Throughout moves (fun r => CompleteButLast r.segments) ↔
        ∀ p ∈ s.installed moves, p.1.TakesComplete p.2 := by
      refine throughout_iff (s := s) (P := fun r => CompleteButLast r.segments)
        (Q := Tracker.TakesComplete) ?_ moves (by simp [s, fresh])
      intro t data r complete hr hc _
      have hown : CompleteButLast r.segments := by
        rw [Tracker.readSnapshot_segments hr]
        exact hparse _ data
      rw [Tracker.completeButLast_completeDelta_iff hown hc]
      constructor
      · intro h r' hr'
        cases hr.symm.trans hr'
        exact h
      · exact fun h => h r hr
    refine ⟨hrun, fun htakes r d hsnapshot hd hprogress => ?_⟩
    have hlast := hrun.2 htakes moves [] (List.append_nil _) r hsnapshot
    refine getLast?_of_inProgress hlast ?_ hprogress
    obtain ⟨l, hl, hmem⟩ := Tracker.mem_of_segmentAtCursor hd
    rw [Tracker.segmentList?, hsnapshot, Option.bind_some] at hl
    simpa only [Rendition.segments, hl] using hmem

/-- A delta update behind a playlist whose second segment may be in progress. -/
def overtakenBodies (parts : List String) (rest : String) : List String :=
  [partsBody parts rest, "#EXTM3U\n#EXT-X-SKIP:SKIPPED-SEGMENTS=2\nc\n"]

def overtakenMoves : List Move := reloadMoves ++ [.call .next, .call .next] ++ reloadMoves

theorem snapshots_completeButLast_of_whole :
    let s := served (overtakenBodies [] "b\n")
    (s.installed overtakenMoves).length = 2 ∧
      (∀ p ∈ s.installed overtakenMoves, p.1.TakesComplete p.2) ∧
      s.Throughout overtakenMoves (fun r => CompleteButLast r.segments) := by
  intro s
  have htakes : ∀ p ∈ s.installed overtakenMoves, p.1.TakesComplete p.2 := by decide +kernel
  exact ⟨by decide +kernel, htakes, (snapshots_completeButLast_iff _ _ _ _ _).2.1.2 htakes⟩

/-- A segment that is taken over while in progress stands in front of another one. With its parts
given, nothing is given any more and the cursor stays. -/
theorem snapshots_completeButLast_of_overtaken :
    let s := (served (overtakenBodies ["b0"] "")).run overtakenMoves
    s.tracker.snapshot.map (fun r => r.segments.map fun d => (d.sequence, d.inProgress)) =
        some [(0, false), (1, true), (2, false)] ∧
      s.tracker.next.1 = none ∧ s.tracker.cursor.sequence = 1 ∧
      s.tracker.next.2.cursor = s.tracker.cursor := by
  decide +kernel

/-- Whatever directives a list is made of, and in whatever snapshot of whatever run it stands, time
runs through its segments without a gap. -/
theorem snapshots_gapless :
    (∀ r directives, ∃ l, (Timeline.assemble r directives).segmentList = some l ∧ l.Gapless) ∧
    (fresh descriptor config initial server).Throughout moves
      (fun r => ∃ l, r.segmentList = some l ∧ l.Gapless) := by
  refine ⟨Timeline.gapless_assemble, ?_⟩
  refine (throughout_iff (Q := fun _ _ => True) ?_ moves (by simp [fresh])).2 (by simp)
  intro t data r complete hr hc _
  exact iff_of_true (Tracker.gapless_completeDelta (Tracker.gapless_readSnapshot hr) hc) trivial

end Installed

end Session

end AdaptiveHls
