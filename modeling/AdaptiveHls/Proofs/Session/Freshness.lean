import AdaptiveHls.Proofs.Session.Answers
import AdaptiveHls.Proofs.Url.Query

/-!
# Against which snapshots a delta update is asked for

A snapshot does not say how old it is. What is remembered is when the newest attempt to load has
ended, and an attempt that has failed ends as well as one that has brought a snapshot. So a delta
update is asked for while the newest attempt is recent, and that tells the age of the snapshot only
as long as no attempt has failed since.
-/

namespace AdaptiveHls

/-- When a request asks for a delta update. -/
theorem Tracker.asksForDelta_nextRequest (t : Tracker) (now : Nat) (full : Bool) :
    (t.nextRequest now full).1.url.asksForDelta =
      match t.snapshot with
      | none => t.descriptor.playlistUrl.asksForDelta
      | some r =>
        if r.live then
          !full && !t.reload.needsFull && Reload.canSkip r (t.reload.elapsed now)
        else r.playlistUrl.asksForDelta := by
  simp only [nextRequest]
  cases t.snapshot with
  | none => rfl
  | some r =>
    cases hlive : r.live with
    | false => simp [hlive]
    | true => simp [hlive, Reload.asksForDelta_requestUrl]

namespace Session

/-- What the record of loads tells of a run in which attempts have ended at these moments. -/
structure Recorded (u : Session) (ended installed : Option Nat) : Prop where
  lastLoad : u.tracker.reload.lastLoad = ended
  installed : u.tracker.reload.failingSince = none → ended = installed

variable {s u : Session} {ended installed : Option Nat}

/-- A move brings the record up to date. -/
theorem Recorded.move (h : u.Recorded ended installed) (m : Move) :
    (u.move m).Recorded (if u.ends m then some u.now else ended)
      (if u.installing m then some u.now else installed) := by
  cases u.move_logged m with
  | silent ends installing lastLoad failingSince =>
    rw [ends, installing]
    exact ⟨lastLoad.trans h.lastLoad, fun hnone => h.installed (failingSince.symm.trans hnone)⟩
  | failed ends installing lastLoad failingSince =>
    rw [ends, installing]
    exact ⟨lastLoad, fun hnone => by rw [failingSince] at hnone; cases hnone⟩
  | succeeded ends installing lastLoad =>
    rw [ends, installing]
    exact ⟨lastLoad, fun _ => rfl⟩

theorem recorded_run (h : s.tracker.reload = {}) (moves : List Move) :
    (s.run moves).Recorded (s.newest? ends moves) (s.newest? installing moves) := by
  induction moves using List.reverseRecOn with
  | nil => exact ⟨by simp [h], fun _ => rfl⟩
  | append_singleton before m ih =>
    rw [newest?_append_singleton, newest?_append_singleton, run_append]
    exact ih.move m

def since (s : Session) (kind : Session → Move → Bool) (moves : List Move) : Option Nat :=
  (s.newest? kind moves).map fun moment => (s.run moves).now - moment

/-- For a live snapshot a delta update is asked for exactly if neither this attempt nor the record
demands the whole playlist and the newest attempt that was not interrupted has ended recently
enough. So the snapshot itself is recent enough if no attempt has failed since it came. Without a
live snapshot the address is the playlist's own, and asks for what that asks for. -/
theorem nextRequest_asksForDelta_iff (descriptor : Rendition) (config : TrackerConfig)
    (initial : Option (List UInt8)) (server : Nat → Answer) (moves : List Move) (full : Bool) :
    let s := fresh descriptor config initial server
    let t := (s.run moves).tracker
    let url := (t.nextRequest (s.run moves).now full).1.url
    (∀ r, t.snapshot = some r → r.live = true →
      (url.asksForDelta = true ↔ full = false ∧ t.reload.needsFull = false ∧
        Reload.canSkip r (s.since ends moves) = true) ∧
      (t.reload.failingSince = none → url.asksForDelta = true →
        Reload.canSkip r (s.since installing moves) = true)) ∧
    (t.isLive = false →
      url = (t.snapshot.map (·.playlistUrl)).getD descriptor.playlistUrl) := by
  intro s t url
  have hrecord : (s.run moves).Recorded (s.newest? ends moves) (s.newest? installing moves) :=
    recorded_run rfl moves
  have helapsed : t.reload.elapsed (s.run moves).now = s.since ends moves :=
    congrArg (Option.map _) hrecord.lastLoad
  have hasks : url.asksForDelta = _ := t.asksForDelta_nextRequest (s.run moves).now full
  refine ⟨fun r hsnapshot hlive => ?_, fun hlive => ?_⟩
  · simp only [hsnapshot, hlive, if_true, helapsed] at hasks
    have hiff : url.asksForDelta = true ↔ full = false ∧ t.reload.needsFull = false ∧
        Reload.canSkip r (s.since ends moves) = true := by
      rw [hasks]
      simp [and_assoc]
    refine ⟨hiff, fun hnone hurl => ?_⟩
    have hsame : s.since ends moves = s.since installing moves :=
      congrArg (Option.map _) (hrecord.installed hnone)
    exact hsame ▸ (hiff.1 hurl).2.2
  · have hdescriptor : t.descriptor = descriptor := (s.run_descriptor_config moves).1
    change (t.nextRequest (s.run moves).now full).1.url = _
    rw [Tracker.isLive] at hlive
    rw [Tracker.nextRequest, hdescriptor]
    cases hsnapshot : t.snapshot with
    | none => rfl
    | some r =>
      have hnot : r.live = false := by simpa [hsnapshot] using hlive
      simp only [hnot]
      rfl

/-- A live playlist whose delta updates may be asked for within five seconds. -/
def skippingBody : String :=
  "#EXTM3U\n#EXT-X-SERVER-CONTROL:CAN-SKIP-UNTIL=10\n#EXTINF:4,\na\n"

/-- Four seconds after a load a delta update is asked for. -/
theorem nextRequest_asksForDelta_of_recent :
    let s := served [skippingBody]
    let moves := reloadMoves ++ [.wait 4000]
    let t := (s.run moves).tracker
    let url := (t.nextRequest (s.run moves).now false).1.url
    ∃ r, t.snapshot = some r ∧ r.live = true ∧ t.reload.failingSince = none ∧
      url.asksForDelta = true ∧ Reload.canSkip r (s.since installing moves) = true := by
  intro s moves t url
  obtain ⟨r, hsnapshot, hlive, hnone⟩ : ∃ r, t.snapshot = some r ∧ r.live = true ∧
      t.reload.failingSince = none := by
    have hrun : t.snapshot.any (·.live) = true ∧ t.reload.failingSince = none := by decide +kernel
    obtain ⟨r, hsnapshot, hlive⟩ := (Option.any_eq_true _ _).1 hrun.1
    exact ⟨r, hsnapshot, hlive, hrun.2⟩
  have hurl : url.asksForDelta = true := by decide +kernel
  have hasks := nextRequest_asksForDelta_iff s.tracker.descriptor {} none s.server moves false
  exact ⟨r, hsnapshot, hlive, hnone, hurl, (hasks.1 r hsnapshot hlive).2 hnone hurl⟩

/-- After an attempt that has failed, a delta update is asked for against a snapshot too old. -/
theorem nextRequest_asksForDelta_of_failed :
    let s := served [skippingBody]
    let moves := reloadMoves ++ [.wait 4000] ++ reloadMoves ++ [.wait 2000]
    let t := (s.run moves).tracker
    let url := (t.nextRequest (s.run moves).now false).1.url
    s.since installing moves = some 6000 ∧ url.asksForDelta = true ∧
      t.snapshot.map (fun r => Reload.canSkip r (s.since installing moves)) = some false := by
  decide +kernel

end Session

end AdaptiveHls
