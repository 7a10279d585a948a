import AdaptiveHls.Proofs.Session.Changes
import AdaptiveHls.Proofs.Timeline.Ended

/-!
# Hints that are given out once

A playlist may hint at what it will list next. The hint stands in the snapshot, a copy of it as it is
written is kept to tell whether the next snapshot has another one, and a copy with its URI resolved
waits to be taken. Both copies are always of the snapshot's hint, or nothing waits. So a hint that has
been taken does not come back with the next load that carries it, whatever loads fail in between, and
one that waits is never outdated.
-/

namespace AdaptiveHls

namespace Timeline

variable (t : Timeline) (d : Directive)

/-- No directive says where the playlist is. -/
theorem step_playlistUrl : (t.step d).rendition.playlistUrl = t.rendition.playlistUrl := by
  cases d with
  | single kind value =>
    cases kind with
    | uri =>
      simp only [step, stepSingle]
      split
      · rfl
      · rw [emit_rendition]
    | programDateTime =>
      simp only [step, stepSingle]
      split <;> rfl
    | _ => simp only [step, stepSingle, setRendition]
  | list kind a =>
    cases kind with
    | map => rw [step, stepList, setInit_eq]
    | preloadHint | partInf =>
      simp only [step, stepList]
      split <;> rfl
    | _ => simp only [step, stepList, addKey, addPart, setRendition]
  | inf a => rfl

theorem run_playlistUrl (directives : List Directive) :
    (t.run directives).rendition.playlistUrl = t.rendition.playlistUrl := by
  induction directives generalizing t with
  | nil => rfl
  | cons d rest ih => rw [run_cons, ih, step_playlistUrl]

theorem assemble_playlistUrl (r : Rendition) (directives : List Directive) :
    (assemble r directives).playlistUrl = r.playlistUrl := by
  rw [assemble, close_rendition]
  exact run_playlistUrl _ _

end Timeline

namespace Tracker

variable {t u : Tracker} {r complete : Rendition}

def hint? (t : Tracker) : Option PreloadHint := t.snapshot.bind (·.preloadHint)

/-- The hint of the snapshot with its URI resolved against the address of the playlist. -/
def resolvedHint? (t : Tracker) : Option PreloadHint :=
  t.hint?.bind (resolveHint? (.ofUrl t.descriptor.playlistUrl))

/-- What is remembered of hints is up to date. -/
structure Hinted (t : Tracker) : Prop where
  last : t.lastHint = t.hint?
  pending : t.preload = none ∨ t.preload = t.resolvedHint?

theorem resolveHint?_congr {r r' : Rendition} (h : r.playlistUrl = r'.playlistUrl) :
    resolveHint? r = resolveHint? r' := by
  funext hint
  rw [resolveHint?, resolveHint?, Rendition.resolve, Rendition.resolve, h]

/-- A new snapshot is one of the playlist that is followed. -/
theorem playlistUrl_of_read {data : List UInt8} (hr : t.readSnapshot data = .ok r)
    (hc : t.completeDelta r = .ok complete) : complete.playlistUrl = t.descriptor.playlistUrl := by
  have hread : r.playlistUrl = t.descriptor.playlistUrl := by
    rw [readSnapshot_eq_ok hr]
    exact Timeline.assemble_playlistUrl _ _
  rw [← hread]
  simp only [completeDelta] at hc
  repeat' split at hc
  all_goals cases hc
  all_goals rfl

theorem followWindow_hints (t : Tracker) (first : Option Nat) :
    (t.followWindow first).lastHint = t.lastHint ∧ (t.followWindow first).preload = t.preload := by
  simp only [followWindow]
  repeat' split
  all_goals exact ⟨rfl, rfl⟩

/-- A hint is taken over unless it is the one that is remembered. -/
theorem install_hints (t : Tracker) (now : Nat) (r : Rendition) :
    (t.install now r).lastHint = r.preloadHint ∧
      (t.install now r).preload =
        if r.preloadHint = t.lastHint then t.preload else r.preloadHint.bind (resolveHint? r) := by
  simp only [install, followHint, followWindow_hints]
  split
  · next hsame => exact ⟨(followWindow_hints _ _).1.trans hsame.symm, (followWindow_hints _ _).2⟩
  · exact ⟨rfl, rfl⟩

/-- Of all calls one alone takes the hint. -/
theorem call_preload (t : Tracker) (c : Call) :
    (t.call c).preload = if c = .takePreload then none else t.preload := by
  cases c with
  | next =>
    obtain ⟨cursor, h⟩ := t.next_moves
    simp only [call, h, reduceCtorEq, if_false]
  | look =>
    obtain ⟨cursor, h⟩ := t.segmentAtCursor_moves
    simp only [call, h, reduceCtorEq, if_false]
  | moveToLiveStart index =>
    simp only [call, moveToLiveStart]
    split <;> rfl
  | _ => rfl

end Tracker

def Move.takesHint : Move → Bool
  | .call .takePreload => true
  | _ => false

namespace Session

variable {s : Session} {m : Move} {moves : List Move}

def takenHints (s : Session) : List Move → List PreloadHint
  | [] => []
  | m :: rest =>
    (if m.takesHint then s.tracker.takePreload.1.toList else []) ++ (s.move m).takenHints rest

/-- The hints of the snapshots that are installed in a run, in their order. -/
def carried (s : Session) : List Move → List (Option PreloadHint)
  | [] => []
  | m :: rest =>
    (if s.installing m then [(s.move m).tracker.hint?] else []) ++ (s.move m).carried rest

theorem takesHint_of_not_isCall (hm : m.isCall = false) : m.takesHint = false := by
  cases m with
  | call c => cases hm
  | _ => rfl

/-- What waits to be taken stays as long as snapshots carry the same hint, until it is taken, and is
replaced by the hint of the first snapshot that carries another one. -/
theorem move_hints (h : s.tracker.lastHint = s.tracker.hint?) (m : Move) :
    (s.move m).tracker.lastHint = (s.move m).tracker.hint? ∧
      (s.move m).tracker.preload =
        if (s.move m).tracker.hint? = s.tracker.hint? then
          if m.takesHint then none else s.tracker.preload
        else (s.move m).tracker.resolvedHint? := by
  cases s.move_cases m with
  | called c call =>
    subst call
    obtain ⟨_, _, _, _, hcall⟩ := s.tracker.call_changes c
    have hhint : (s.tracker.call c).hint? = s.tracker.hint? := by rw [hcall]; rfl
    have hlast : (s.tracker.call c).lastHint = s.tracker.lastHint := by rw [hcall]
    refine ⟨(hlast.trans h).trans hhint.symm, ?_⟩
    rw [if_pos (by exact hhint)]
    refine (s.tracker.call_preload c).trans ?_
    cases c <;> rfl
  | untouched call _ same =>
    have hhint : (s.move m).tracker.hint? = s.tracker.hint? := by
      rw [Tracker.hint?, same.snapshot, Tracker.hint?]
    rw [hhint, if_pos rfl, takesHint_of_not_isCall call]
    exact ⟨same.lastHint.trans h, same.preload⟩
  | installed r complete data call _ read completed tracker =>
    obtain ⟨hlast, hpreload⟩ := s.tracker.install_hints s.now complete
    have hlook : ∃ cursor,
        (s.move m).tracker = { s.tracker.install s.now complete with cursor } := by
      rw [tracker]
      split
      · exact Tracker.segmentAtCursor_moves _
      · exact ⟨_, rfl⟩
    obtain ⟨cursor, hmove⟩ := hlook
    have hhint : (s.move m).tracker.hint? = complete.preloadHint := by rw [hmove]; rfl
    have hdescriptor := (s.move_descriptor_config m).1
    have hurl := Tracker.playlistUrl_of_read read completed
    have hresolve : Tracker.resolveHint? complete =
        Tracker.resolveHint? (.ofUrl s.tracker.descriptor.playlistUrl) :=
      Tracker.resolveHint?_congr hurl
    rw [Tracker.resolvedHint?, hhint, hdescriptor, takesHint_of_not_isCall call, ← h, ← hresolve,
      hmove]
    exact ⟨hlast, hpreload⟩

/-- What is remembered of hints stays up to date in every move. -/
theorem move_hinted (h : s.tracker.Hinted) (m : Move) : (s.move m).tracker.Hinted := by
  obtain ⟨hlast, hpreload⟩ := move_hints h.last m
  refine ⟨hlast, ?_⟩
  split at hpreload
  · next hsame =>
    split at hpreload
    · exact .inl hpreload
    · have hresolved : (s.move m).tracker.resolvedHint? = s.tracker.resolvedHint? := by
        rw [Tracker.resolvedHint?, hsame, (s.move_descriptor_config m).1, Tracker.resolvedHint?]
      rw [hpreload, hresolved]
      exact h.pending
  · exact .inr hpreload

theorem run_hinted (h : s.tracker.Hinted) (moves : List Move) : (s.run moves).tracker.Hinted := by
  induction moves generalizing s with
  | nil => exact h
  | cons m rest ih => exact ih (move_hinted h m)

/-- While snapshots carry the same hint, the first time it is asked for is the only one that gets
it. -/
theorem takenHints_of_same (h : s.tracker.Hinted)
    (hsame : ∀ g ∈ s.carried moves, g = s.tracker.hint?) :
    s.takenHints moves = if moves.any Move.takesHint then s.tracker.preload.toList else [] := by
  induction moves generalizing s with
  | nil => rfl
  | cons m rest ih =>
    rw [carried, List.forall_mem_append] at hsame
    have hhint : (s.move m).tracker.hint? = s.tracker.hint? := by
      cases hinstalls : s.installing m with
      | true => exact hsame.1 _ (by rw [hinstalls, if_pos rfl]; exact List.mem_singleton_self _)
      | false =>
        have hnone : s.installs? m = none := by simpa [installing] using hinstalls
        rw [Tracker.hint?, move_snapshot_of_installs_none hnone, Tracker.hint?]
    have hpreload := (move_hints h.last m).2
    rw [hhint, if_pos rfl] at hpreload
    rw [takenHints, ih (move_hinted h m) (by rw [hhint]; exact hsame.2), hpreload, List.any_cons]
    cases m.takesHint <;> simp [Tracker.takePreload]

/-! ## Pending hints -/

/-- In whatever state a run leaves a session, a hint that waits to be taken is the hint of the
snapshot, with its URI resolved against the address of the playlist. From there on, as long as all
snapshots that come carry this hint, and whatever loads fail in between, no more than one hint is given
out: what has been waiting goes to the first that asks for it. A snapshot that carries another hint
makes that one wait, or none if there is none that resolves. -/
theorem pending_hint_current_once (descriptor : Rendition) (config : TrackerConfig)
    (initial : Option (List UInt8)) (server : Nat → Answer) (before : List Move) :
    let u := (fresh descriptor config initial server).run before
    (∀ h, u.tracker.preload = some h → ∃ r raw url, u.tracker.snapshot = some r ∧
      r.preloadHint = some raw ∧ descriptor.playlistUrl.join raw.uri = .ok url ∧
      h = { raw with uri := url.text }) ∧
    (∀ stretch, (∀ g ∈ u.carried stretch, g = u.tracker.hint?) →
      (u.takenHints stretch).length ≤ 1 ∧
      u.takenHints stretch =
        if stretch.any Move.takesHint then u.tracker.preload.toList else []) ∧
    ∀ m, (u.move m).tracker.hint? ≠ u.tracker.hint? →
      (u.move m).tracker.preload = (u.move m).tracker.resolvedHint? := by
  intro u
  have hhinted : u.tracker.Hinted := run_hinted ⟨rfl, .inl rfl⟩ before
  refine ⟨fun h hpreload => ?_, fun stretch hsame => ?_, fun m hother => ?_⟩
  · have hresolved : u.tracker.resolvedHint? = some h := by
      rcases hhinted.pending with hnone | hsome
      · rw [hnone] at hpreload
        cases hpreload
      · exact hsome.symm.trans hpreload
    obtain ⟨raw, hraw, hresolves⟩ := Option.bind_eq_some_iff.1 hresolved
    obtain ⟨r, hr, hhint⟩ := Option.bind_eq_some_iff.1 hraw
    have hdescriptor : u.tracker.descriptor = descriptor := (run_descriptor_config _ before).1
    rw [Tracker.resolveHint?, hdescriptor] at hresolves
    split at hresolves
    · next url hurl => exact ⟨r, raw, url, hr, hhint, hurl, (Option.some.inj hresolves).symm⟩
    · cases hresolves
  · have htaken := takenHints_of_same hhinted hsame
    refine ⟨?_, htaken⟩
    rw [htaken]
    split
    · exact Option.length_toList_le
    · exact Nat.zero_le 1
  · rw [(move_hints hhinted.last m).2, if_neg hother]

def hintBody (uri : String) : String :=
  "#EXTM3U\na\n#EXT-X-PRELOAD-HINT:TYPE=PART,URI=\"" ++ uri ++ "\"\n"

/-- A load that fails, a call for the hint, a load, and another call. -/
def hintMoves : List Move :=
  reloadMoves ++ [.call .takePreload] ++ reloadMoves ++ [.call .takePreload]

/-- A hint is taken once, though a load fails and another brings the same hint again; one that
brings another hint makes that one pending. -/
theorem pending_hint_current_once_of_reload :
    let s := served [hintBody "b0", "a", hintBody "b0", hintBody "b1"]
    let u := s.run reloadMoves
    let v := s.run (reloadMoves ++ hintMoves ++ [.start .reload true, .proceed 0])
    (∃ h, u.tracker.preload = some h ∧ u.takenHints hintMoves = [h] ∧
      ∃ r raw url, u.tracker.snapshot = some r ∧ r.preloadHint = some raw ∧
        s.tracker.descriptor.playlistUrl.join raw.uri = .ok url ∧ h = { raw with uri := url.text }) ∧
    (u.carried hintMoves).length = 1 ∧ v.tracker.preload = none ∧
    (v.move (.proceed 0)).tracker.preload.isSome = true := by
  intro s u v
  obtain ⟨h, hpreload, hcarried, hone⟩ : ∃ h ∈ u.tracker.preload,
      (∀ g ∈ u.carried hintMoves, g = u.tracker.hint?) ∧ (u.carried hintMoves).length = 1 := by
    decide +kernel
  obtain ⟨hnone, hother, hresolves⟩ : v.tracker.preload = none ∧
      (v.move (.proceed 0)).tracker.hint? ≠ v.tracker.hint? ∧
      (v.move (.proceed 0)).tracker.resolvedHint?.isSome = true := by
    decide +kernel
  have hpending := pending_hint_current_once s.tracker.descriptor {} none s.server
  rw [show fresh s.tracker.descriptor {} none s.server = s from rfl] at hpending
  obtain ⟨hcurrent, honce, _⟩ := hpending reloadMoves
  obtain ⟨_, _, hreplaced⟩ :=
    hpending (reloadMoves ++ hintMoves ++ [.start .reload true, .proceed 0])
  rw [show s.run _ = v from rfl] at hreplaced
  refine ⟨⟨h, hpreload, ?_, hcurrent h hpreload⟩, hone, hnone, ?_⟩
  · exact (honce hintMoves hcarried).2.trans (congrArg Option.toList hpreload)
  · rw [hreplaced (.proceed 0) hother]
    exact hresolves

end Session

end AdaptiveHls
