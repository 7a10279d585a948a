import AdaptiveHls.Proofs.Session.Answers

/-!
# All that a move can do to the tracker

A move is a call, or it leaves the tracker untouched, or it ends an attempt that installs what it has
read. An attempt that was made for the sake of the segment at the cursor looks there as well, and so
its end can move the cursor twice.
-/

namespace AdaptiveHls

namespace Session

variable {s : Session} {m : Move} {t : Task}

/-- Whether a move ends a load well that was made for the sake of the segment at the cursor. -/
def looksAfter (s : Session) (m : Move) : Bool :=
  s.installing m && (s.actor? m).any (·.purpose = .current)

inductive Changed (s : Session) (m : Move) : Prop where
  | called (c : Call) (call : m = .call c) (installing : s.installing m = false)
  | untouched (call : m.isCall = false) (installing : s.installing m = false)
    (same : s.tracker.Untouched (s.move m).tracker)
  | installed (r complete : Rendition) (data : List UInt8) (call : m.isCall = false)
    (installing : s.installing m = true) (read : s.tracker.readSnapshot data = .ok r)
    (completed : s.tracker.completeDelta r = .ok complete)
    (tracker : (s.move m).tracker = if s.looksAfter m then
      (s.tracker.install s.now complete).segmentAtCursor.2 else s.tracker.install s.now complete)

/-- A load that ends well ends with an attempt that installs something. -/
theorem answer_of_ending (h : s.ending? t = some (.ok ())) :
    ∃ answer, s.answer? t = some answer ∧ (s.tracker.conclude s.now answer).1 = .ok () := by
  obtain ⟨f, hactivity, hgoing, hok⟩ := exists_fetch_of_ending h (by simp)
  refine ⟨s.received f, ?_, hok⟩
  simp only [answer?, hactivity, hgoing, Bool.false_eq_true, if_false]

theorem installing_of_ending (hactor : s.actor? m = some t) (h : s.ending? t = some (.ok ())) :
    s.installing m = true := by
  obtain ⟨answer, hanswer, hok⟩ := answer_of_ending h
  have hanswered : s.answered? m = some answer := by
    rw [answered?, hactor, Option.bind_some, hanswer]
  exact installing_of_ok hanswered hok

/-- The end of an attempt that installs something is the end of its load. -/
theorem move_tracker_of_installs {data : List UInt8} (h : s.installs? m = some data) :
    ∃ r complete, s.tracker.readSnapshot data = .ok r ∧ s.tracker.completeDelta r = .ok complete ∧
      (s.move m).tracker = if s.looksAfter m then
        (s.tracker.install s.now complete).segmentAtCursor.2 else
          s.tracker.install s.now complete := by
  have hinstalling : s.installing m = true := by rw [installing, h, Option.isSome_some]
  obtain ⟨hanswered, _⟩ := move_of_installs h
  obtain ⟨t, hactor, hanswer⟩ := Option.bind_eq_some_iff.1 hanswered
  obtain ⟨f, _, _, hstep⟩ := step_of_answer hanswer
  rcases s.tracker.conclude_cases s.now (.ok data) with ⟨e, he, _⟩ |
    ⟨_, r, complete, hdata, hr, hc, heq⟩
  · simp [installs?, hanswered, he] at h
  · cases hdata
    refine ⟨r, complete, hr, hc, ?_⟩
    rw [move_of_actor hactor, hstep, finishFetch, heq]
    dsimp only
    rw [finishLoad_tracker, looksAfter, hinstalling, hactor, Option.any_some, Bool.true_and]
    cases t.purpose <;> rfl

/-- A move in which no task takes a step leaves the tracker as it is, unless it is a call. -/
theorem tracker_of_no_actor (hm : m.isCall = false) (h : s.actor? m = none) :
    (s.move m).tracker = s.tracker := by
  cases m with
  | proceed place => rw [move_of_no_actor h]
  | start purpose called =>
    simp only [move]
    split
    · next hwants =>
      rw [look_of_wants hwants]
      split
      · exact startCall_tracker purpose
      · exact startTask_tracker purpose
    · rfl
  | resume =>
    simp only [move]
    split
    · split
      · exact startBackground_tracker
      · rfl
    · rfl
  | call c => cases hm
  | wait | stop | drop => rfl

theorem installing_of_no_actor (h : s.actor? m = none) : s.installing m = false := by
  simp [installing, installs?, answered?, h]

/-- Every move changes a session in one of these ways. -/
theorem move_cases (s : Session) (m : Move) : s.Changed m := by
  cases hm : m.isCall with
  | true =>
    cases m with
    | call c => exact .called c rfl (installing_of_no_actor rfl)
    | _ => cases hm
  | false =>
    cases hdata : s.installs? m with
    | some data =>
      obtain ⟨r, complete, hr, hc, htracker⟩ := move_tracker_of_installs hdata
      exact .installed r complete data hm (by rw [installing, hdata, Option.isSome_some]) hr hc
        htracker
    | none =>
      have hnot : s.installing m = false := by rw [installing, hdata, Option.isSome_none]
      refine .untouched hm hnot ?_
      cases hactor : s.actor? m with
      | none =>
        rw [tracker_of_no_actor hm hactor]
        exact .refl _
      | some t =>
        rw [move_of_actor hactor]
        refine s.step_untouched t fun hending => ?_
        rw [installing_of_ending hactor hending] at hnot
        cases hnot

end Session

end AdaptiveHls
