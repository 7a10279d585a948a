import AdaptiveHls.Proofs.Session.Moves
import AdaptiveHls.Proofs.Tracker.Snapshots

/-!
# Attempts in a run of moves

A move that ends an attempt to load is the only one that can change the snapshot or the record of
loads. `answered?` tells which moves do, and with which answer; from it come the data that are
installed in a run, and the moments at which the newest attempt of some kind has ended.
-/

namespace AdaptiveHls

namespace Session

variable {s : Session} {m : Move} {moves : List Move} {t : Task} {f : Fetch}
  {answer : Except Failure (List UInt8)}

/-- The answer with which a task's next step ends an attempt, if it does. -/
def answer? (s : Session) (t : Task) : Option (Except Failure (List UInt8)) :=
  match t.activity with
  | .fetching f => if s.isCancelled t then none else some (s.received f)
  | _ => none

/-- The answer with which a move ends an attempt, if it does. -/
def answered? (s : Session) (m : Move) : Option (Except Failure (List UInt8)) :=
  (s.actor? m).bind s.answer?

def installs? (s : Session) (m : Move) : Option (List UInt8) :=
  match s.answered? m with
  | some (.ok data) =>
    match (s.tracker.conclude s.now (.ok data)).1 with
    | .ok () => some data
    | .error _ => none
  | _ => none

/-- The data that become snapshots in a run, each with the tracker that reads them. -/
def installed (s : Session) : List Move → List (Tracker × List UInt8)
  | [] => []
  | m :: rest => ((s.installs? m).map (s.tracker, ·)).toList ++ (s.move m).installed rest

/-- The moment of the newest move of some kind in a run. -/
def newest? (s : Session) (kind : Session → Move → Bool) : List Move → Option Nat
  | [] => none
  | m :: rest => ((s.move m).newest? kind rest).or (if kind s m then some s.now else none)

/-- Whether a move ends an attempt that was not interrupted. -/
def ends (s : Session) (m : Move) : Bool :=
  match s.answered? m with
  | some (.error .interrupted) | none => false
  | some _ => true

def installing (s : Session) (m : Move) : Bool := (s.installs? m).isSome

@[simp] theorem installed_nil : s.installed [] = [] := rfl
@[simp] theorem installed_cons (m : Move) (rest : List Move) :
    s.installed (m :: rest) =
      ((s.installs? m).map (s.tracker, ·)).toList ++ (s.move m).installed rest := rfl

@[simp] theorem newest?_nil (kind : Session → Move → Bool) : s.newest? kind [] = none := rfl

theorem newest?_cons_eq_none {kind : Session → Move → Bool} {rest : List Move} :
    s.newest? kind (m :: rest) = none ↔ kind s m = false ∧ (s.move m).newest? kind rest = none := by
  rw [newest?, Option.or_eq_none_iff, and_comm, ite_eq_right_iff]
  simp

theorem newest?_append_singleton (kind : Session → Move → Bool) (moves : List Move) (m : Move) :
    s.newest? kind (moves ++ [m]) =
      if kind (s.run moves) m then some (s.run moves).now else s.newest? kind moves := by
  induction moves generalizing s with
  | nil => cases h : kind s m <;> simp [newest?, h]
  | cons n rest ih =>
    rw [List.cons_append, newest?, ih, newest?, run_cons]
    split <;> rfl

/-! ## What the end of an attempt does -/

/-- An answer that ends an attempt is what has come of the request under way. -/
theorem step_of_answer (h : s.answer? t = some answer) :
    ∃ f, t.activity = .fetching f ∧ answer = s.received f ∧ s.step t = s.finishFetch t f answer := by
  cases ht : t.activity with
  | fetching f =>
    simp only [answer?, ht] at h
    split at h
    · cases h
    · next hgoing =>
      cases h
      refine ⟨f, rfl, rfl, ?_⟩
      simp only [step, ht, if_neg hgoing, received]
      split <;> rfl
  | _ => simp [answer?, ht] at h

theorem finishLoad_steady (t : Task) (result : Except Failure Unit) :
    s.tracker.Steady (s.finishLoad t result).tracker := by
  rw [finishLoad_tracker]
  split
  · exact s.tracker.segmentAtCursor_steady
  · exact .refl _

theorem startFetch_steady (t : Task) (full : Bool) :
    s.tracker.Steady (s.startFetch t full).tracker := by
  rw [startFetch_tracker]
  split
  · exact s.tracker.takeInitial_steady
  · exact s.tracker.nextRequest_steady s.now full

/-- After the end of an attempt the tracker is what the answer has made of it, or a load without
a delta update has been demanded in addition. -/
theorem finishFetch_steady (t : Task) (f : Fetch) (answer : Except Failure (List UInt8)) :
    (s.tracker.conclude s.now answer).2.Steady (s.finishFetch t f answer).tracker ∨
      (∃ count, (s.tracker.conclude s.now answer).1 = .error (.missingSegments count)) ∧
        (s.tracker.conclude s.now answer).2.demandFull.Steady (s.finishFetch t f answer).tracker := by
  rw [finishFetch]
  split
  · next count u hu =>
    rw [hu]
    split
    · exact .inl (finishLoad_steady (s := { s with tracker := u }) t _)
    · exact .inr ⟨⟨count, rfl⟩, startFetch_steady (s := { s with tracker := u.demandFull }) t true⟩
  · next result u _ hu =>
    rw [hu]
    exact .inl (finishLoad_steady (s := { s with tracker := u }) t result)

/-- No other step changes the snapshot or the record of loads. -/
theorem step_steady (h : s.answer? t = none) : s.tracker.Steady (s.step t).tracker := by
  cases ht : t.activity with
  | planning | finished =>
    simp only [step, ht]
    exact .refl _
  | resting moment =>
    simp only [step, ht]
    split
    · exact .refl _
    · split
      · rw [startLoad_tracker]; exact .refl _
      · exact .refl _
  | pausing moment =>
    simp only [step, ht]
    split
    · exact .refl _
    · rw [startLoad_tracker]; exact .refl _
  | waiting =>
    simp only [step, ht]
    split
    · exact finishLoad_steady t _
    · exact startFetch_steady t _
  | fetching f =>
    cases hc : s.isCancelled t with
    | true =>
      simp only [step, ht, hc, if_true]
      exact finishLoad_steady t _
    | false => simp [answer?, ht, hc] at h

/-- A move that ends no attempt leaves the snapshot and the record of loads as they are. -/
theorem move_steady (h : s.answered? m = none) : s.tracker.Steady (s.move m).tracker := by
  cases m with
  | proceed place =>
    cases ha : s.actor? (.proceed place) with
    | some t =>
      rw [answered?, ha, Option.bind_some] at h
      rw [move_of_actor ha]
      exact step_steady h
    | none =>
      rw [move_of_no_actor ha]
      exact .refl _
  | start purpose called =>
    simp only [move]
    split
    · next hw =>
      rw [look_of_wants hw]
      split
      · rw [startCall_tracker]; exact .refl _
      · rw [startTask_tracker]; exact .refl _
    · exact .refl _
  | resume =>
    simp only [move]
    split
    · split
      · rw [startBackground_tracker]; exact .refl _
      · exact .refl _
    · exact .refl _
  | call c => exact s.tracker.call_steady c
  | wait | stop | drop => exact .refl _

/-- A move that ends an attempt does to the tracker what the answer does to it. -/
theorem move_of_answered (h : s.answered? m = some answer) :
    (s.tracker.conclude s.now answer).2.Steady (s.move m).tracker ∨
      (∃ count, (s.tracker.conclude s.now answer).1 = .error (.missingSegments count)) ∧
        (s.tracker.conclude s.now answer).2.demandFull.Steady (s.move m).tracker := by
  obtain ⟨t, hactor, hanswer⟩ := Option.bind_eq_some_iff.1 h
  obtain ⟨f, _, _, hstep⟩ := step_of_answer hanswer
  rw [move_of_actor hactor, hstep]
  exact finishFetch_steady t f answer

/-- Data that are installed have been read and, if they are a delta update, completed. -/
theorem move_of_installs {data : List UInt8} (h : s.installs? m = some data) :
    s.answered? m = some (.ok data) ∧ ∃ r complete, s.tracker.readSnapshot data = .ok r ∧
      s.tracker.completeDelta r = .ok complete ∧
      (s.tracker.install s.now complete).Steady (s.move m).tracker := by
  simp only [installs?] at h
  split at h
  · next body hanswered =>
    rcases s.tracker.conclude_cases s.now (.ok body) with ⟨e, he, _⟩ |
      ⟨_, r, complete, hbody, hr, hc, heq⟩
    · simp [he] at h
    · simp only [heq, Option.some.injEq] at h
      cases hbody
      cases h
      refine ⟨hanswered, r, complete, hr, hc, ?_⟩
      have hsteady := move_of_answered hanswered
      rw [heq] at hsteady
      rcases hsteady with hsteady | ⟨⟨count, hcount⟩, _⟩
      · exact hsteady
      · cases hcount
  · cases h

theorem installing_of_ok (ha : s.answered? m = some answer)
    (hok : (s.tracker.conclude s.now answer).1 = .ok ()) : s.installing m = true := by
  rcases s.tracker.conclude_cases s.now answer with ⟨e, he, _⟩ | ⟨_, _, _, rfl, _, _, heq⟩
  · rw [he] at hok
    cases hok
  · simp [installing, installs?, ha, heq]

theorem ends_of_answered (h : s.answered? m = some answer) (hne : answer ≠ .error .interrupted) :
    s.ends m = true := by
  rw [ends, h]
  split
  · next heq => exact absurd (Option.some.inj heq) hne
  · next heq => cases heq
  · rfl

/-- What is recorded after a move that ends an attempt is what the answer leaves recorded. -/
theorem move_record (h : s.answered? m = some answer) :
    (s.move m).tracker.reload.lastLoad = (s.tracker.conclude s.now answer).2.reload.lastLoad ∧
      (s.move m).tracker.reload.failingSince =
        (s.tracker.conclude s.now answer).2.reload.failingSince := by
  rcases move_of_answered h with hsteady | ⟨_, hsteady⟩
  · rw [hsteady.reload]
    exact ⟨rfl, rfl⟩
  · rw [hsteady.reload]
    exact ⟨rfl, rfl⟩

/-- All that a move can do to the record of loads. -/
inductive Logged (s : Session) (m : Move) : Prop where
  /-- No attempt ends, or one that was interrupted. -/
  | silent (ends : s.ends m = false) (installing : s.installing m = false)
    (lastLoad : (s.move m).tracker.reload.lastLoad = s.tracker.reload.lastLoad)
    (failingSince : (s.move m).tracker.reload.failingSince = s.tracker.reload.failingSince)
  | failed (ends : s.ends m = true) (installing : s.installing m = false)
    (lastLoad : (s.move m).tracker.reload.lastLoad = some s.now)
    (failingSince : (s.move m).tracker.reload.failingSince =
      some (s.tracker.reload.failingSince.getD s.now))
  | succeeded (ends : s.ends m = true) (installing : s.installing m = true)
    (lastLoad : (s.move m).tracker.reload.lastLoad = some s.now)
    (failingSince : (s.move m).tracker.reload.failingSince = none)

/-- Every move does one of these things to the record of loads. -/
theorem move_logged (s : Session) (m : Move) : s.Logged m := by
  cases ha : s.answered? m with
  | none =>
    have hsame := (move_steady ha).reload
    exact .silent (by simp [ends, ha]) (by simp [installing, installs?, ha]) (by rw [hsame])
      (by rw [hsame])
  | some answer =>
    obtain ⟨hlast, hfailing⟩ := move_record ha
    by_cases hinterrupted : answer = .error .interrupted
    · rw [hinterrupted, Tracker.conclude_interrupted] at hlast hfailing
      exact .silent (by simp [ends, ha, hinterrupted])
        (by simp [installing, installs?, ha, hinterrupted]) hlast hfailing
    · have hends := ends_of_answered ha hinterrupted
      rcases s.tracker.conclude_cases s.now answer with ⟨e, he, _⟩ | ⟨_, _, complete, _, _, _, heq⟩
      · rw [Tracker.conclude_eq_recordFailure hinterrupted he] at hlast hfailing
        have hnot : s.installing m = false := by
          rw [installing, installs?, ha]
          split
          · next data hdata =>
            cases hdata
            rw [he]
            rfl
          · rfl
        exact .failed hends hnot hlast hfailing
      · obtain ⟨_, _, hmoment, hnone, _⟩ := s.tracker.install_record s.now complete
        have hok : (s.tracker.conclude s.now answer).1 = .ok () := by rw [heq]
        rw [heq] at hlast hfailing
        exact .succeeded hends (installing_of_ok ha hok) (hlast.trans hmoment) (hfailing.trans hnone)

/-- The settings and what is known about the playlist never change. -/
theorem move_descriptor_config (s : Session) (m : Move) :
    (s.move m).tracker.descriptor = s.tracker.descriptor ∧
      (s.move m).tracker.config = s.tracker.config := by
  cases ha : s.answered? m with
  | none =>
    have hsteady := move_steady ha
    exact ⟨hsteady.descriptor, hsteady.config⟩
  | some answer =>
    have hconclude : (s.tracker.conclude s.now answer).2.descriptor = s.tracker.descriptor ∧
        (s.tracker.conclude s.now answer).2.config = s.tracker.config := by
      rcases s.tracker.conclude_cases s.now answer with ⟨_, _, hu⟩ | ⟨_, _, complete, _, _, _, heq⟩
      · exact ⟨hu.descriptor, hu.config⟩
      · rw [heq]
        have hinstall := s.tracker.install_record s.now complete
        exact ⟨hinstall.1, hinstall.2.1⟩
    rcases move_of_answered ha with hsteady | ⟨_, hsteady⟩
    · exact ⟨hsteady.descriptor.trans hconclude.1, hsteady.config.trans hconclude.2⟩
    · exact ⟨hsteady.descriptor.trans hconclude.1, hsteady.config.trans hconclude.2⟩

/-- A run changes neither what the tracker follows nor its settings. -/
theorem run_descriptor_config (s : Session) (moves : List Move) :
    (s.run moves).tracker.descriptor = s.tracker.descriptor ∧
      (s.run moves).tracker.config = s.tracker.config := by
  induction moves generalizing s with
  | nil => exact ⟨rfl, rfl⟩
  | cons m rest ih =>
    have hmove := s.move_descriptor_config m
    have hrest := ih (s.move m)
    exact ⟨hrest.1.trans hmove.1, hrest.2.trans hmove.2⟩

/-- Where no data are installed the snapshot stays, and whether it is marked as unchanged. -/
theorem move_of_installs_none (h : s.installs? m = none) :
    (s.move m).tracker.snapshot = s.tracker.snapshot ∧
      (s.move m).tracker.reload.unchanged = s.tracker.reload.unchanged := by
  cases ha : s.answered? m with
  | none =>
    have hsteady := move_steady ha
    exact ⟨hsteady.snapshot, by rw [hsteady.reload]⟩
  | some answer =>
    rcases s.tracker.conclude_cases s.now answer with ⟨e, _, hu⟩ | ⟨_, _, _, rfl, _, _, heq⟩
    · rcases move_of_answered ha with hsteady | ⟨_, hsteady⟩
      · rw [hsteady.snapshot, hsteady.reload]
        exact ⟨hu.snapshot, hu.unchanged⟩
      · rw [hsteady.snapshot, hsteady.reload]
        exact ⟨hu.snapshot, hu.unchanged⟩
    · simp [installs?, ha, heq] at h

theorem move_snapshot_of_installs_none (h : s.installs? m = none) :
    (s.move m).tracker.snapshot = s.tracker.snapshot :=
  (move_of_installs_none h).1

/-- Without a new snapshot the old one stays, and so does what is known of its changes. -/
theorem run_of_installed_nil (h : s.installed moves = []) :
    (s.run moves).tracker.snapshot = s.tracker.snapshot ∧
      (s.run moves).tracker.reload.unchanged = s.tracker.reload.unchanged := by
  induction moves generalizing s with
  | nil => exact ⟨rfl, rfl⟩
  | cons m rest ih =>
    rw [installed_cons, List.append_eq_nil_iff, Option.toList_eq_nil_iff,
      Option.map_eq_none_iff] at h
    have hmove := move_of_installs_none h.1
    have hrest := ih h.2
    exact ⟨hrest.1.trans hmove.1, hrest.2.trans hmove.2⟩

end Session

end AdaptiveHls
