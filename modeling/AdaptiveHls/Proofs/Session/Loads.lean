import AdaptiveHls.Proofs.Tracker.Attempts
import AdaptiveHls.Proofs.Tracker.Runs
import AdaptiveHls.Tracker.Session

/-!
# Steps of loads

Besides the calls of its user, only the steps of loads change the tracker of a session. A load has one
attempt, or two if the first one brings a delta update that cannot be used, and `ending?` says with
which step it ends and how. The tracker goes through the events of the attempts, one after the other.
-/

namespace AdaptiveHls

def Event.ofLoad : Event → Bool
  | .call .look | .takeInitial | .request _ _ | .conclude _ _ | .demandFull => true
  | .call _ => false

namespace Session

variable {s : Session} {t : Task} {f : Fetch}

/-- What has come of a request once waiting for it is over. -/
def received (s : Session) (f : Fetch) : Except Failure (List UInt8) :=
  if f.arrives ≤ s.now then f.content else .error .timedOut

/-- How the next step of a task ends its load, if it does. -/
def ending? (s : Session) (t : Task) : Option (Except Failure Unit) :=
  match t.activity with
  | .waiting => if s.isCancelled t then some (.error .interrupted) else none
  | .fetching f =>
    if s.isCancelled t then some (.error .interrupted)
    else
      match (s.tracker.conclude s.now (s.received f)).1 with
      | .error (.missingSegments count) =>
        if f.full then some (.error (.missingSegments count)) else none
      | result => some result
  | _ => none

/-- A load that is not interrupted ends with an attempt, and as the attempt does. -/
theorem exists_fetch_of_ending {result : Except Failure Unit} (h : s.ending? t = some result)
    (hresult : result ≠ .error .interrupted) :
    ∃ f, t.activity = .fetching f ∧ s.isCancelled t = false ∧
      (s.tracker.conclude s.now (s.received f)).1 = result := by
  cases hactivity : t.activity with
  | waiting =>
    simp only [ending?, hactivity] at h
    split at h
    · exact absurd (Option.some.inj h).symm hresult
    · cases h
  | fetching f =>
    simp only [ending?, hactivity] at h
    split at h
    · exact absurd (Option.some.inj h).symm hresult
    · next hgoing =>
      refine ⟨f, rfl, by simpa using hgoing, ?_⟩
      split at h
      · next count hcount =>
        split at h
        · exact hcount.trans (Option.some.inj h)
        · cases h
      · exact Option.some.inj h
  | _ => simp [ending?, hactivity] at h

/-! ## What does not change the tracker -/

@[simp] theorem setTask_tracker (t : Task) : (s.setTask t).tracker = s.tracker := rfl
@[simp] theorem removeTask_tracker (id : Nat) : (s.removeTask id).tracker = s.tracker := rfl
@[simp] theorem addTask_tracker (purpose : Purpose) (activity : Activity) :
    (s.addTask purpose activity).tracker = s.tracker := rfl

@[simp] theorem leave_tracker (id : Nat) : (s.leave id).tracker = s.tracker := by
  simp only [leave]
  split <;> rfl

@[simp] theorem enter_tracker (id : Nat) : (s.enter id).tracker = s.tracker := by
  simp only [enter]
  split <;> rfl

@[simp] theorem startLoad_tracker (t : Task) : (s.startLoad t).tracker = s.tracker := by
  simp [startLoad]

@[simp] theorem startTask_tracker (purpose : Purpose) :
    (s.startTask purpose).tracker = s.tracker := by
  simp [startTask]

@[simp] theorem startCall_tracker (purpose : Purpose) :
    (s.startCall purpose).tracker = s.tracker := by
  simp [startCall]

@[simp] theorem startBackground_tracker : s.startBackground.tracker = s.tracker := by
  have fold : ∀ (ts : List Task) (s : Session),
      (ts.foldl (fun s t => (s.leave t.id).removeTask t.id) s).tracker = s.tracker := by
    intro ts
    induction ts with
    | nil => intro s; rfl
    | cons t rest ih => intro s; rw [List.foldl_cons, ih]; simp
  simp [startBackground, fold]

/-! ## What does -/

/-- Only a load for the sake of the segment at the cursor looks at the cursor in the end. -/
theorem finishLoad_tracker (t : Task) (result : Except Failure Unit) :
    (s.finishLoad t result).tracker =
      match t.purpose, result with
      | .current, .ok () => s.tracker.segmentAtCursor.2
      | _, _ => s.tracker := by
  cases result with
  | error e =>
    cases hp : t.purpose <;> simp only [finishLoad, hp, setTask_tracker, leave_tracker]
    cases e <;> simp
  | ok _ =>
    cases hp : t.purpose <;> simp only [finishLoad, hp, setTask_tracker, leave_tracker]
    · split <;> simp
    · split <;> simp

theorem finishLoad_error_tracker (t : Task) (e : Failure) :
    (s.finishLoad t (.error e)).tracker = s.tracker := by
  rw [finishLoad_tracker]
  split
  · contradiction
  · rfl

theorem startFetch_tracker (t : Task) (full : Bool) :
    (s.startFetch t full).tracker =
      if s.tracker.initial.isSome then s.tracker.takeInitial.2
      else (s.tracker.nextRequest s.now full).2 := by
  simp only [startFetch]
  cases hi : s.tracker.initial with
  | some data => simp [Tracker.takeInitial, hi]
  | none => simp [Tracker.takeInitial, hi]

def attempt (s : Session) (full : Bool) : Event :=
  if s.tracker.initial.isSome then .takeInitial else .request s.now full

theorem attempt_ofLoad (full : Bool) : (s.attempt full).ofLoad = true := by
  rw [attempt]
  split <;> rfl

theorem startFetch_run (t : Task) (full : Bool) :
    (s.startFetch t full).tracker = s.tracker.run [s.attempt full] := by
  rw [startFetch_tracker, attempt]
  split <;> rfl

/-- All that a step of a task can do. -/
inductive Stepped (s : Session) (t : Task) : Prop where
  | between (ending : s.ending? t = none) (same : (s.step t).tracker = s.tracker)
  | interrupted (ending : s.ending? t = some (.error .interrupted))
    (step : s.step t = s.finishLoad t (.error .interrupted))
  | begun (full : Bool) (ending : s.ending? t = none) (step : s.step t = s.startFetch t full)
  | retried (answer : Except Failure (List UInt8)) (count : Nat) (ending : s.ending? t = none)
    (failed : (s.tracker.conclude s.now answer).1 = .error (.missingSegments count))
    (step : s.step t =
      { s with tracker := (s.tracker.conclude s.now answer).2.demandFull }.startFetch t true)
  | ended (answer : Except Failure (List UInt8))
    (ending : s.ending? t = some (s.tracker.conclude s.now answer).1)
    (step : s.step t =
      { s with tracker := (s.tracker.conclude s.now answer).2 }.finishLoad t
        (s.tracker.conclude s.now answer).1)

/-- A task that waits for an answer takes what has come of it. -/
theorem stepped_fetching (t : Task) (f : Fetch) (ht : t.activity = .fetching f)
    (hgoing : s.isCancelled t = false) : s.Stepped t := by
  have hstep : s.step t = s.finishFetch t f (s.received f) := by
    simp only [step, ht, hgoing, received, Bool.false_eq_true, if_false]
    split <;> rfl
  have hending : s.ending? t =
      match (s.tracker.conclude s.now (s.received f)).1 with
      | .error (.missingSegments count) =>
        if f.full then some (.error (.missingSegments count)) else none
      | result => some result := by
    simp only [ending?, ht, hgoing, Bool.false_eq_true, if_false]
  rw [finishFetch] at hstep
  split at hstep
  · next count tracker hr =>
    rw [hr] at hending
    by_cases hfull : f.full = true
    · refine .ended (s.received f) ?_ ?_
      · rw [hending, hr]; exact if_pos hfull
      · rw [hstep, hr]; exact if_pos hfull
    · refine .retried (s.received f) count ?_ (by rw [hr]) ?_
      · rw [hending]; exact if_neg hfull
      · rw [hstep, hr]; exact if_neg hfull
  · next result tracker hother hr =>
    refine .ended (s.received f) ?_ (by rw [hstep, hr])
    rw [hending, hr]
    split
    · next count => exact (hother _ (by assumption)).elim
    · rfl

/-- Every step of a task is one of these. -/
theorem step_cases (s : Session) (t : Task) : s.Stepped t := by
  cases ht : t.activity with
  | planning =>
    refine .between (by simp [ending?, ht]) ?_
    simp [step, ht]
  | resting moment =>
    refine .between (by simp [ending?, ht]) ?_
    simp only [step, ht]
    split
    · rfl
    · split
      · exact startLoad_tracker t
      · rfl
  | pausing moment =>
    refine .between (by simp [ending?, ht]) ?_
    simp only [step, ht]
    split
    · rfl
    · exact startLoad_tracker t
  | waiting =>
    cases hc : s.isCancelled t with
    | true => exact .interrupted (by simp [ending?, ht, hc]) (by simp [step, ht, hc])
    | false =>
      exact .begun (t.purpose = .init) (by simp [ending?, ht, hc]) (by simp [step, ht, hc])
  | fetching f =>
    cases hc : s.isCancelled t with
    | true => exact .interrupted (by simp [ending?, ht, hc]) (by simp [step, ht, hc])
    | false => exact stepped_fetching t f ht hc
  | finished o => exact .between (by simp [ending?, ht]) (by simp [step, ht])

/-- What a step does to the tracker are events of a load. -/
theorem step_run (s : Session) (t : Task) :
    ∃ events, (∀ e ∈ events, e.ofLoad = true) ∧ (s.step t).tracker = s.tracker.run events := by
  cases s.step_cases t with
  | between _ same => exact ⟨[], by simp, same⟩
  | interrupted _ step => exact ⟨[], by simp, by rw [step, finishLoad_error_tracker]; rfl⟩
  | begun full _ step =>
    exact ⟨[s.attempt full], by simp [attempt_ofLoad], by rw [step, startFetch_run]⟩
  | retried answer count _ _ step =>
    refine ⟨.conclude s.now answer :: .demandFull ::
      [{ s with tracker := (s.tracker.conclude s.now answer).2.demandFull }.attempt true], ?_, ?_⟩
    · simp only [List.forall_mem_cons]
      exact ⟨rfl, rfl, attempt_ofLoad true, by simp⟩
    · rw [step, startFetch_run]
      rfl
  | ended answer _ step =>
    rw [step, finishLoad_tracker]
    split
    · exact ⟨[.conclude s.now answer, .call .look], by simp [Event.ofLoad], rfl⟩
    · exact ⟨[.conclude s.now answer], by simp [Event.ofLoad], rfl⟩

theorem startFetch_untouched {u : Tracker} (h : u.Untouched s.tracker) (t : Task) (full : Bool) :
    u.Untouched (s.startFetch t full).tracker := by
  rw [startFetch_tracker]
  split
  · exact h.trans s.tracker.takeInitial_untouched
  · exact h.trans (s.tracker.nextRequest_untouched s.now full)

/-- A step of a load that does not end it well touches nothing. -/
theorem step_untouched (s : Session) (t : Task) (h : s.ending? t ≠ some (.ok ())) :
    s.tracker.Untouched (s.step t).tracker := by
  cases s.step_cases t with
  | between _ same => rw [same]; exact .refl _
  | interrupted _ step => rw [step, finishLoad_error_tracker]; exact .refl _
  | begun full _ step => rw [step]; exact startFetch_untouched (.refl _) t full
  | retried answer count _ failed step =>
    rw [step]
    apply startFetch_untouched
    exact (Tracker.conclude_untouched failed).trans (Tracker.demandFull_untouched _)
  | ended answer ending step =>
    cases hr : (s.tracker.conclude s.now answer).1 with
    | ok _ => rw [ending, hr] at h; exact absurd rfl h
    | error e =>
      rw [step, hr, finishLoad_error_tracker]
      exact Tracker.conclude_untouched hr

end Session

end AdaptiveHls
