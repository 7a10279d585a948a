import AdaptiveHls.Proofs.Session.Turns
import AdaptiveHls.Proofs.Url.Query

/-!
# The pace of the background loop

The background task loads, rests, and loads again. How long it rests is settled when a load has
ended, by the snapshot and the record of loads, and these stay until its next load, as nobody else
loads in between. It does not rest at all if the next request is held by the server, or if a delta
update was refused and the whole playlist is wanted at once; otherwise loads are kept apart, also
where a wake-up ends the rest.
-/

namespace AdaptiveHls

namespace Reload

/-- Whether circumstances are such that the next load follows at once. -/
def Circumstances.hurried (c : Circumstances) : Bool :=
  c.needsFull || (c.blocking && !c.failed && !c.unchanged)

theorem interval_of_hurried {r : Rendition} {c : Circumstances} {config : TrackerConfig}
    (h : c.hurried = true) : interval r c config = 0 :=
  if_pos h

theorem le_interval {r : Rendition} {c : Circumstances} {config : TrackerConfig}
    (h : c.hurried = false) : nanosecondsOfMs config.minReloadInterval ≤ interval r c config := by
  have hnot : ¬ (c.needsFull || (c.blocking && !c.failed && !c.unchanged)) = true := by
    rw [← Circumstances.hurried, h]
    decide
  rw [interval, if_neg hnot]
  exact Nat.le_max_right _ _

end Reload

namespace Tracker

variable {t u : Tracker} {r : Rendition}

def willBlock (t : Tracker) (r : Rendition) : Bool :=
  r.serverControl.canBlock && (Reload.nextTarget? r).isSome && !t.reload.failingSince.isSome &&
    !t.reload.unchanged

def hurries (t : Tracker) : Bool :=
  t.snapshot.any fun r => t.reload.needsFull || t.willBlock r

theorem Steady.hurries (h : Steady t u) : u.hurries = t.hurries := by
  simp only [Tracker.hurries, willBlock, h.snapshot, h.reload]

/-- A wait that is planned keeps loads apart, if there is one. -/
theorem le_reloadInterval (hsnapshot : t.snapshot.isSome) (h : t.hurries = false) (now : Nat) :
    Reload.nanosecondsOfMs t.config.minReloadInterval ≤ t.reloadInterval now := by
  obtain ⟨r, hr⟩ := Option.isSome_iff_exists.1 hsnapshot
  simp only [hurries, willBlock, hr, Option.any_some] at h
  simp only [reloadInterval, hr]
  refine Reload.le_interval ?_
  rw [Reload.Circumstances.hurried, ← h]

theorem reloadInterval_of_needsFull (h : t.reload.needsFull = true) (now : Nat) :
    t.reloadInterval now = 0 := by
  cases hr : t.snapshot with
  | none => simp only [reloadInterval, hr]
  | some r =>
    simp only [reloadInterval, hr]
    exact Reload.interval_of_hurried (by simp [Reload.Circumstances.hurried, h])

/-- A live playlist whose server can hold requests is asked to wait unless nothing new has come. -/
theorem target_nextRequest (hr : t.snapshot = some r) (hlive : r.live = true)
    (hblock : r.serverControl.canBlock = true) (htarget : (Reload.nextTarget? r).isSome = true)
    (now : Nat) (full : Bool) :
    (t.nextRequest now full).1.target.isSome = (!t.reload.unchanged) ∧
      (t.nextRequest now full).1.url.asksToWait = (!t.reload.unchanged) := by
  simp only [nextRequest, hr, hlive, hblock, Bool.not_true, Bool.false_eq_true, if_false,
    Bool.true_and, Reload.asksToWait_requestUrl, and_self]
  cases t.reload.unchanged with
  | true => rfl
  | false =>
    cases Reload.reportedTarget? r t.reports with
    | some target => rfl
    | none => exact htarget

/-- The address of a request that will be held says so. -/
theorem asksToWait_nextRequest (hr : t.snapshot = some r) (hlive : r.live = true)
    (h : t.willBlock r = true) (now : Nat) (full : Bool) :
    (t.nextRequest now full).1.url.asksToWait = true := by
  simp only [willBlock, Bool.and_eq_true] at h
  obtain ⟨⟨⟨hblock, htarget⟩, _⟩, hchanged⟩ := h
  rw [(target_nextRequest hr hlive hblock htarget now full).2, hchanged]

end Tracker

namespace Session

variable {s u : Session} {t : Task} {m : Move} {ended : Nat} {start : Tracker}

def loopEnds? (s : Session) (m : Move) : Option (Except Failure Unit) :=
  (s.actor? m).bind fun t => if t.purpose = .background then s.ending? t else none

def loopStarts (s : Session) (m : Move) : Bool :=
  (s.actor? m).any fun t =>
    t.purpose = .background && t.isLoading && !t.isFetching && !s.isCancelled t

def loopRests (s : Session) : List Move → Bool
  | [] => true
  | m :: rest => !s.loopStarts m && (s.move m).loopRests rest

/-- Whether a task keeps the pace that `start` asks for after a load that ended then. -/
def Paced (ended : Nat) (start : Tracker) (now : Nat) (t : Task) : Prop :=
  match t.activity with
  | .planning => True
  | .resting moment => start.hurries = true ∨ ended + start.config.minReloadInterval ≤ moment
  | .pausing moment => ended + start.config.minReloadInterval ≤ moment
  | .waiting => start.hurries = true ∨ ended + start.config.minReloadInterval ≤ now
  | .fetching _ => False
  | .finished _ => True

theorem Paced.later {now later : Nat} (h : Paced ended start now t) (hle : now ≤ later) :
    Paced ended start later t := by
  rcases t with ⟨id, purpose, period, activity⟩
  cases activity with
  | waiting => exact h.imp_right fun h => Nat.le_trans h hle
  | _ => exact h

theorem Paced.of_isFinished {now : Nat} (h : t.isFinished = true) : Paced ended start now t := by
  rcases t with ⟨id, purpose, period, activity⟩
  cases activity with
  | finished o => trivial
  | _ => cases h

/-- What holds between two loads of the background task: the snapshot and the record are those that
the first one left, and all that goes on is the rest. -/
structure Between (ended : Nat) (start : Tracker) (s : Session) : Prop where
  now : ended ≤ s.now
  steady : start.Steady s.tracker
  spent : s.tracker.initial = none
  paced : ∀ t ∈ s.tasks, Paced ended start s.now t
  background : ∀ t ∈ s.tasks, t.isFinished = false → t.purpose = .background ∧
    (start.reload.failingSince = none → start.isLive = true)

/-- What holds between two loads goes on to hold if the tasks that are there keep the pace. -/
theorem Between.of_tasks (h : s.Between ended start) (hnow : s.now ≤ u.now)
    (hsteady : s.tracker.Steady u.tracker) (hspent : u.tracker.initial = none)
    (htasks : ∀ t ∈ u.tasks, t ∈ s.tasks ∨ Paced ended start u.now t ∧
      (t.isFinished = false → t.purpose = .background ∧
        (start.reload.failingSince = none → start.isLive = true))) :
    u.Between ended start where
  now := Nat.le_trans h.now hnow
  steady := h.steady.trans hsteady
  spent := hspent
  paced t ht := by
    rcases htasks t ht with hold | ⟨hpaced, _⟩
    · exact (h.paced t hold).later hnow
    · exact hpaced
  background t ht := by
    rcases htasks t ht with hold | ⟨_, hbackground⟩
    · exact h.background t hold
    · exact hbackground

/-- A task goes on to something that keeps the pace. -/
theorem Between.setTask (h : s.Between ended start) (ht : t ∈ s.tasks) (hgoing : t.isFinished = false)
    {v : Task} (hpurpose : v.purpose = t.purpose) (hv : Paced ended start s.now v) :
    (s.setTask v).Between ended start := by
  refine h.of_tasks (Nat.le_refl _) (.refl _) h.spent fun w hw => ?_
  rcases mem_setTask hw with rfl | ⟨hold, _⟩
  · exact .inr ⟨hv, fun _ => hpurpose ▸ h.background t ht hgoing⟩
  · exact .inl hold

theorem Between.removeTask (h : s.Between ended start) (id : Nat) :
    (s.removeTask id).Between ended start :=
  h.of_tasks (Nat.le_refl _) (.refl _) h.spent fun _ ht => .inl (mem_removeTask.1 ht).1

theorem le_after {least nanoseconds : Nat} (h : Reload.nanosecondsOfMs least ≤ nanoseconds) :
    s.now + least ≤ s.after nanoseconds := by
  simp only [after, Reload.nanosecondsOfMs] at h ⊢
  omega

/-- Planning keeps the pace. -/
theorem Between.le_planned (h : s.Between ended start) (hsnapshot : start.snapshot.isSome) :
    start.hurries = true ∨ ended + start.config.minReloadInterval ≤
      s.after (s.tracker.reloadInterval s.now) := by
  by_cases hhurries : start.hurries = true
  · exact .inl hhurries
  · have hsame : s.tracker.hurries = false := by
      rw [h.steady.hurries]
      simpa using hhurries
    have hinterval := Tracker.le_reloadInterval (h.steady.snapshot ▸ hsnapshot) hsame s.now
    rw [h.steady.config] at hinterval
    have := s.le_after hinterval
    have := h.now
    exact .inr (by omega)

/-- A wake-up keeps the pace. -/
theorem Between.le_woken (h : s.Between ended start) (hload : start.reload.lastLoad = some ended) :
    ended + start.config.minReloadInterval ≤ s.now + s.tracker.wakeUpDelay s.now := by
  have helapsed : s.tracker.reload.elapsed s.now = some (s.now - ended) := by
    rw [h.steady.reload, ReloadState.elapsed, hload]
    rfl
  have := h.now
  simp only [Tracker.wakeUpDelay, helapsed, h.steady.config]
  omega

theorem Between.enter (h : s.Between ended start) (id : Nat) : (s.enter id).Between ended start :=
  h.of_tasks (by rw [enter_now]) (by rw [enter_tracker]; exact .refl _)
    (by rw [enter_tracker]; exact h.spent) fun _ ht => .inl (enter_tasks (s := s) id ▸ ht)

theorem Between.leave (h : s.Between ended start) (id : Nat) : (s.leave id).Between ended start :=
  h.of_tasks (by rw [leave_now]) (by rw [leave_tracker]; exact .refl _)
    (by rw [leave_tracker]; exact h.spent) fun _ ht => .inl (leave_tasks (s := s) id ▸ ht)

theorem Between.startLoad (h : s.Between ended start) (ht : t ∈ s.tasks)
    (hgoing : t.isFinished = false)
    (hpace : start.hurries = true ∨ ended + start.config.minReloadInterval ≤ s.now) :
    (s.startLoad t).Between ended start := by
  refine (h.enter t.id).setTask (t := t) (by rw [enter_tasks]; exact ht) hgoing rfl ?_
  rw [enter_now]
  exact hpace

/-- A background task that takes the place of another keeps the pace. -/
theorem Between.startBackground (h : s.Between ended start) (hlive : s.tracker.isLive = true) :
    s.startBackground.Between ended start := by
  refine h.of_tasks (by rw [startBackground_now]) (by rw [startBackground_tracker]; exact .refl _)
    (by rw [startBackground_tracker]; exact h.spent) fun v hv => ?_
  rcases mem_startBackground hv with ⟨hold, _⟩ | ⟨hpurpose, hactivity⟩
  · exact .inl hold
  · refine .inr ⟨by simp [Paced, hactivity], fun _ => ⟨hpurpose, fun _ => ?_⟩⟩
    rw [← h.steady.isLive]
    exact hlive

/-- Until the next load of the background task begins, every step keeps the pace. -/
theorem Between.step (h : s.Between ended start) (hsnapshot : start.snapshot.isSome)
    (hload : start.reload.lastLoad = some ended) (ht : t ∈ s.tasks) (hcan : s.canStep t = true)
    (hrests : (t.purpose = .background && t.isLoading && !t.isFetching && !s.isCancelled t) = false) :
    (s.step t).Between ended start := by
  have hpaced := h.paced t ht
  rw [Paced] at hpaced
  cases hactivity : t.activity with
  | planning =>
    simp only [Session.step, hactivity]
    exact h.setTask ht (by simp [Task.isFinished, hactivity]) rfl (h.le_planned hsnapshot)
  | resting moment =>
    have hgoing : t.isFinished = false := by simp [Task.isFinished, hactivity]
    simp only [hactivity] at hpaced
    simp only [Session.step, hactivity]
    split
    · exact h.removeTask t.id
    · split
      · next hmoment =>
        refine h.startLoad ht hgoing ?_
        exact hpaced.imp_right fun hpaced => Nat.le_trans hpaced hmoment
      · have hwoken : { s with wakeUp := false }.Between ended start :=
          h.of_tasks (Nat.le_refl _) (.refl _) h.spent fun _ ht => .inl ht
        exact hwoken.setTask ht hgoing rfl (h.le_woken hload)
  | pausing moment =>
    have hgoing : t.isFinished = false := by simp [Task.isFinished, hactivity]
    simp only [hactivity] at hpaced
    simp only [Session.step, hactivity]
    split
    · exact h.removeTask t.id
    · next hcancelled =>
      have hmoment : moment ≤ s.now := by simpa [canStep, hactivity, hcancelled] using hcan
      exact h.startLoad ht hgoing (.inr (Nat.le_trans hpaced hmoment))
  | waiting =>
    have hpurpose := (h.background t ht (by simp [Task.isFinished, hactivity])).1
    have hcancelled : s.isCancelled t = true := by
      simpa [hpurpose, Task.isLoading, Task.isFetching, hactivity] using hrests
    simp only [Session.step, hactivity, hcancelled, if_true]
    cases s.finishLoad_cases t (.error .interrupted) with
    | told _ _ _ hother => exact absurd hpurpose hother
    | begun hother => exact absurd hpurpose hother
    | again _ hresult => exact absurd rfl hresult
    | ended _ heq =>
      rw [heq]
      exact (h.leave t.id).removeTask t.id
  | fetching f => simp only [hactivity] at hpaced
  | finished o =>
    simp only [Session.step, hactivity]
    exact h

/-- Until the next load of the background task begins, every move keeps the pace. -/
theorem Between.move (h : s.Between ended start) (hsnapshot : start.snapshot.isSome)
    (hload : start.reload.lastLoad = some ended) (hm : m.isReload = false)
    (hrests : s.loopStarts m = false) : (s.move m).Between ended start := by
  cases m with
  | proceed place =>
    cases hactor : s.actor? (.proceed place) with
    | none =>
      rw [move_of_no_actor hactor]
      exact h
    | some t =>
      obtain ⟨ht, hcan⟩ := mem_of_actor hactor
      rw [loopStarts, hactor, Option.any_some] at hrests
      rw [move_of_actor hactor]
      exact h.step hsnapshot hload ht hcan hrests
  | start purpose called =>
    have hunwanted : s.wants purpose = false := by
      cases purpose with
      | init =>
        obtain ⟨r, hr⟩ := Option.isSome_iff_exists.1 (h.steady.snapshot ▸ hsnapshot)
        simp [wants, hr]
      | background => rfl
      | reload | current => cases hm
    simp only [Session.move, hunwanted, Bool.false_eq_true, if_false]
    exact h
  | resume =>
    simp only [Session.move]
    split
    · split
      · next hlive =>
        have hresumed : { s with interrupted := false, period := s.period + 1 }.Between ended start :=
          h.of_tasks (Nat.le_refl _) (.refl _) h.spent fun _ ht => .inl ht
        exact hresumed.startBackground hlive
      · exact h.of_tasks (Nat.le_refl _) (.refl _) h.spent fun _ ht => .inl ht
    · exact h
  | call c =>
    exact h.of_tasks (Nat.le_refl _) (s.tracker.call_steady c)
      ((s.tracker.call_onward c).initial h.spent) fun _ ht => .inl ht
  | drop id => exact h.removeTask id
  | wait ms => exact h.of_tasks (Nat.le_add_right _ _) (.refl _) h.spent fun _ ht => .inl ht
  | stop => exact h.of_tasks (Nat.le_refl _) (.refl _) h.spent fun _ ht => .inl ht

/-- A whole run without a load of the background task leaves its pace as it was. -/
theorem Between.run (h : s.Between ended start) (hsnapshot : start.snapshot.isSome)
    (hload : start.reload.lastLoad = some ended) {moves : List Move}
    (hmoves : ∀ m ∈ moves, m.isReload = false) (hrests : s.loopRests moves = true) :
    (s.run moves).Between ended start := by
  induction moves generalizing s with
  | nil => exact h
  | cons m rest ih =>
    obtain ⟨hm, hrest⟩ := List.forall_mem_cons.1 hmoves
    simp only [loopRests, Bool.and_eq_true, Bool.not_eq_true'] at hrests
    exact ih (h.move hsnapshot hload hm hrests.1) hrest hrests.2

/-- A load of the background task ends with an attempt that was not interrupted. -/
theorem exists_answer {result : Except Failure Unit} (h : s.loopEnds? m = some result)
    (hresult : result ≠ .error .interrupted) :
    ∃ t f answer, s.actor? m = some t ∧ t.purpose = .background ∧ t.activity = .fetching f ∧
      answer ≠ .error .interrupted ∧ (s.tracker.conclude s.now answer).1 = result ∧
      s.step t = { s with tracker := (s.tracker.conclude s.now answer).2 }.finishLoad t result := by
  obtain ⟨t, hactor, hending⟩ := Option.bind_eq_some_iff.1 h
  split at hending
  · next hpurpose =>
    obtain ⟨f, hactivity, _, _⟩ := exists_fetch_of_ending hending hresult
    cases s.step_cases t with
    | between ending => cases hending.symm.trans ending
    | begun _ ending => cases hending.symm.trans ending
    | retried _ _ ending => cases hending.symm.trans ending
    | interrupted ending =>
      exact absurd (Option.some.inj (hending.symm.trans ending)) hresult
    | ended answer ending step =>
      have hconclude := Option.some.inj (hending.symm.trans ending)
      refine ⟨t, f, answer, hactor, hpurpose, hactivity, ?_, hconclude.symm, hconclude ▸ step⟩
      rintro rfl
      exact hresult hconclude
  · cases hending

/-- After a load the background task plans the next one or is gone. -/
theorem finishLoad_of_background (hpurpose : t.purpose = .background)
    (result : Except Failure Unit) :
    (s.finishLoad t result).tracker = s.tracker ∧ (s.finishLoad t result).now = s.now ∧
      ∀ v ∈ (s.finishLoad t result).tasks, (v ∈ s.tasks ∧ v.id ≠ t.id) ∨
        (v = { t with activity := .planning } ∧ (result = .ok () → s.tracker.isLive = true)) := by
  cases s.finishLoad_cases t result with
  | told _ _ _ hother => exact absurd hpurpose hother
  | begun hother => exact absurd hpurpose hother
  | again _ _ hlive heq =>
    rw [heq]
    refine ⟨by simp, by simp [Session.setTask], fun v hv => ?_⟩
    rcases mem_setTask hv with rfl | ⟨hold, hne⟩
    · exact .inr ⟨rfl, hlive⟩
    · rw [leave_tasks] at hold
      exact .inl ⟨hold, hne⟩
  | ended _ heq =>
    rw [heq]
    refine ⟨by simp, by simp [Session.removeTask], fun v hv => ?_⟩
    obtain ⟨hold, hne⟩ := mem_removeTask.1 hv
    rw [leave_tasks] at hold
    exact .inl ⟨hold, hne⟩

/-- After a load of the background task nobody else loads, and the record says how it went. -/
theorem between_of_loopEnds {result : Except Failure Unit} (h : s.Orderly True none)
    (hend : s.loopEnds? m = some result) (hresult : result ≠ .error .interrupted) :
    (s.move m).Between s.now (s.move m).tracker ∧
      (s.move m).tracker.snapshot.isSome ∧ (s.move m).tracker.reload.lastLoad = some s.now ∧
      (result = .ok () → (s.move m).tracker.reload.failingSince = none ∧
        (s.move m).tracker.reload.needsFull = false) ∧
      (result ≠ .ok () → (s.move m).tracker.reload.failingSince.isSome) := by
  obtain ⟨t, f, answer, hactor, hpurpose, hactivity, hanswer, hconclude, hstep⟩ :=
    exists_answer hend hresult
  obtain ⟨ht, _⟩ := mem_of_actor hactor
  have hplaced := h.placed t ht (by simp)
  have hfetching : t.isFetching = true := by simp [Task.isFetching, hactivity]
  have honward := s.tracker.conclude_onward s.now answer
  have hrecord := s.tracker.conclude_record s.now hanswer
  rw [hconclude] at hrecord
  rw [move_of_actor hactor, hstep]
  generalize (s.tracker.conclude s.now answer).2 = u at honward hrecord
  obtain ⟨htracker, hnow, htasks⟩ := { s with tracker := u }.finishLoad_of_background hpurpose result
  generalize { s with tracker := u }.finishLoad t result = left at htracker hnow htasks
  have hgoing : ∀ v ∈ left.tasks, v.isFinished = true ∨ (v = { t with activity := .planning } ∧
      (result = .ok () → u.isLive = true)) := by
    refine fun v hv => (htasks v hv).imp_left fun hother => ?_
    obtain ⟨hold, hne⟩ := hother
    exact (h.finished_of_fetching ht hpurpose hfetching hold fun heq => hne (heq ▸ rfl)).2
  rw [htracker]
  refine ⟨?_, honward.snapshot (hplaced.background hpurpose).1, hrecord⟩
  exact
    { now := Nat.le_of_eq hnow.symm
      steady := by rw [htracker]; exact .refl u
      spent := by rw [htracker]; exact honward.initial (hplaced.fetching hfetching).2
      paced := fun v hv => by
        rcases hgoing v hv with hdone | ⟨rfl, _⟩
        · exact .of_isFinished hdone
        · trivial
      background := fun v hv hopen => by
        rcases hgoing v hv with hdone | ⟨rfl, hlive⟩
        · rw [hdone] at hopen
          cases hopen
        · refine ⟨hpurpose, fun hnone => hlive ?_⟩
          by_contra hfailed
          have hsome := hrecord.2.2 hfailed
          rw [hnone] at hsome
          cases hsome }

/-- A task that begins a load of the loop waits for its turn, and then sends a request. -/
theorem exists_starter (h : s.loopStarts m = true) (hspent : s.tracker.initial = none) :
    ∃ t, t ∈ s.tasks ∧ t.activity = .waiting ∧ (s.move m).requests =
      (s.now, (s.tracker.nextRequest s.now (t.purpose = .init)).1.url) :: s.requests := by
  obtain ⟨t, hactor, ht⟩ := (Option.any_eq_true _ _).1 h
  simp only [Bool.and_eq_true, Bool.not_eq_true'] at ht
  obtain ⟨⟨⟨_, hloading⟩, hfetching⟩, hcancelled⟩ := ht
  have hactivity : t.activity = .waiting := by
    cases hactivity : t.activity with
    | waiting => rfl
    | fetching f => simp [Task.isFetching, hactivity] at hfetching
    | _ => simp [Task.isLoading, hactivity] at hloading
  refine ⟨t, (mem_of_actor hactor).1, hactivity, ?_⟩
  rw [move_of_actor hactor]
  simp [Session.step, hactivity, hcancelled, startFetch, Tracker.takeInitial, hspent,
    Session.setTask]

section LoopPace

variable (descriptor : Rendition) (config : TrackerConfig) (initial : Option (List UInt8))
  (server : Nat → Answer)

/-- While no one asks for loads but the first one, the background task keeps its loads apart: after
one that has failed, the next does not begin before the least interval is over, unless a delta
update was refused and the whole playlist is still wanted, for then no wait is planned at all; and
after one that has ended well, an earlier one begins with a request that the server is asked to
hold. -/
theorem loop_keeps_pace {before between : List Move} {last next : Move}
    {result : Except Failure Unit}
    (hmoves : ∀ m ∈ before ++ last :: between, m.isReload = false)
    (hend : ((fresh descriptor config initial server).run before).loopEnds? last = some result)
    (hresult : result ≠ .error .interrupted)
    (hrests : (((fresh descriptor config initial server).run before).move last).loopRests between =
      true)
    (hstart : ((fresh descriptor config initial server).run
      (before ++ last :: between)).loopStarts next = true) :
    let ended := ((fresh descriptor config initial server).run before).now
    let u := (fresh descriptor config initial server).run (before ++ last :: between)
    (result ≠ .ok () → u.tracker.reload.needsFull = false →
      ended + config.minReloadInterval ≤ u.now) ∧
    (u.tracker.reload.needsFull = true → ∀ now, u.tracker.reloadInterval now = 0) ∧
    (result = .ok () → ended + config.minReloadInterval ≤ u.now ∨
      ∃ url, (u.move next).requests = (u.now, url) :: u.requests ∧ url.asksToWait = true) := by
  intro ended u
  have hbefore : ∀ m ∈ before, m.isReload = false :=
    fun m hm => hmoves m (List.mem_append_left _ hm)
  have hafter : ∀ m ∈ between, m.isReload = false :=
    fun m hm => hmoves m (List.mem_append_right _ (List.mem_cons_of_mem _ hm))
  have horderly := (fresh_orderly True descriptor config initial server).run
    fun _ => hbefore
  obtain ⟨hbetween, hsnapshot, hload, hok, hfailed⟩ := between_of_loopEnds horderly hend hresult
  have hrun : u = (((fresh descriptor config initial server).run before).move last).run between := by
    simp [u]
  have hu := hbetween.run hsnapshot hload hafter hrests
  rw [← hrun] at hu
  generalize (((fresh descriptor config initial server).run before).move last).tracker = start
    at hsnapshot hok hfailed hu
  have hconfig : start.config = config := by
    rw [← hu.steady.config]
    exact (run_descriptor_config _ _).2
  obtain ⟨t, ht, hactivity, hrequests⟩ := exists_starter hstart hu.spent
  have hpaced := hu.paced t ht
  simp only [Paced, hactivity, hconfig] at hpaced
  obtain ⟨r, hr⟩ := Option.isSome_iff_exists.1 hsnapshot
  have hhurries : start.hurries = (start.reload.needsFull || start.willBlock r) := by
    rw [Tracker.hurries, hr, Option.any_some]
  refine ⟨fun hne hfull => ?_, fun hfull => Tracker.reloadInterval_of_needsFull hfull, fun heq => ?_⟩
  · rw [hu.steady.reload] at hfull
    have hwait : start.willBlock r = false := by simp [Tracker.willBlock, hfailed hne]
    rw [hhurries, hfull, hwait] at hpaced
    exact hpaced.resolve_left (by decide)
  · refine hpaced.symm.imp_right fun hnow => ?_
    obtain ⟨hnone, hfull⟩ := hok heq
    rw [hhurries, hfull, Bool.false_or] at hnow
    have hlive : r.live = true := by
      have := (hu.background t ht (by simp [Task.isFinished, hactivity])).2 hnone
      simpa [Tracker.isLive, hr] using this
    refine ⟨_, hrequests, ?_⟩
    refine Tracker.asksToWait_nextRequest (hu.steady.snapshot.trans hr) hlive ?_ _ _
    rw [← hnow]
    simp only [Tracker.willBlock, hu.steady.reload]

end LoopPace

/-- The first load, and what the background task does up to the answer that ends its first one. -/
def loopMoves (attempts : List Move) : List Move :=
  [.start .init true, .proceed 0, .proceed 0, .proceed 1, .wait 10000, .proceed 1, .proceed 1] ++
    attempts

/-- Behind a load that has timed out, the background task rests for half a second at least. -/
theorem loop_keeps_pace_of_failed :
    let s := served ["#EXTM3U\na\n"]
    let between := [.proceed 1, .wait 5000, .proceed 1]
    let u := s.run (loopMoves [] ++ .proceed 1 :: between)
    (s.run (loopMoves [])).loopEnds? (.proceed 1) = some (.error .timedOut) ∧
      ((s.run (loopMoves [])).move (.proceed 1)).loopRests between = true ∧
      u.loopStarts (.proceed 1) = true ∧ (s.run (loopMoves [])).now + 500 ≤ u.now := by
  intro s between u
  have hmoves : ∀ m ∈ loopMoves [] ++ .proceed 1 :: between, m.isReload = false := by decide
  have hend : (s.run (loopMoves [])).loopEnds? (.proceed 1) = some (.error .timedOut) := by
    decide +kernel
  have hrests : ((s.run (loopMoves [])).move (.proceed 1)).loopRests between = true := by
    decide +kernel
  have hstart : u.loopStarts (.proceed 1) = true := by decide +kernel
  have hpace := loop_keeps_pace s.tracker.descriptor {} none s.server hmoves hend (by decide) hrests
    hstart
  exact ⟨hend, hrests, hstart, hpace.1 (by decide) (by decide +kernel)⟩

/-- A delta update that leaves out more than can be filled in. -/
def refusedBodies : List String :=
  ["#EXTM3U\n#EXT-X-SERVER-CONTROL:CAN-SKIP-UNTIL=60\n#EXT-X-MEDIA-SEQUENCE:5\na\n",
    "#EXTM3U\n#EXT-X-MEDIA-SEQUENCE:5\n#EXT-X-SKIP:SKIPPED-SEGMENTS=3\nb\n"]

/-- After a refused delta update and a second attempt that has failed, the next load begins at
once. -/
theorem loop_keeps_pace_of_refused :
    let s := served refusedBodies
    let between := [.proceed 1, .proceed 1]
    let u := s.run (loopMoves [.proceed 1] ++ .proceed 1 :: between)
    (s.run (loopMoves [.proceed 1])).loopEnds? (.proceed 1) = some (.error .timedOut) ∧
      ((s.run (loopMoves [.proceed 1])).move (.proceed 1)).loopRests between = true ∧
      u.loopStarts (.proceed 1) = true ∧ u.tracker.config.minReloadInterval = 500 ∧
      u.now = (s.run (loopMoves [.proceed 1])).now := by
  decide +kernel

end Session

end AdaptiveHls
