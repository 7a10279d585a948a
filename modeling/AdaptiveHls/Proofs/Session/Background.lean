import AdaptiveHls.Proofs.Session.Turns

/-!
# The background task

What a task does leaves all others as they are; only the end of a first load puts a new background
task in the place of the old one. A background task of the present period goes on from load to load,
whether they fail or not, until the playlist has ended.
-/

namespace AdaptiveHls

/-- Whether what the task waits for is not itself the news of an interruption. -/
def Task.Honest (t : Task) : Prop :=
  ∀ f, t.activity = .fetching f → f.content ≠ .error .interrupted

namespace Tracker

/-- Data can be wrong in many ways, but no data say that a load was interrupted. -/
theorem readSnapshot_ne_interrupted (t : Tracker) (data : List UInt8) :
    t.readSnapshot data ≠ .error .interrupted := by
  intro h
  have hread : Playlist.ofBytes t.descriptor.playlistUrl data ≠ .error .interrupted := by
    simp only [Playlist.ofBytes, Playlist.ofLines, Playlist.ofDirectives]
    repeat' split
    all_goals simp
  simp only [readSnapshot, bind, Except.bind] at h
  split at h
  · next e heq =>
    cases h
    exact hread heq
  · split at h
    · cases h
    · split at h <;> cases h

theorem completeDelta_ne_interrupted (t : Tracker) (r : Rendition) :
    t.completeDelta r ≠ .error .interrupted := by
  rw [completeDelta]
  repeat' split
  all_goals simp

/-- Only an answer that says so ends an attempt as an interruption. -/
theorem conclude_ne_interrupted (t : Tracker) (now : Nat) {answer : Except Failure (List UInt8)}
    (h : answer ≠ .error .interrupted) : (t.conclude now answer).1 ≠ .error .interrupted := by
  cases answer with
  | error e =>
    cases e with
    | interrupted => exact absurd rfl h
    | _ => simp [conclude]
  | ok data =>
    have hread := t.readSnapshot_ne_interrupted data
    simp only [conclude, apply, bind, Except.bind]
    cases hr : t.readSnapshot data with
    | error e => simpa [hr] using hread
    | ok r =>
      have hcomplete := t.completeDelta_ne_interrupted r
      cases hc : t.completeDelta r with
      | error e => simpa [hc] using hcomplete
      | ok complete => simp [hc, pure, Except.pure]

end Tracker

namespace Session

variable {s u w : Session} {t v : Task} {quiet : Prop} {m : Move}

/-- Whether a task keeps the playlist fresh: it has not ended, nor has its period. -/
def refreshes (s : Session) (t : Task) : Bool :=
  t.purpose = .background && !t.isFinished && !s.isCancelled t

def isRefreshed (s : Session) : Bool := s.tasks.any s.refreshes

/-- No answer is the news of an interruption. -/
structure Honest (s : Session) : Prop where
  server : ∀ n, (s.server n).content ≠ .error .interrupted
  tasks : ∀ t ∈ s.tasks, t.Honest

def endsWell (s : Session) (t : Task) : Bool :=
  match s.ending? t with
  | some (.ok _) => true
  | _ => false

theorem isRefreshed_iff : s.isRefreshed = true ↔ ∃ v ∈ s.tasks, s.refreshes v = true :=
  List.any_eq_true

theorem refreshes_congr (hinterrupted : u.interrupted = s.interrupted)
    (hperiod : u.period = s.period) (v : Task) : u.refreshes v = s.refreshes v := by
  simp only [refreshes, isCancelled, hinterrupted, hperiod]

/-! ## What one task can do -/

@[simp] theorem leave_interrupted (id : Nat) : (s.leave id).interrupted = s.interrupted := by
  simp only [leave]
  split <;> rfl

@[simp] theorem leave_period (id : Nat) : (s.leave id).period = s.period := by
  simp only [leave]
  split <;> rfl

@[simp] theorem leave_server (id : Nat) : (s.leave id).server = s.server := by
  simp only [leave]
  split <;> rfl

@[simp] theorem enter_interrupted (id : Nat) : (s.enter id).interrupted = s.interrupted := by
  simp only [enter]
  split <;> rfl

@[simp] theorem enter_period (id : Nat) : (s.enter id).period = s.period := by
  simp only [enter]
  split <;> rfl

@[simp] theorem enter_server (id : Nat) : (s.enter id).server = s.server := by
  simp only [enter]
  split <;> rfl

/-- `u` has come of `s` by what one task has done: all others are left as they are. -/
structure Continued (s : Session) (t : Task) (u : Session) : Prop where
  others : ∀ v : Task, v.id ≠ t.id → (v ∈ u.tasks ↔ v ∈ s.tasks)
  own : ∀ v ∈ u.tasks, v.id = t.id → v.purpose = t.purpose ∧ v.Honest
  interrupted : u.interrupted = s.interrupted
  period : u.period = s.period
  server : u.server = s.server

theorem mem_setTask_of_ne (h : v.id ≠ t.id) : v ∈ (s.setTask t).tasks ↔ v ∈ s.tasks := by
  constructor
  · intro hv
    rcases mem_setTask hv with rfl | ⟨hv, _⟩
    · exact absurd rfl h
    · exact hv
  · intro hv
    exact List.mem_map.2 ⟨v, hv, if_neg h⟩

theorem Continued.refl (h : s.Orderly quiet none) (ht : t ∈ s.tasks) (honest : t.Honest) :
    s.Continued t s where
  others _ _ := .rfl
  own v hv hid := by
    rw [h.eq_of_id hv ht hid]
    exact ⟨rfl, honest⟩
  interrupted := rfl
  period := rfl
  server := rfl

theorem Continued.of_tasks (h : s.Continued t u) (htasks : w.tasks = u.tasks)
    (hinterrupted : w.interrupted = u.interrupted) (hperiod : w.period = u.period)
    (hserver : w.server = u.server) : s.Continued t w where
  others := by rw [htasks]; exact h.others
  own := by rw [htasks]; exact h.own
  interrupted := hinterrupted.trans h.interrupted
  period := hperiod.trans h.period
  server := hserver.trans h.server

/-- What a task does may be to change itself. -/
theorem Continued.setTask (h : s.Continued t u) (hid : v.id = t.id)
    (hpurpose : v.purpose = t.purpose) (honest : v.Honest) : s.Continued t (u.setTask v) where
  others w hw := (mem_setTask_of_ne (hid ▸ hw)).trans (h.others w hw)
  own w hw hwid := by
    rcases mem_setTask hw with rfl | ⟨hw, _⟩
    · exact ⟨hpurpose, honest⟩
    · exact h.own w hw hwid
  interrupted := h.interrupted
  period := h.period
  server := h.server

theorem Continued.removeTask (h : s.Continued t u) : s.Continued t (u.removeTask t.id) where
  others v hv := by rw [mem_removeTask, h.others v hv, and_iff_left hv]
  own v hv hid := absurd hid (mem_removeTask.1 hv).2
  interrupted := h.interrupted
  period := h.period
  server := h.server

theorem Continued.leave (h : s.Continued t u) (id : Nat) : s.Continued t (u.leave id) :=
  h.of_tasks (leave_tasks id) (leave_interrupted id) (leave_period id) (leave_server id)

theorem Continued.enter (h : s.Continued t u) (id : Nat) : s.Continued t (u.enter id) :=
  h.of_tasks (enter_tasks id) (enter_interrupted id) (enter_period id) (enter_server id)

/-- A task that does not fetch waits for nothing. -/
theorem honest_of_not_fetching (h : t.isFetching = false) : t.Honest := by
  intro f hf
  simp [Task.isFetching, hf] at h

theorem Continued.startLoad (h : s.Continued t u) : s.Continued t (u.startLoad t) :=
  (h.enter t.id).setTask rfl rfl (honest_of_not_fetching rfl)

/-- What follows a load, the start of the background task apart, is done by its task alone. -/
theorem Continued.finishLoad (h : s.Continued t u) (result : Except Failure Unit) :
    s.Continued t (u.finishLoad t result) ∨
      t.purpose = .init ∧ ∃ w, s.Continued t w ∧ u.finishLoad t result = w.startBackground := by
  have hfinished (o : Outcome) :
      s.Continued t ((u.leave t.id).setTask { t with activity := .finished o }) :=
    (h.leave t.id).setTask rfl rfl (honest_of_not_fetching rfl)
  have hplanning : s.Continued t ((u.leave t.id).setTask { t with activity := .planning }) :=
    (h.leave t.id).setTask rfl rfl (honest_of_not_fetching rfl)
  unfold Session.finishLoad
  dsimp only
  split
  · next hpurpose =>
    split
    · exact .inr ⟨hpurpose, _, hfinished .done, rfl⟩
    · exact .inl (hfinished .done)
  · refine .inl (Continued.setTask ?_ rfl rfl (honest_of_not_fetching rfl))
    exact (h.leave t.id).of_tasks rfl rfl rfl rfl
  · split
    · exact .inl hplanning
    · exact .inl (h.leave t.id).removeTask
  · exact .inl (h.leave t.id).removeTask
  · exact .inl hplanning
  · exact .inl (hfinished _)
  · exact .inl (hfinished _)

/-- It may be to send a request. -/
theorem Continued.startFetch (h : s.Continued t u)
    (answers : ∀ n, (u.server n).content ≠ .error .interrupted) (full : Bool) :
    s.Continued t (u.startFetch t full) := by
  rw [Session.startFetch]
  split
  · next data tracker _ =>
    refine (h.of_tasks (w := { u with tracker }) rfl rfl rfl rfl).setTask rfl rfl ?_
    rintro _ ⟨⟩
    simp
  · dsimp only
    refine Continued.setTask ?_ rfl rfl ?_
    · exact h.of_tasks rfl rfl rfl rfl
    · rintro _ ⟨⟩
      exact answers _

/-- It may be to end an attempt, and the end of a first load may start the background task besides.
-/
theorem Continued.finishFetch (h : s.Continued t u)
    (answers : ∀ n, (u.server n).content ≠ .error .interrupted) (f : Fetch)
    (answer : Except Failure (List UInt8)) :
    s.Continued t (u.finishFetch t f answer) ∨
      t.purpose = .init ∧ ∃ w, s.Continued t w ∧ u.finishFetch t f answer = w.startBackground := by
  rw [Session.finishFetch]
  split
  · next count tracker _ =>
    split
    · exact (h.of_tasks (w := { u with tracker }) rfl rfl rfl rfl).finishLoad _
    · have hdemand : s.Continued t { u with tracker := tracker.demandFull } :=
        h.of_tasks rfl rfl rfl rfl
      exact .inl (hdemand.startFetch answers true)
  · next result tracker _ _ =>
    exact (h.of_tasks (w := { u with tracker }) rfl rfl rfl rfl).finishLoad result

/-- A step of a task changes no other task, but that of a first load may start the background task.
-/
theorem step_continued (h : s.Orderly quiet none) (honest : s.Honest) (ht : t ∈ s.tasks) :
    s.Continued t (s.step t) ∨
      t.purpose = .init ∧ ∃ w, s.Continued t w ∧ s.step t = w.startBackground := by
  have hself : s.Continued t s := .refl h ht (honest.tasks t ht)
  unfold Session.step
  split
  · exact .inl (hself.setTask rfl rfl (honest_of_not_fetching rfl))
  · split
    · exact .inl hself.removeTask
    · split
      · exact .inl hself.startLoad
      · refine .inl (Continued.setTask ?_ rfl rfl (honest_of_not_fetching rfl))
        exact hself.of_tasks rfl rfl rfl rfl
  · split
    · exact .inl hself.removeTask
    · exact .inl hself.startLoad
  · split
    · exact hself.finishLoad _
    · exact .inl (hself.startFetch honest.server _)
  · split
    · exact hself.finishLoad _
    · split
      · exact hself.finishFetch honest.server _ _
      · exact hself.finishFetch honest.server _ _
  · exact .inl hself

/-! ## When the playlist is kept fresh -/

/-- What a task does leaves the background task alone, unless it is that one. -/
theorem Continued.isRefreshed (h : s.Continued t u) (horderly : s.Orderly quiet none)
    (ht : t ∈ s.tasks) (hother : s.refreshes t = false) (hs : s.isRefreshed = true) :
    u.isRefreshed = true := by
  obtain ⟨v, hv, hrefreshes⟩ := isRefreshed_iff.1 hs
  have hne : v.id ≠ t.id := by
    intro hid
    rw [horderly.eq_of_id hv ht hid, hother] at hrefreshes
    cases hrefreshes
  refine isRefreshed_iff.2 ⟨v, (h.others v hne).2 hv, ?_⟩
  rw [refreshes_congr h.interrupted h.period, hrefreshes]

theorem refreshes_of_purpose (hpurpose : t.purpose ≠ .background) : s.refreshes t = false := by
  simp [refreshes, hpurpose]

/-- Nor does it start one. -/
theorem Continued.isRefreshed_iff (h : s.Continued t u) (horderly : s.Orderly quiet none)
    (ht : t ∈ s.tasks) (hpurpose : t.purpose ≠ .background) :
    u.isRefreshed = true ↔ s.isRefreshed = true := by
  refine ⟨fun hu => ?_, h.isRefreshed horderly ht (refreshes_of_purpose hpurpose)⟩
  obtain ⟨v, hv, hrefreshes⟩ := Session.isRefreshed_iff.1 hu
  have hne : v.id ≠ t.id := by
    intro hid
    rw [refreshes_of_purpose ((h.own v hv hid).1 ▸ hpurpose)] at hrefreshes
    cases hrefreshes
  refine Session.isRefreshed_iff.2 ⟨v, (h.others v hne).1 hv, ?_⟩
  rw [← refreshes_congr h.interrupted h.period, hrefreshes]

theorem startBackground_frame (s : Session) :
    s.startBackground.interrupted = s.interrupted ∧ s.startBackground.server = s.server := by
  have hdiscard (ts : List Task) (s : Session) :
      let u := ts.foldl (fun s t => (s.leave t.id).removeTask t.id) s
      u.interrupted = s.interrupted ∧ u.server = s.server := by
    induction ts generalizing s with
    | nil => exact ⟨rfl, rfl⟩
    | cons t rest ih =>
      obtain ⟨hinterrupted, hserver⟩ := ih ((s.leave t.id).removeTask t.id)
      exact ⟨hinterrupted.trans (leave_interrupted t.id), hserver.trans (leave_server t.id)⟩
  exact hdiscard (s.tasks.filter (·.purpose = .background)) s

/-- A background task that is started keeps the playlist fresh. -/
theorem isRefreshed_startBackground (hgoing : s.interrupted = false) :
    s.startBackground.isRefreshed = true := by
  have hframe := s.startBackground_frame
  rw [hgoing] at hframe
  refine isRefreshed_iff.2 ⟨_, List.mem_append_right _ (List.mem_singleton.2 rfl), ?_⟩
  rw [refreshes, isCancelled, hframe.1]
  simp [Task.isFinished, Session.startBackground, Session.addTask]

theorem isRefreshed_setTask (ht : v ∈ s.tasks) (hid : v.id = t.id) (h : s.refreshes t = true) :
    (s.setTask t).isRefreshed = true :=
  isRefreshed_iff.2 ⟨t, List.mem_map.2 ⟨v, ht, if_pos hid⟩, h⟩

theorem refreshes_iff : s.refreshes t = true ↔
    t.purpose = .background ∧ t.isFinished = false ∧ s.interrupted = false ∧
      s.period ≤ t.period := by
  simp [refreshes, isCancelled, and_assoc]

/-- The background task keeps the playlist fresh as long as it goes on in its period. -/
theorem isRefreshed_goOn (ht : t ∈ s.tasks) (h : s.refreshes t = true) (htasks : u.tasks = s.tasks)
    (hinterrupted : u.interrupted = s.interrupted) (hperiod : u.period = s.period)
    (hid : v.id = t.id) (hpurpose : v.purpose = t.purpose) (hpresent : s.period ≤ v.period)
    (hgoing : v.isFinished = false) : (u.setTask v).isRefreshed = true := by
  obtain ⟨hbackground, -, hnot, -⟩ := refreshes_iff.1 h
  refine isRefreshed_setTask (htasks ▸ ht) hid.symm ?_
  rw [refreshes_congr hinterrupted hperiod]
  exact refreshes_iff.2 ⟨hpurpose.trans hbackground, hgoing, hnot, hpresent⟩

/-- A load of the background task that has not been interrupted leaves a live playlist with the
task. -/
theorem isRefreshed_finishLoad (ht : t ∈ s.tasks) (h : s.refreshes t = true) {tracker : Tracker}
    {result : Except Failure Unit} (hresult : result ≠ .error .interrupted)
    (hlive : ({ s with tracker }.finishLoad t result).tracker.isLive = true) :
    ({ s with tracker }.finishLoad t result).isRefreshed = true := by
  obtain ⟨hpurpose, -, -, hpresent⟩ := refreshes_iff.1 h
  have hagain : (({ s with tracker }.leave t.id).setTask
      { t with activity := .planning }).isRefreshed = true :=
    isRefreshed_goOn (u := { s with tracker }.leave t.id) (v := { t with activity := .planning })
      ht h (leave_tasks t.id) (leave_interrupted t.id) (leave_period t.id) rfl rfl hpresent rfl
  cases result with
  | ok _ =>
    rw [finishLoad_tracker, hpurpose] at hlive
    simp only [Session.finishLoad, hpurpose, leave_tracker, hlive, if_true]
    rwa [hpurpose] at hagain
  | error e =>
    cases e with
    | interrupted => exact absurd rfl hresult
    | _ =>
      simp only [Session.finishLoad, hpurpose]
      rwa [hpurpose] at hagain

theorem isRefreshed_startFetch (ht : t ∈ s.tasks) (h : s.refreshes t = true) (tracker : Tracker)
    (full : Bool) : ({ s with tracker }.startFetch t full).isRefreshed = true := by
  obtain ⟨_, _, f, heq, _⟩ := startFetch_eq { s with tracker } t full
  rw [heq]
  exact isRefreshed_goOn (v := { t with activity := .fetching f }) ht h rfl rfl rfl rfl rfl
    (refreshes_iff.1 h).2.2.2 rfl

/-- A task that keeps the playlist fresh goes on doing so behind an answer that interrupts nothing.
-/
theorem isRefreshed_finishFetch (ht : t ∈ s.tasks) (h : s.refreshes t = true) (f : Fetch)
    {answer : Except Failure (List UInt8)} (hanswer : answer ≠ .error .interrupted)
    (hlive : (s.finishFetch t f answer).tracker.isLive = true) :
    (s.finishFetch t f answer).isRefreshed = true := by
  have hresult := s.tracker.conclude_ne_interrupted s.now hanswer
  rw [Session.finishFetch] at hlive ⊢
  split at hlive
  · split at hlive
    · next hfull =>
      rw [if_pos hfull]
      exact isRefreshed_finishLoad ht h (by simp) hlive
    · next hfull =>
      rw [if_neg hfull]
      exact isRefreshed_startFetch ht h _ true
  · next heq =>
    rw [heq] at hresult
    exact isRefreshed_finishLoad ht h hresult hlive

/-- The step of a task that keeps the playlist fresh is not its last while the playlist is live. -/
theorem isRefreshed_step (honest : s.Honest) (ht : t ∈ s.tasks) (h : s.refreshes t = true)
    (hlive : (s.step t).tracker.isLive = true) : (s.step t).isRefreshed = true := by
  obtain ⟨hpurpose, hgoing, hnot, hpresent⟩ := refreshes_iff.1 h
  have hcancelled : s.isCancelled t = false := by simp [isCancelled, hnot, hpresent]
  have hstart : (s.startLoad t).isRefreshed = true :=
    isRefreshed_goOn (u := s.enter t.id) (v := { t with period := s.period, activity := .waiting })
      ht h (enter_tasks t.id) (enter_interrupted t.id) (enter_period t.id) rfl rfl le_rfl rfl
  have hrest (u : Session) (htasks : u.tasks = s.tasks)
      (hinterrupted : u.interrupted = s.interrupted) (hperiod : u.period = s.period) (a : Activity)
      (ha : Task.isFinished { t with activity := a } = false) :
      (u.setTask { t with activity := a }).isRefreshed = true :=
    isRefreshed_goOn ht h htasks hinterrupted hperiod rfl rfl hpresent ha
  cases hactivity : t.activity with
  | planning =>
    simp only [Session.step, hactivity]
    exact hrest s rfl rfl rfl _ rfl
  | resting moment =>
    simp only [Session.step, hactivity, hcancelled, Bool.false_eq_true, if_false]
    split
    · exact hstart
    · exact hrest _ rfl rfl rfl _ rfl
  | pausing moment =>
    simpa only [Session.step, hactivity, hcancelled, Bool.false_eq_true, if_false] using hstart
  | waiting =>
    simp only [Session.step, hactivity, hcancelled, Bool.false_eq_true, if_false]
    exact isRefreshed_startFetch ht h s.tracker _
  | fetching f =>
    simp only [Session.step, hactivity, hcancelled, Bool.false_eq_true, if_false] at hlive ⊢
    split at hlive
    · next harrived =>
      rw [if_pos harrived]
      exact isRefreshed_finishFetch ht h f (honest.tasks t ht f hactivity) hlive
    · next hlate =>
      rw [if_neg hlate]
      exact isRefreshed_finishFetch ht h f (by simp) hlive
  | finished o => simp [Task.isFinished, hactivity] at hgoing

/-! ## Loads that end well -/

theorem endsWell_iff : s.endsWell t = true ↔ s.ending? t = some (.ok ()) := by
  rw [endsWell]
  split
  · next heq => simp [heq]
  · next hnot =>
    refine iff_of_false (by simp) fun heq => ?_
    exact hnot () heq

theorem not_cancelled_of_endsWell (h : s.endsWell t = true) :
    s.isCancelled t = false ∧ t.isFinished = false := by
  obtain ⟨f, hactivity, hgoing, _⟩ := exists_fetch_of_ending (endsWell_iff.1 h) (by simp)
  exact ⟨hgoing, by simp [Task.isFinished, hactivity]⟩

/-- The first load of a live playlist ends with the start of the background task. -/
theorem isRefreshed_of_init (h : s.endsWell t = true) (hpurpose : t.purpose = .init)
    (hlive : (s.step t).tracker.isLive = true) : (s.step t).isRefreshed = true := by
  have hgoing : s.interrupted = false := by
    have hcancelled := (not_cancelled_of_endsWell h).1
    simp only [isCancelled, Bool.or_eq_false_iff] at hcancelled
    exact hcancelled.1
  rw [endsWell_iff] at h
  cases s.step_cases t with
  | ended answer ending step =>
    have hok : (s.tracker.conclude s.now answer).1 = .ok () := Option.some.inj (ending.symm.trans h)
    rw [step, hok] at hlive ⊢
    rw [finishLoad_tracker, hpurpose] at hlive
    simp only [Session.finishLoad, hpurpose, setTask_tracker, leave_tracker, hlive, if_true]
    exact isRefreshed_startBackground (by simpa [Session.setTask] using hgoing)
  | between ending | begun _ ending | retried _ _ ending | interrupted ending =>
    rw [h] at ending
    cases ending

theorem isLive_of_not_endsWell (h : s.endsWell t = false) :
    (s.step t).tracker.isLive = s.tracker.isLive := by
  have hnot : s.ending? t ≠ some (.ok ()) := by
    rw [Ne, ← endsWell_iff, h]
    exact Bool.false_ne_true
  rw [Tracker.isLive, Tracker.isLive, (s.step_untouched t hnot).snapshot]

end Session

end AdaptiveHls
