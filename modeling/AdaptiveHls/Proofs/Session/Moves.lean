import AdaptiveHls.Proofs.Session.Loads
import AdaptiveHls.Proofs.Tracker.Cursor

/-!
# Moves of a session

A session lets the first task that can go on take the next step, and calls come when all tasks have
to wait. What is proved of a session should not rest on either, so in a run of moves any task that
can go on may be the next, time may pass at any moment, and whatever the user does may come in
between. All operations of a session are such runs, and what a move does to the tracker are events
of the tracker.
-/

namespace AdaptiveHls

inductive Move where
  /-- The task at a place in the list takes a step, if it can. -/
  | proceed (place : Nat)
  | wait (ms : Nat)
  /-- Starts a load, which its caller waits for or leaves to run. -/
  | start (purpose : Purpose) (called : Bool)
  | stop
  | resume
  | call (c : Call)
  /-- Forgets a task, finished or not. -/
  | drop (id : Nat)

def Move.isCall : Move → Bool
  | call _ => true
  | _ => false

def Move.placesCursor : Move → Bool
  | call c => c.placesCursor
  | _ => false

namespace Session

/-- A session of which nothing has been asked yet. -/
def fresh (descriptor : Rendition) (config : TrackerConfig) (initial : Option (List UInt8))
    (server : Nat → Answer) : Session :=
  { tracker := { descriptor, config, initial }, server }

/-- Whether a load is wanted: the first one once, and one for the segment at the cursor only while
a live playlist does not have it. -/
def wants (s : Session) : Purpose → Bool
  | .init => s.tracker.snapshot.isNone
  | .reload => true
  | .current => s.tracker.segmentAtCursor.1.isNone && s.tracker.isLive
  | .background => false

/-- What comes before a load: one for the segment at the cursor looks there first. -/
def look (s : Session) : Purpose → Session
  | .current => { s with tracker := s.tracker.segmentAtCursor.2 }
  | _ => s

def wakes (s : Session) : Call → Bool
  | .next => s.tracker.next.1.isNone && s.tracker.next.2.isLive
  | _ => false

def move (s : Session) : Move → Session
  | .proceed place =>
    match s.tasks[place]? with
    | some t => if s.canStep t then s.step t else s
    | none => s
  | .wait ms => { s with now := s.now + ms }
  | .start purpose called =>
    if s.wants purpose then
      if called then (s.look purpose).startCall purpose else (s.look purpose).startTask purpose
    else s
  | .stop => { s with interrupted := true }
  | .resume =>
    if s.interrupted then
      let s := { s with interrupted := false, period := s.period + 1 }
      if s.tracker.isLive then s.startBackground else s
    else s
  | .call c => { s with tracker := s.tracker.call c, wakeUp := s.wakeUp || s.wakes c }
  | .drop id => s.removeTask id

def run (s : Session) (moves : List Move) : Session := moves.foldl move s

def handed (s : Session) : Move → List Segment
  | .call c => s.tracker.given c
  | _ => []

def delivered (s : Session) : List Move → List Segment
  | [] => []
  | m :: rest => s.handed m ++ (s.move m).delivered rest

variable {s u v : Session}

@[simp] theorem run_nil : s.run [] = s := rfl
@[simp] theorem run_cons (m : Move) (rest : List Move) : s.run (m :: rest) = (s.move m).run rest :=
  rfl
@[simp] theorem run_append (before after : List Move) :
    s.run (before ++ after) = (s.run before).run after := by simp [run]

@[simp] theorem delivered_nil : s.delivered [] = [] := rfl
@[simp] theorem delivered_cons (m : Move) (rest : List Move) :
    s.delivered (m :: rest) = s.handed m ++ (s.move m).delivered rest := rfl

theorem delivered_append_singleton (moves : List Move) (m : Move) :
    s.delivered (moves ++ [m]) = s.delivered moves ++ (s.run moves).handed m := by
  induction moves generalizing s with
  | nil => simp
  | cons n rest ih => simp [ih]

/-- Where a load is wanted, looking has moved nothing. -/
theorem look_of_wants {purpose : Purpose} (h : s.wants purpose = true) : s.look purpose = s := by
  cases purpose with
  | current =>
    simp only [wants, Bool.and_eq_true, Option.isNone_iff_eq_none] at h
    rw [look, Tracker.segmentAtCursor_of_none h.1]
  | _ => rfl

def actor? (s : Session) : Move → Option Task
  | .proceed place => s.tasks[place]?.filter s.canStep
  | _ => none

theorem move_of_actor {s : Session} {m : Move} {t : Task} (h : s.actor? m = some t) :
    s.move m = s.step t := by
  cases m with
  | proceed place =>
    obtain ⟨hplace, hstep⟩ := Option.filter_eq_some_iff.1 h
    simp only [move, hplace, hstep, if_true]
  | _ => cases h

theorem mem_of_actor {m : Move} {t : Task} (h : s.actor? m = some t) :
    t ∈ s.tasks ∧ s.canStep t = true := by
  cases m with
  | proceed place =>
    obtain ⟨hplace, hstep⟩ := Option.filter_eq_some_iff.1 h
    exact ⟨List.mem_of_getElem? hplace, hstep⟩
  | _ => cases h

theorem move_of_no_actor {place : Nat} (h : s.actor? (.proceed place) = none) :
    s.move (.proceed place) = s := by
  simp only [actor?, Option.filter_eq_none_iff] at h
  simp only [move]
  split
  · next t ht => rw [if_neg (h t ht)]
  · rfl

/-! ## Moves as events of the tracker -/

theorem handed_of_ofLoad {t : Tracker} {e : Event} (h : e.ofLoad = true) : t.handed e = [] := by
  cases e with
  | call c =>
    cases c with
    | next => cases h
    | _ => rfl
  | _ => rfl

theorem delivered_of_ofLoad {t : Tracker} {events : List Event}
    (h : ∀ e ∈ events, e.ofLoad = true) : t.delivered events = [] := by
  induction events generalizing t with
  | nil => rfl
  | cons e rest ih =>
    rw [Tracker.delivered_cons, handed_of_ofLoad (h e List.mem_cons_self),
      ih fun d hd => h d (List.mem_cons_of_mem _ hd), List.append_nil]

theorem placesCursor_of_ofLoad {e : Event} (h : e.ofLoad = true) : e.placesCursor = false := by
  cases e with
  | call c =>
    cases c with
    | seek n => cases h
    | moveToLiveStart index => cases h
    | _ => rfl
  | _ => rfl

/-- What a move does to the tracker, and hands out, is what some events do. -/
theorem move_events (s : Session) (m : Move) :
    ∃ events, (s.move m).tracker = s.tracker.run events ∧
      s.tracker.delivered events = s.handed m ∧
      (m.placesCursor = false → ∀ e ∈ events, e.placesCursor = false) := by
  have still : ∀ u : Session, u.tracker = s.tracker → s.handed m = [] →
      ∃ events, u.tracker = s.tracker.run events ∧ s.tracker.delivered events = s.handed m ∧
        (m.placesCursor = false → ∀ e ∈ events, e.placesCursor = false) := by
    intro u hu hm
    exact ⟨[], hu, hm.symm, by simp⟩
  cases m with
  | proceed place =>
    simp only [move]
    split
    · next t _ =>
      split
      · obtain ⟨events, hload, hrun⟩ := s.step_run t
        exact ⟨events, hrun, delivered_of_ofLoad hload,
          fun _ e he => placesCursor_of_ofLoad (hload e he)⟩
      · exact still s rfl rfl
    · exact still s rfl rfl
  | start purpose called =>
    refine still _ ?_ rfl
    simp only [move]
    split
    · next h => rw [look_of_wants h]; split <;> simp
    · rfl
  | resume =>
    refine still _ ?_ rfl
    simp only [move]
    split
    · split <;> simp
    · rfl
  | call c =>
    refine ⟨[.call c], rfl, by simp [Tracker.handed, handed], ?_⟩
    intro h e he
    rw [List.mem_singleton.1 he]
    exact h
  | wait ms => exact still _ rfl rfl
  | stop => exact still _ rfl rfl
  | drop id => exact still _ rfl rfl

/-- What a run does to the tracker is a run of events on it, which hands out the same. -/
theorem run_events (s : Session) (moves : List Move) :
    ∃ events, (s.run moves).tracker = s.tracker.run events ∧
      s.tracker.delivered events = s.delivered moves ∧
      ((∀ m ∈ moves, m.placesCursor = false) → ∀ e ∈ events, e.placesCursor = false) := by
  induction moves generalizing s with
  | nil => exact ⟨[], rfl, rfl, by simp⟩
  | cons m rest ih =>
    obtain ⟨es, hrun, hdelivered, hcursor⟩ := s.move_events m
    obtain ⟨fs, hrun', hdelivered', hcursor'⟩ := ih (s.move m)
    refine ⟨es ++ fs, ?_, ?_, ?_⟩
    · rw [run_cons, hrun', hrun, Tracker.run_append]
    · rw [Tracker.delivered_append, ← hrun, hdelivered, hdelivered', delivered_cons]
    · intro h e he
      rcases List.mem_append.1 he with he | he
      · exact hcursor (h m List.mem_cons_self) e he
      · exact hcursor' (fun n hn => h n (List.mem_cons_of_mem _ hn)) e he

/-! ## Operations as runs of moves -/

/-- `u` comes of `s` without a call. -/
def Reaches (s u : Session) : Prop := ∃ moves, (∀ m ∈ moves, m.isCall = false) ∧ s.run moves = u

theorem Reaches.refl (s : Session) : Reaches s s := ⟨[], by simp, rfl⟩

theorem Reaches.trans (h : Reaches s u) (h' : Reaches u v) : Reaches s v := by
  obtain ⟨before, hbefore, rfl⟩ := h
  obtain ⟨after, hafter, rfl⟩ := h'
  exact ⟨before ++ after, List.forall_mem_append.2 ⟨hbefore, hafter⟩, run_append before after⟩

theorem Reaches.move {m : Move} (hm : m.isCall = false) : Reaches s (s.move m) :=
  ⟨[m], by simpa using hm, rfl⟩

theorem reaches_later {moment : Nat} (h : s.now ≤ moment) : Reaches s { s with now := moment } := by
  have hm : s.move (.wait (moment - s.now)) = { s with now := moment } := by
    simp only [Session.move, Nat.add_sub_cancel' h]
  exact hm ▸ .move rfl

/-- Letting the tasks run is a run without calls. -/
theorem settleFor_reaches (fuel : Nat) : Reaches s (settleFor fuel s) := by
  induction fuel generalizing s with
  | zero => exact .refl s
  | succ fuel ih =>
    rw [settleFor]
    cases ht : s.tasks.find? s.canStep with
    | none => exact .refl s
    | some t =>
      obtain ⟨place, hplace⟩ := List.getElem?_of_mem (List.mem_of_find?_eq_some ht)
      have hm : s.move (.proceed place) = s.step t := by
        simp only [Session.move, hplace, List.find?_some ht, if_true]
      exact (hm ▸ Reaches.move rfl : Reaches s (s.step t)).trans ih

theorem settle_reaches (s : Session) : Reaches s s.settle := settleFor_reaches patience

theorem now_le_nextAlarm {next : Nat} (h : s.nextAlarm? = some next) : s.now ≤ next := by
  have := List.min?_mem h
  simp only [List.mem_filter, decide_eq_true_eq] at this
  exact Nat.le_of_lt this.2

/-- Letting time pass is a run without calls. -/
theorem runUntil_reaches (moment fuel : Nat) : Reaches s (runUntil moment fuel s) := by
  induction fuel generalizing s with
  | zero => exact .refl s
  | succ fuel ih =>
    have hend : Reaches s.settle { s.settle with now := max s.settle.now moment } :=
      reaches_later (Nat.le_max_left _ _)
    rw [runUntil]
    refine s.settle_reaches.trans ?_
    cases ha : s.settle.nextAlarm? with
    | none => exact hend.trans (settle_reaches _)
    | some next =>
      dsimp only
      split
      · exact (reaches_later (now_le_nextAlarm ha)).trans ih
      · exact hend.trans (settle_reaches _)

theorem advance_reaches (s : Session) (ms : Nat) : Reaches s (s.advance ms) :=
  runUntil_reaches _ _

/-- Waiting for a task is a run without calls. -/
theorem runTask_reaches (id fuel : Nat) : Reaches s (runTask id fuel s) := by
  induction fuel generalizing s with
  | zero => exact .refl s
  | succ fuel ih =>
    rw [runTask]
    refine s.settle_reaches.trans ?_
    split
    · next next _ ha => exact (reaches_later (now_le_nextAlarm ha)).trans ih
    · exact .refl _

theorem load_reaches {purpose : Purpose} (h : s.wants purpose = true) :
    Reaches s (s.load purpose).2 := by
  have hm : s.move (.start purpose true) = s.startCall purpose := by
    simp [Session.move, h, look_of_wants h]
  have hstart : Reaches s (s.startCall purpose) := hm ▸ .move rfl
  exact (hstart.trans (runTask_reaches s.nextId patience)).trans
    (.move (m := .drop s.nextId) rfl)

theorem init_reaches (s : Session) : Reaches s s.init.2 := by
  rw [init]
  split
  · exact s.settle_reaches
  · next h => exact load_reaches (by simpa [wants] using h)

theorem reload_reaches (s : Session) : Reaches s s.reload.2 := load_reaches rfl

theorem spawnReload_reaches (s : Session) : Reaches s s.spawnReload.2 :=
  (Reaches.move (m := .start .reload false) rfl).trans (settle_reaches _)

theorem interrupt_reaches (s : Session) (stop : Bool) : Reaches s (s.interrupt stop) := by
  rw [interrupt]
  split
  · exact (Reaches.move (m := .stop) rfl).trans (settle_reaches _)
  · split
    · exact s.settle_reaches
    · next h =>
      have hm : s.move .resume = _ := if_pos (by simpa using h)
      exact (hm ▸ Reaches.move (s := s) (m := .resume) rfl).trans (settle_reaches _)

theorem next_reaches (s : Session) : Reaches (s.move (.call .next)) s.next.2 :=
  settle_reaches _

theorem update_reaches (s : Session) (c : Call) (h : c ≠ .next) :
    Reaches (s.move (.call c)) (s.update (·.call c)) := by
  have hm : s.move (.call c) = { s with tracker := s.tracker.call c } := by
    cases c with
    | next => exact absurd rfl h
    | _ => simp [Session.move, wakes]
  rw [hm]
  exact settle_reaches _

/-- Looking for the segment at the cursor is a call, or it finds none and is a load. -/
theorem current_reaches (s : Session) (force : Bool) :
    Reaches (s.move (.call .look)) (s.current force).2 ∨ Reaches s (s.current force).2 := by
  have hm : s.move (.call .look) = { s with tracker := s.tracker.segmentAtCursor.2 } := by
    simp [Session.move, Tracker.call, wakes]
  simp only [current]
  split
  · rw [hm]
    exact .inl (settle_reaches _)
  · next h =>
    simp only [Bool.or_eq_true, Bool.not_eq_true', not_or, Bool.not_eq_false,
      Bool.not_eq_true, Option.isSome_eq_false_iff, Option.isNone_iff_eq_none] at h
    obtain ⟨⟨hnone, _⟩, hlive⟩ := h
    have hsame := Tracker.segmentAtCursor_of_none hnone
    rw [hsame] at hlive ⊢
    exact .inr (load_reaches (by simp [wants, hnone, hlive]))

/-- A session whose server answers with these playlists, one after the other. -/
def served (bodies : List String) : Session :=
  fresh (.ofUrl { scheme := "https", path := .segments ["live.m3u8"] }) {} none fun n =>
    match bodies[n]? with
    | some body => { content := .ok body.toUTF8.toList }
    | none => { content := .error .timedOut }

/-- The moves of a reload that is answered at once. -/
def reloadMoves : List Move := [.start .reload true, .proceed 0, .proceed 0]

end Session

end AdaptiveHls
