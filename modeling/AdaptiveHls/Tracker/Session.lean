import AdaptiveHls.Tracker.Basic

/-!
# Loads that overlap

Several tasks may want to load the playlist of one tracker: a caller, calls that were started and
left to run, and the background task that keeps a live playlist fresh. A session is the tracker
with these tasks and a clock that counts milliseconds.

Loads take turns, first come first served. A task is a small machine: in each step it does what it
can do at once, and it says when it can go on. Nothing happens in between, so the clock may stand
still while any task can move and then jump to the next moment at which one can. Interrupting the
session ends the period in which its tasks were started; a task of an ended period gives up at its
next step.
-/

namespace AdaptiveHls

/-- What the server does with a request: it waits, if it does, and then answers. -/
structure Answer where
  delay : Nat := 0
  content : Except Failure (List UInt8)

inductive Outcome where
  | done
  | segment (s : Option Segment)
  | failed (e : Failure)
  deriving DecidableEq, Repr

/-- An answer under way. -/
structure Fetch where
  /-- Whether the attempt is not to be a delta update. -/
  full : Bool
  content : Except Failure (List UInt8)
  arrives : Nat
  /-- When waiting for it is given up. -/
  deadline : Option Nat

inductive Activity where
  /-- The background task is about to choose how long to wait. -/
  | planning
  /-- Between loads, until a moment or a wake-up. -/
  | resting (until_ : Nat)
  /-- After a wake-up, until loads are far enough apart. -/
  | pausing (until_ : Nat)
  /-- Until it is the task's turn to load. -/
  | waiting
  | fetching (f : Fetch)
  | finished (o : Outcome)

def Activity.outcome? : Activity → Option Outcome
  | .finished o => some o
  | _ => none

/-- What a task is for, which tells what follows its load. -/
inductive Purpose where
  /-- The first load; a live playlist is then kept fresh. -/
  | init
  | reload
  /-- A load for the sake of the segment at the cursor. -/
  | current
  | background
  deriving DecidableEq, Repr

structure Task where
  id : Nat
  purpose : Purpose
  /-- The period in which the task's present load was started. -/
  period : Nat
  activity : Activity

structure Session where
  tracker : Tracker
  /-- The answer to each request, by its number. -/
  server : Nat → Answer
  now : Nat := 0
  /-- How often the session was resumed. -/
  period : Nat := 0
  interrupted : Bool := false
  /-- Whether a wake-up waits for the background task. -/
  wakeUp : Bool := false
  /-- The task whose turn it is. -/
  turn : Option Nat := none
  queue : List Nat := []
  tasks : List Task := []
  nextId : Nat := 0
  /-- The requests and their moments, the newest first. -/
  requests : List (Nat × Url) := []

namespace Session

/-- Whether the period that a task belongs to has ended. -/
def isCancelled (s : Session) (t : Task) : Bool := s.interrupted || t.period < s.period

def canStep (s : Session) (t : Task) : Bool :=
  match t.activity with
  | .planning => true
  | .resting moment => s.isCancelled t || moment ≤ s.now || s.wakeUp
  | .pausing moment => s.isCancelled t || moment ≤ s.now
  | .waiting => s.isCancelled t || s.turn == some t.id
  | .fetching f => s.isCancelled t || f.arrives ≤ s.now || f.deadline.any (· ≤ s.now)
  | .finished _ => false

def alarms (t : Task) : List Nat :=
  match t.activity with
  | .resting moment => [moment]
  | .pausing moment => [moment]
  | .fetching f => f.arrives :: f.deadline.toList
  | _ => []

def setTask (s : Session) (t : Task) : Session :=
  { s with tasks := s.tasks.map fun u => if u.id = t.id then t else u }

def removeTask (s : Session) (id : Nat) : Session :=
  { s with tasks := s.tasks.filter (·.id != id) }

def leave (s : Session) (id : Nat) : Session :=
  let queue := s.queue.filter (· != id)
  if s.turn == some id then { s with turn := queue.head?, queue := queue.tail }
  else { s with queue }

def enter (s : Session) (id : Nat) : Session :=
  if s.turn.isNone then { s with turn := some id } else { s with queue := s.queue ++ [id] }

def startLoad (s : Session) (t : Task) : Session :=
  (s.enter t.id).setTask { t with period := s.period, activity := .waiting }

def addTask (s : Session) (purpose : Purpose) (activity : Activity) : Session :=
  let t : Task := { id := s.nextId, purpose, period := s.period, activity }
  { s with tasks := s.tasks ++ [t], nextId := s.nextId + 1 }

/-- Starts the background task, in place of one that is still there. -/
def startBackground (s : Session) : Session :=
  let s := (s.tasks.filter (·.purpose = .background)).foldl
    (fun s t => (s.leave t.id).removeTask t.id) s
  s.addTask .background .planning

def startTask (s : Session) (purpose : Purpose) : Session :=
  (s.addTask purpose .waiting).enter s.nextId

/-- Starts a load that a caller waits for; it is the first to go on whenever it can. -/
def startCall (s : Session) (purpose : Purpose) : Session :=
  let t : Task := { id := s.nextId, purpose, period := s.period, activity := .waiting }
  { s with tasks := t :: s.tasks, nextId := s.nextId + 1 }.enter t.id

def finishLoad (s : Session) (t : Task) (result : Except Failure Unit) : Session :=
  let s := s.leave t.id
  match t.purpose, result with
  | .init, .ok () =>
    let s := s.setTask { t with activity := .finished .done }
    if s.tracker.isLive then s.startBackground else s
  | .current, .ok () =>
    let (segment, tracker) := s.tracker.segmentAtCursor
    { s with tracker }.setTask { t with activity := .finished (.segment segment) }
  | .background, .ok () =>
    if s.tracker.isLive then s.setTask { t with activity := .planning } else s.removeTask t.id
  | .background, .error .interrupted => s.removeTask t.id
  | .background, .error _ => s.setTask { t with activity := .planning }
  | _, .ok () => s.setTask { t with activity := .finished .done }
  | _, .error e => s.setTask { t with activity := .finished (.failed e) }

/-- Sends a request for an attempt, unless there are data to be used in its place. -/
def startFetch (s : Session) (t : Task) (full : Bool) : Session :=
  match s.tracker.takeInitial with
  | (some data, tracker) =>
    let f : Fetch := { full, content := .ok data, arrives := s.now, deadline := none }
    { s with tracker }.setTask { t with activity := .fetching f }
  | (none, _) =>
    let (request, tracker) := s.tracker.nextRequest s.now full
    let answer := s.server s.requests.length
    let f : Fetch := {
      full
      content := answer.content
      arrives := s.now + answer.delay
      deadline := request.target.map fun _ => s.now + s.tracker.config.blockingTimeout }
    { s with tracker, requests := (s.now, request.url) :: s.requests }.setTask
      { t with activity := .fetching f }

/-- The end of an attempt. A delta update that cannot be used is followed by another attempt. -/
def finishFetch (s : Session) (t : Task) (f : Fetch) (answer : Except Failure (List UInt8)) :
    Session :=
  match s.tracker.conclude s.now answer with
  | (.error (.missingSegments count), tracker) =>
    if f.full then { s with tracker }.finishLoad t (.error (.missingSegments count))
    else { s with tracker := tracker.demandFull }.startFetch t true
  | (result, tracker) => { s with tracker }.finishLoad t result

/-- Nanoseconds from now, as the first moment not before. -/
def after (s : Session) (nanoseconds : Nat) : Nat := s.now + (nanoseconds + 999999) / 1000000

def step (s : Session) (t : Task) : Session :=
  match t.activity with
  | .planning =>
    s.setTask { t with activity := .resting (s.after (s.tracker.reloadInterval s.now)) }
  | .resting moment =>
    if s.isCancelled t then s.removeTask t.id
    else if moment ≤ s.now then s.startLoad t
    else
      { s with wakeUp := false }.setTask
        { t with activity := .pausing (s.now + s.tracker.wakeUpDelay s.now) }
  | .pausing _ => if s.isCancelled t then s.removeTask t.id else s.startLoad t
  | .waiting =>
    if s.isCancelled t then s.finishLoad t (.error .interrupted)
    else s.startFetch t (t.purpose = .init)
  | .fetching f =>
    if s.isCancelled t then s.finishLoad t (.error .interrupted)
    else if f.arrives ≤ s.now then s.finishFetch t f f.content
    else s.finishFetch t f (.error .timedOut)
  | .finished _ => s

/-- How many steps are taken at most before the clock moves on, and how often it moves. -/
def patience : Nat := 200000

/-- Lets the tasks run, the first that can go on first, until none can. -/
def settleFor : Nat → Session → Session
  | 0, s => s
  | fuel + 1, s =>
    match s.tasks.find? s.canStep with
    | some t => settleFor fuel (s.step t)
    | none => s

def settle (s : Session) : Session := settleFor patience s

def nextAlarm? (s : Session) : Option Nat :=
  ((s.tasks.flatMap alarms).filter (s.now < ·)).min?

/-- Lets time pass up to and including a moment. -/
def runUntil (moment : Nat) : Nat → Session → Session
  | 0, s => s
  | fuel + 1, s =>
    let s := s.settle
    match s.nextAlarm? with
    | some next =>
      if next ≤ moment then runUntil moment fuel { s with now := next }
      else { s with now := max s.now moment }.settle
    | none => { s with now := max s.now moment }.settle

def advance (s : Session) (ms : Nat) : Session := runUntil (s.now + ms) patience s

def outcome? (s : Session) (id : Nat) : Option Outcome :=
  (s.tasks.find? (·.id == id)).bind (·.activity.outcome?)

def runTask (id : Nat) : Nat → Session → Session
  | 0, s => s
  | fuel + 1, s =>
    let s := s.settle
    match s.outcome? id, s.nextAlarm? with
    | none, some next => runTask id fuel { s with now := next }
    | _, _ => s

def load (s : Session) (purpose : Purpose) : Option Outcome × Session :=
  let id := s.nextId
  let s := runTask id patience (s.startCall purpose)
  (s.outcome? id, s.removeTask id)

/-! ## Operations -/

/-- Loads the playlist for the first time; does nothing once there is a snapshot. -/
def init (s : Session) : Option Outcome × Session :=
  if s.tracker.snapshot.isSome then (some .done, s.settle) else s.load .init

def reload (s : Session) : Option Outcome × Session := s.load .reload

def spawnReload (s : Session) : Nat × Session := (s.nextId, (s.startTask .reload).settle)

/-- The next segment. Finding none wakes the background task of a live playlist. -/
def next (s : Session) : Option Segment × Session :=
  let (segment, tracker) := s.tracker.next
  let wakeUp := s.wakeUp || (segment.isNone && tracker.isLive)
  (segment, { s with tracker, wakeUp }.settle)

/-- The segment at the cursor; with `force` a live playlist is reloaded if there is none. -/
def current (s : Session) (force : Bool) : Option Outcome × Session :=
  let (segment, tracker) := s.tracker.segmentAtCursor
  let s := { s with tracker }
  if segment.isSome || !force || !tracker.isLive then (some (.segment segment), s.settle)
  else s.load .current

/-- Stops or resumes everything. A live playlist is kept fresh from its resumption on. -/
def interrupt (s : Session) (stop : Bool) : Session :=
  if stop then { s with interrupted := true }.settle
  else if !s.interrupted then s.settle
  else
    let s := { s with interrupted := false, period := s.period + 1 }
    (if s.tracker.isLive then s.startBackground else s).settle

/-- A change of the tracker that touches no task. -/
def update (s : Session) (change : Tracker → Tracker) : Session :=
  { s with tracker := change s.tracker }.settle

end Session

end AdaptiveHls
