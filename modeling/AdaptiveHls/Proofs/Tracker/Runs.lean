import AdaptiveHls.Tracker.Basic

/-!
# Runs of a tracker

A tracker changes when its user calls it and when a load takes one of its steps. In a run calls and
steps of loads may come in any order, with any answers and at any moments; that some orders cannot
come about is not needed for what is proved of all of them.
-/

namespace AdaptiveHls

/-- What the user of a tracker can ask of it, besides loads. -/
inductive Call where
  | next
  | look
  | seek (sequence : Nat)
  | setPosition (position : Nat)
  | moveToLiveStart (index : Int)
  | takePreload
  | setReports (reports : List RenditionReport)
  deriving DecidableEq, Repr

/-- A call, or a step of a load. -/
inductive Event where
  | call (c : Call)
  | takeInitial
  | request (now : Nat) (full : Bool)
  | conclude (now : Nat) (answer : Except Failure (List UInt8))
  | demandFull

def Call.placesCursor : Call → Bool
  | seek _ | moveToLiveStart _ => true
  | _ => false

def Event.placesCursor : Event → Bool
  | call c => c.placesCursor
  | _ => false

namespace Tracker

def call (t : Tracker) : Call → Tracker
  | .next => t.next.2
  | .look => t.segmentAtCursor.2
  | .seek sequence => t.seek sequence
  | .setPosition position => t.setPosition position
  | .moveToLiveStart index => t.moveToLiveStart index
  | .takePreload => t.takePreload.2
  | .setReports reports => t.setReports reports

def given (t : Tracker) : Call → List Segment
  | .next => t.next.1.toList
  | _ => []

def step (t : Tracker) : Event → Tracker
  | .call c => t.call c
  | .takeInitial => t.takeInitial.2
  | .request now full => (t.nextRequest now full).2
  | .conclude now answer => (t.conclude now answer).2
  | .demandFull => t.demandFull

def run (t : Tracker) (events : List Event) : Tracker := events.foldl step t

def handed (t : Tracker) : Event → List Segment
  | .call c => t.given c
  | _ => []

def delivered (t : Tracker) : List Event → List Segment
  | [] => []
  | e :: rest => t.handed e ++ (t.step e).delivered rest

variable {t : Tracker}

@[simp] theorem run_nil : t.run [] = t := rfl
@[simp] theorem run_cons (e : Event) (rest : List Event) :
    t.run (e :: rest) = (t.step e).run rest := rfl
@[simp] theorem run_append (before after : List Event) :
    t.run (before ++ after) = (t.run before).run after := by simp [run]

@[simp] theorem delivered_nil : t.delivered [] = [] := rfl
@[simp] theorem delivered_cons (e : Event) (rest : List Event) :
    t.delivered (e :: rest) = t.handed e ++ (t.step e).delivered rest := rfl
@[simp] theorem delivered_append (before after : List Event) :
    t.delivered (before ++ after) = t.delivered before ++ (t.run before).delivered after := by
  induction before generalizing t with
  | nil => rfl
  | cons e rest ih => simp [ih]

end Tracker

end AdaptiveHls
