import AdaptiveHls.Media.Segment

/-!
# Lists of segments

The segments of a playlist's window, in the order of their rising numbers. Look-ups halve the list
until one element is left; that the numbers rise is what makes the element found the right one.
A delta update names how many segments it leaves out in front; they are taken from an older list,
and the times of all are then counted anew.
-/

namespace AdaptiveHls

/-- Halves the stretch of `size` elements from `start` on until one is left, going on with the
upper half unless its first element is `above`. -/
def bisect {α : Type} (above : α → Bool) (xs : List α) (start size : Nat) : Nat :=
  if 1 < size then
    let middle := start + size / 2
    bisect above xs (if xs[middle]?.any above then start else middle) (size - size / 2)
  else start
termination_by size
decreasing_by omega

structure SegmentList where
  segments : List Segment := []
  deriving DecidableEq, Repr

/-- A delta update leaves out more segments than the older list can supply. -/
structure MissingSegments where
  count : Nat
  deriving DecidableEq, Repr

namespace SegmentList

def size (l : SegmentList) : Nat := l.segments.length

def first? (l : SegmentList) : Option Segment := l.segments.head?

def last? (l : SegmentList) : Option Segment := l.segments.getLast?

def firstSequence? (l : SegmentList) : Option Nat := l.first?.map (·.sequence)

def lastSequence? (l : SegmentList) : Option Nat := l.last?.map (·.sequence)

def get? (l : SegmentList) (n : Nat) : Option Segment :=
  l.segments[bisect (fun s => n < s.sequence) l.segments 0 l.size]?.filter (·.sequence == n)

/-- How many segments stand in front of the first one numbered `n` or more. -/
def countBelow (l : SegmentList) (n : Nat) : Nat :=
  let i := bisect (fun s => n ≤ s.sequence) l.segments 0 l.size
  if l.segments[i]?.any (·.sequence < n) then i + 1 else i

def atOrAfter? (l : SegmentList) (n : Nat) : Option Segment := l.segments[l.countBelow n]?

def remaining (l : SegmentList) (n : Nat) : Nat := l.size - l.countBelow n

/-- The number of the segment that covers a time; the last one covers all times after it. -/
def sequenceAt? (l : SegmentList) (time : Int) : Option Nat :=
  if time < 0 then none
  else ((l.segments.find? fun s => time < s.endTime) <|> l.last?).map (·.sequence)

def totalDuration (l : SegmentList) : Int := Ticks.total (l.segments.map (·.duration))

def retime (start : Int) : List Segment → List Segment
  | [] => []
  | s :: rest => { s with startTime := start } :: retime (Ticks.add start s.duration) rest

/-- The list with the `skipped` segments in front that it leaves out, taken from `previous`. -/
def restore (l previous : SegmentList) (skipped : Nat) : Except MissingSegments SegmentList :=
  match l.firstSequence? with
  | none => .ok l
  | some first =>
    let known := previous.segments.filter fun s =>
      first - skipped ≤ s.sequence && s.sequence < first
    if known.length < skipped then .error ⟨skipped - known.length⟩
    else .ok ⟨retime 0 (known ++ l.segments)⟩

@[simp] theorem retime_nil (start : Int) : retime start [] = [] := rfl

@[simp] theorem retime_length (start : Int) (segments : List Segment) :
    (retime start segments).length = segments.length := by
  induction segments generalizing start with
  | nil => rfl
  | cons s rest ih => simp [retime, ih]

@[simp] theorem retime_sequences (start : Int) (segments : List Segment) :
    (retime start segments).map (·.sequence) = segments.map (·.sequence) := by
  induction segments generalizing start with
  | nil => rfl
  | cons s rest ih => simp [retime, ih]

end SegmentList

end AdaptiveHls
