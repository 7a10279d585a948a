import AdaptiveHls.Text.Utf8

/-!
# The lines of a playlist

A line ends at a line feed or at the end of the data; a carriage return before that end is not
part of it. A byte order mark in front of everything is dropped. What is left to read is the state
of reading, so the data is at its end exactly when nothing is left: a line feed at the very end
opens no further line.
-/

namespace AdaptiveHls.Text.Lines

/-- What there is to read of `data`: all of it but a byte order mark. -/
def start : List UInt8 → List UInt8
  | 0xEF :: 0xBB :: 0xBF :: rest => rest
  | data => data

def atEnd (rest : List UInt8) : Bool := rest.isEmpty

/-- The bytes up to the first line feed, and those after it. -/
def breakLine : List UInt8 → List UInt8 × List UInt8
  | [] => ([], [])
  | b :: rest =>
    if b == 0x0A then ([], rest)
    else
      let (line, after) := breakLine rest
      (b :: line, after)

def chomp : List UInt8 → List UInt8
  | [] => []
  | [0x0D] => []
  | b :: rest => b :: chomp rest

theorem breakLine_length (rest : List UInt8) : (breakLine rest).2.length ≤ rest.length := by
  induction rest with
  | nil => simp [breakLine]
  | cons b rest ih =>
    simp only [breakLine]
    split
    · simp
    · simp only [List.length_cons]; omega

theorem breakLine_length_lt (b : UInt8) (rest : List UInt8) :
    (breakLine (b :: rest)).2.length < (b :: rest).length := by
  have := breakLine_length rest
  simp only [breakLine, List.length_cons]
  split
  · simp
  · simp only []; omega

/-- The next line and what is left after it; nothing at the end of the data. -/
def next? : List UInt8 → Option (String × List UInt8)
  | [] => none
  | b :: rest =>
    let (line, after) := breakLine (b :: rest)
    some (Utf8.decode (chomp line), after)

def all : List UInt8 → List String
  | [] => []
  | b :: rest =>
    Utf8.decode (chomp (breakLine (b :: rest)).1) :: all (breakLine (b :: rest)).2
termination_by rest => rest.length
decreasing_by exact breakLine_length_lt b rest

def ofBytes (data : List UInt8) : List String := all (start data)

@[simp] theorem next?_nil : next? [] = none := rfl
@[simp] theorem atEnd_nil : atEnd [] = true := rfl

theorem all_eq_cons {rest after : List UInt8} {line : String}
    (h : next? rest = some (line, after)) : all rest = line :: all after := by
  cases rest with
  | nil => simp at h
  | cons b rest =>
    simp only [next?, Option.some.injEq, Prod.mk.injEq] at h
    rw [all, ← h.1, ← h.2]

end AdaptiveHls.Text.Lines
