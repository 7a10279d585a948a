/-!
# Bounded counts and times

Sequence numbers, byte offsets and counts are natural numbers that stop at `2 ^ 64 - 1`; times are
integers, in microseconds, that stop at both bounds of 64 bits. Where a sum would leave the range
it either stays at the bound or is no number at all, and each place says which.
-/

namespace AdaptiveHls

namespace Count

/-- The greatest sequence number, offset or count. -/
def greatest : Nat := 0xFFFFFFFFFFFFFFFF

/-- A sum that stays at the bound. -/
def add (a b : Nat) : Nat := min (a + b) greatest

def add? (a b : Nat) : Option Nat := if a + b ≤ greatest then some (a + b) else none

def sum? (counts : List Nat) : Option Nat := counts.foldlM add? 0

theorem add_le (a b : Nat) : add a b ≤ greatest := Nat.min_le_right _ _

theorem add_of_le {a b : Nat} (h : a + b ≤ greatest) : add a b = a + b := Nat.min_eq_left h

theorem add_add (a b c : Nat) : add (add a b) c = add a (b + c) := by
  simp only [add]; omega

end Count

namespace Ticks

def least : Int := -0x8000000000000000

def greatest : Int := 0x7FFFFFFFFFFFFFFF

def clamp (t : Int) : Int := if t < least then least else if greatest < t then greatest else t

/-- A sum that stays at the bounds. -/
def add (a b : Int) : Int := clamp (a + b)

/-- The sum of durations, from the left, staying at the bounds. -/
def total (durations : List Int) : Int := durations.foldl add 0

@[simp] theorem total_nil : total [] = 0 := rfl

theorem clamp_of_mem {t : Int} (low : least ≤ t) (high : t ≤ greatest) : clamp t = t := by
  rw [clamp, if_neg (Int.not_lt.2 low), if_neg (Int.not_lt.2 high)]

end Ticks

end AdaptiveHls
