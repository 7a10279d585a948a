import AdaptiveHls.Number.Bounds

/-!
# Byte ranges

A part of a resource, from its first to its last byte, both included. A range made from a length
holds at least one byte, and the offset after it is still a valid offset.
-/

namespace AdaptiveHls

structure ByteRange where
  first : Nat
  last : Nat
  deriving DecidableEq, Repr

namespace ByteRange

def ofLength? (start length : Nat) : Option ByteRange :=
  if length = 0 then none
  else (Count.add? start length).map fun next => ⟨start, next - 1⟩

/-- The offset of the first byte behind the range. -/
def next (r : ByteRange) : Nat := Count.add r.last 1

def requestText (r : ByteRange) : String :=
  "bytes=" ++ toString r.first ++ "-" ++ toString r.last

/-- A range has at least one byte and ends within the bound. -/
theorem ofLength?_eq_some {start length : Nat} {r : ByteRange} :
    ofLength? start length = some r ↔
      0 < length ∧ start + length ≤ Count.greatest ∧ r = ⟨start, start + length - 1⟩ := by
  simp only [ofLength?, Count.add?]
  split
  · simp; omega
  · split
    · simp only [Option.map_some, Option.some.injEq]
      constructor
      · intro h; exact ⟨by omega, by assumption, h.symm⟩
      · intro h; exact h.2.2.symm
    · simp; omega

end ByteRange

end AdaptiveHls
