/-!
# Windows over the newest samples

A window keeps a fixed number of samples, at least one, and lets go of the oldest for a new one.
-/

namespace AdaptiveHls

structure Window (α : Type) where
  capacity : Nat
  /-- The oldest first. -/
  items : List α := []
  deriving DecidableEq, Repr

namespace Window

variable {α : Type}

/-- An empty window; one without room has room for one sample. -/
def ofCapacity (n : Nat) : Window α := { capacity := max n 1 }

def push (w : Window α) (a : α) : Window α :=
  { w with items := (if w.items.length = w.capacity then w.items.drop 1 else w.items) ++ [a] }

def last? (w : Window α) : Option α := w.items.getLast?

def clear (w : Window α) : Window α := { w with items := [] }

/-- An integer taken as a signed number of 32 bits. -/
def wrap32 (n : Int) : Int := Int.bmod n 0x100000000

/-- An integer, if it is a signed number of 32 bits. -/
def checked32 (n : Int) : Option Int :=
  if -0x80000000 ≤ n ∧ n < 0x80000000 then some n else none

/-- The sum of the samples, the oldest first, unless it leaves the signed numbers of 32 bits on the
way. -/
def sum? (w : Window Int) : Option Int := w.items.foldlM (fun n a => checked32 (n + a)) 0

@[simp] theorem ofCapacity_capacity (n : Nat) : (ofCapacity n : Window α).capacity = max n 1 := rfl

@[simp] theorem ofCapacity_items (n : Nat) : (ofCapacity n : Window α).items = [] := rfl

@[simp] theorem push_last? (w : Window α) (a : α) : (w.push a).last? = some a := by
  simp [push, last?]

@[simp] theorem push_capacity (w : Window α) (a : α) : (w.push a).capacity = w.capacity := rfl

@[simp] theorem clear_items (w : Window α) : w.clear.items = [] := rfl

theorem mem_of_mem_push {w : Window α} {a b : α} (h : b ∈ (w.push a).items) : b ∈ w.items ∨ b = a := by
  rcases List.mem_append.1 h with hold | hnew
  · refine .inl ?_
    split at hold
    · exact List.mem_of_mem_drop hold
    · exact hold
  · exact .inr (List.mem_singleton.1 hnew)

theorem push_items_of_room {w : Window α} (room : w.items.length ≠ w.capacity) (a : α) :
    (w.push a).items = w.items ++ [a] := by
  rw [push, if_neg room]

theorem push_length_le {w : Window α} (h : w.items.length ≤ w.capacity) (room : 1 ≤ w.capacity)
    (a : α) : (w.push a).items.length ≤ w.capacity := by
  simp only [push, List.length_append, List.length_singleton]
  split
  · simp only [List.length_drop]; omega
  · omega

end Window

end AdaptiveHls
