import AdaptiveHls.Bitrate.Window
import Mathlib.Algebra.Ring.Int.Defs

/-!
# Trends

A trend is a window of samples one and minus one. A sum that has been worked out is the exact one;
only with more samples than a signed number of 32 bits can count there may be none. The sum reaches
the size of the window exactly if the window is full of ones.
-/

namespace AdaptiveHls.Window

theorem wrap32_of_small {n : Int} (low : -0x80000000 ≤ n) (high : n < 0x80000000) :
    wrap32 n = n :=
  Int.bmod_eq_of_le (by omega) (by omega)

theorem wrap32_bounds (n : Int) : -0x80000000 ≤ wrap32 n ∧ wrap32 n < 0x80000000 :=
  ⟨Int.le_bmod (m := 0x100000000) (by decide), Int.bmod_lt (m := 0x100000000) (by decide)⟩

/-- The signed number is never greater than the count that it has been taken from. -/
theorem wrap32_le (n : Nat) : wrap32 n ≤ n := by
  obtain ⟨k, hk⟩ : (0x100000000 : Int) ∣ wrap32 n - n := Int.dvd_bmod_sub_self
  have hhigh := (wrap32_bounds n).2
  by_contra hmore
  have hlow := (wrap32_bounds n).1
  omega

theorem checked32_eq_some {n m : Int} :
    checked32 n = some m ↔ n = m ∧ -0x80000000 ≤ n ∧ n < 0x80000000 := by
  rw [checked32]
  split <;> simp <;> omega

theorem checked32_of_small {n : Int} (low : -0x80000000 ≤ n) (high : n < 0x80000000) :
    checked32 n = some n :=
  checked32_eq_some.2 ⟨rfl, low, high⟩

/-- A sum that has been worked out is the exact one, whatever came on the way. -/
theorem eq_sum_of_sum? {w : Window Int} {n : Int} (h : w.sum? = some n) : n = w.items.sum := by
  have hfold : ∀ (items : List Int) (start : Int),
      items.foldlM (fun n a => checked32 (n + a)) start = some n → n = start + items.sum := by
    intro items
    induction items with
    | nil =>
      intro start h
      rw [List.sum_nil, Int.add_zero]
      exact (Option.some.inj h).symm
    | cons a rest ih =>
      intro start h
      rw [List.foldlM_cons] at h
      obtain ⟨next, hnext, hrest⟩ := Option.bind_eq_some_iff.1 h
      obtain ⟨rfl, -⟩ := checked32_eq_some.1 hnext
      rw [ih _ hrest, List.sum_cons, Int.add_assoc]
  rw [hfold w.items 0 h, Int.zero_add]

/-- A number that is close enough to zero can be counted up and down from. -/
theorem foldlM_checked32 (items : List Int) (signs : ∀ a ∈ items, a = 1 ∨ a = -1) {start : Int}
    (low : -0x80000000 ≤ start - items.length) (high : start + items.length < 0x80000000) :
    items.foldlM (fun n a => checked32 (n + a)) start = some (start + items.sum) := by
  induction items generalizing start with
  | nil => rw [List.sum_nil, Int.add_zero]; rfl
  | cons a rest ih =>
    have ha := signs a List.mem_cons_self
    rw [List.length_cons] at low high
    rw [List.foldlM_cons, checked32_of_small (by omega) (by omega), List.sum_cons,
      ← Int.add_assoc]
    apply ih
    · exact fun b hb => signs b (List.mem_cons_of_mem a hb)
    · omega
    · omega

/-- A window with ones for rises and minus ones for falls, and no more of them than it has room
for. -/
structure IsTrend (w : Window Int) : Prop where
  signs : ∀ a ∈ w.items, a = 1 ∨ a = -1
  fits : w.items.length ≤ w.capacity
  room : 1 ≤ w.capacity

variable {w : Window Int}

theorem isTrend_ofCapacity (n : Nat) : (ofCapacity n : Window Int).IsTrend :=
  ⟨by simp, by simp, Nat.le_max_right n 1⟩

theorem IsTrend.clear (h : w.IsTrend) : w.clear.IsTrend := ⟨by simp, by simp, h.room⟩

theorem IsTrend.push (h : w.IsTrend) {a : Int} (ha : a = 1 ∨ a = -1) : (w.push a).IsTrend := by
  refine ⟨fun b hb => ?_, push_length_le h.fits h.room a, h.room⟩
  rcases mem_of_mem_push hb with hold | rfl
  · exact h.signs b hold
  · exact ha

/-- A sum of signs is at most as great as their number, either way. -/
theorem sum_bounds (items : List Int) (signs : ∀ a ∈ items, a = 1 ∨ a = -1) :
    -(items.length : Int) ≤ items.sum ∧ items.sum ≤ items.length := by
  induction items with
  | nil => simp
  | cons a rest ih =>
    have hrest := ih fun b hb => signs b (by simp [hb])
    have ha := signs a (by simp)
    rw [List.sum_cons, List.length_cons]
    omega

theorem IsTrend.sum?_eq (h : w.IsTrend) (few : w.items.length < 0x80000000) :
    w.sum? = some w.items.sum := by
  rw [sum?, foldlM_checked32 w.items h.signs (by omega) (by omega), Int.zero_add]

/-- Samples reach their number only if none is a fall. -/
theorem eq_replicate_of_length_le_sum (items : List Int) (signs : ∀ a ∈ items, a = 1 ∨ a = -1)
    (reached : (items.length : Int) ≤ items.sum) : items = List.replicate items.length 1 := by
  induction items with
  | nil => rfl
  | cons a rest ih =>
    have hsigns : ∀ b ∈ rest, b = 1 ∨ b = -1 := fun b hb => signs b (by simp [hb])
    have hrest := (sum_bounds rest hsigns).2
    rw [List.sum_cons, List.length_cons] at reached
    have ha : a = 1 := by
      have := signs a (by simp)
      omega
    rw [List.length_cons, List.replicate_succ, ← ih hsigns (by omega), ha]

/-- The sum reaches the size of a window exactly if it is full and all of it rises. -/
theorem IsTrend.capacity_le_sum_iff (h : w.IsTrend) :
    (w.capacity : Int) ≤ w.items.sum ↔ w.items = List.replicate w.capacity 1 := by
  constructor
  · intro hle
    have hbound := (Window.sum_bounds w.items h.signs).2
    have hfull : w.items.length = w.capacity := Nat.le_antisymm h.fits (by omega)
    rw [← hfull] at hle ⊢
    exact eq_replicate_of_length_le_sum w.items h.signs hle
  · intro hall
    rw [hall]
    simp

end AdaptiveHls.Window
