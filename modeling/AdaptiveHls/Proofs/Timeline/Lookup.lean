import AdaptiveHls.Proofs.Timeline.Order

/-!
# Looking up numbers that rise

A look-up halves the list until one element is left. Where the elements that are above a number
stand behind all others, this is the last one that is not above it, or the first of all if there is
none. So in a list whose numbers rise a look-up finds what going through the list would find: the
segment with a number, if there is one, and those with that number or a greater one.
-/

namespace AdaptiveHls

section Bisect

variable {α : Type} {above : α → Bool} {xs : List α}

/-- The elements that are above stand behind all others. -/
def Cut (above : α → Bool) (xs : List α) : Prop :=
  xs.Pairwise fun a b => above a = true → above b = true

theorem Cut.countP_eq_zero {x : α} (h : Cut above (x :: xs)) (hx : above x = true) :
    xs.countP (!above ·) = 0 := by
  rw [List.countP_eq_zero]
  intro y hy
  simp [List.rel_of_pairwise_cons h hy hx]

/-- In front of the cut nothing is above, and behind it everything. -/
theorem Cut.any_not_iff (h : Cut above xs) (i : Nat) :
    xs[i]?.any (!above ·) = true ↔ i < xs.countP (!above ·) := by
  induction xs generalizing i with
  | nil => simp
  | cons x rest ih =>
    cases hx : above x with
    | true =>
      have hnone : (x :: rest).countP (!above ·) = 0 := by simp [hx, h.countP_eq_zero hx]
      rw [hnone]
      cases i with
      | zero => simp [hx]
      | succ i => simp [ih h.of_cons i, h.countP_eq_zero hx]
    | false =>
      cases i with
      | zero => simp [hx]
      | succ i => simp [ih h.of_cons i, hx]

/-- What stands behind the cut is what is above. -/
theorem Cut.drop_countP (h : Cut above xs) : xs.drop (xs.countP (!above ·)) = xs.filter above := by
  induction xs with
  | nil => rfl
  | cons x rest ih =>
    have hrest := ih h.of_cons
    cases hx : above x with
    | true =>
      rw [h.countP_eq_zero hx, List.drop_zero] at hrest
      rw [List.countP_cons_of_neg (by simp [hx]), h.countP_eq_zero hx, List.drop_zero,
        List.filter_cons_of_pos hx, ← hrest]
    | false => simpa [hx] using hrest

/-- Halving keeps the last element that is not above within the stretch. -/
theorem Cut.bisect_eq (h : Cut above xs) (start size : Nat) (hsize : start + size ≤ xs.length)
    (hlow : start = 0 ∨ start < xs.countP (!above ·))
    (hhigh : xs.countP (!above ·) ≤ start + size) :
    bisect above xs start size = xs.countP (!above ·) - 1 := by
  induction start, size using bisect.induct above xs with
  | case1 start size hmore middle ih =>
    have hmiddle : xs[middle]?.any above = true ↔ xs.countP (!above ·) ≤ middle := by
      have hlt : middle < xs.length := by omega
      have hnot := h.any_not_iff middle
      rw [List.getElem?_eq_getElem hlt, Option.any_some] at hnot ⊢
      rw [← Nat.not_lt, ← hnot, Bool.not_eq_true', Bool.not_eq_false]
    rw [bisect, if_pos hmore]
    change bisect above xs (if xs[middle]?.any above = true then start else middle) _ = _
    by_cases habove : xs[middle]?.any above = true
    · have hle := hmiddle.1 habove
      rw [dif_pos habove] at ih
      rw [if_pos habove]
      exact ih (by omega) hlow (by omega)
    · have hlt := mt hmiddle.2 habove
      rw [dif_neg habove] at ih
      rw [if_neg habove]
      exact ih (by omega) (.inr (by omega)) (by omega)
  | case2 start size hfew =>
    rw [bisect, if_neg hfew]
    omega

end Bisect

namespace SegmentList

variable {l : SegmentList} {s : Segment} {n : Nat}

def since (l : SegmentList) (n : Nat) : List Segment := l.segments.filter (n ≤ ·.sequence)

theorem cut_of_rising (h : Rising l.segments) {above : Segment → Bool}
    (habove : ∀ a b, a.sequence < b.sequence → above a = true → above b = true) :
    Cut above l.segments :=
  (List.pairwise_map.1 h).imp fun hlt => habove _ _ hlt

theorem cut_since (h : Rising l.segments) (n : Nat) :
    Cut (fun s => decide (n ≤ s.sequence)) l.segments :=
  cut_of_rising h fun a b hlt ha => by
    simp only [decide_eq_true_eq] at ha ⊢
    omega

/-- With rising numbers, halving counts what a scan of the whole list would. -/
theorem countBelow_eq (h : Rising l.segments) (n : Nat) :
    l.countBelow n = l.segments.countP (fun s => !decide (n ≤ s.sequence)) := by
  have hcut := cut_since h n
  have hbelow : (fun s : Segment => decide (s.sequence < n)) = fun s => !decide (n ≤ s.sequence) := by
    funext s
    rw [← decide_not, decide_eq_decide, Nat.not_le]
  have hlast := hcut.bisect_eq 0 l.size (Nat.le_of_eq (Nat.zero_add _)) (.inl rfl)
    (by rw [Nat.zero_add]; exact List.countP_le_length)
  rw [countBelow, hlast, hbelow]
  rw [if_congr (hcut.any_not_iff _) rfl rfl]
  split <;> omega

theorem drop_countBelow (h : Rising l.segments) (n : Nat) :
    l.segments.drop (l.countBelow n) = l.since n := by
  rw [countBelow_eq h, (cut_since h n).drop_countP, since]

theorem atOrAfter?_eq (h : Rising l.segments) (n : Nat) : l.atOrAfter? n = (l.since n).head? := by
  rw [atOrAfter?, ← drop_countBelow h, List.head?_drop]

theorem remaining_eq (h : Rising l.segments) (n : Nat) : l.remaining n = (l.since n).length := by
  rw [remaining, size, ← drop_countBelow h, List.length_drop]

/-- A number belongs to one segment, and looking it up gives that. -/
theorem get?_eq_some_iff (h : Rising l.segments) :
    l.get? n = some s ↔ s ∈ l.segments ∧ s.sequence = n := by
  have hcut : Cut (fun s => decide (n < s.sequence)) l.segments :=
    cut_of_rising h fun a b hlt ha => by
      simp only [decide_eq_true_eq] at ha ⊢
      omega
  have hlast := hcut.bisect_eq 0 l.size (Nat.le_of_eq (Nat.zero_add _)) (.inl rfl)
    (by rw [Nat.zero_add]; exact List.countP_le_length)
  rw [get?, hlast, Option.filter_eq_some_iff]
  constructor
  · rintro ⟨hget, hsequence⟩
    exact ⟨List.mem_of_getElem? hget, by simpa using hsequence⟩
  · rintro ⟨hs, rfl⟩
    obtain ⟨i, hi, rfl⟩ := List.getElem_of_mem hs
    refine ⟨?_, by simp⟩
    have hown := (hcut.any_not_iff i).1 (by simp [hi])
    have hnext : ¬ i + 1 < l.segments.countP fun s => !decide (l.segments[i].sequence < s.sequence) := by
      intro hlt
      have hbelow := (hcut.any_not_iff (i + 1)).2 hlt
      have hi' : i + 1 < l.segments.length := Nat.lt_of_lt_of_le hlt List.countP_le_length
      have hrise := List.pairwise_iff_getElem.1 (List.pairwise_map.1 h) i (i + 1) hi hi'
        (Nat.lt_succ_self i)
      simp [hi', hrise] at hbelow
    have hcount : (l.segments.countP fun s => !decide (l.segments[i].sequence < s.sequence)) - 1 =
        i := by
      omega
    rw [hcount, List.getElem?_eq_getElem hi]

theorem lt_of_rising_cons {rest : List Segment} (h : Rising (s :: rest)) :
    ∀ v ∈ rest, s.sequence < v.sequence :=
  fun _ hv => List.rel_of_pairwise_cons h (List.mem_map_of_mem hv)

/-- With rising numbers, the first number is the least. -/
theorem le_of_firstSequence (h : Rising l.segments) (hfirst : l.firstSequence? = some n) :
    ∀ s ∈ l.segments, n ≤ s.sequence := by
  obtain ⟨first, hhead, rfl⟩ := Option.map_eq_some_iff.1 hfirst
  obtain ⟨rest, hl⟩ := List.head?_eq_some_iff.1 hhead
  intro s hs
  rw [hl, List.mem_cons] at hs
  rcases hs with rfl | hs
  · exact Nat.le_refl _
  · rw [hl] at h
    exact Nat.le_of_lt (lt_of_rising_cons h s hs)

theorem rising_since (h : Rising l.segments) (n : Nat) : Rising (l.since n) :=
  h.sublist (List.filter_sublist.map _)

theorem since_eq_segments (h : ∀ s ∈ l.segments, n ≤ s.sequence) : l.since n = l.segments := by
  simpa [since] using h

/-- The segment with a number is the first of those with that number or a greater one. -/
theorem get?_eq_head?_since (h : Rising l.segments) (n : Nat) :
    l.get? n = (l.since n).head?.filter (·.sequence == n) := by
  ext s
  have hmem : ∀ v, v ∈ l.since n ↔ v ∈ l.segments ∧ n ≤ v.sequence := by simp [since]
  rw [get?_eq_some_iff h, Option.filter_eq_some_iff, beq_iff_eq]
  refine and_congr_left fun hs => ⟨fun hmem' => ?_, fun hhead => ?_⟩
  · have hin := (hmem s).2 ⟨hmem', Nat.le_of_eq hs.symm⟩
    cases hsince : l.since n with
    | nil => simp [hsince] at hin
    | cons first rest =>
      have hfirst := ((hmem first).1 (by simp [hsince])).2
      rw [hsince, List.mem_cons] at hin
      rcases hin with rfl | hin
      · rfl
      · have hrise := rising_since h n
        rw [hsince] at hrise
        have hlt := lt_of_rising_cons hrise s hin
        omega
  · exact ((hmem s).1 (List.mem_of_mem_head? hhead)).1

theorem mem_since : s ∈ l.since n ↔ s ∈ l.segments ∧ n ≤ s.sequence := by
  simp [SegmentList.since]

/-- The first of the segments from a number on is the one with the least number. -/
theorem head?_since_eq_some_iff (h : Rising l.segments) :
    (l.since n).head? = some s ↔
      s ∈ l.segments ∧ n ≤ s.sequence ∧ ∀ v ∈ l.segments, n ≤ v.sequence → s.sequence ≤ v.sequence := by
  have hrising := rising_since h n
  simp only [← and_assoc, ← mem_since, ← and_imp]
  cases hsince : l.since n with
  | nil => simp
  | cons first rest =>
    rw [hsince] at hrising
    have hbelow := lt_of_rising_cons hrising
    simp only [List.head?_cons, Option.some.injEq, List.mem_cons, forall_eq_or_imp]
    constructor
    · rintro rfl
      exact ⟨.inl rfl, Nat.le_refl _, fun v hv => Nat.le_of_lt (hbelow v hv)⟩
    · rintro ⟨rfl | hs, hle, _⟩
      · rfl
      · exact absurd hle (Nat.not_le.2 (hbelow s hs))

theorem head?_since_eq_none_iff :
    (l.since n).head? = none ↔ ∀ v ∈ l.segments, v.sequence < n := by
  simp [SegmentList.since]

/-- From the next number on there is one segment less, if there was one with this number. -/
theorem since_succ (h : Rising l.segments) {rest : List Segment} (hsince : l.since n = s :: rest)
    (hs : s.sequence = n) : l.since (n + 1) = rest := by
  have hrise := rising_since h n
  rw [hsince] at hrise
  have hrest : ∀ v ∈ rest, n + 1 ≤ v.sequence := fun v hv => by
    have hlt := lt_of_rising_cons hrise v hv
    omega
  calc l.since (n + 1) = (l.since n).filter (n + 1 ≤ ·.sequence) := by
        rw [since, since, List.filter_filter]
        refine List.filter_congr fun v _ => ?_
        rw [← Bool.decide_and, decide_eq_decide]
        omega
    _ = rest.filter (n + 1 ≤ ·.sequence) := by
        rw [hsince, List.filter_cons_of_neg (by simp [hs])]
    _ = rest := List.filter_eq_self.2 (by simpa using hrest)

/-- Going through the list stops at the segment that a look-up finds. -/
theorem get?_eq_find? (h : Rising l.segments) (n : Nat) :
    l.get? n = l.segments.find? (·.sequence == n) := by
  cases hfind : l.segments.find? (·.sequence == n) with
  | none =>
    have hnone : ∀ s ∈ l.segments, ¬ s.sequence = n := by simpa using hfind
    rw [Option.eq_none_iff_forall_ne_some]
    intro s hs
    obtain ⟨hmem, hn⟩ := (get?_eq_some_iff h).1 hs
    exact hnone s hmem hn
  | some s =>
    have hn : s.sequence = n := by simpa using List.find?_some hfind
    exact (get?_eq_some_iff h).2 ⟨List.mem_of_find?_eq_some hfind, hn⟩

theorem get?_eq_none_iff (h : Rising l.segments) :
    l.get? n = none ↔ ∀ s ∈ l.segments, s.sequence ≠ n := by
  rw [get?_eq_find? h]
  simp

/-! ## Looking up by number -/

/-- Halving finds what going through a list of any length finds: the segment with a number, the one
with the least number from there on, and how many there are from there on. -/
theorem lookup_by_number (h : Rising l.segments) (n : Nat) :
    l.get? n = l.segments.find? (·.sequence == n) ∧
    (∀ s, l.get? n = some s ↔ s ∈ l.segments ∧ s.sequence = n) ∧
    (l.get? n = none ↔ ∀ s ∈ l.segments, s.sequence ≠ n) ∧
    l.atOrAfter? n = l.segments.find? (n ≤ ·.sequence) ∧
    (∀ s, l.atOrAfter? n = some s ↔ s ∈ l.segments ∧ n ≤ s.sequence ∧
      ∀ v ∈ l.segments, n ≤ v.sequence → s.sequence ≤ v.sequence) ∧
    (l.atOrAfter? n = none ↔ ∀ s ∈ l.segments, s.sequence < n) ∧
    l.remaining n = l.segments.countP (n ≤ ·.sequence) := by
  have hfirst := atOrAfter?_eq h n
  have hscan : l.atOrAfter? n = l.segments.find? (n ≤ ·.sequence) := by
    rw [hfirst, since, List.head?_filter]
  have hleast (s : Segment) : l.atOrAfter? n = some s ↔ s ∈ l.segments ∧ n ≤ s.sequence ∧
      ∀ v ∈ l.segments, n ≤ v.sequence → s.sequence ≤ v.sequence := by
    rw [hfirst, head?_since_eq_some_iff h]
  have hnone : l.atOrAfter? n = none ↔ ∀ s ∈ l.segments, s.sequence < n := by
    rw [hfirst, head?_since_eq_none_iff]
  have hcount : l.remaining n = l.segments.countP (n ≤ ·.sequence) := by
    rw [remaining_eq h, since, List.countP_eq_length_filter]
  exact ⟨get?_eq_find? h n, fun s => get?_eq_some_iff h, get?_eq_none_iff h, hscan, hleast, hnone,
    hcount⟩

/-- A number in a gap, the greatest one there is a segment for, and one behind all segments. -/
theorem lookup_by_number_of_gaps :
    let l : SegmentList := ⟨[3, 4, 9, 0xFFFFFFFFFFFFFFFE].map fun n =>
      { sequence := n, duration := 4, uri := "a.ts" }⟩
    Rising l.segments ∧
      l.get? 5 = none ∧ (l.atOrAfter? 5).map (·.sequence) = some 9 ∧ l.remaining 5 = 2 ∧
      (l.get? 0xFFFFFFFFFFFFFFFE).map (·.sequence) = some 0xFFFFFFFFFFFFFFFE ∧
      l.atOrAfter? 0xFFFFFFFFFFFFFFFF = none ∧ l.remaining 0xFFFFFFFFFFFFFFFF = 0 := by
  intro l
  have hrising : Rising l.segments := by decide
  obtain ⟨hget, -, -, hfrom, -, -, hcount⟩ := lookup_by_number hrising 5
  have hgreatest := (lookup_by_number hrising 0xFFFFFFFFFFFFFFFE).1
  obtain ⟨-, -, -, hbehind, -, -, hnone⟩ := lookup_by_number hrising 0xFFFFFFFFFFFFFFFF
  rw [hget, hfrom, hcount, hgreatest, hbehind, hnone]
  exact ⟨hrising, by decide, by decide, by decide, by decide, by decide, by decide⟩

end SegmentList

end AdaptiveHls
