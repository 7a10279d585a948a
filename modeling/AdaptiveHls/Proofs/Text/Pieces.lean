import AdaptiveHls.Text.Blank
import Mathlib.Data.List.Basic
import Mathlib.Data.List.TakeWhile

/-!
# Texts in pieces

A text is what is left of it between two runs of blanks, and blanks that are put around it change
nothing about what is left. Pieces that are joined with a character between them grow at the front by
a character of the first piece, or by the one between.
-/

namespace AdaptiveHls.Text

/-! ## Blanks around -/

def Blanks (cs : List Char) : Prop := ∀ c ∈ cs, isBlank c = true

instance (cs : List Char) : Decidable (Blanks cs) := List.decidableBAll _ cs

variable {cs front back before after : List Char}

theorem Blanks.not_mem (h : Blanks cs) {c : Char} (hc : isBlank c = false) : c ∉ cs := fun hmem => by
  simp [h c hmem] at hc

theorem dropWhile_blanks_append (h : Blanks front) (cs : List Char) :
    (front ++ cs).dropWhile isBlank = cs.dropWhile isBlank := by
  rw [List.dropWhile_append, List.dropWhile_eq_nil_iff.2 h]
  rfl

/-- Blanks around a text do not count. -/
theorem strip_blanks_around (hfront : Blanks front) (hback : Blanks back) (cs : List Char) :
    strip (front ++ cs ++ back) = strip cs := by
  have hreverse : Blanks back.reverse := fun c hc => hback c (List.mem_reverse.1 hc)
  rw [strip, strip, List.append_assoc, dropWhile_blanks_append hfront, List.dropWhile_append]
  cases hcs : (cs.dropWhile isBlank).isEmpty with
  | true => simp [List.isEmpty_iff.1 hcs, List.dropWhile_eq_nil_iff.2 hback]
  | false => simp [dropWhile_blanks_append hreverse]

theorem strip_blanks_append (h : Blanks front) (cs : List Char) :
    strip (front ++ cs) = strip cs := by
  have hnone : Blanks [] := by simp [Blanks]
  simpa using strip_blanks_around h hnone cs

theorem strip_append_blanks (h : Blanks back) (cs : List Char) :
    strip (cs ++ back) = strip cs := by
  have hnone : Blanks [] := by simp [Blanks]
  simpa using strip_blanks_around hnone h cs

/-- Around what is left of a text there are blanks and nothing else. -/
theorem exists_blanks_around (cs : List Char) :
    ∃ front back, Blanks front ∧ Blanks back ∧ cs = front ++ strip cs ++ back := by
  refine ⟨cs.takeWhile isBlank, ((cs.dropWhile isBlank).reverse.takeWhile isBlank).reverse,
    fun c hc => List.mem_takeWhile_imp hc,
    fun c hc => List.mem_takeWhile_imp (List.mem_reverse.1 hc), ?_⟩
  rw [strip, List.append_assoc, ← List.reverse_append, List.takeWhile_append_dropWhile,
    List.reverse_reverse, List.takeWhile_append_dropWhile]

@[simp] theorem strip_strip (cs : List Char) : strip (strip cs) = strip cs := by
  obtain ⟨front, back, hfront, hback, hcs⟩ := exists_blanks_around cs
  have hstrip := strip_blanks_around hfront hback (strip cs)
  rwa [← hcs, eq_comm] at hstrip

/-- Stripping removes nothing where there is no blank. -/
theorem strip_eq_self {cs : List Char} (h : ∀ c ∈ cs, isBlank c = false) : strip cs = cs := by
  have front : ∀ ds : List Char, (∀ c ∈ ds, isBlank c = false) → ds.dropWhile isBlank = ds := by
    intro ds hd
    cases ds with
    | nil => rfl
    | cons c rest => rw [List.dropWhile_cons_of_neg]; simp [hd c List.mem_cons_self]
  rw [strip, front cs h, front cs.reverse (by simpa using h), List.reverse_reverse]

/-! ## Pieces -/

/-- A text is cut at a character that is the first of its kind. -/
theorem cutChars_append {p : Char → Bool} {c : Char}
    (h : ∀ d ∈ before, p d = false) (hc : p c = true) :
    cutChars p (before ++ c :: after) = some (before, after) := by
  induction before with
  | nil => simp [cutChars, hc]
  | cons d rest ih =>
    obtain ⟨hd, hrest⟩ := List.forall_mem_cons.1 h
    simp [cutChars, hd, ih hrest]

/-- Where a text is cut, and where not. -/
theorem cutChars_eq_some_iff {c : Char} :
    cutChars (· == c) cs = some (before, after) ↔ cs = before ++ c :: after ∧ c ∉ before := by
  constructor
  · intro h
    induction cs generalizing before with
    | nil => cases h
    | cons d rest ih =>
      rw [cutChars] at h
      split_ifs at h with hd
      · obtain ⟨rfl, rfl⟩ : [] = before ∧ rest = after := by simpa using h
        exact ⟨by rw [eq_of_beq hd]; rfl, List.not_mem_nil⟩
      · obtain ⟨⟨front, back⟩, hcut, hpair⟩ := Option.map_eq_some_iff.1 h
        obtain ⟨rfl, rfl⟩ : d :: front = before ∧ back = after := by simpa using hpair
        obtain ⟨rfl, hfront⟩ := ih hcut
        have hne : c ≠ d := fun heq => hd (beq_iff_eq.2 heq.symm)
        exact ⟨rfl, List.not_mem_cons_of_ne_of_not_mem hne hfront⟩
  · rintro ⟨rfl, hbefore⟩
    exact cutChars_append (fun d hd => beq_eq_false_iff_ne.2 fun heq => hbefore (heq ▸ hd)) (by simp)

/-- A text is cut at the first of the characters: there is none in front of the cut. -/
theorem cut?_eq_some_iff {c : Char} {s before after : String} :
    cut? (· == c) s = some (before, after) ↔
      s.toList = before.toList ++ c :: after.toList ∧ c ∉ before.toList := by
  rw [cut?, Option.map_eq_some_iff, ← cutChars_eq_some_iff]
  constructor
  · rintro ⟨⟨front, back⟩, hcut, hpair⟩
    obtain ⟨rfl, rfl⟩ : String.ofList front = before ∧ String.ofList back = after := by
      simpa using hpair
    rwa [String.toList_ofList, String.toList_ofList]
  · intro hcut
    exact ⟨_, hcut, by simp⟩

theorem intercalate_cons_head (s c : Char) (piece : List Char) (pieces : List (List Char)) :
    [s].intercalate ((c :: piece) :: pieces) = c :: [s].intercalate (piece :: pieces) := by
  cases pieces <;> simp [List.intercalate]

theorem intercalate_nil_cons (s : Char) {pieces : List (List Char)} (h : pieces ≠ []) :
    [s].intercalate ([] :: pieces) = s :: [s].intercalate pieces := by
  cases pieces with
  | nil => exact absurd rfl h
  | cons piece pieces => simp [List.intercalate_cons_cons]

end AdaptiveHls.Text
