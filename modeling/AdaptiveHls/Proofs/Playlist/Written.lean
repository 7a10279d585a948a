import AdaptiveHls.Playlist.Directive
import AdaptiveHls.Proofs.Text.Pieces

/-!
# Numbers and attributes as they are written

The decimal digits of a number read back as that number, by the lenient rule for counts and so for
the values of attributes, as long as the number is within the bound. A name and a value with an
equals sign between them read back as an attribute.
-/

namespace AdaptiveHls.Number

theorem ofDigits_eq (cs : List Char) : ofDigits cs = Nat.ofDigitChars 10 cs 0 := by
  simp only [ofDigits, Nat.ofDigitChars_eq_foldl, digitValue, Nat.mul_comm]

theorem isDigit_of_mem_toDigits {n : Nat} {c : Char} (h : c ∈ Nat.toDigits 10 n) :
    isDigit c = true :=
  Nat.isDigit_of_mem_toDigits (by decide) (by decide) h

theorem isBlank_of_isDigit {c : Char} (h : isDigit c = true) : Text.isBlank c = false := by
  simp only [isDigit, Bool.and_eq_true, decide_eq_true_eq, Char.le_def, UInt32.le_iff_toNat_le] at h
  obtain ⟨low, high⟩ := h
  change 48 ≤ c.toNat at low
  change c.toNat ≤ 57 at high
  simp only [Text.isBlank, Bool.or_eq_false_iff, Bool.and_eq_false_iff, decide_eq_false_iff_not,
    beq_eq_false_iff_ne]
  omega

end AdaptiveHls.Number

namespace AdaptiveHls

theorem Number.leadingCount?_toString {n : Nat} (h : n ≤ Count.greatest) :
    Number.leadingCount? (toString n) = some n := by
  have hstrip : Text.strip (Nat.toDigits 10 n) = Nat.toDigits 10 n :=
    Text.strip_eq_self fun c hc => isBlank_of_isDigit (isDigit_of_mem_toDigits hc)
  have htake : (Nat.toDigits 10 n).takeWhile isDigit = Nat.toDigits 10 n :=
    List.takeWhile_eq_self_iff.2 fun c hc => isDigit_of_mem_toDigits hc
  simp [leadingCount?, hstrip, htake, ofDigits_eq, h]

theorem Number.le_of_leadingCount? {s : String} {n : Nat} (h : leadingCount? s = some n) :
    n ≤ Count.greatest := by
  simp only [leadingCount?] at h
  split at h
  · cases h
  · split at h
    · cases h; assumption
    · cases h

namespace Value

theorem unquote_of_forall {cs : List Char} (h : '"' ∉ cs) : unquote cs = cs := by
  cases cs with
  | nil => rfl
  | cons c rest =>
    have hc : c ≠ '"' := fun he => h (he ▸ List.mem_cons_self)
    simp [unquote, hc]

theorem count?_toString {n : Nat} (h : n ≤ Count.greatest) :
    (⟨toString n⟩ : Value).count? = some n := by
  have hq : '"' ∉ Nat.toDigits 10 n := fun hm =>
    absurd (Number.isDigit_of_mem_toDigits hm) (by decide)
  have htext : (⟨toString n⟩ : Value).text = toString n := by
    simp [text, unquote_of_forall hq, Nat.repr_eq_ofList_toDigits]
  rw [count?, htext, Number.leadingCount?_toString h]

theorem getD_count?_le (v : Value) : v.count?.getD 0 ≤ Count.greatest := by
  cases h : v.count? with
  | none => exact Nat.zero_le _
  | some n => exact Number.le_of_leadingCount? h

end Value

namespace Attributes

theorem pieces_of_plain {cs : List Char} (h : ∀ c ∈ cs, c ≠ ',' ∧ c ≠ '"') :
    pieces false cs = [cs] := by
  induction cs with
  | nil => rfl
  | cons c rest ih =>
    obtain ⟨hcomma, hquote⟩ := h c List.mem_cons_self
    simp [pieces, hcomma, hquote, ih fun d hd => h d (List.mem_cons_of_mem _ hd)]

/-- A name and a value with nothing in them that a list gives a meaning read as they are. -/
theorem read_pair (name value : List Char) (hn : name ≠ [])
    (hname : ∀ c ∈ name, c ≠ ',' ∧ c ≠ '"' ∧ c ≠ '=' ∧ Text.isBlank c = false)
    (hvalue : ∀ c ∈ value, c ≠ ',' ∧ c ≠ '"' ∧ Text.isBlank c = false) :
    read (String.ofList (name ++ '=' :: value)) =
      ⟨[⟨String.ofList name, ⟨String.ofList value⟩⟩]⟩ := by
  have hplain : ∀ c ∈ name ++ '=' :: value, (c ≠ ',' ∧ c ≠ '"') ∧ Text.isBlank c = false := by
    intro c hc
    rcases List.mem_append.1 hc with hc | hc
    · exact ⟨⟨(hname c hc).1, (hname c hc).2.1⟩, (hname c hc).2.2.2⟩
    · rcases List.mem_cons.1 hc with rfl | hc
      · decide
      · exact ⟨⟨(hvalue c hc).1, (hvalue c hc).2.1⟩, (hvalue c hc).2.2⟩
  have hcut : Text.cutChars (· == '=') (name ++ '=' :: value) = some (name, value) :=
    Text.cutChars_append (fun c hc => beq_eq_false_iff_ne.2 (hname c hc).2.2.1) rfl
  have hpair : pair? (name ++ '=' :: value) =
      some ⟨String.ofList name, ⟨String.ofList value⟩⟩ := by
    simp [pair?, Text.strip_eq_self fun c hc => (hplain c hc).2, hcut,
      Text.strip_eq_self fun c hc => (hname c hc).2.2.2, hn,
      Text.strip_eq_self fun c hc => (hvalue c hc).2.2]
  simp [read, pieces_of_plain fun c hc => (hplain c hc).1, hpair, insert,
    put]

end Attributes

end AdaptiveHls
