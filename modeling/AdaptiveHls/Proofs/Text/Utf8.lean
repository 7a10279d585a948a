import AdaptiveHls.Text.Utf8
import Mathlib.Data.String.Basic
import Mathlib.Data.UInt

/-!
# Text that goes through bytes

Reading the bytes of a text gives the text again. A character takes one byte to four, and the first
of them says how many; the bounds that the reader sets for the second leave out what another number
of bytes would have done for, and what is no character. So the bytes of a character are read as the
machine goes from one to the next, without anything being looked at again.

The greater of two characters has the greater bytes, and neither is the start of the other. So texts
are in the order of their bytes. A byte below 128 is a character by itself and no part of another,
so such a character can be looked for among the bytes.
-/

namespace AdaptiveHls.Text.Utf8

variable {value owed low high n : Nat} {b : UInt8} {rest : List UInt8}

/-- A byte within its bounds is one less that is owed. -/
theorem run_more (hb : b.toNat = n + 128) (hn : n < 64) (hlow : low ≤ n + 128)
    (hhigh : n + 128 ≤ high) :
    run (some ⟨value, owed + 2, low, high⟩) (b :: rest) =
      run (some ⟨value * 64 + n, owed + 1, 0x80, 0xBF⟩) rest := by
  have hbits : (n + 128) % 64 = n := by omega
  simp [run, step, hb, hlow, hhigh, hbits]

/-- The last byte owed completes the character. -/
theorem run_last (hb : b.toNat = n + 128) (hn : n < 64) (hlow : low ≤ n + 128)
    (hhigh : n + 128 ≤ high) :
    run (some ⟨value, 1, low, high⟩) (b :: rest) = Char.ofNat (value * 64 + n) :: run none rest := by
  have hbits : (n + 128) % 64 = n := by omega
  simp [run, step, hb, hlow, hhigh, hbits]

theorem run_first (h : first b = ([], some ⟨value, owed, low, high⟩)) :
    run none (b :: rest) = run (some ⟨value, owed, low, high⟩) rest := by
  simp [run, step, h]

theorem first_of_one (h : b.toNat < 0x80) : first b = ([Char.ofNat b.toNat], none) := by
  simp [first, h]

theorem first_of_two (hb : b.toNat = n + 192) (hlow : 2 ≤ n) (hhigh : n < 32) :
    first b = ([], some ⟨n, 1, 0x80, 0xBF⟩) := by
  have hone : ¬ n + 192 < 0x80 := by omega
  have hlead : 0xC2 ≤ n + 192 ∧ n + 192 ≤ 0xDF := by omega
  simp [first, hb, hone, hlead]

/-- The second of three bytes has a greater lower bound behind the least first byte, and a smaller
upper one where surrogates would begin. -/
theorem first_of_three (hb : b.toNat = n / 64 + 224) (hlow : 32 ≤ n) (hhigh : n < 1024)
    (hchar : n < 864 ∨ 896 ≤ n) :
    ∃ low high, first b = ([], some ⟨n / 64, 2, low, high⟩) ∧
      low ≤ n % 64 + 128 ∧ n % 64 + 128 ≤ high := by
  have htwo : ¬ n / 64 + 224 < 0x80 ∧ ¬ n / 64 + 224 ≤ 0xDF := by omega
  by_cases hleast : n / 64 = 0
  · refine ⟨0xA0, 0xBF, ?_, by omega, by omega⟩
    simp [first, hb, hleast]
  · by_cases hsurrogates : n / 64 = 13
    · refine ⟨0x80, 0x9F, ?_, by omega, by omega⟩
      simp [first, hb, hsurrogates]
    · refine ⟨0x80, 0xBF, ?_, by omega, by omega⟩
      have hlead : 0xE1 ≤ n / 64 + 224 ∧ n / 64 + 224 ≤ 0xEF := by omega
      simp [first, hb, htwo, hleast, hsurrogates, hlead]

/-- The second of four bytes has a greater lower bound behind the least first byte, and a smaller
upper one behind the greatest. -/
theorem first_of_four (hb : b.toNat = n / 64 + 240) (hlow : 16 ≤ n) (hhigh : n < 272) :
    ∃ low high, first b = ([], some ⟨n / 64, 3, low, high⟩) ∧
      low ≤ n % 64 + 128 ∧ n % 64 + 128 ≤ high := by
  have hthree : ¬ n / 64 + 240 < 0x80 ∧ ¬ n / 64 + 240 ≤ 0xDF ∧ ¬ n / 64 + 240 ≤ 0xEF := by omega
  by_cases hleast : n / 64 = 0
  · refine ⟨0x90, 0xBF, ?_, by omega, by omega⟩
    simp [first, hb, hleast]
  · by_cases hgreatest : n / 64 = 4
    · refine ⟨0x80, 0x8F, ?_, by omega, by omega⟩
      simp [first, hb, hgreatest]
    · refine ⟨0x80, 0xBF, ?_, by omega, by omega⟩
      have hlead : 0xF1 ≤ n / 64 + 240 ∧ n / 64 + 240 ≤ 0xF3 := by omega
      simp [first, hb, hthree, hleast, hlead]

theorem toNat_ofNat {m k : Nat} (h : m = k) (hk : k < 256) : (UInt8.ofNat m).toNat = k := by
  simp [h, Nat.mod_eq_of_lt hk]

/-- The bytes of a character are read as that character. -/
theorem run_utf8EncodeChar (c : Char) (rest : List UInt8) :
    run none (String.utf8EncodeChar c ++ rest) = c :: run none rest := by
  have hvalid : c.val.toNat.isValidChar := c.valid
  have hself : Char.ofNat c.val.toNat = c := Char.ofNat_toNat c
  simp only [String.utf8EncodeChar]
  generalize c.val.toNat = n at hvalid hself ⊢
  have hlast : (UInt8.ofNat (n % 64 + 128)).toNat = n % 64 + 128 := toNat_ofNat rfl (by omega)
  have hmiddle : (UInt8.ofNat (n / 64 % 64 + 128)).toNat = n / 64 % 64 + 128 :=
    toNat_ofNat rfl (by omega)
  split_ifs with hone htwo hthree
  · have hb : (UInt8.ofNat n).toNat = n := toNat_ofNat rfl (by omega)
    have hfirst := first_of_one (b := UInt8.ofNat n) (by omega)
    rw [hb, hself] at hfirst
    simp [run, step, hfirst]
  · have hb : (UInt8.ofNat (n / 64 % 32 + 192)).toNat = n / 64 + 192 :=
      toNat_ofNat (by omega) (by omega)
    simp only [List.cons_append, List.nil_append]
    rw [run_first (first_of_two hb (by omega) (by omega)),
      run_last hlast (by omega) (by omega) (by omega)]
    rw [show n / 64 * 64 + n % 64 = n by omega, hself]
  · have hb : (UInt8.ofNat (n / 4096 % 16 + 224)).toNat = n / 64 / 64 + 224 :=
      toNat_ofNat (by omega) (by omega)
    obtain ⟨low, high, hfirst, hlow, hhigh⟩ :=
      first_of_three hb (by omega) (by omega) (by omega)
    simp only [List.cons_append, List.nil_append]
    rw [run_first hfirst, run_more hmiddle (by omega) hlow hhigh,
      run_last hlast (by omega) (by omega) (by omega)]
    rw [show (n / 64 / 64 * 64 + n / 64 % 64) * 64 + n % 64 = n by omega, hself]
  · have hb : (UInt8.ofNat (n / 262144 % 8 + 240)).toNat = n / 4096 / 64 + 240 :=
      toNat_ofNat (by omega) (by omega)
    have hsecond : (UInt8.ofNat (n / 4096 % 64 + 128)).toNat = n / 4096 % 64 + 128 :=
      toNat_ofNat rfl (by omega)
    obtain ⟨low, high, hfirst, hlow, hhigh⟩ := first_of_four hb (by omega) (by omega)
    simp only [List.cons_append, List.nil_append]
    rw [run_first hfirst, run_more hsecond (by omega) hlow hhigh,
      run_more hmiddle (by omega) (by omega) (by omega),
      run_last hlast (by omega) (by omega) (by omega)]
    rw [show ((n / 4096 / 64 * 64 + n / 4096 % 64) * 64 + n / 64 % 64) * 64 + n % 64 = n by omega,
      hself]

/-- Reading the bytes of a text gives the text. -/
theorem decode_encode (s : String) : decode (encode s) = s := by
  have hrun : ∀ cs : List Char, run none (cs.flatMap String.utf8EncodeChar) = cs := by
    intro cs
    induction cs with
    | nil => rfl
    | cons c cs ih => rw [List.flatMap_cons, run_utf8EncodeChar, ih]
  rw [decode, encode, hrun, String.ofList_toList]

/-- The greater of two characters has the greater of the first bytes in which they differ. The bytes
are digits in base 64, so it is one digit that tells two numbers apart. -/
theorem utf8EncodeChar_append_lt {c d : Char} (h : c < d) (rest more : List UInt8) :
    String.utf8EncodeChar c ++ rest < String.utf8EncodeChar d ++ more := by
  have hlt : c.val.toNat < d.val.toNat := h
  have hvalid : d.val.toNat.isValidChar := d.valid
  simp only [String.utf8EncodeChar]
  generalize c.val.toNat = m at hlt ⊢
  generalize d.val.toNat = n at hlt hvalid ⊢
  have hbound : n < 0x110000 := by
    rcases hvalid with h | h <;> omega
  have hlast : m / 64 < n / 64 ∨ m / 64 = n / 64 ∧ m % 64 < n % 64 := by omega
  have hmiddle : m / 64 < n / 64 →
      m / 4096 < n / 4096 ∨ m / 4096 = n / 4096 ∧ m / 64 % 64 < n / 64 % 64 := by omega
  have hsecond : m / 4096 < n / 4096 →
      m / 262144 % 8 < n / 262144 % 8 ∨
        m / 262144 % 8 = n / 262144 % 8 ∧ m / 4096 % 64 < n / 4096 % 64 := by
    have hm : m / 262144 < 8 := by omega
    have hn : n / 262144 < 8 := by omega
    rw [Nat.mod_eq_of_lt hm, Nat.mod_eq_of_lt hn]
    omega
  split_ifs <;>
    simp (disch := omega) only [List.cons_append, List.nil_append, List.cons_lt_cons_iff,
      UInt8.lt_iff_toNat_lt, ← UInt8.toNat_inj, toNat_ofNat rfl] <;>
    omega

/-- Texts are in the order of their bytes. -/
theorem encode_lt_encode {s t : String} (h : s < t) : encode s < encode t := by
  rw [String.lt_iff_toList_lt] at h
  rw [encode, encode]
  generalize s.toList = cs at h ⊢
  generalize t.toList = ds at h ⊢
  induction h with
  | @nil d ds =>
    rw [List.flatMap_nil, List.flatMap_cons]
    cases hd : String.utf8EncodeChar d with
    | nil => exact absurd hd String.utf8EncodeChar_ne_nil
    | cons b bs => exact List.nil_lt_cons _ _
  | cons _ ih =>
    rw [List.flatMap_cons, List.flatMap_cons]
    exact List.append_left_lt ih
  | rel h =>
    rw [List.flatMap_cons, List.flatMap_cons]
    exact utf8EncodeChar_append_lt h _ _

/-! ## Characters found among the bytes -/

section Bytes

variable {s : String} {c d : Char}

theorem encode_eq_nil_iff : encode s = [] ↔ s = "" := by
  simp [encode, List.flatMap_eq_nil_iff, ← List.eq_nil_iff_forall_not_mem]

/-- A byte below 128 is a character by itself, and no part of another. -/
theorem eq_of_mem_utf8EncodeChar (hc : c.toNat = b.toNat) (hb : b.toNat < 0x80)
    (h : b ∈ String.utf8EncodeChar d) : d = c := by
  suffices hd : d.val.toNat = b.toNat from Char.toNat_inj.1 (hd.trans hc.symm)
  simp only [String.utf8EncodeChar] at h
  generalize d.val.toNat = n at h ⊢
  split_ifs at h with hone htwo hthree <;>
    simp only [List.mem_cons, List.not_mem_nil, or_false] at h
  · rw [h, toNat_ofNat rfl (by omega)]
  · rcases h with rfl | rfl <;> rw [toNat_ofNat rfl (by omega)] at hb <;> omega
  · rcases h with rfl | rfl | rfl <;> rw [toNat_ofNat rfl (by omega)] at hb <;> omega
  · rcases h with rfl | rfl | rfl | rfl <;> rw [toNat_ofNat rfl (by omega)] at hb <;> omega

theorem mem_of_mem_encode (hc : c.toNat = b.toNat) (hb : b.toNat < 0x80) (h : b ∈ encode s) :
    c ∈ s.toList := by
  obtain ⟨d, hd, hmem⟩ := List.mem_flatMap.1 h
  exact eq_of_mem_utf8EncodeChar hc hb hmem ▸ hd

theorem getLast?_of_getLast?_encode (hc : c.toNat = b.toNat) (hb : b.toNat < 0x80)
    (h : (encode s).getLast? = some b) : s.toList.getLast? = some c := by
  rcases List.eq_nil_or_concat' s.toList with hs | ⟨cs, d, hs⟩
  · simp [encode, hs] at h
  · rw [encode, hs, List.flatMap_append, List.flatMap_singleton,
      List.getLast?_append_of_ne_nil _ String.utf8EncodeChar_ne_nil] at h
    rw [hs, List.getLast?_concat, eq_of_mem_utf8EncodeChar hc hb (List.mem_of_getLast? h)]

/-- Only a text that begins with a character has bytes that begin with those of the character. -/
theorem head?_of_encode_append {more : List UInt8} (hs : s ≠ "")
    (h : encode s ++ rest = String.utf8EncodeChar c ++ more) : s.toList.head? = some c := by
  cases hcs : s.toList with
  | nil => exact absurd (String.toList_eq_nil_iff.1 hcs) hs
  | cons d ds =>
    rw [encode, hcs, List.flatMap_cons, List.append_assoc] at h
    have hrun := congrArg (run none) h
    rw [run_utf8EncodeChar, run_utf8EncodeChar] at hrun
    rw [List.head?_cons, (List.cons.inj hrun).1]

end Bytes

end AdaptiveHls.Text.Utf8
