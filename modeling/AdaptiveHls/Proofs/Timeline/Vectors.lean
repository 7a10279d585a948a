import AdaptiveHls.Playlist.Timeline
import AdaptiveHls.Proofs.Playlist.Written
import Mathlib.Data.Nat.Digits.Defs

/-!
# Initialisation vectors

A key states its vector as a number in hexadecimal, of any number of digits up to thirty-two, and the
vector is this number in sixteen bytes. A key that states none, or states it in any other way, has the
numbers of the segments for vectors. What is read goes from digits to pairs of digits to bytes to
sixteen bytes, and none of these steps changes the number that is denoted.
-/

namespace AdaptiveHls

namespace Number

/-- The number that digits denote in a base, the most significant first. -/
def positional (base : Nat) (digits : List Nat) : Nat := Nat.ofDigits base digits.reverse

variable {base : Nat} {digits : List Nat} {cs : List Char} {bytes : List UInt8}

@[simp] theorem positional_nil (base : Nat) : positional base [] = 0 := rfl

@[simp] theorem positional_cons (base d : Nat) (digits : List Nat) :
    positional base (d :: digits) = d * base ^ digits.length + positional base digits := by
  simp [positional, Nat.ofDigits_append, Nat.add_comm, Nat.mul_comm]

/-- Zeros in front do not count. -/
theorem positional_zeros (base count : Nat) (digits : List Nat) :
    positional base (List.replicate count 0 ++ digits) = positional base digits := by
  induction count with
  | zero => rfl
  | succ count ih => rw [List.replicate_succ, List.cons_append, positional_cons, ih]; simp

/-- The digits and what they stand for. -/
theorem hexDigitValue?_cases {c : Char} {d : Nat} (h : hexDigitValue? c = some d) :
    (48 ≤ c.toNat ∧ c.toNat ≤ 57 ∧ d = c.toNat - 48) ∨
      (97 ≤ c.toNat ∧ c.toNat ≤ 102 ∧ d = c.toNat - 97 + 10) ∨
      (65 ≤ c.toNat ∧ c.toNat ≤ 70 ∧ d = c.toNat - 65 + 10) := by
  have hbounds : ∀ {low high : Char}, (low ≤ c && c ≤ high) = true →
      low.toNat ≤ c.toNat ∧ c.toNat ≤ high.toNat := fun h => by
    simpa [Char.le_def, UInt32.le_iff_toNat_le] using h
  rw [hexDigitValue?] at h
  split_ifs at h with hdigit hlower hupper <;> obtain rfl := Option.some.inj h
  · exact .inl ⟨(hbounds hdigit).1, (hbounds hdigit).2, rfl⟩
  · exact .inr (.inl ⟨(hbounds hlower).1, (hbounds hlower).2, rfl⟩)
  · exact .inr (.inr ⟨(hbounds hupper).1, (hbounds hupper).2, rfl⟩)

theorem hexDigitValue?_lt {c : Char} {d : Nat} (h : hexDigitValue? c = some d) : d < 16 := by
  have := hexDigitValue?_cases h
  omega

theorem isBlank_of_hexDigitValue? {c : Char} {d : Nat} (h : hexDigitValue? c = some d) :
    Text.isBlank c = false := by
  have := hexDigitValue?_cases h
  simp only [Text.isBlank, Bool.or_eq_false_iff, Bool.and_eq_false_iff, decide_eq_false_iff_not,
    beq_eq_false_iff_ne]
  omega

theorem ne_of_hexDigitValue? {c e : Char} {d : Nat} (h : hexDigitValue? c = some d)
    (he : hexDigitValue? e = none) : c ≠ e := by
  rintro rfl
  cases he.symm.trans h

/-- Pairs of digits are bytes, and both denote the same number. -/
theorem bytesOfHex?_of_digits (h : cs.map hexDigitValue? = digits.map some)
    (paired : digits.length % 2 = 0) :
    ∃ bytes, bytesOfHex? cs = some bytes ∧ digits.length = 2 * bytes.length ∧
      positional 256 (bytes.map UInt8.toNat) = positional 16 digits := by
  induction cs using bytesOfHex?.induct generalizing digits with
  | case1 =>
    obtain rfl : digits = [] := by simpa using h.symm
    exact ⟨[], rfl, rfl, rfl⟩
  | case2 c =>
    have : digits.length = 1 := by simpa using (congrArg List.length h).symm
    omega
  | case3 a b rest ih =>
    obtain ⟨high, tail, rfl, ha, htail⟩ := List.map_eq_cons_iff.1 h.symm
    obtain ⟨low, digits, rfl, hb, hrest⟩ := List.map_eq_cons_iff.1 htail
    simp only [List.length_cons] at paired
    obtain ⟨bytes, hbytes, hlength, hvalue⟩ := ih hrest.symm (by omega)
    have hbyte : (UInt8.ofNat (high * 16 + low)).toNat = high * 16 + low := by
      have := hexDigitValue?_lt ha.symm
      have := hexDigitValue?_lt hb.symm
      simp only [UInt8.toNat_ofNat']
      omega
    refine ⟨UInt8.ofNat (high * 16 + low) :: bytes, ?_, ?_, ?_⟩
    · simp [bytesOfHex?, ← ha, ← hb, hbytes]
    · simp only [List.length_cons]
      omega
    · have hpower : 256 ^ bytes.length = 16 ^ digits.length := by
        rw [hlength, pow_mul]
        rfl
      simp only [List.map_cons, positional_cons, hbyte, List.length_map, hvalue, hpower,
        List.length_cons]
      ring

/-- Only digits are read, two for each byte. -/
theorem digits_of_bytesOfHex? (h : bytesOfHex? cs = some bytes) :
    ∃ digits : List Nat, cs.map hexDigitValue? = digits.map some ∧
      digits.length = 2 * bytes.length := by
  induction cs using bytesOfHex?.induct generalizing bytes with
  | case1 =>
    obtain rfl : bytes = [] := by simpa [bytesOfHex?] using h.symm
    exact ⟨[], rfl, rfl⟩
  | case2 c => simp [bytesOfHex?] at h
  | case3 a b rest ih =>
    simp only [bytesOfHex?, bind, Option.bind_eq_some_iff] at h
    obtain ⟨high, ha, low, hb, tail, hrest, hbytes⟩ := h
    obtain rfl := Option.some.inj hbytes
    obtain ⟨digits, hdigits, hlength⟩ := ih hrest
    refine ⟨high :: low :: digits, by simp [ha, hb, hdigits], ?_⟩
    simp only [List.length_cons]
    omega

end Number

/-! ## Numbers in sixteen bytes -/

/-- Sixteen bytes that denote a number, the most significant first. -/
structure IsVector (bytes : List UInt8) (n : Nat) : Prop where
  length : bytes.length = 16
  value : Number.positional 256 (bytes.map UInt8.toNat) = n

/-- The lowest `count` bytes of a number. -/
theorem positional_shifts (count n : Nat) :
    Number.positional 256
        (((List.range count).map fun i => UInt8.ofNat (n >>> (8 * (count - 1 - i)))).map UInt8.toNat) =
      n % 256 ^ count := by
  induction count with
  | zero => simp [Nat.mod_one]
  | succ count ih =>
    have hfirst : (UInt8.ofNat (n >>> (8 * (count + 1 - 1 - 0)))).toNat = n / 256 ^ count % 256 := by
      rw [UInt8.toNat_ofNat', Nat.shiftRight_eq_div_pow, pow_mul]
      rfl
    have hrest : ((List.range count).map Nat.succ).map
        (fun i => UInt8.ofNat (n >>> (8 * (count + 1 - 1 - i)))) =
          (List.range count).map fun i => UInt8.ofNat (n >>> (8 * (count - 1 - i))) := by
      rw [List.map_map]
      refine List.map_congr_left fun i _ => ?_
      rw [Function.comp_apply, show count + 1 - 1 - i.succ = count - 1 - i by omega]
    rw [List.range_succ_eq_map, List.map_cons, List.map_cons, Number.positional_cons, hfirst, hrest,
      ih, List.length_map, List.length_map, List.length_range, Nat.mod_pow_succ, Nat.add_comm,
      Nat.mul_comm]

theorem isVector_bigEndian16 {n : Nat} (h : n < 256 ^ 16) : IsVector (bigEndian16 n) n where
  length := by simp [bigEndian16]
  value := (positional_shifts 16 n).trans (Nat.mod_eq_of_lt h)

/-! ## Numbers as they are stated -/

namespace Value

/-- The text writes digits in hexadecimal, in a pair of quotes or in none, with any blanks around them
and with a mark in front or without. -/
def WritesHex (text : String) (digits : List Nat) : Prop :=
  ∃ quote ∈ [[], ['"']], ∃ mark ∈ [[], ['0', 'x'], ['0', 'X']], ∃ front back cs,
    text.toList = quote ++ (front ++ (mark ++ cs) ++ back) ++ quote ∧
      Text.Blanks front ∧ Text.Blanks back ∧ cs.map Number.hexDigitValue? = digits.map some

def hexDigits (v : Value) : List Char := withoutHexMark (Text.strip (unquote v.raw.toList))

theorem bytes?_eq (v : Value) : v.bytes? =
    if v.hexDigits.isEmpty then none
    else if v.hexDigits.length % 2 = 1 then Number.bytesOfHex? ('0' :: v.hexDigits)
    else Number.bytesOfHex? v.hexDigits := by
  rw [bytes?, text, String.toList_ofList]
  rfl

variable {v : Value} {cs : List Char} {digits : List Nat} {bytes : List UInt8}

theorem unquote_quoted (cs : List Char) : unquote (['"'] ++ cs ++ ['"']) = cs := by
  simp [unquote]

/-- At most one pair of quotes is taken off. -/
theorem exists_quote (cs : List Char) :
    ∃ quote ∈ [[], ['"']], cs = quote ++ unquote cs ++ quote := by
  rw [unquote.eq_def]
  split
  · next rest =>
    split_ifs with hlast
    · refine ⟨['"'], by simp, ?_⟩
      have hrest := List.dropLast_append_getLast? '"' (by simpa using hlast)
      simp [hrest]
    · exact ⟨[], by simp, by simp⟩
  · exact ⟨[], by simp, by simp⟩

theorem exists_hexMark (cs : List Char) :
    ∃ mark ∈ [[], ['0', 'x'], ['0', 'X']], cs = mark ++ withoutHexMark cs := by
  rw [withoutHexMark.eq_def]
  split
  · exact ⟨['0', 'x'], by simp, rfl⟩
  · exact ⟨['0', 'X'], by simp, rfl⟩
  · exact ⟨[], by simp, rfl⟩

theorem exists_digit (h : cs.map Number.hexDigitValue? = digits.map some) {c : Char} (hc : c ∈ cs) :
    ∃ d, Number.hexDigitValue? c = some d := by
  have hmem := List.mem_map_of_mem (f := Number.hexDigitValue?) hc
  rw [h] at hmem
  obtain ⟨d, -, hd⟩ := List.mem_map.1 hmem
  exact ⟨d, hd.symm⟩

/-- Digits alone are not taken for a mark. -/
theorem withoutHexMark_of_digits (h : cs.map Number.hexDigitValue? = digits.map some) :
    withoutHexMark cs = cs := by
  rw [withoutHexMark.eq_def]
  split
  · obtain ⟨d, hd⟩ := exists_digit h (c := 'x') (by simp)
    exact absurd rfl (Number.ne_of_hexDigitValue? hd (by decide))
  · obtain ⟨d, hd⟩ := exists_digit h (c := 'X') (by simp)
    exact absurd rfl (Number.ne_of_hexDigitValue? hd (by decide))
  · rfl

/-- What is written around the digits is taken away. -/
theorem hexDigits_of_writes {quote mark front back : List Char} (hquote : quote ∈ [[], ['"']])
    (hmark : mark ∈ [[], ['0', 'x'], ['0', 'X']]) (hfront : Text.Blanks front)
    (hback : Text.Blanks back) (hcs : cs.map Number.hexDigitValue? = digits.map some)
    (h : v.raw.toList = quote ++ (front ++ (mark ++ cs) ++ back) ++ quote) : v.hexDigits = cs := by
  have hplain : ∀ c ∈ mark ++ cs, Text.isBlank c = false ∧ c ≠ '"' := by
    intro c hc
    rcases List.mem_append.1 hc with hc | hc
    · have hmarks : ∀ mark ∈ [[], ['0', 'x'], ['0', 'X']],
          (mark.all fun c => !Text.isBlank c && c != '"') = true := by decide
      simpa using List.all_eq_true.1 (hmarks mark hmark) c hc
    · obtain ⟨d, hd⟩ := exists_digit hcs hc
      exact ⟨Number.isBlank_of_hexDigitValue? hd, Number.ne_of_hexDigitValue? hd (by decide)⟩
  have hunquote : unquote v.raw.toList = front ++ (mark ++ cs) ++ back := by
    rw [h]
    simp only [List.mem_cons, List.not_mem_nil, or_false] at hquote
    rcases hquote with rfl | rfl
    · rw [List.nil_append, List.append_nil]
      refine unquote_of_forall ?_
      rw [List.mem_append, List.mem_append, not_or, not_or]
      exact ⟨⟨hfront.not_mem rfl, fun hmem => (hplain _ hmem).2 rfl⟩, hback.not_mem rfl⟩
    · exact unquote_quoted _
  have hstrip : Text.strip (unquote v.raw.toList) = mark ++ cs := by
    rw [hunquote, Text.strip_blanks_around hfront hback, Text.strip_eq_self fun c hc => (hplain c hc).1]
  rw [hexDigits, hstrip]
  simp only [List.mem_cons, List.not_mem_nil, or_false] at hmark
  rcases hmark with rfl | rfl | rfl
  · exact withoutHexMark_of_digits hcs
  · rfl
  · rfl

/-- The digits that a value writes are read as bytes, a digit that has no partner as one by itself. -/
theorem bytes?_of_writesHex (h : WritesHex v.raw digits) (hne : digits ≠ []) :
    ∃ bytes, v.bytes? = some bytes ∧ bytes.length = (digits.length + 1) / 2 ∧
      Number.positional 256 (bytes.map UInt8.toNat) = Number.positional 16 digits := by
  obtain ⟨quote, hquote, mark, hmark, front, back, cs, htext, hfront, hback, hcs⟩ := h
  have hlength : cs.length = digits.length := by simpa using congrArg List.length hcs
  have hsome : ¬ cs.isEmpty = true := by
    rw [List.isEmpty_iff_length_eq_zero, hlength]
    simpa using hne
  rw [bytes?_eq, hexDigits_of_writes hquote hmark hfront hback hcs htext, if_neg hsome]
  split_ifs with hodd
  · have hpadded : ('0' :: cs).map Number.hexDigitValue? = (0 :: digits).map some := by
      rw [List.map_cons, hcs]
      rfl
    obtain ⟨bytes, hread, hcount, hvalue⟩ := Number.bytesOfHex?_of_digits hpadded
      (by rw [List.length_cons]; omega)
    refine ⟨bytes, hread, ?_, by simpa using hvalue⟩
    rw [List.length_cons] at hcount
    omega
  · obtain ⟨bytes, hread, hcount, hvalue⟩ := Number.bytesOfHex?_of_digits hcs (by omega)
    exact ⟨bytes, hread, by omega, hvalue⟩

/-- Bytes are read only where digits are written. -/
theorem writesHex_of_bytes? (h : v.bytes? = some bytes) :
    ∃ digits, digits ≠ [] ∧ WritesHex v.raw digits := by
  obtain ⟨quote, hquote, hraw⟩ := exists_quote v.raw.toList
  obtain ⟨front, back, hfront, hback, hinner⟩ := Text.exists_blanks_around (unquote v.raw.toList)
  obtain ⟨mark, hmark, hstrip⟩ := exists_hexMark (Text.strip (unquote v.raw.toList))
  have hwrites : ∀ digits : List Nat, v.hexDigits.map Number.hexDigitValue? = digits.map some →
      WritesHex v.raw digits := fun digits hdigits =>
    ⟨quote, hquote, mark, hmark, front, back, v.hexDigits, by rw [hexDigits, ← hstrip, ← hinner, ← hraw],
      hfront, hback, hdigits⟩
  rw [bytes?_eq] at h
  split_ifs at h with hempty hodd
  · obtain ⟨digits, hdigits, -⟩ := Number.digits_of_bytesOfHex? h
    obtain ⟨d, digits, rfl, -, hrest⟩ := List.map_eq_cons_iff.1 hdigits.symm
    refine ⟨digits, ?_, hwrites digits hrest.symm⟩
    rintro rfl
    exact hempty (by simpa using hrest.symm)
  · obtain ⟨digits, hdigits, -⟩ := Number.digits_of_bytesOfHex? h
    refine ⟨digits, ?_, hwrites digits hdigits⟩
    rintro rfl
    exact hempty (by simpa using hdigits)

end Value

/-! ## The vectors of a key -/

namespace Timeline

variable {a : Attributes} {bytes iv : List UInt8} {digits : List Nat}

/-- Zeros in front of the bytes do not change the number that they denote. -/
theorem isVector_of_padIv? (h : padIv? bytes = some iv) :
    IsVector iv (Number.positional 256 (bytes.map UInt8.toNat)) := by
  rw [padIv?] at h
  split_ifs at h with hlength
  obtain rfl := Option.some.inj h
  constructor
  · rw [List.length_append, List.length_replicate]
    omega
  · rw [List.map_append, List.map_replicate]
    exact Number.positional_zeros 256 _ _

theorem padIv?_isSome_iff : (padIv? bytes).isSome = true ↔ bytes.length ≤ 16 := by
  rw [padIv?]
  split_ifs with hlength <;> simp [hlength]

/-- The attributes state a vector: as its digits, thirty-two of them at most. -/
def StatesVector (a : Attributes) (digits : List Nat) : Prop :=
  ∃ v, a.get? "IV" = some v ∧ Value.WritesHex v.raw digits ∧
    1 ≤ digits.length ∧ digits.length ≤ 32

def vector? (a : Attributes) : Option (List UInt8) := ((a.get? "IV").bind (·.bytes?)).bind padIv?

theorem vector?_of_statesVector (h : StatesVector a digits) :
    ∃ iv, vector? a = some iv ∧ IsVector iv (Number.positional 16 digits) := by
  obtain ⟨v, hv, hwrites, hleast, hgreatest⟩ := h
  obtain ⟨bytes, hbytes, hlength, hvalue⟩ :=
    Value.bytes?_of_writesHex hwrites (List.ne_nil_of_length_pos hleast)
  obtain ⟨iv, hiv⟩ := Option.isSome_iff_exists.1 (padIv?_isSome_iff.2 (show bytes.length ≤ 16 by omega))
  exact ⟨iv, by simp [vector?, hv, hbytes, hiv], hvalue ▸ isVector_of_padIv? hiv⟩

theorem statesVector_of_vector? (h : vector? a = some iv) : ∃ digits, StatesVector a digits := by
  obtain ⟨bytes, hread, hpad⟩ := Option.bind_eq_some_iff.1 h
  obtain ⟨v, hv, hbytes⟩ := Option.bind_eq_some_iff.1 hread
  obtain ⟨digits, hne, hwrites⟩ := Value.writesHex_of_bytes? hbytes
  obtain ⟨bytes', hbytes', hlength, -⟩ := Value.bytes?_of_writesHex hwrites hne
  obtain rfl : bytes = bytes' := Option.some.inj (hbytes.symm.trans hbytes')
  have hcount : bytes.length ≤ 16 := padIv?_isSome_iff.1 (Option.isSome_of_eq_some hpad)
  exact ⟨digits, v, hv, hwrites, List.length_pos_of_ne_nil hne, by omega⟩

/-- A key of either method with a URI has the vector that is read, and says that it has one. -/
theorem readKey_vector
    (method : a.get? "METHOD" = some ⟨"AES-128"⟩ ∨ a.get? "METHOD" = some ⟨"SAMPLE-AES"⟩)
    (uri : a.contains "URI" = true) :
    (readKey a).iv = vector? a ∧ (readKey a).ivFixed = (vector? a).isSome := by
  obtain ⟨location, hlocation⟩ := Option.isSome_iff_exists.1 uri
  rcases method with hmethod | hmethod <;> simp [readKey, vector?, hlocation, hmethod]

/-- A key for which a vector is stated, as one to thirty-two digits in hexadecimal, has the number that
the digits denote for the vector of every segment. In every other case the vector of a segment is its
number, and no two segments have the same. -/
theorem readKey_vectors
    (method : a.get? "METHOD" = some ⟨"AES-128"⟩ ∨ a.get? "METHOD" = some ⟨"SAMPLE-AES"⟩)
    (uri : a.contains "URI" = true) :
    (∀ digits, StatesVector a digits → (readKey a).ivFixed = true ∧
      ∀ n ≤ Count.greatest, IsVector ((readKey a).ivFor n) (Number.positional 16 digits)) ∧
    ((∀ digits, ¬ StatesVector a digits) → (readKey a).ivFixed = false ∧
      (∀ n ≤ Count.greatest, IsVector ((readKey a).ivFor n) n) ∧
      ∀ m ≤ Count.greatest, ∀ n ≤ Count.greatest, m ≠ n →
        (readKey a).ivFor m ≠ (readKey a).ivFor n) := by
  obtain ⟨hiv, hfixed⟩ := readKey_vector method uri
  constructor
  · intro digits hstates
    obtain ⟨iv, hvector, hnumber⟩ := vector?_of_statesVector hstates
    refine ⟨by rw [hfixed, hvector, Option.isSome_some], fun n _ => ?_⟩
    rwa [Key.ivFor, hiv, hvector, Option.getD_some]
  · intro hstates
    have hvector : vector? a = none := Option.eq_none_iff_forall_not_mem.2 fun iv h =>
      (statesVector_of_vector? h).elim hstates
    have hnumbers : ∀ n ≤ Count.greatest, IsVector ((readKey a).ivFor n) n := by
      intro n hn
      have hbound : n < 256 ^ 16 := lt_of_le_of_lt hn (by decide)
      rw [Key.ivFor, hiv, hvector, Option.getD_none]
      exact isVector_bigEndian16 hbound
    refine ⟨by rw [hfixed, hvector, Option.isSome_none], hnumbers, fun m hm n hn hne heq => hne ?_⟩
    rw [← (hnumbers m hm).value, heq, (hnumbers n hn).value]

/-- A key with a vector of three digits, in quotes and with blanks around them. -/
def oddKey : Attributes :=
  ⟨[⟨"METHOD", ⟨"SAMPLE-AES"⟩⟩, ⟨"URI", ⟨"\"k.bin\""⟩⟩, ⟨"IV", ⟨"\" 0X1fA \""⟩⟩]⟩

/-- A key whose vector has a digit too many. -/
def longKey : Attributes :=
  ⟨[⟨"METHOD", ⟨"AES-128"⟩⟩, ⟨"URI", ⟨"k.bin"⟩⟩,
    ⟨"IV", ⟨"0x000000000000000000000000000000001"⟩⟩]⟩

/-- Three digits are a vector, and thirty-three are none, so that the numbers of the segments take
its place. -/
theorem readKey_vectors_of_digits :
    ((readKey oddKey).ivFixed = true ∧ ∀ n ≤ Count.greatest, IsVector ((readKey oddKey).ivFor n) 506) ∧
      (readKey longKey).ivFixed = false ∧
        ∀ n ≤ Count.greatest, IsVector ((readKey longKey).ivFor n) n := by
  have hodd : StatesVector oddKey [1, 15, 10] :=
    ⟨⟨"\" 0X1fA \""⟩, by decide, ⟨['"'], by decide, ['0', 'X'], by decide, [' '], [' '], ['1', 'f', 'A'],
      by decide, by decide, by decide, by decide⟩, by decide, by decide⟩
  have hlong : ∀ digits, ¬ StatesVector longKey digits := by
    intro digits hstates
    obtain ⟨iv, hvector, -⟩ := vector?_of_statesVector hstates
    have hnone : vector? longKey = none := by decide
    cases hnone.symm.trans hvector
  refine ⟨?_, ?_⟩
  · exact (readKey_vectors (.inr (by decide)) (by decide)).1 _ hodd
  · obtain ⟨hfixed, hnumbers, -⟩ := (readKey_vectors (.inl (by decide)) (by decide)).2 hlong
    exact ⟨hfixed, hnumbers⟩

end Timeline

end AdaptiveHls
