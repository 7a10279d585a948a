import AdaptiveHls.Proofs.Playlist.Written
import AdaptiveHls.Proofs.Text.Utf8
import AdaptiveHls.Tracker.Reload

/-!
# Queries that are written and read

Pairs that are written as a query are read as the same pairs, whatever characters are in them: what
would end a name or a pair is encoded in both. So the pairs of a request's address are those of the
playlist's address, without the reserved ones, and those that ask for something; and whether a
request asks for something can be read off its address.
-/

namespace AdaptiveHls

namespace Percent

theorem hexDigitValue?_upperHexDigit {n : Nat} (h : n < 16) :
    Number.hexDigitValue? (upperHexDigit n) = some n := by
  have hall : ∀ m < 16, Number.hexDigitValue? (upperHexDigit m) = some m := by decide
  exact hall n h

/-- The two digits of a byte make that byte. -/
theorem byte?_upperHexDigit (b : UInt8) :
    byte? (upperHexDigit (b.toNat / 16)) (upperHexDigit (b.toNat % 16)) = some b := by
  have hb : b.toNat < 256 := b.toNat_lt
  have hhigh := hexDigitValue?_upperHexDigit (n := b.toNat / 16) (by omega)
  have hlow := hexDigitValue?_upperHexDigit (n := b.toNat % 16) (by omega)
  simp only [byte?, hhigh, hlow, bind, Option.bind_some]
  rw [show b.toNat / 16 * 16 + b.toNat % 16 = b.toNat by omega, UInt8.ofNat_toNat]

/-- A byte that is encoded as in a form decodes to itself. -/
theorem decode_encodeByte (b : UInt8) (rest : List Char) :
    decode (encodeByte b ++ rest) = b :: decode rest := by
  simp [encodeByte, decode, byte?_upperHexDigit]

theorem decode_cons {c : Char} (h : c ≠ '%') (rest : List Char) :
    decode (c :: rest) = String.utf8EncodeChar c ++ decode rest := by
  rw [decode.eq_def]
  split
  · next heq =>
    cases heq
    exact absurd rfl h
  · next heq =>
    cases heq
    rfl
  · contradiction

end Percent

namespace Query

/-- What a form sends for a space. -/
def plusToSpace (c : Char) : Char := if c == '+' then ' ' else c

theorem toNat_ofNat_byte (b : UInt8) : (Char.ofNat b.toNat).toNat = b.toNat := by
  have hb : b.toNat < 256 := b.toNat_lt
  have hvalid : b.toNat.isValidChar := .inl (by omega)
  rw [Char.ofNat, dif_pos hvalid]
  rfl

/-- A byte that stands for itself is an ASCII character. -/
theorem utf8EncodeChar_of_isPlain {b : UInt8} (h : isPlain b = true) :
    String.utf8EncodeChar (Char.ofNat b.toNat) = [b] := by
  have hself := toNat_ofNat_byte b
  have hascii : b.toNat < 0x80 := by
    rw [← hself]
    simp only [isPlain, Bool.or_eq_true, Bool.and_eq_true, decide_eq_true_eq, beq_iff_eq] at h
    rcases h with (((⟨hlt, _⟩ | hc) | hc) | hc) | hc
    · exact hlt
    all_goals rw [hc]; decide
  have hone : (Char.ofNat b.toNat).val.toNat ≤ 127 := by
    change (Char.ofNat b.toNat).toNat ≤ 127
    omega
  have hbyte : UInt8.ofNat (Char.ofNat b.toNat).val.toNat = b := by
    change UInt8.ofNat (Char.ofNat b.toNat).toNat = b
    rw [hself, UInt8.ofNat_toNat]
  simp only [String.utf8EncodeChar, if_pos hone, hbyte]

/-- A byte that stands for itself has no other meaning. -/
theorem ne_of_isPlain {b : UInt8} (h : isPlain b = true) {c : Char}
    (hc : c = '%' ∨ c = '+' ∨ c = '&' ∨ c = '=') : Char.ofNat b.toNat ≠ c := by
  intro heq
  rw [isPlain, heq] at h
  rcases hc with rfl | rfl | rfl | rfl <;> revert h <;> decide

/-- The digits of an escaped byte are none of the signs of a form. -/
theorem upperHexDigit_ne {n : Nat} (h : n < 16) {c : Char} (hc : c = '+' ∨ c = '&' ∨ c = '=') :
    Percent.upperHexDigit n ≠ c := by
  have hall : ∀ m < 16, Percent.upperHexDigit m ≠ '+' ∧ Percent.upperHexDigit m ≠ '&' ∧
      Percent.upperHexDigit m ≠ '=' := by decide
  obtain ⟨hplus, hand, heq⟩ := hall n h
  rcases hc with rfl | rfl | rfl
  · exact hplus
  · exact hand
  · exact heq

/-- What bytes are encoded as has no other meaning either. -/
theorem ne_of_mem_percent {b : UInt8} {d : Char} (hd : d ∈ Percent.encodeByte b) {c : Char}
    (hc : c = '+' ∨ c = '&' ∨ c = '=') : d ≠ c := by
  have hb : b.toNat < 256 := b.toNat_lt
  simp only [Percent.encodeByte, List.mem_cons, List.not_mem_nil, or_false] at hd
  rcases hd with rfl | rfl | rfl
  · rcases hc with rfl | rfl | rfl <;> decide
  · exact upperHexDigit_ne (by omega) hc
  · exact upperHexDigit_ne (by omega) hc

theorem encodeByte_spec {b : UInt8} {d : Char} (hd : d ∈ encodeByte b) : d ≠ '&' ∧ d ≠ '=' := by
  rw [encodeByte] at hd
  split_ifs at hd with hplain hspace
  · rw [List.mem_singleton.1 hd]
    exact ⟨ne_of_isPlain hplain (by decide), ne_of_isPlain hplain (by decide)⟩
  · rw [List.mem_singleton.1 hd]
    decide
  · exact ⟨ne_of_mem_percent hd (by decide), ne_of_mem_percent hd (by decide)⟩

theorem encodePart_spec {s : String} {c : Char} (h : c ∈ encodePart s) : c ≠ '&' ∧ c ≠ '=' := by
  obtain ⟨b, _, hc⟩ := List.mem_flatMap.1 h
  exact encodeByte_spec hc

theorem decode_encodeByte (b : UInt8) (rest : List Char) :
    Percent.decode ((encodeByte b ++ rest).map plusToSpace) =
      b :: Percent.decode (rest.map plusToSpace) := by
  rw [List.map_append, encodeByte]
  split_ifs with hplain hspace
  · have hplus : plusToSpace (Char.ofNat b.toNat) = Char.ofNat b.toNat :=
      if_neg (by simpa using ne_of_isPlain hplain (c := '+') (by decide))
    rw [List.map_singleton, hplus, List.singleton_append,
      Percent.decode_cons (ne_of_isPlain hplain (by decide)), utf8EncodeChar_of_isPlain hplain]
    rfl
  · have hb : b = 0x20 := by simpa using hspace
    rw [hb]
    exact Percent.decode_cons (by decide) _
  · have hdigits : (Percent.encodeByte b).map plusToSpace = Percent.encodeByte b := by
      have hself : ∀ d ∈ Percent.encodeByte b, plusToSpace d = id d := fun d hd =>
        if_neg (by simpa using ne_of_mem_percent hd (c := '+') (by decide))
      rw [List.map_congr_left hself, List.map_id]
    rw [hdigits, Percent.decode_encodeByte]

/-- A name or a value is read as it was before it was written. -/
theorem decodePart_encodePart (s : String) : decodePart (encodePart s) = s := by
  have hbytes : ∀ bytes : List UInt8,
      Percent.decode ((bytes.flatMap encodeByte).map plusToSpace) = bytes := by
    intro bytes
    induction bytes with
    | nil => rfl
    | cons b rest ih => rw [List.flatMap_cons, decode_encodeByte, ih]
  change Text.Utf8.decode (Percent.decode ((encodePart s).map plusToSpace)) = s
  rw [encodePart, hbytes, Text.Utf8.decode_encode]

theorem decodePair_writePair (p : Pair) : decodePair (writePair p) = p := by
  have hcut : Text.cutChars (· == '=') (writePair p) = some (encodePart p.1, encodePart p.2) :=
    Text.cutChars_append (fun c hc => beq_eq_false_iff_ne.2 (encodePart_spec hc).2) rfl
  simp only [decodePair, hcut, decodePart_encodePart]

theorem splitAt_of_not_mem {c : Char} {piece : List Char} (h : c ∉ piece) :
    splitAt c piece = [piece] := by
  induction piece with
  | nil => rfl
  | cons d rest ih =>
    obtain ⟨hd, hrest⟩ := List.ne_and_not_mem_of_not_mem_cons h
    simp [splitAt, ih hrest, Ne.symm hd]

theorem splitAt_append {c : Char} {piece : List Char} (h : c ∉ piece) (rest : List Char) :
    splitAt c (piece ++ c :: rest) = piece :: splitAt c rest := by
  induction piece with
  | nil => simp [splitAt]
  | cons d tail ih =>
    obtain ⟨hd, htail⟩ := List.ne_and_not_mem_of_not_mem_cons h
    simp [splitAt, ih htail, Ne.symm hd]

/-- Pieces that are joined come apart again. -/
theorem splitAt_intercalate {c : Char} {pieces : List (List Char)} (h : ∀ p ∈ pieces, c ∉ p)
    (hne : pieces ≠ []) : splitAt c ([c].intercalate pieces) = pieces := by
  induction pieces with
  | nil => exact absurd rfl hne
  | cons p rest ih =>
    obtain ⟨hp, hrest⟩ := List.forall_mem_cons.1 h
    cases rest with
    | nil => simpa using splitAt_of_not_mem hp
    | cons q rest =>
      have := splitAt_append hp ([c].intercalate (q :: rest))
      rw [ih hrest (List.cons_ne_nil _ _)] at this
      simpa [List.intercalate] using this

/-- What is written comes apart into what has been written for each pair. -/
theorem splitAt_write {pairs : List Pair} (hne : pairs ≠ []) :
    splitAt '&' (write pairs).toList = pairs.map writePair := by
  have hpieces : ∀ piece ∈ pairs.map writePair, '&' ∉ piece := by
    intro piece hpiece
    obtain ⟨p, _, rfl⟩ := List.mem_map.1 hpiece
    simp only [writePair, List.mem_append, List.mem_cons, not_or]
    exact ⟨fun h => (encodePart_spec h).1 rfl, by decide, fun h => (encodePart_spec h).1 rfl⟩
  rw [write, String.toList_ofList]
  exact splitAt_intercalate hpieces (by simpa using hne)

/-- What is written is read. -/
theorem read_write (pairs : List Pair) : read (write pairs) = pairs := by
  cases pairs with
  | nil => rfl
  | cons p rest =>
    have hkept : ((p :: rest).map writePair).filter (fun piece => !piece.isEmpty) =
        (p :: rest).map writePair := by
      refine List.filter_eq_self.2 fun piece hpiece => ?_
      obtain ⟨q, _, rfl⟩ := List.mem_map.1 hpiece
      simp [writePair]
    rw [read, splitAt_write (List.cons_ne_nil p rest), hkept, List.map_map]
    exact List.map_id'' decodePair_writePair _

end Query

namespace Reload

/-- The pairs of a request are those of the playlist that are not reserved, and its own. -/
theorem queryPairs_requestUrl (u : Url) (target : Option Target) (skip : Bool) :
    (requestUrl u target skip).queryPairs =
      u.queryPairs.filter (fun p => !isReserved p) ++ directivePairs target skip := by
  have hread : ∀ pairs : List Query.Pair,
      Query.read ((if pairs.isEmpty then none else some (Query.write pairs)).getD "") = pairs := by
    intro pairs
    cases pairs with
    | nil => rfl
    | cons p rest => exact Query.read_write (p :: rest)
  exact hread _

end Reload

namespace Url

def asksForDelta (u : Url) : Bool := u.queryPairs.contains ("_HLS_skip", "YES")

def asksToWait (u : Url) : Bool := u.queryPairs.any (·.1 == "_HLS_msn")

end Url

namespace Reload

/-- Of reserved pairs an address has none but those of the request. -/
theorem any_queryPairs_requestUrl {P : Query.Pair → Bool} (h : ∀ p, P p = true → isReserved p = true)
    (u : Url) (target : Option Target) (skip : Bool) :
    (requestUrl u target skip).queryPairs.any P = (directivePairs target skip).any P := by
  have hown : (u.queryPairs.filter fun p => !isReserved p).any P = false := by
    rw [List.any_eq_false]
    intro p hp hP
    simp [h p hP] at hp
  rw [queryPairs_requestUrl, List.any_append, hown, Bool.false_or]

theorem asksForDelta_requestUrl (u : Url) (target : Option Target) (skip : Bool) :
    (requestUrl u target skip).asksForDelta = skip := by
  rw [Url.asksForDelta, List.contains_eq_any_beq, any_queryPairs_requestUrl]
  · cases skip <;> rcases target with _ | ⟨n, _ | k⟩ <;> simp [directivePairs]
  · intro p hp
    rw [← eq_of_beq hp]
    decide

theorem asksToWait_requestUrl (u : Url) (target : Option Target) (skip : Bool) :
    (requestUrl u target skip).asksToWait = target.isSome := by
  rw [Url.asksToWait, any_queryPairs_requestUrl]
  · cases skip <;> rcases target with _ | ⟨n, _ | k⟩ <;> simp [directivePairs]
  · intro p hp
    rw [isReserved, eq_of_beq hp]
    decide

end Reload

end AdaptiveHls
