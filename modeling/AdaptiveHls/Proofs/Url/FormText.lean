import AdaptiveHls.Proofs.Text.Pieces
import AdaptiveHls.Proofs.Url.Requests
import Mathlib.Data.Set.List

/-!
# Which queries a request leaves as they are

A request does not copy the query of the playlist, it reads the pairs and writes them again, and a
list of pairs is written in one way only. So a query stays as it is if it is written in this way, and
in no other case: a name without an equals sign gets one, an empty pair is lost, a character that need
not be escaped is escaped all the same, and escaped bytes that are no UTF-8 are lost for good.
-/

namespace AdaptiveHls

namespace Query

def escapeDigits : List Char := "0123456789ABCDEF".toList

/-- The characters spell the bytes in the way a form does: a letter, a digit or one of `*-._` by
itself, a space as a plus, and any other byte as a percent sign and two digits. -/
inductive Spells : List Char → List UInt8 → Prop
  | nil : Spells [] []
  | plain {b : UInt8} {cs : List Char} {bytes : List UInt8} (self : isPlain b = true)
      (rest : Spells cs bytes) : Spells (Char.ofNat b.toNat :: cs) (b :: bytes)
  | space {cs : List Char} {bytes : List UInt8} (rest : Spells cs bytes) :
      Spells ('+' :: cs) (0x20 :: bytes)
  | escaped {b : UInt8} {high low : Char} {cs : List Char} {bytes : List UInt8}
      (escape : isPlain b = false) (no_space : b ≠ 0x20) (highDigit : high ∈ escapeDigits)
      (lowDigit : low ∈ escapeDigits) (value : Percent.byte? high low = some b)
      (rest : Spells cs bytes) : Spells ('%' :: high :: low :: cs) (b :: bytes)

/-- The text of a form: what stands between ampersands is a name and a value with an equals sign
between them, and both are texts that are spelled as in a form. -/
def IsFormText (query : String) : Prop :=
  ∀ piece ∈ splitAt '&' query.toList, ∃ name value : String, ∃ before after : List Char,
    piece = before ++ '=' :: after ∧
      Spells before (Text.Utf8.encode name) ∧ Spells after (Text.Utf8.encode value)

variable {cs : List Char} {bytes : List UInt8} {q : String}

/-! ## One way to write a pair -/

theorem upperHexDigit_mem {n : Nat} (h : n < 16) : Percent.upperHexDigit n ∈ escapeDigits := by
  have hall : ∀ m < 16, Percent.upperHexDigit m ∈ escapeDigits := by decide
  exact hall n h

theorem encodeByte_of_digits {b : UInt8} {high low : Char} (hhigh : high ∈ escapeDigits)
    (hlow : low ∈ escapeDigits) (h : Percent.byte? high low = some b) :
    Percent.encodeByte b = ['%', high, low] := by
  have hall : (escapeDigits.all fun high => escapeDigits.all fun low =>
      (Percent.byte? high low).map Percent.encodeByte == some ['%', high, low]) = true := by
    decide +kernel
  have hdigits := eq_of_beq (List.all_eq_true.1 (List.all_eq_true.1 hall high hhigh) low hlow)
  rwa [h, Option.map_some, Option.some.injEq] at hdigits

/-- Bytes are spelled in one way only. -/
theorem spells_iff : Spells cs bytes ↔ cs = bytes.flatMap encodeByte := by
  constructor
  · intro h
    induction h with
    | nil => rfl
    | plain self _ ih => rw [List.flatMap_cons, encodeByte, if_pos self, ← ih]; rfl
    | space _ ih => rw [List.flatMap_cons, ← ih]; rfl
    | @escaped b _ _ _ _ escape no_space highDigit lowDigit value _ ih =>
      have hcode : encodeByte b = Percent.encodeByte b := by simp [encodeByte, escape, no_space]
      rw [List.flatMap_cons, hcode, encodeByte_of_digits highDigit lowDigit value, ← ih]
      rfl
  · rintro rfl
    induction bytes with
    | nil => exact .nil
    | cons b bytes ih =>
      rw [List.flatMap_cons, encodeByte]
      split_ifs with hplain hspace
      · exact .plain hplain ih
      · rw [eq_of_beq hspace]
        exact .space ih
      · have hb : b.toNat < 256 := b.toNat_lt
        exact .escaped (by simpa using hplain) (by simpa using hspace)
          (upperHexDigit_mem (by omega)) (upperHexDigit_mem (by omega))
          (Percent.byte?_upperHexDigit b) ih

/-! ## One way to write a list of pairs -/

theorem splitAt_ne_nil (c : Char) (cs : List Char) : splitAt c cs ≠ [] := by
  cases cs with
  | nil => exact List.cons_ne_nil _ _
  | cons d rest =>
    rw [splitAt]
    split_ifs
    · exact List.cons_ne_nil _ _
    · split <;> exact List.cons_ne_nil _ _

/-- Pieces that have come apart are joined again. -/
theorem intercalate_splitAt (c : Char) (cs : List Char) : [c].intercalate (splitAt c cs) = cs := by
  induction cs with
  | nil => rfl
  | cons d rest ih =>
    obtain ⟨piece, pieces, hpieces⟩ := List.exists_cons_of_ne_nil (splitAt_ne_nil c rest)
    rw [splitAt]
    split_ifs with hd
    · rw [Text.intercalate_nil_cons c (splitAt_ne_nil c rest), ih, eq_of_beq hd]
    · rw [hpieces] at ih ⊢
      exact (Text.intercalate_cons_head c d piece pieces).trans (congrArg (d :: ·) ih)

/-- What a form writes for some pairs, one at least. -/
theorem isFormText_iff : IsFormText q ↔ ∃ pairs, pairs ≠ [] ∧ q = write pairs := by
  constructor
  · intro h
    have hpieces : splitAt '&' q.toList ∈ Set.range (List.map writePair) := by
      rw [Set.range_list_map]
      intro piece hpiece
      obtain ⟨name, value, before, after, rfl, hbefore, hafter⟩ := h piece hpiece
      exact ⟨(name, value), by rw [spells_iff.1 hbefore, spells_iff.1 hafter]; rfl⟩
    obtain ⟨pairs, hpairs⟩ := hpieces
    refine ⟨pairs, ?_, ?_⟩
    · rintro rfl
      exact splitAt_ne_nil '&' q.toList hpairs.symm
    · rw [write, hpairs, intercalate_splitAt, String.ofList_toList]
  · rintro ⟨pairs, hne, rfl⟩ piece hpiece
    rw [splitAt_write hne] at hpiece
    obtain ⟨p, _, rfl⟩ := List.mem_map.1 hpiece
    exact ⟨p.1, p.2, _, _, rfl, spells_iff.2 rfl, spells_iff.2 rfl⟩

/-- A query that is read and written again is what it was if it is the text of a form. -/
theorem written_again_iff :
    (if (read q).isEmpty then none else some (write (read q))) = some q ↔ IsFormText q := by
  rw [isFormText_iff]
  constructor
  · intro h
    split_ifs at h with hempty
    exact ⟨read q, by simpa using hempty, (Option.some.inj h).symm⟩
  · rintro ⟨pairs, hne, rfl⟩
    rw [read_write, if_neg (by simpa using hne)]

end Query

namespace Url

/-- Of the text of an address only what follows the front depends on the query. -/
theorem toList_text_withQuery (u : Url) (query : Option String) :
    (u.withQuery query).text.toList =
      u.front.toList ++ (query.elim [] ('?' :: ·.toList) ++ u.fragment.elim [] ('#' :: ·.toList)) := by
  have hfront : (u.withQuery query).front = u.front := rfl
  have hfragment : (u.withQuery query).fragment = u.fragment := rfl
  rw [text, hfront, hfragment]
  cases query <;> cases u.fragment <;> simp [withQuery]

/-- Addresses that differ in their queries at most are told apart by their texts. -/
theorem text_withQuery_inj (u : Url) {a b : Option String} :
    (u.withQuery a).text = (u.withQuery b).text ↔ a = b := by
  refine ⟨fun h => ?_, fun h => h ▸ rfl⟩
  have hquery := congrArg String.toList h
  rw [toList_text_withQuery, toList_text_withQuery, List.append_cancel_left_eq,
    List.append_cancel_right_eq] at hquery
  cases a <;> cases b <;> simp_all [String.toList_inj]

end Url

namespace Reload

/-- A request that asks for nothing has the address of the playlist, letter by letter, exactly if
that has no query or its query is the text of a form. -/
theorem requestUrl_plain_iff {u : Url}
    (plain : ∀ p ∈ u.queryPairs, Text.beginsWith "_HLS_" p.1 = false) :
    (requestUrl u none false).text = u.text ↔ ∀ q, u.query = some q → Query.IsFormText q := by
  have hkept : (u.queryPairs.filter fun p => !isReserved p) = u.queryPairs :=
    List.filter_eq_self.2 fun p hp => by simp [isReserved, plain p hp]
  have hurl : requestUrl u none false =
      u.withQuery (if u.queryPairs.isEmpty then none else some (Query.write u.queryPairs)) := by
    simp [requestUrl, hkept, directivePairs]
  rw [hurl]
  refine (Url.text_withQuery_inj u (b := u.query)).trans ?_
  cases hquery : u.query with
  | none =>
    have hnone : u.queryPairs = [] := by
      rw [Url.queryPairs, hquery]
      rfl
    simp [hnone]
  | some q =>
    have hpairs : u.queryPairs = Query.read q := by rw [Url.queryPairs, hquery, Option.getD_some]
    rw [hpairs, Query.written_again_iff]
    simp

def playlistWith (query : String) : Url where
  scheme := "https"
  authority := some { host := .domain "example.com" }
  path := .segments ["live", "index.m3u8"]
  query := some query

/-- A query of a name and a value in letters stays as it is. -/
theorem requestUrl_plain_of_token :
    let u := playlistWith "token=abc"
    (∀ p ∈ u.queryPairs, Text.beginsWith "_HLS_" p.1 = false) ∧
      (requestUrl u none false).text = u.text := by
  intro u
  have hplain : ∀ p ∈ u.queryPairs, Text.beginsWith "_HLS_" p.1 = false := by decide
  have hform : ∀ q, u.query = some q → Query.IsFormText q := by
    rintro q ⟨⟩
    exact Query.isFormText_iff.2 ⟨[("token", "abc")], List.cons_ne_nil _ _, rfl⟩
  exact ⟨hplain, (requestUrl_plain_iff hplain).2 hform⟩

/-- A byte that is no UTF-8 is not in the request for the playlist that has it in its query. -/
theorem requestUrl_plain_of_octet :
    let u := playlistWith "sig=%8A"
    (∀ p ∈ u.queryPairs, Text.beginsWith "_HLS_" p.1 = false) ∧
      u.text = "https://example.com/live/index.m3u8?sig=%8A" ∧
      (requestUrl u none false).text = "https://example.com/live/index.m3u8?sig=%EF%BF%BD" := by
  decide

end Reload

end AdaptiveHls
