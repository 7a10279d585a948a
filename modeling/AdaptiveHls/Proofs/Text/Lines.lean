import AdaptiveHls.Playlist.Read
import AdaptiveHls.Proofs.Text.Utf8

/-!
# Lines that are written and read again

The same lines can be written in many ways: each one may be ended by a line feed alone or with a
carriage return in front of it, the last one may go without an ending, and a byte order mark may
stand in front of everything. Reading undoes all of them, and so a playlist is the same in each.

Two things would be lost, and a line is a text that has neither: a line feed, and a carriage return
at the very end. Two more can only be told apart by what is around them. A last line that is empty
needs an ending to be a line at all, and a mark that belongs to the first line has to follow the one
that is dropped.
-/

namespace AdaptiveHls.Text.Lines

open Utf8 (decode encode)

inductive Ending where
  | feed
  | returnFeed
  deriving DecidableEq, Repr

def Ending.bytes : Ending → List UInt8
  | .feed => [0x0A]
  | .returnFeed => [0x0D, 0x0A]

/-- A text that is one line, from whose end nothing is taken off. -/
structure IsLine (s : String) : Prop where
  unbroken : '\n' ∉ s.toList
  noReturn : s.toList.getLast? ≠ some '\r'

/-- Lines and their bytes, each line with an ending of its own; the last one may go without, unless
it is empty. -/
inductive Written : List String → List UInt8 → Prop
  | nil : Written [] []
  | last {s : String} (line : IsLine s) (nonempty : s ≠ "") : Written [s] (encode s)
  | cons {s : String} {lines : List String} {bytes : List UInt8} (line : IsLine s)
      (ending : Ending) (rest : Written lines bytes) :
      Written (s :: lines) (encode s ++ ending.bytes ++ bytes)

def byteOrderMark : Char := '\uFEFF'

/-- Lines and data for them, with a byte order mark in front or without. Without it the first line
does not begin with one either. -/
inductive Form : List String → List UInt8 → Prop
  | marked {lines : List String} {bytes : List UInt8} (body : Written lines bytes) :
      Form lines (String.utf8EncodeChar byteOrderMark ++ bytes)
  | plain {lines : List String} {bytes : List UInt8} (body : Written lines bytes)
      (unmarked : ∀ s ∈ lines.head?, s.toList.head? ≠ some byteOrderMark) : Form lines bytes

/-- What is left to read once a line has been asked for so many times. -/
def skip : Nat → List UInt8 → List UInt8
  | 0, rest => rest
  | count + 1, rest => skip count (((next? rest).map (·.2)).getD rest)

variable {s : String} {lines : List String} {line rest data : List UInt8}

/-! ## One line -/

theorem breakLine_append (h : 0x0A ∉ line) (rest : List UInt8) :
    breakLine (line ++ rest) = (line ++ (breakLine rest).1, (breakLine rest).2) := by
  induction line with
  | nil => rfl
  | cons b line ih =>
    have hb : ¬ b = 0x0A := fun hb => h (by simp [hb])
    have hline : 0x0A ∉ line := fun hline => h (List.mem_cons_of_mem b hline)
    simp [breakLine, hb, ih hline]

theorem chomp_append_return (line : List UInt8) : chomp (line ++ [0x0D]) = line := by
  induction line with
  | nil => rfl
  | cons b line ih =>
    rw [List.cons_append, chomp, ih]
    simp

/-- Only a carriage return is taken off. -/
theorem chomp_of_getLast? (h : line.getLast? ≠ some 0x0D) : chomp line = line := by
  induction line with
  | nil => rfl
  | cons b line ih =>
    cases line with
    | nil =>
      rw [chomp, chomp]
      simpa using h
    | cons b' line =>
      rw [List.getLast?_cons_cons] at h
      rw [chomp, ih h]
      simp

theorem IsLine.feed_not_mem (h : IsLine s) : 0x0A ∉ encode s :=
  fun hmem => h.unbroken (Utf8.mem_of_mem_encode rfl (by decide) hmem)

theorem IsLine.chomp_encode (h : IsLine s) : chomp (encode s) = encode s :=
  chomp_of_getLast? fun hlast =>
    h.noReturn (Utf8.getLast?_of_getLast?_encode rfl (by decide) hlast)

theorem next?_of_ne_nil (h : data ≠ []) :
    next? data = some (decode (chomp (breakLine data).1), (breakLine data).2) := by
  cases data with
  | nil => exact absurd rfl h
  | cons b rest => rfl

/-- Reading a line takes it with its ending, and gives it without. -/
theorem next?_ended (h : IsLine s) (ending : Ending) (rest : List UInt8) :
    next? (encode s ++ ending.bytes ++ rest) = some (s, rest) := by
  rw [next?_of_ne_nil (by cases ending <;> simp [Ending.bytes]), List.append_assoc,
    breakLine_append h.feed_not_mem]
  cases ending with
  | feed => simp [Ending.bytes, breakLine, h.chomp_encode, Utf8.decode_encode]
  | returnFeed => simp [Ending.bytes, breakLine, chomp_append_return, Utf8.decode_encode]

theorem next?_last (h : IsLine s) (nonempty : s ≠ "") : next? (encode s) = some (s, []) := by
  have hbreak : breakLine (encode s) = (encode s, []) := by
    simpa [breakLine] using breakLine_append h.feed_not_mem []
  rw [next?_of_ne_nil (mt Utf8.encode_eq_nil_iff.1 nonempty), hbreak, h.chomp_encode,
    Utf8.decode_encode]

/-! ## All lines -/

theorem Written.all_eq (h : Written lines data) : all data = lines := by
  induction h with
  | nil => rw [all]
  | last line nonempty => rw [all_eq_cons (next?_last line nonempty), all]
  | cons line ending _ ih => rw [all_eq_cons (next?_ended line ending _), ih]

theorem skip_nil (count : Nat) : skip count [] = [] := by
  induction count with
  | zero => rfl
  | succ count ih => exact ih

/-- Asking for lines one by one gives all lines of the data, with the end behind the last. -/
theorem next?_skip (data : List UInt8) (count : Nat) :
    (next? (skip count data)).map (·.1) = (all data)[count]? ∧
      (atEnd (skip count data) = true ↔ (all data).length ≤ count) := by
  induction count generalizing data with
  | zero =>
    cases data with
    | nil => simp [skip, all]
    | cons b rest => simp [skip, all, next?, atEnd]
  | succ count ih =>
    cases hnext : next? data with
    | none =>
      obtain rfl : data = [] := by
        by_contra hne
        simp [next?_of_ne_nil hne] at hnext
      simp [skip_nil, all]
    | some found =>
      obtain ⟨line, rest⟩ := found
      rw [skip, hnext, Option.map_some, Option.getD_some, all_eq_cons hnext]
      simpa using ih rest

/-! ## The mark -/

/-- Only a first line with a mark of its own makes written lines open with one: the endings begin with
other bytes. -/
theorem Written.head?_of_mark (h : Written lines data)
    (hdata : data = String.utf8EncodeChar byteOrderMark ++ rest) :
    ∃ s ∈ lines.head?, s.toList.head? = some byteOrderMark := by
  have hmark : String.utf8EncodeChar byteOrderMark = [0xEF, 0xBB, 0xBF] := by decide
  cases h with
  | nil => simp [hmark] at hdata
  | @last s _ nonempty =>
    exact ⟨s, rfl, Utf8.head?_of_encode_append nonempty ((List.append_nil _).trans hdata)⟩
  | @cons s _ _ _ ending _ =>
    rw [List.append_assoc] at hdata
    refine ⟨s, rfl, Utf8.head?_of_encode_append ?_ hdata⟩
    rintro rfl
    cases ending <;> simp [encode, Ending.bytes, hmark] at hdata

/-- The mark that is put in front is dropped, and nothing else is. -/
theorem Form.written_start (h : Form lines data) : Written lines (start data) := by
  cases h with
  | marked body => exact body
  | plain body unmarked =>
    have hstart : start data = data := by
      unfold start
      split
      · obtain ⟨s, hs, hmark⟩ := body.head?_of_mark rfl
        exact absurd hmark (unmarked s hs)
      · rfl
    rwa [hstart]

/-! ## Reading the lines back -/

/-- Lines are read back from every form of them: one by one and in order, then nothing, with the end
reached behind the last. So a playlist is the same in all forms of its lines. -/
theorem lines_read_back (form : Form lines data) :
    (∀ count, (next? (skip count (start data))).map (·.1) = lines[count]? ∧
      (atEnd (skip count (start data)) = true ↔ lines.length ≤ count)) ∧
    ∀ url, Playlist.ofBytes url data = Playlist.ofLines url lines ∧
      ∀ other, Form lines other → Playlist.ofBytes url other = Playlist.ofBytes url data := by
  have hplaylist (url : Url) {bytes : List UInt8} (h : Form lines bytes) :
      Playlist.ofBytes url bytes = Playlist.ofLines url lines := by
    rw [Playlist.ofBytes, ofBytes, h.written_start.all_eq]
  refine ⟨fun count => ?_, fun url => ⟨hplaylist url form, fun other hother => ?_⟩⟩
  · have hread := next?_skip (start data) count
    rwa [form.written_start.all_eq] at hread
  · rw [hplaylist url form, hplaylist url hother]

/-- An empty line, carriage returns within a line and a character of four bytes: once with a mark,
both endings and none at the end, and once with line feeds only. -/
theorem lines_read_back_of_mixed :
    let lines := ["#EXTM3U", "", "\r\ra.ts", "🎵.ts"]
    let data := [0xEF, 0xBB, 0xBF] ++ encode "#EXTM3U\r\n\n\r\ra.ts\r\n🎵.ts"
    let other := encode "#EXTM3U\n\n\r\ra.ts\n🎵.ts\n"
    Form lines data ∧ Form lines other ∧
      (∀ count, (next? (skip count (start data))).map (·.1) = lines[count]? ∧
        (atEnd (skip count (start data)) = true ↔ lines.length ≤ count)) ∧
      ∀ url, Playlist.ofBytes url other = Playlist.ofBytes url data := by
  intro lines data other
  have hheader : IsLine "#EXTM3U" := ⟨by decide, by decide⟩
  have hempty : IsLine "" := ⟨by decide, by decide⟩
  have hreturns : IsLine "\r\ra.ts" := ⟨by decide, by decide⟩
  have hlast : IsLine "🎵.ts" := ⟨by decide, by decide⟩
  have hdata : Form lines data :=
    .marked (.cons hheader .returnFeed (.cons hempty .feed (.cons hreturns .returnFeed
      (.last hlast (by decide)))))
  have hother : Form lines other :=
    .plain (.cons hheader .feed (.cons hempty .feed (.cons hreturns .feed
      (.cons hlast .feed .nil)))) (by decide)
  obtain ⟨hread, hplaylist⟩ := lines_read_back hdata
  exact ⟨hdata, hother, hread, fun url => (hplaylist url).2 other hother⟩

end AdaptiveHls.Text.Lines
