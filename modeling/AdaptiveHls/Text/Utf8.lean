/-!
# Reading bytes as UTF-8

A playlist is bytes, and nothing promises that they are UTF-8. Reading never fails: each longest
run of bytes that begins a character but cannot go on, and each byte that can begin none, becomes
one U+FFFD. The reader is a machine with one step per byte; a byte that breaks a character off is
looked at again as a first byte, so that no good character is lost behind a bad one.
-/

namespace AdaptiveHls.Text.Utf8

/-- A character begun: the bits read, the bytes owed, and the bounds of the next byte. -/
structure Pending where
  value : Nat
  owed : Nat
  low : Nat
  high : Nat

def replacement : Char := Char.ofNat 0xFFFD

/-- The effect of a byte that stands first in a character. -/
def first (b : UInt8) : List Char × Option Pending :=
  let n := b.toNat
  if n < 0x80 then ([Char.ofNat n], none)
  else if 0xC2 ≤ n && n ≤ 0xDF then ([], some ⟨n - 0xC0, 1, 0x80, 0xBF⟩)
  else if n == 0xE0 then ([], some ⟨0, 2, 0xA0, 0xBF⟩)
  else if n == 0xED then ([], some ⟨0xD, 2, 0x80, 0x9F⟩)
  else if 0xE1 ≤ n && n ≤ 0xEF then ([], some ⟨n - 0xE0, 2, 0x80, 0xBF⟩)
  else if n == 0xF0 then ([], some ⟨0, 3, 0x90, 0xBF⟩)
  else if 0xF1 ≤ n && n ≤ 0xF3 then ([], some ⟨n - 0xF0, 3, 0x80, 0xBF⟩)
  else if n == 0xF4 then ([], some ⟨4, 3, 0x80, 0x8F⟩)
  else ([replacement], none)

/-- One byte: the characters it completes or spoils, and what is pending after it. -/
def step : Option Pending → UInt8 → List Char × Option Pending
  | none, b => first b
  | some p, b =>
    if p.low ≤ b.toNat && b.toNat ≤ p.high then
      let value := p.value * 64 + b.toNat % 64
      if p.owed ≤ 1 then ([Char.ofNat value], none)
      else ([], some ⟨value, p.owed - 1, 0x80, 0xBF⟩)
    else
      let (out, next) := first b
      (replacement :: out, next)

def run : Option Pending → List UInt8 → List Char
  | none, [] => []
  | some _, [] => [replacement]
  | p, b :: rest =>
    let (out, next) := step p b
    out ++ run next rest

def decode (bytes : List UInt8) : String := String.ofList (run none bytes)

def encode (s : String) : List UInt8 := s.toList.flatMap String.utf8EncodeChar

end AdaptiveHls.Text.Utf8
