import AdaptiveHls.Url.Query

/-!
# Domain names in ASCII

A label with characters outside ASCII is written as `xn--` and a code of its characters: the plain
ones first, then for each other character, in rising order, how far the counting of all possible
insertions has to go on to reach it. The steps are numbers of variable length whose thresholds
adapt to the steps before.

Before that a name is folded: upper-case letters of the Latin, Greek and Cyrillic alphabets and the
full-width forms of ASCII become their plain counterparts, the ideographic stops become dots, and
soft hyphens and joiners without width vanish. Other characters stay as they are: a name is not
brought into a normal form, and a label that begins with `xn--` is not looked into.
-/

namespace AdaptiveHls.Punycode

def digit (d : Nat) : Char := if d < 26 then Char.ofNat (0x61 + d) else Char.ofNat (0x16 + d)

def threshold (k bias : Nat) : Nat := max 1 (min 26 (k - bias))

/-- The digits of a step; the fuel bounds their number. -/
def stepDigits (bias : Nat) : Nat → Nat → Nat → List Char
  | 0, _, _ => []
  | fuel + 1, k, q =>
    let t := threshold k bias
    if q < t then [digit q]
    else digit (t + (q - t) % (36 - t)) :: stepDigits bias fuel (k + 36) ((q - t) / (36 - t))

def shrink : Nat → Nat → Nat → Nat
  | 0, k, _ => k
  | fuel + 1, k, delta =>
    if 455 < delta then shrink fuel (k + 36) (delta / 35) else k + 36 * delta / (delta + 38)

/-- The bias after a step of length `delta`. -/
def adapt (delta points : Nat) (isFirst : Bool) : Nat :=
  let delta := if isFirst then delta / 700 else delta / 2
  shrink 64 0 (delta + delta / points)

structure Progress where
  delta : Nat := 0
  bias : Nat := 72
  handled : Nat
  out : List Char

/-- What one character of the label adds when the character `m` is being inserted. -/
def visit (basic m : Nat) (s : Progress) (c : Char) : Progress :=
  if c.toNat < m then { s with delta := s.delta + 1 }
  else if c.toNat == m then
    { delta := 0, bias := adapt s.delta (s.handled + 1) (s.handled == basic),
      handled := s.handled + 1, out := s.out ++ stepDigits s.bias 64 36 s.delta }
  else s

def insertAll (label : List Char) (basic : Nat) : List Nat → Nat → Progress → List Char
  | [], _, s => s.out
  | m :: rest, n, s =>
    let s := { s with delta := s.delta + (m - n) * (s.handled + 1) }
    let s := label.foldl (visit basic m) s
    insertAll label basic rest (m + 1) { s with delta := s.delta + 1 }

def encodeLabel (label : List Char) : List Char :=
  let basic := label.filter fun c => c.toNat < 0x80
  if basic.length = label.length then label
  else
    let others := ((label.filter fun c => 0x80 ≤ c.toNat).map Char.toNat).mergeSort.eraseDups
    let start := if basic.isEmpty then basic else basic ++ ['-']
    ['x', 'n', '-', '-'] ++
      insertAll label basic.length others 0x80 { handled := basic.length, out := start }

/-- What a character of a name is folded to. -/
def fold (c : Char) : List Char :=
  let n := c.toNat
  if n < 0x80 then [c.toLower]
  else if n == 0xAD || n == 0x200B || n == 0x2060 || n == 0xFEFF then []
  else if n == 0x3002 || n == 0xFF0E || n == 0xFF61 then ['.']
  else if 0xFF01 ≤ n && n ≤ 0xFF5E then [(Char.ofNat (n - 0xFEE0)).toLower]
  else if 0xC0 ≤ n && n ≤ 0xDE && n != 0xD7 then [Char.ofNat (n + 0x20)]
  else if 0x100 ≤ n && n ≤ 0x137 && n % 2 == 0 && n != 0x130 then [Char.ofNat (n + 1)]
  else if 0x391 ≤ n && n ≤ 0x3A9 && n != 0x3A2 then [Char.ofNat (n + 0x20)]
  else if 0x410 ≤ n && n ≤ 0x42F then [Char.ofNat (n + 0x20)]
  else if 0x400 ≤ n && n ≤ 0x40F then [Char.ofNat (n + 0x50)]
  else [c]

/-- The name in ASCII; nothing if a character in it cannot be part of a name. -/
def asciiDomain? (name : List Char) : Option (List Char) :=
  let folded := name.flatMap fold
  if folded.any fun c => c.toNat == 0xFFFD || (0x80 ≤ c.toNat && c.toNat < 0xA0) then none
  else some (['.'].intercalate ((Query.splitAt '.' folded).map encodeLabel))

end AdaptiveHls.Punycode
