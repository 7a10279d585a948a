/-!
# Blank characters and trimming

A blank is a character with the Unicode property White_Space. Names, values and whole lines of a
playlist are trimmed of blanks on both sides before they are read, so a no-break space or an
ideographic space is as good as a plain one, and a zero-width space is an ordinary character.

Cutting a text in two at its first separator is here too, as it is always followed by trimming.
-/

namespace AdaptiveHls.Text

/-- The Unicode property White_Space. -/
def isBlank (c : Char) : Bool :=
  let n := c.toNat
  (0x09 ≤ n && n ≤ 0x0D) || n == 0x20 || n == 0x85 || n == 0xA0 || n == 0x1680 ||
    (0x2000 ≤ n && n ≤ 0x200A) || n == 0x2028 || n == 0x2029 || n == 0x202F || n == 0x205F ||
    n == 0x3000

def strip (cs : List Char) : List Char :=
  ((cs.dropWhile isBlank).reverse.dropWhile isBlank).reverse

def trim (s : String) : String := String.ofList (strip s.toList)

@[simp] theorem strip_nil : strip [] = [] := rfl
@[simp] theorem trim_toList (s : String) : (trim s).toList = strip s.toList := by simp [trim]

def isBlankText (s : String) : Bool := s.toList.all isBlank

/-- The parts before and after the first character that `p` holds of, or nothing. -/
def cutChars (p : Char → Bool) : List Char → Option (List Char × List Char)
  | [] => none
  | c :: rest =>
    if p c then some ([], rest)
    else (cutChars p rest).map fun (before, after) => (c :: before, after)

def cut? (p : Char → Bool) (s : String) : Option (String × String) :=
  (cutChars p s.toList).map fun (before, after) => (String.ofList before, String.ofList after)

def beginsWith (start s : String) : Bool := start.toList.isPrefixOf s.toList

def occursIn (piece : List Char) : List Char → Bool
  | [] => piece.isEmpty
  | c :: rest => piece.isPrefixOf (c :: rest) || occursIn piece rest

end AdaptiveHls.Text
