/-
# Ends of a text

Tests for the start and the end of a text, and the text without them or without the white space
there.  White space are the characters with the Unicode property `White_Space`.
-/

namespace PropertyLint

/-- The text starts with the other. -/
def startsWith (text start : String) : Bool := start.toList.isPrefixOf text.toList

/-- The text ends with the other. -/
def endsWith (text finish : String) : Bool := finish.toList.isSuffixOf text.toList

/-- The text without the other at its end, if it ends with it. -/
def dropEnd? (text finish : String) : Option String :=
  if endsWith text finish then
    some (String.ofList (text.toList.take (text.toList.length - finish.toList.length)))
  else none

/-! ## White space -/

/-- The ranges of code points that are white space. -/
def blankRanges : List (Nat × Nat) :=
  [(0x9, 0xD), (0x20, 0x20), (0x85, 0x85), (0xA0, 0xA0), (0x1680, 0x1680), (0x2000, 0x200A),
    (0x2028, 0x2029), (0x202F, 0x202F), (0x205F, 0x205F), (0x3000, 0x3000)]

/-- The character is white space. -/
def isBlank (c : Char) : Bool := blankRanges.any fun (lo, hi) => lo ≤ c.toNat && c.toNat ≤ hi

/-- The text without the white space at its two ends. -/
def trimBlank (cs : List Char) : List Char :=
  ((cs.dropWhile isBlank).reverse.dropWhile isBlank).reverse

end PropertyLint
