/-
# The characters and the tokens of YAML

Blanks, marks and line breaks.  Inside a scalar a line break folds into a blank, and of several
breaks in a row all but the first one stay.

The tokens are the scalars and marks that a text consists of.  In block form the indentation stands
for marks: `blockList`, `blockMap` and `blockEnd` say where a collection starts and ends, and `key`
stands in front of each key.
-/

namespace PropertyLint.Config.Yaml

/-! ## Characters -/

/-- A blank or a tab. -/
def isGap (c : Char) : Bool := c == ' ' || c == '\t'

/-- A mark of lists and maps in flow form. -/
def isFlowMark (c : Char) : Bool :=
  c == ',' || c == '[' || c == ']' || c == '\x7b' || c == '\x7d'

/-- The text is at a blank or at the end of a line. -/
def atGap : List Char → Bool
  | [] => true
  | c :: _ => isGap c || c == '\n'

/-- The text is at a mark in flow form. -/
def atFlowMark (cs : List Char) : Bool := cs.head?.any isFlowMark

/-- The text starts with a character that stands for itself. -/
def startsWithMark (mark : Char) : List Char → Bool
  | c :: rest => c == mark && atGap rest
  | [] => false

/-- The text starts with a character three times, and a blank or the end of the line follows. -/
def startsWithRule (mark : Char) (cs : List Char) : Bool :=
  cs.take 3 == [mark, mark, mark] && atGap (cs.drop 3)

/-- The line that the text starts with separates documents. -/
def separatesDocuments (cs : List Char) : Bool := startsWithRule '-' cs || startsWithRule '.' cs

/-- The text with every line break written as a line feed. -/
def normalizeBreaks : List Char → List Char
  | '\r' :: '\n' :: rest => '\n' :: normalizeBreaks rest
  | '\r' :: rest => '\n' :: normalizeBreaks rest
  | c :: rest => c :: normalizeBreaks rest
  | [] => []

/-- What line breaks between two pieces of a scalar stand for. -/
def folded : Nat → List Char
  | 0 => []
  | 1 => [' ']
  | breaks + 2 => List.replicate (breaks + 1) '\n'

/-! ## Tokens -/

/-- A token. -/
inductive Token where
  | scalar (plain : Bool) (text : String)
  | blockList | blockMap | blockEnd
  | listStart | listEnd | mapStart | mapEnd
  | item | comma | key | value
  | documentStart | documentEnd | textEnd
deriving DecidableEq, Repr

end PropertyLint.Config.Yaml
