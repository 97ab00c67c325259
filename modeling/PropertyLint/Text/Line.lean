/-
# Lines of a text

A line ends with its line feed; the last line of a text may lack one.  The functions take byte
offsets.  An offset that is no character boundary of the text counts as one on the first line, and
its line has no end before the end of the text.
-/
import PropertyLint.Text.Range
import PropertyLint.Text.Slice
import PropertyLint.Text.Ends

namespace PropertyLint

/-- The characters behind the last line feed of a text. -/
def lastLine (cs : List Char) : List Char := (cs.reverse.takeWhile (· != '\n')).reverse

/-- A line and a column, both counted from 1; the column counts characters. -/
structure LineCol where
  line : Nat
  column : Nat
deriving DecidableEq, Repr

namespace LineCol

/-- The place of a byte offset.  An offset past the end of the text stands for the end, and so does
one in the middle of a character. -/
def of (text : List Char) (offset : Nat) : LineCol :=
  let before := (sliceTo? text (min offset (byteLength text))).getD text
  ⟨before.count '\n' + 1, (lastLine before).length + 1⟩

/-- A place as messages show it. -/
def render (p : LineCol) : String := toString p.line ++ ":" ++ toString p.column

end LineCol

/-- The offset of the first character of the line that holds an offset. -/
def lineStart (text : List Char) (offset : Nat) : Nat :=
  match sliceTo? text offset with
  | some before => byteLength before - byteLength (lastLine before)
  | none => 0

/-- The range of the line that holds an offset, with its line feed. -/
def lineRange (text : List Char) (offset : Nat) : OffsetRange :=
  let stop := match sliceFrom? text offset with
    | some rest =>
      if '\n' ∈ rest then offset + byteLength (rest.takeWhile (· != '\n')) + 1
      else byteLength text
    | none => byteLength text
  ⟨lineStart text offset, stop⟩

/-- The blanks and tabs that the line of an offset starts with. -/
def indentation (text : List Char) (offset : Nat) : List Char :=
  ((sliceFrom? text (lineStart text offset)).getD []).takeWhile fun c => c == ' ' || c == '\t'

/-- Only white space stands before an offset on its line. -/
def startsLine (text : List Char) (offset : Nat) : Bool :=
  match slice? text (lineStart text offset) offset with
  | some before => before.all isBlank
  | none => false

end PropertyLint
