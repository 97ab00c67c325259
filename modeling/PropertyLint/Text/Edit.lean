/-
# Edits of a text

An edit replaces one range of a text.  A set of edits is applied at once: the ranges refer to the
text before any of them, so the edits are sorted by range, and then the text between the ranges is
copied in one pass.  Edits that conflict, or that reach outside of the text or into the middle of
a character, are refused as a whole.
-/
import PropertyLint.Text.Range
import PropertyLint.Text.Slice

namespace PropertyLint

/-- The replacement of one range of a text. -/
structure TextEdit where
  range : OffsetRange
  newText : String
deriving DecidableEq, Repr

namespace TextEdit

/-- The edit that puts a text in at an offset. -/
def insert (offset : Nat) (text : String) : TextEdit := ⟨.point offset, text⟩

/-- The edit that takes a range out. -/
def delete (start stop : Nat) : TextEdit := ⟨⟨start, stop⟩, ""⟩

/-- The edit only takes text out. -/
def isDeletion (e : TextEdit) : Bool := e.newText.isEmpty && !e.range.isEmpty

/-- The edit only puts text in. -/
def isInsertion (e : TextEdit) : Bool := e.range.isEmpty && !e.newText.isEmpty

end TextEdit

/-- Why edits cannot be applied. -/
inductive EditError where
  | outOfBounds (range : OffsetRange) (length : Nat)
  | overlapping (first second : OffsetRange)
deriving DecidableEq, Repr

/-- The message of an edit error. -/
def EditError.message : EditError → String
  | .outOfBounds range length =>
    "edit " ++ range.render ++ " is outside of the text (length " ++ toString length ++ ")"
  | .overlapping first second =>
    "edits " ++ first.render ++ " and " ++ second.render ++ " overlap"

/-- The edits in the order of their ranges; edits of one range keep their order. -/
def sortEdits (edits : List TextEdit) : List TextEdit :=
  edits.mergeSort fun a b => a.range.le b.range

/-- The first two neighbours of a list of edits whose ranges conflict. -/
def adjacentConflict? : List TextEdit → Option (OffsetRange × OffsetRange)
  | a :: b :: rest =>
    if a.range.conflicts b.range then some (a.range, b.range) else adjacentConflict? (b :: rest)
  | _ => none

/-- Copies the text from `cursor` on and puts the new text of each edit in the place of its range.
A range is refused when the text from the cursor to its start is no slice of the text or when its
end is past the text; behind the last edit, the text from an unusable cursor on is empty. -/
def spliceFrom (text : List Char) : Nat → List TextEdit → Except EditError (List Char)
  | cursor, [] => .ok ((sliceFrom? text cursor).getD [])
  | cursor, e :: rest =>
    match slice? text cursor e.range.start with
    | some kept =>
      if e.range.stop ≤ byteLength text then do
        let tail ← spliceFrom text e.range.stop rest
        return kept ++ e.newText.toList ++ tail
      else .error (.outOfBounds e.range (byteLength text))
    | none => .error (.outOfBounds e.range (byteLength text))

/-- The text with all the edits applied at once; the edits may stand in any order. -/
def applyEdits (text : String) (edits : List TextEdit) : Except EditError String :=
  let sorted := sortEdits edits
  match adjacentConflict? sorted with
  | some (first, second) => .error (.overlapping first second)
  | none => (spliceFrom text.toList 0 sorted).map String.ofList

/-- A labelled group of edits that resolves one finding.  The edits are applied together or not at
all. -/
structure CodeFix where
  label : String
  edits : List TextEdit
deriving DecidableEq, Repr

namespace CodeFix

/-- The fix that replaces one range. -/
def replace (label : String) (range : OffsetRange) (newText : String) : CodeFix :=
  ⟨label, [⟨range, newText⟩]⟩

/-- The fix that puts one text in. -/
def insert (label : String) (offset : Nat) (text : String) : CodeFix :=
  ⟨label, [.insert offset text]⟩

/-- The fix changes something. -/
def hasEdits (f : CodeFix) : Bool := !f.edits.isEmpty

/-- Some edit of the fix conflicts with one of the given edits. -/
def conflictsWith (f : CodeFix) (edits : List TextEdit) : Bool :=
  f.edits.any fun mine => edits.any fun other => mine.range.conflicts other.range

/-- The text after the fix. -/
def apply (f : CodeFix) (text : String) : Except EditError String := applyEdits text f.edits

end CodeFix

end PropertyLint
