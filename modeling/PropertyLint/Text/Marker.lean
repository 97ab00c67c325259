/-
# Markers

A marked text carries arrows at the places where a finding is expected to start.  `stripMarkers`
takes the arrows out and tells where they stood; `insertMarkers` puts arrows in.
-/
import PropertyLint.Text.Slice

namespace PropertyLint

/-- The arrow that marks a place. -/
def marker : Char := '↓'

/-- The text without its markers and their offsets in it, for a text that starts at `position`. -/
def stripMarkersFrom : Nat → List Char → List Char × List Nat
  | _, [] => ([], [])
  | position, c :: cs =>
    if c = marker then
      let (clean, offsets) := stripMarkersFrom position cs
      (clean, position :: offsets)
    else
      let (clean, offsets) := stripMarkersFrom (position + c.utf8Size) cs
      (c :: clean, offsets)

/-- The text without its markers, and the byte offsets at which they stood. -/
def stripMarkers (text : String) : String × List Nat :=
  let (clean, offsets) := stripMarkersFrom 0 text.toList
  (String.ofList clean, offsets)

/-- The offsets in ascending order, each once. -/
def sortOffsets (offsets : List Nat) : List Nat := (offsets.mergeSort (· ≤ ·)).eraseReps

/-- Copies the text from `last` on with a marker at each of the ascending offsets.  An offset that
is no character boundary of the text is passed over. -/
def insertMarkersFrom (text : List Char) : Nat → List Nat → List Char
  | last, [] => (sliceFrom? text last).getD []
  | last, offset :: rest =>
    match slice? text last offset with
    | some chunk => chunk ++ marker :: insertMarkersFrom text offset rest
    | none => insertMarkersFrom text last rest

/-- The text with a marker at each of the byte offsets that are character boundaries. -/
def insertMarkers (text : String) (offsets : List Nat) : String :=
  String.ofList (insertMarkersFrom text.toList 0 (sortOffsets offsets))

end PropertyLint
