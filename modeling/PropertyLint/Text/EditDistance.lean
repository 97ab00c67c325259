/-
# Edit distance

The edit distance of two texts is the least number of single steps from one to the other: a
character put in, taken out or replaced, or two neighbours swapped, where more steps may follow
between swapped characters.  The distances of all initial parts of the texts make up a table, which
is filled row by row.
-/

namespace PropertyLint

/-- A row of the table under construction: the distances so far, and the last place in the other
text, counted from 1, that holds the character of the row. -/
structure DistanceRow where
  cells : Array Nat
  lastMatch : Nat := 0

namespace DistanceRow

/-- One more cell, for the character `d` of the other text.  `above` are the rows so far, and `seen`
are their characters with their numbers, the last one first. -/
def extend (above : Array (Array Nat)) (seen : List (Char × Nat)) (c : Char) (row : DistanceRow)
    (d : Char) : DistanceRow :=
  let i := above.size
  let j := row.cells.size
  let before (i j : Nat) : Nat := (above.getD i #[]).getD j 0
  let step := min (min (before (i - 1) j + 1) (row.cells.getD (j - 1) 0 + 1))
    (before (i - 1) (j - 1) + if c = d then 0 else 1)
  let k := (seen.lookup d).getD 0
  let l := row.lastMatch
  let cell := if k > 0 && l > 0 then
    min step (before (k - 1) (l - 1) + (i - k - 1) + 1 + (j - l - 1)) else step
  ⟨row.cells.push cell, if c = d then j else l⟩

end DistanceRow

/-- The rows of the table for the characters `cs`, below the rows so far. -/
def distanceRows (other : List Char) (above : Array (Array Nat)) (seen : List (Char × Nat)) :
    List Char → Array (Array Nat)
  | [] => above
  | c :: cs =>
    let i := above.size
    let row := other.foldl (DistanceRow.extend above seen c) { cells := #[i] }
    distanceRows other (above.push row.cells) ((c, i) :: seen) cs

/-- The edit distance of two texts. -/
def editDistance (s t : List Char) : Nat :=
  let first := (List.range (t.length + 1)).toArray
  (((distanceRows t #[first] [] s).back?.getD #[]).back?).getD 0

end PropertyLint
