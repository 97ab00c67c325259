/-
# Ranges of a text

A place in a text is a half-open range of byte offsets into its UTF-8 form.  Two edits of one
text can be applied together only if their ranges do not conflict: ranges that overlap conflict,
and so do touching ranges when one of them is an insertion point, because the result would depend
on which edit is applied first (`OffsetRange.conflicts`).
-/

namespace PropertyLint

/-- A half-open range of byte offsets.  Nothing keeps `start` below `stop`: ranges come from
callers, and the operations say what they make of a reversed one. -/
structure OffsetRange where
  start : Nat
  stop : Nat
deriving DecidableEq, Repr, Inhabited

namespace OffsetRange

/-- The insertion point at an offset. -/
def point (offset : Nat) : OffsetRange := ⟨offset, offset⟩

/-- The number of bytes between the two ends. -/
def length (r : OffsetRange) : Nat := r.stop - r.start

/-- The range is an insertion point. -/
def isEmpty (r : OffsetRange) : Bool := r.start == r.stop

/-- The second range lies within the first. -/
def contains (r s : OffsetRange) : Bool := r.start ≤ s.start && s.stop ≤ r.stop

/-- The smallest range that covers both. -/
def cover (r s : OffsetRange) : OffsetRange := ⟨min r.start s.start, max r.stop s.stop⟩

/-- Edits on the two ranges cannot be applied together. -/
def conflicts (r s : OffsetRange) : Bool :=
  if r.isEmpty || s.isEmpty then r.start ≤ s.stop && s.start ≤ r.stop
  else r.start < s.stop && s.start < r.stop

/-- Order by start, then by end. -/
def le (r s : OffsetRange) : Bool :=
  r.start < s.start || (r.start == s.start && r.stop ≤ s.stop)

/-- The range before the other in the order by start, then by end, and different from it. -/
def lt (r s : OffsetRange) : Bool :=
  r.start < s.start || (r.start == s.start && r.stop < s.stop)

/-- A range as messages show it. -/
def render (r : OffsetRange) : String := toString r.start ++ ".." ++ toString r.stop

theorem conflicts_comm (r s : OffsetRange) : r.conflicts s = s.conflicts r := by
  simp only [conflicts, Bool.or_comm r.isEmpty s.isEmpty,
    Bool.and_comm (decide (r.start ≤ s.stop)), Bool.and_comm (decide (r.start < s.stop))]

theorem contains_refl (r : OffsetRange) : r.contains r = true := by simp [contains]

theorem contains_trans {r s t : OffsetRange} (hrs : r.contains s = true)
    (hst : s.contains t = true) : r.contains t = true := by
  simp only [contains, Bool.and_eq_true, decide_eq_true_eq] at *
  omega

theorem le_total (r s : OffsetRange) : (r.le s || s.le r) = true := by
  simp only [le, Bool.or_eq_true, Bool.and_eq_true, decide_eq_true_eq, beq_iff_eq]
  omega

theorem le_trans (r s t : OffsetRange) (hrs : r.le s = true) (hst : s.le t = true) :
    r.le t = true := by
  simp only [le, Bool.or_eq_true, Bool.and_eq_true, decide_eq_true_eq, beq_iff_eq] at *
  omega

end OffsetRange

/-- A source file, by its number in the project. -/
abbrev FileId := Nat

/-- A range of one file. -/
structure Location where
  file : FileId
  range : OffsetRange
deriving DecidableEq, Repr

end PropertyLint
