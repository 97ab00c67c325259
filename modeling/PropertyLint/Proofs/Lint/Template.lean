/-
# Messages made from templates

A template is read from left to right as pieces: characters that are copied and places that are
filled (`Template.Piece`).  A brace opens a place if the text up to the next closing brace is the
number of an argument (`Template.Place`).  How a template is read depends on how many arguments
there are and not on their texts, and there is one way to read it (`Template.Reads.unique`).  So the
texts of arguments are never read, whatever braces they have (`fillTemplate_reads_once`).
-/
import Mathlib.Data.List.TakeWhile
import Mathlib.Data.Nat.Digits.Defs
import PropertyLint.Lint.Rule

namespace PropertyLint

namespace Template

variable {cs inside rest rest' : List Char} {n n' count : Nat} {args : List String}

/-! ## Numbers -/

/-- The characters are decimal digits, and they have the value. -/
structure Digits (cs : List Char) (n : Nat) : Prop where
  ne_nil : cs ≠ []
  isDigit : ∀ c ∈ cs, c.isDigit = true
  value : n = Nat.ofDigits 10 (cs.reverse.map fun c => c.toNat - '0'.toNat)

/-- The characters are a number, perhaps with a plus sign in front. -/
def Numeral (cs : List Char) (n : Nat) : Prop := Digits cs n ∨ ∃ ds, cs = '+' :: ds ∧ Digits ds n

/-- Reading digits from the first one on gives the value that they have by their places. -/
theorem foldl_eq_ofDigits (cs : List Char) :
    cs.foldl (fun n c => 10 * n + (c.toNat - '0'.toNat)) 0
      = Nat.ofDigits 10 (cs.reverse.map fun c => c.toNat - '0'.toNat) := by
  rw [Nat.ofDigits_eq_foldr, List.foldr_map, List.foldr_reverse]
  simp only [Nat.cast_id, Nat.add_comm]

theorem digits_iff (cs : List Char) (n : Nat) :
    (if cs.isEmpty then none
      else if cs.all fun c => '0' ≤ c && c ≤ '9' then
        some (cs.foldl (fun n c => 10 * n + (c.toNat - '0'.toNat)) 0)
      else none) = some n ↔ Digits cs n := by
  rw [Option.ite_none_left_eq_some, Option.ite_none_right_eq_some, foldl_eq_ofDigits,
    List.isEmpty_iff, List.all_eq_true, Option.some.injEq, eq_comm (b := n)]
  exact ⟨fun ⟨hne, hall, hvalue⟩ => ⟨hne, hall, hvalue⟩, fun h => ⟨h.ne_nil, h.isDigit, h.value⟩⟩

theorem not_digits_plus : ¬ Digits ('+' :: cs) n := fun h =>
  absurd (h.isDigit '+' (.head _)) (by decide)

/-- The text of a place is read as a number exactly if it is one. -/
theorem placeNumber?_eq_some_iff : placeNumber? cs = some n ↔ Numeral cs n := by
  unfold placeNumber? Numeral
  split
  · rename_i ds
    simp only [digits_iff, not_digits_plus, false_or, List.cons.injEq, true_and, exists_eq_left']
  · rename_i hplus
    rw [digits_iff, or_iff_left]
    rintro ⟨ds, rfl, -⟩
    exact hplus ds rfl

theorem Numeral.unique (h : Numeral cs n) (h' : Numeral cs n') : n = n' := by
  rw [← placeNumber?_eq_some_iff] at h h'
  exact Option.some.inj (h.symm.trans h')

/-! ## Places -/

/-- What stands behind an opening brace is the number of a place, a closing brace and the rest: the
text up to the first closing brace is the number. -/
def Place (cs : List Char) (n : Nat) (rest : List Char) : Prop :=
  ∃ inside, cs = inside ++ '\x7d' :: rest ∧ '\x7d' ∉ inside ∧ Numeral inside n

theorem takeWhile_inside (h : '\x7d' ∉ inside) (rest : List Char) :
    (inside ++ '\x7d' :: rest).takeWhile (· != '\x7d') = inside := by
  rw [List.takeWhile_append_of_pos, List.takeWhile_cons_of_neg (by simp), List.append_nil]
  intro c hc
  exact bne_iff_ne.2 fun heq => h (heq ▸ hc)

/-- Only one number and one rest fit. -/
theorem Place.unique (h : Place cs n rest) (h' : Place cs n' rest') : n = n' ∧ rest = rest' := by
  obtain ⟨inside, rfl, hinside, hn⟩ := h
  obtain ⟨inside', heq, hinside', hn'⟩ := h'
  obtain rfl : inside = inside' := by
    rw [← takeWhile_inside hinside rest, heq, takeWhile_inside hinside' rest']
  exact ⟨hn.unique hn', (List.cons.inj (List.append_cancel_left heq)).2⟩

/-- Up to a closing brace the number of an argument is looked for. -/
theorem place?_append (args : List String) (h : '\x7d' ∉ inside) (rest : List Char) :
    place? args (inside ++ '\x7d' :: rest)
      = (placeNumber? inside).bind fun n => args[n]?.map fun arg => (arg, inside.length) := by
  unfold place?
  rw [takeWhile_inside h, if_pos (by simp)]
  simp [Option.bind_eq_bind, Option.map_eq_bind]

/-- Without a closing brace there is no place. -/
theorem place?_of_not_mem (args : List String) (h : '\x7d' ∉ cs) : place? args cs = none := by
  have hall : cs.takeWhile (· != '\x7d') = cs :=
    List.takeWhile_eq_self_iff.2 fun c hc => bne_iff_ne.2 fun heq => h (heq ▸ hc)
  unfold place?
  rw [hall, if_neg (Nat.lt_irrefl _)]

/-- A place that is found is the place of an argument. -/
theorem exists_place_of_place? {arg : String} {length : Nat}
    (h : place? args cs = some (arg, length)) :
    ∃ i : Fin args.length, Place cs i (cs.drop (length + 1)) ∧ args[i] = arg := by
  by_cases hmem : '\x7d' ∈ cs
  · obtain ⟨inside, rest, rfl, hinside⟩ := List.eq_append_cons_of_mem hmem
    rw [place?_append args hinside, Option.bind_eq_some_iff] at h
    obtain ⟨n, hn, h⟩ := h
    obtain ⟨arg', harg, heq⟩ := Option.map_eq_some_iff.1 h
    obtain ⟨rfl, rfl⟩ := Prod.mk.inj heq
    obtain ⟨hlt, hget⟩ := List.getElem?_eq_some_iff.1 harg
    refine ⟨⟨n, hlt⟩, ⟨inside, ?_, hinside, placeNumber?_eq_some_iff.1 hn⟩, hget⟩
    simp
  · rw [place?_of_not_mem args hmem] at h
    cases h

/-- Where no place is found there is none of an argument. -/
theorem not_place_of_place?_eq_none (h : place? args cs = none) (i : Fin args.length)
    (rest : List Char) : ¬ Place cs i rest := by
  rintro ⟨inside, rfl, hinside, hn⟩
  rw [place?_append args hinside, placeNumber?_eq_some_iff.2 hn] at h
  simp at h

/-! ## Pieces -/

/-- A piece of a template for a number of arguments. -/
inductive Piece (count : Nat) where
  | copied (c : Char)
  | filled (i : Fin count)

/-- What a piece puts into the message: the character, or the argument as it is. -/
def Piece.chars (args : List String) : Piece args.length → List Char
  | copied c => [c]
  | filled i => args[i].toList

/-- The template is read from left to right as the pieces.  A character is copied unless it is a
brace that opens the place of an argument. -/
inductive Reads (count : Nat) : List Char → List (Piece count) → Prop where
  | nil : Reads count [] []
  | filled {cs rest : List Char} {i : Fin count} {ps : List (Piece count)} :
      Place cs i rest → Reads count rest ps → Reads count ('\x7b' :: cs) (.filled i :: ps)
  | copied {c : Char} {cs : List Char} {ps : List (Piece count)} :
      (c = '\x7b' → ∀ (i : Fin count) rest, ¬ Place cs i rest) → Reads count cs ps →
      Reads count (c :: cs) (.copied c :: ps)

/-- There is one way to read a template. -/
theorem Reads.unique {ps qs : List (Piece count)} (h : Reads count cs ps)
    (h' : Reads count cs qs) : ps = qs := by
  induction h generalizing qs with
  | nil =>
    cases h'
    rfl
  | @filled cs rest i ps hplace _ ih =>
    cases h' with
    | filled hplace' hread' =>
      obtain ⟨hi, rfl⟩ := hplace.unique hplace'
      rw [Fin.ext hi, ih hread']
    | copied hno _ => exact absurd hplace (hno rfl i rest)
  | copied hno _ ih =>
    cases h' with
    | filled hplace' _ => exact absurd hplace' (hno rfl _ _)
    | copied _ hread' => rw [ih hread']

/-- Filling a template is reading it and putting in its pieces. -/
theorem exists_reads (args : List String) (cs : List Char) :
    ∃ ps, Reads args.length cs ps ∧ fillChars args cs = ps.flatMap (Piece.chars args) := by
  fun_induction fillChars args cs with
  | case1 => exact ⟨[], .nil, rfl⟩
  | case2 cs arg length hfound ih =>
    obtain ⟨ps, hread, heq⟩ := ih
    obtain ⟨i, hplace, rfl⟩ := exists_place_of_place? hfound
    exact ⟨.filled i :: ps, .filled hplace hread, by rw [heq]; rfl⟩
  | case3 cs hnone ih =>
    obtain ⟨ps, hread, heq⟩ := ih
    refine ⟨.copied '\x7b' :: ps, .copied (fun _ => ?_) hread, by rw [heq]; rfl⟩
    exact not_place_of_place?_eq_none hnone
  | case4 c cs hc ih =>
    obtain ⟨ps, hread, heq⟩ := ih
    exact ⟨.copied c :: ps, .copied (fun heq => absurd heq hc) hread, by rw [heq]; rfl⟩

end Template

open Template in
/-- **Messages.**  Whatever the template and the arguments are, there is a message: the template is
read from left to right in exactly one way, which depends on the number of the arguments alone, and
the message has the characters that are copied and, in each place, the argument as it is. -/
theorem fillTemplate_reads_once (template : String) (args : List String) :
    ∃ pieces, (∀ ps, Reads args.length template.toList ps ↔ ps = pieces) ∧
      fillTemplate template args = String.ofList (pieces.flatMap (Piece.chars args)) := by
  obtain ⟨pieces, hread, hfill⟩ := exists_reads args template.toList
  refine ⟨pieces, fun ps => ⟨fun h => h.unique hread, ?_⟩, ?_⟩
  · rintro rfl
    exact hread
  · rw [fillTemplate, hfill]

/-- A brace in front of a place, an argument that looks like a place, and the place of no argument. -/
example : fillTemplate "\x7b\x7b0\x7d \x7b+01\x7d \x7b2\x7d" ["\x7b1\x7d", "a"]
    = "\x7b\x7b1\x7d a \x7b2\x7d" := by cbv

end PropertyLint
