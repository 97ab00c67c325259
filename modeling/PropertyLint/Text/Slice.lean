/-
# Slices of a text by byte offset

A text is a list of characters, and offsets into it count the bytes of its UTF-8 form.  An offset
is usable only at a character boundary within the text; `splitAt?` cuts the text there and is
`none` everywhere else.  `slice?` is two such cuts.
-/

namespace PropertyLint

/-- The number of bytes of a text in UTF-8. -/
def byteLength : List Char → Nat
  | [] => 0
  | c :: cs => c.utf8Size + byteLength cs

@[simp] theorem byteLength_nil : byteLength [] = 0 := rfl

@[simp] theorem byteLength_cons (c : Char) (cs : List Char) :
    byteLength (c :: cs) = c.utf8Size + byteLength cs := rfl

@[simp] theorem byteLength_append (s t : List Char) :
    byteLength (s ++ t) = byteLength s + byteLength t := by
  induction s with
  | nil => simp
  | cons c s ih => simp [ih, Nat.add_assoc]

/-- The text before and after a byte offset, if the offset is a character boundary. -/
def splitAt? : List Char → Nat → Option (List Char × List Char)
  | cs, 0 => some ([], cs)
  | [], _ + 1 => none
  | c :: cs, offset + 1 =>
    if c.utf8Size ≤ offset + 1 then
      (splitAt? cs (offset + 1 - c.utf8Size)).map fun (before, after) => (c :: before, after)
    else none

/-- The text between two byte offsets, if both are character boundaries in order. -/
def slice? (cs : List Char) (start stop : Nat) : Option (List Char) :=
  if start ≤ stop then do
    let (_, after) ← splitAt? cs start
    let (inside, _) ← splitAt? after (stop - start)
    return inside
  else none

/-- The text from a byte offset on, if the offset is a character boundary. -/
def sliceFrom? (cs : List Char) (start : Nat) : Option (List Char) :=
  (splitAt? cs start).map Prod.snd

/-- The text up to a byte offset, if the offset is a character boundary. -/
def sliceTo? (cs : List Char) (stop : Nat) : Option (List Char) :=
  (splitAt? cs stop).map Prod.fst

/-- A cut loses nothing, and its first part has the length of the offset. -/
theorem splitAt?_eq_some {cs before after : List Char} {offset : Nat}
    (h : splitAt? cs offset = some (before, after)) :
    cs = before ++ after ∧ byteLength before = offset := by
  induction cs generalizing offset before after with
  | nil =>
    cases offset with
    | zero => simp_all [splitAt?]
    | succ n => simp [splitAt?] at h
  | cons c cs ih =>
    cases offset with
    | zero =>
      simp only [splitAt?, Option.some.injEq, Prod.mk.injEq] at h
      obtain ⟨rfl, rfl⟩ := h
      simp
    | succ n =>
      simp only [splitAt?] at h
      split at h
      · obtain ⟨⟨b, a⟩, hcut, heq⟩ := Option.map_eq_some_iff.1 h
        simp only [Prod.mk.injEq] at heq
        obtain ⟨rfl, rfl⟩ := heq
        obtain ⟨rfl, hlen⟩ := ih hcut
        refine ⟨rfl, ?_⟩
        simp only [byteLength_cons]
        omega
      · simp at h

/-- A text can be cut at the end of any of its initial parts. -/
theorem splitAt?_append (before after : List Char) :
    splitAt? (before ++ after) (byteLength before) = some (before, after) := by
  induction before with
  | nil => cases after <;> rfl
  | cons c cs ih =>
    have hpos := c.utf8Size_pos
    obtain ⟨n, hn⟩ : ∃ n, byteLength (c :: cs) = n + 1 :=
      ⟨c.utf8Size + byteLength cs - 1, by simp only [byteLength_cons]; omega⟩
    have hle : c.utf8Size ≤ n + 1 := by simp only [byteLength_cons] at hn; omega
    have hsub : n + 1 - c.utf8Size = byteLength cs := by simp only [byteLength_cons] at hn; omega
    rw [hn, List.cons_append, splitAt?, if_pos hle, hsub, ih]
    rfl

/-- The cuts of a text are exactly its factorizations into two parts. -/
theorem splitAt?_eq_some_iff {cs before after : List Char} {offset : Nat} :
    splitAt? cs offset = some (before, after) ↔
      cs = before ++ after ∧ byteLength before = offset := by
  constructor
  · exact splitAt?_eq_some
  · rintro ⟨rfl, rfl⟩
    exact splitAt?_append before after

/-- Two cuts of one text at the same offset have the same parts. -/
theorem append_inj_of_byteLength {a b c d : List Char} (h : a ++ b = c ++ d)
    (hlength : byteLength a = byteLength c) : a = c ∧ b = d := by
  have hcut := splitAt?_append c d
  rw [← h, ← hlength, splitAt?_append] at hcut
  obtain ⟨rfl, rfl⟩ := Prod.mk.inj (Option.some.inj hcut)
  exact ⟨rfl, rfl⟩

/-- The offset is a character boundary of the text. -/
def IsBoundary (cs : List Char) (offset : Nat) : Prop := (splitAt? cs offset).isSome = true

instance (cs : List Char) (offset : Nat) : Decidable (IsBoundary cs offset) :=
  inferInstanceAs (Decidable (_ = _))

theorem isBoundary_iff {cs : List Char} {offset : Nat} :
    IsBoundary cs offset ↔ ∃ before after, cs = before ++ after ∧ byteLength before = offset := by
  simp only [IsBoundary, Option.isSome_iff_exists, Prod.exists, splitAt?_eq_some_iff]

/-- The slices of a text are exactly the middle parts of its factorizations into three. -/
theorem slice?_eq_some_iff {cs inside : List Char} {start stop : Nat} :
    slice? cs start stop = some inside ↔
      ∃ before after, cs = before ++ (inside ++ after) ∧ byteLength before = start ∧
        start + byteLength inside = stop := by
  constructor
  · intro h
    unfold slice? at h
    split at h
    · obtain ⟨⟨before, rest⟩, hstart, h⟩ := Option.bind_eq_some_iff.1 h
      obtain ⟨⟨middle, after⟩, hstop, h⟩ := Option.bind_eq_some_iff.1 h
      obtain rfl : middle = inside := by simpa using h
      obtain ⟨rfl, hbefore⟩ := splitAt?_eq_some hstart
      obtain ⟨rfl, hinside⟩ := splitAt?_eq_some hstop
      exact ⟨before, after, rfl, hbefore, by omega⟩
    · simp at h
  · rintro ⟨before, after, rfl, rfl, rfl⟩
    have hle : byteLength before ≤ byteLength before + byteLength inside := Nat.le_add_right _ _
    simp [slice?, hle, splitAt?_append]

end PropertyLint
