/-
# What applying edits gives

`Splice` says what edits of one text make of it when all of them are applied at once: the text is
cut into the pieces between the ranges and the ranges themselves, and every range gives way to the
new text.  The one pass with a moving cursor gives exactly that (`spliceFrom_of_splice`), and so
does applying one edit after the other, from the last range to the first
(`applyInTurn?_of_splice`).

The main statement is `applyEdits_of_ordered`: what comes of applying edits depends neither on
their order nor on anything but their ranges, and every outcome has its exact condition.
-/
import PropertyLint.Proofs.Text.Conflict

namespace PropertyLint

/-! ## Edits at once and edits in turn -/

/-- `Splice position text edits result`: the text starts at the offset `position`, and `result` is
what the edits, in the order of their ranges, make of it. -/
inductive Splice : Nat → List Char → List TextEdit → List Char → Prop
  | nil (position : Nat) (text : List Char) : Splice position text [] text
  | cons {position : Nat} {kept old rest result : List Char} {e : TextEdit}
      {edits : List TextEdit}
      (hstart : e.range.start = position + byteLength kept)
      (hstop : e.range.stop = e.range.start + byteLength old)
      (hrest : Splice e.range.stop rest edits result) :
      Splice position (kept ++ (old ++ rest)) (e :: edits)
        (kept ++ (e.newText.toList ++ result))

/-- The text after one edit, if its range lies within the text on character boundaries. -/
def TextEdit.applyTo? (e : TextEdit) (text : List Char) : Option (List Char) := do
  let (before, _) ← splitAt? text e.range.start
  let (_, after) ← splitAt? text e.range.stop
  return before ++ (e.newText.toList ++ after)

/-- The text after edits in the order of their ranges, applied one at a time from the last one to
the first. -/
def applyInTurn? (text : List Char) (edits : List TextEdit) : Option (List Char) :=
  edits.foldr (fun e done => done.bind e.applyTo?) (some text)

/-- The range lies within the text on character boundaries. -/
def OffsetRange.LiesIn (r : OffsetRange) (text : List Char) : Prop :=
  (slice? text r.start r.stop).isSome = true

theorem OffsetRange.liesIn_iff {r : OffsetRange} {text : List Char} :
    r.LiesIn text ↔ ∃ before inside after, text = before ++ (inside ++ after) ∧
      byteLength before = r.start ∧ r.start + byteLength inside = r.stop := by
  unfold LiesIn
  rw [Option.isSome_iff_exists]
  constructor
  · rintro ⟨inside, h⟩
    obtain ⟨before, after, h⟩ := slice?_eq_some_iff.1 h
    exact ⟨before, inside, after, h⟩
  · rintro ⟨before, inside, after, h⟩
    exact ⟨inside, slice?_eq_some_iff.2 ⟨before, after, h⟩⟩

/-! ## Cuts -/

/-- Two cuts of one text, the second one further behind: what lies between them. -/
theorem exists_between {a b c d : List Char} (h : a ++ b = c ++ d)
    (hle : byteLength a ≤ byteLength c) : ∃ mid, c = a ++ mid ∧ b = mid ++ d := by
  rcases List.append_eq_append_iff.1 h with ⟨mid, hc, hb⟩ | ⟨mid, ha, hd⟩
  · exact ⟨mid, hc, hb⟩
  · subst ha
    rw [byteLength_append] at hle
    -- the rest of the first part has no bytes, so it is empty
    obtain rfl : mid = [] := by
      obtain _ | ⟨x, mid⟩ := mid
      · rfl
      · have hpos := x.utf8Size_pos
        rw [byteLength_cons] at hle
        omega
    exact ⟨[], by simp, by simpa using hd.symm⟩

theorem sliceFrom?_append (before after : List Char) :
    sliceFrom? (before ++ after) (byteLength before) = some after := by
  rw [sliceFrom?, splitAt?_append]
  rfl

theorem slice?_append (before inside after : List Char) :
    slice? (before ++ (inside ++ after)) (byteLength before)
      (byteLength before + byteLength inside) = some inside :=
  slice?_eq_some_iff.2 ⟨before, after, rfl, rfl, rfl⟩

/-! ## The one pass -/

/-- The pass over the edits copies what the splice keeps. -/
theorem spliceFrom_of_splice {position : Nat} {rest result : List Char} {edits : List TextEdit}
    (h : Splice position rest edits result) (done : List Char)
    (hdone : byteLength done = position) :
    spliceFrom (done ++ rest) position edits = .ok result := by
  induction h generalizing done with
  | nil position text =>
    subst hdone
    rw [spliceFrom, sliceFrom?_append]
    rfl
  | @cons position kept old rest result e edits hstart hstop hrest ih =>
    subst hdone
    have hkept : slice? (done ++ (kept ++ (old ++ rest))) (byteLength done) e.range.start
        = some kept := by
      rw [hstart]
      exact slice?_append done kept _
    have hle : e.range.stop ≤ byteLength (done ++ (kept ++ (old ++ rest))) := by
      simp only [byteLength_append]
      omega
    have htail : spliceFrom (done ++ (kept ++ (old ++ rest))) e.range.stop edits
        = .ok result := by
      have := ih (done ++ kept ++ old) (by simp only [byteLength_append]; omega)
      simpa only [List.append_assoc] using this
    rw [spliceFrom, hkept]
    simp only [if_pos hle, htail]
    simp [bind, Except.bind, pure, Except.pure]

/-- Applying the edits in turn, the last one first, gives the splice. -/
theorem applyInTurn?_of_splice {position : Nat} {rest result : List Char} {edits : List TextEdit}
    (h : Splice position rest edits result) (done : List Char)
    (hdone : byteLength done = position) :
    applyInTurn? (done ++ rest) edits = some (done ++ result) := by
  induction h generalizing done with
  | nil position text => rfl
  | @cons position kept old rest result e edits hstart hstop hrest ih =>
    have htail : applyInTurn? (done ++ (kept ++ (old ++ rest))) edits
        = some (done ++ kept ++ old ++ result) := by
      have := ih (done ++ kept ++ old) (by simp only [byteLength_append]; omega)
      simpa only [List.append_assoc] using this
    have hbefore : splitAt? (done ++ kept ++ old ++ result) e.range.start
        = some (done ++ kept, old ++ result) :=
      splitAt?_eq_some_iff.2 ⟨by simp, by simp only [byteLength_append]; omega⟩
    have hafter : splitAt? (done ++ kept ++ old ++ result) e.range.stop
        = some (done ++ kept ++ old, result) :=
      splitAt?_eq_some_iff.2 ⟨by simp, by simp only [byteLength_append]; omega⟩
    unfold applyInTurn? at htail ⊢
    rw [List.foldr_cons, htail, Option.bind_some, TextEdit.applyTo?, hbefore]
    simp only [Option.bind_eq_bind, Option.bind_some]
    rw [hafter]
    simp

/-- Edits that follow each other on character boundaries can be spliced. -/
theorem exists_splice {edits : List TextEdit} (hfollow : Follow edits) {done rest : List Char}
    (hin : ∀ e ∈ edits, e.range.LiesIn (done ++ rest))
    (hbehind : ∀ e ∈ edits, byteLength done ≤ e.range.start) :
    ∃ result, Splice (byteLength done) rest edits result := by
  induction edits generalizing done rest with
  | nil => exact ⟨rest, .nil _ _⟩
  | cons e edits ih =>
    obtain ⟨before, old, after, htext, hbefore, hold⟩ :=
      OffsetRange.liesIn_iff.1 (hin e (.head _))
    obtain ⟨kept, rfl, rfl⟩ := exists_between htext (by rw [hbefore]; exact hbehind e (.head _))
    have hstop : byteLength (done ++ kept ++ old) = e.range.stop := by
      rw [byteLength_append, hbefore, hold]
    obtain ⟨result, hresult⟩ :
        ∃ result, Splice (byteLength (done ++ kept ++ old)) after edits result := ih hfollow.tail
      (fun e' he' => by simpa only [List.append_assoc] using hin e' (.tail _ he'))
      (fun e' he' => by rw [hstop]; exact (List.rel_of_pairwise_cons hfollow he').1)
    refine ⟨kept ++ (e.newText.toList ++ result), .cons ?_ hold.symm ?_⟩
    · rw [← hbefore, byteLength_append]
    · rw [← hstop]
      exact hresult

/-- A pass that comes to a range past the end of the text fails there or earlier, and names a range
it could not use. -/
theorem spliceFrom_of_stop_gt {text : List Char} {edits : List TextEdit}
    (hout : ∃ e ∈ edits, byteLength text < e.range.stop) (cursor : Nat) :
    ∃ r ∈ edits.map TextEdit.range,
      spliceFrom text cursor edits = .error (.outOfBounds r (byteLength text)) := by
  induction edits generalizing cursor with
  | nil => simp at hout
  | cons e edits ih =>
    rw [spliceFrom]
    cases hkept : slice? text cursor e.range.start with
    | none => exact ⟨e.range, by simp, rfl⟩
    | some kept =>
      by_cases hle : e.range.stop ≤ byteLength text
      · have htail : ∃ e' ∈ edits, byteLength text < e'.range.stop := by
          obtain ⟨e', he', hgt⟩ := hout
          rcases List.mem_cons.1 he' with rfl | hmem
          · omega
          · exact ⟨e', hmem, hgt⟩
        obtain ⟨r, hr, herr⟩ := ih htail e.range.stop
        refine ⟨r, by rw [List.map_cons]; exact .tail _ hr, ?_⟩
        simp only [if_pos hle, herr]
        rfl
      · exact ⟨e.range, by simp, by simp only [if_neg hle]⟩

/-! ## Applying edits -/

theorem applyEdits_of_adjacentConflict {text : String} {edits : List TextEdit}
    {a b : OffsetRange} (h : adjacentConflict? (sortEdits edits) = some (a, b)) :
    applyEdits text edits = .error (.overlapping a b) := by
  simp only [applyEdits, h]

theorem applyEdits_of_no_adjacentConflict {text : String} {edits : List TextEdit}
    (h : adjacentConflict? (sortEdits edits) = none) :
    applyEdits text edits =
      (spliceFrom text.toList 0 (sortEdits edits)).map String.ofList := by
  simp only [applyEdits, h]

/-- The pass over the edits never finds a conflict. -/
theorem spliceFrom_ne_overlapping {text : List Char} {edits : List TextEdit} (cursor : Nat)
    {a b : OffsetRange} : spliceFrom text cursor edits ≠ .error (.overlapping a b) := by
  induction edits generalizing cursor with
  | nil => simp [spliceFrom]
  | cons e edits ih =>
    rw [spliceFrom]
    cases slice? text cursor e.range.start with
    | none => simp
    | some kept =>
      by_cases hle : e.range.stop ≤ byteLength text
      · simp only [if_pos hle]
        cases htail : spliceFrom text e.range.stop edits with
        | ok tail => simp [bind, Except.bind, pure, Except.pure]
        | error cause =>
          intro h
          refine ih e.range.stop ?_
          rw [htail]
          simpa [bind, Except.bind] using h
      · simp [if_neg hle]

/-- The order in which edits are given makes no difference, also for what is reported. -/
theorem applyEdits_of_perm {text : String} {edits edits' : List TextEdit}
    (hordered : ∀ e ∈ edits, e.range.Ordered) (h : edits.Perm edits') :
    applyEdits text edits' = applyEdits text edits := by
  have hranges := adjacentConflict?_congr (map_range_sortEdits_of_perm h)
  cases hc : adjacentConflict? (sortEdits edits) with
  | some pair =>
    obtain ⟨a, b⟩ := pair
    rw [applyEdits_of_adjacentConflict hc, applyEdits_of_adjacentConflict (hranges ▸ hc)]
  | none =>
    -- without conflicts the sorted lists themselves are equal
    have hnone : ¬ HasConflict (sortEdits edits) := by
      rw [hasConflict_congr (sortEdits_perm edits)]
      exact (adjacentConflict?_sortEdits hordered).1 hc
    have hsorted : sortEdits edits = sortEdits edits' :=
      sorted_eq_of_perm (fun e he => hordered e (mem_sortEdits.1 he)) hnone
        ((sortEdits_perm edits).trans (h.trans (sortEdits_perm edits').symm))
        (sortEdits_sorted edits) (sortEdits_sorted edits')
    rw [applyEdits_of_no_adjacentConflict hc, applyEdits_of_no_adjacentConflict (hranges ▸ hc),
      hsorted]

/-- An overlap is reported iff two of the edits conflict. -/
theorem applyEdits_eq_overlapping_iff {text : String} {edits : List TextEdit}
    (hordered : ∀ e ∈ edits, e.range.Ordered) :
    (∃ a b, applyEdits text edits = .error (.overlapping a b)) ↔ HasConflict edits := by
  have hiff := adjacentConflict?_sortEdits hordered
  cases hc : adjacentConflict? (sortEdits edits) with
  | some pair =>
    obtain ⟨a, b⟩ := pair
    refine ⟨fun _ => ?_, fun _ => ⟨a, b, applyEdits_of_adjacentConflict hc⟩⟩
    by_contra hno
    rw [hiff.2 hno] at hc
    exact Option.some_ne_none _ hc.symm
  | none =>
    refine ⟨?_, fun h => absurd h (hiff.1 hc)⟩
    rintro ⟨a, b, h⟩
    rw [applyEdits_of_no_adjacentConflict hc] at h
    cases hs : spliceFrom text.toList 0 (sortEdits edits) with
    | ok result => simp [hs, Except.map] at h
    | error cause =>
      rw [hs] at h
      simp only [Except.map, Except.error.injEq] at h
      exact absurd (h ▸ hs) (spliceFrom_ne_overlapping 0)

/-- Edits without conflicts on character boundaries give the splice of the text. -/
theorem exists_applyEdits_eq_ok {text : String} {edits : List TextEdit}
    (hordered : ∀ e ∈ edits, e.range.Ordered) (hnone : ¬ HasConflict edits)
    (hin : ∀ e ∈ edits, e.range.LiesIn text.toList) :
    ∃ result, applyEdits text edits = .ok (String.ofList result) ∧
      Splice 0 text.toList (sortEdits edits) result := by
  have hfollow : Follow (sortEdits edits) := by
    rw [← not_hasConflict_iff_follow (fun e he => hordered e (mem_sortEdits.1 he))
      (sortEdits_sorted edits), hasConflict_congr (sortEdits_perm edits)]
    exact hnone
  obtain ⟨result, hresult⟩ :
      ∃ result, Splice (byteLength []) text.toList (sortEdits edits) result := exists_splice hfollow
    (fun e he => hin e (mem_sortEdits.1 he)) (fun _ _ => Nat.zero_le _)
  refine ⟨result, ?_, hresult⟩
  have hpass := spliceFrom_of_splice hresult [] rfl
  rw [applyEdits_of_no_adjacentConflict ((adjacentConflict?_sortEdits hordered).2 hnone)]
  rw [show spliceFrom text.toList 0 (sortEdits edits) = .ok result from hpass]
  rfl

/-- **Applying edits** whose ranges do not stop before they start: the order of the edits makes no
difference; an overlap is reported iff two edits conflict; without conflicts the edits give the
splice of the text, which is also what they give in turn from the last range to the first, as long
as they lie in the text on character boundaries; and a range past the end of the text is
refused. -/
theorem applyEdits_of_ordered (text : String) (edits : List TextEdit)
    (hordered : ∀ e ∈ edits, e.range.Ordered) :
    (∀ edits', edits.Perm edits' → applyEdits text edits' = applyEdits text edits) ∧
    ((∃ a b, applyEdits text edits = .error (.overlapping a b)) ↔ HasConflict edits) ∧
    (¬ HasConflict edits → (∀ e ∈ edits, e.range.LiesIn text.toList) →
      ∃ result, applyEdits text edits = .ok (String.ofList result) ∧
        ∀ sorted : List TextEdit, sorted.Perm edits →
          (sorted.Pairwise fun a b => a.range.le b.range = true) →
          Splice 0 text.toList sorted result ∧ applyInTurn? text.toList sorted = some result) ∧
    (¬ HasConflict edits → (∃ e ∈ edits, byteLength text.toList < e.range.stop) →
      ∃ r ∈ edits.map TextEdit.range,
        applyEdits text edits = .error (.outOfBounds r (byteLength text.toList))) := by
  refine ⟨fun edits' h => applyEdits_of_perm hordered h, applyEdits_eq_overlapping_iff hordered,
    ?_, ?_⟩
  · intro hnone hin
    obtain ⟨result, hok, hsplice⟩ := exists_applyEdits_eq_ok hordered hnone hin
    refine ⟨result, hok, ?_⟩
    intro sorted hperm hsorted
    have hperm' : (sortEdits edits).Perm sorted := (sortEdits_perm edits).trans hperm.symm
    have hnone' : ¬ HasConflict (sortEdits edits) := by
      rwa [hasConflict_congr (sortEdits_perm edits)]
    obtain rfl : sortEdits edits = sorted :=
      sorted_eq_of_perm (fun e he => hordered e (mem_sortEdits.1 he)) hnone' hperm'
        (sortEdits_sorted edits) hsorted
    exact ⟨hsplice, applyInTurn?_of_splice hsplice [] rfl⟩
  · rintro hnone ⟨e, he, hgt⟩
    have hout : ∃ e ∈ sortEdits edits, byteLength text.toList < e.range.stop :=
      ⟨e, mem_sortEdits.2 he, hgt⟩
    obtain ⟨r, hr, herr⟩ := spliceFrom_of_stop_gt hout 0
    refine ⟨r, ((sortEdits_perm edits).map _).mem_iff.1 hr, ?_⟩
    rw [applyEdits_of_no_adjacentConflict ((adjacentConflict?_sortEdits hordered).2 hnone), herr]
    rfl

/-- Two edits of one line that are given from right to left: they do not conflict, and they give
the same text as from left to right. -/
theorem applyEdits_right_to_left :
    (∀ e ∈ [TextEdit.mk ⟨11, 14⟩ "Baz", ⟨⟨7, 10⟩, "double"⟩], e.range.Ordered) ∧
    ¬ HasConflict [⟨⟨11, 14⟩, "Baz"⟩, ⟨⟨7, 10⟩, "double"⟩] ∧
    applyEdits "public int Bar;" [⟨⟨7, 10⟩, "double"⟩, ⟨⟨11, 14⟩, "Baz"⟩]
      = .ok "public double Baz;" := by
  have hordered : ∀ e ∈ [TextEdit.mk ⟨11, 14⟩ "Baz", ⟨⟨7, 10⟩, "double"⟩], e.range.Ordered := by
    decide
  have hok : applyEdits "public int Bar;" [⟨⟨7, 10⟩, "double"⟩, ⟨⟨11, 14⟩, "Baz"⟩]
      = .ok "public double Baz;" := by
    unfold applyEdits sortEdits
    rw [List.mergeSort_of_pairwise (by decide)]
    rfl
  obtain ⟨hperm, hoverlap, -, -⟩ := applyEdits_of_ordered "public int Bar;" _ hordered
  refine ⟨hordered, ?_, hok⟩
  rw [← hoverlap, ← hperm _ (.swap _ _ _), hok]
  simp

end PropertyLint
