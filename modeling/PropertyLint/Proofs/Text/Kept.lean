/-
# What applying edits keeps

The pass over the edits tests the start of every range, because the text up to it is cut out, but
of its end only that it is not past the text.  The cut in front of the next range finds an end in
the middle of a character; nothing finds a range that stops before it starts, and nothing tests the
end of the last range.  With these two conditions an answer is the splice of the text
(`splice_of_spliceFrom`), and the ranges are disjoint ranges of it (`Splice.liesIn`,
`Splice.disjoint`); without them it is not (`applyEdits_keeps_text_iff`).
-/
import PropertyLint.Proofs.Text.Splice

namespace PropertyLint

/-- One of the two ranges ends before the other one starts. -/
def OffsetRange.Disjoint (r s : OffsetRange) : Prop := r.stop ≤ s.start ∨ s.stop ≤ r.start

instance : Std.Symm OffsetRange.Disjoint := ⟨fun _ _ => Or.symm⟩

/-- A range lies in a text iff its ends are character boundaries in order. -/
theorem OffsetRange.liesIn_iff_isBoundary {r : OffsetRange} {text : List Char} :
    r.LiesIn text ↔ r.Ordered ∧ IsBoundary text r.start ∧ IsBoundary text r.stop := by
  rw [liesIn_iff]
  simp only [isBoundary_iff]
  unfold Ordered
  constructor
  · rintro ⟨before, inside, after, rfl, hstart, hstop⟩
    refine ⟨by omega, ⟨before, inside ++ after, rfl, hstart⟩, before ++ inside, after, by simp, ?_⟩
    rw [byteLength_append, hstart, hstop]
  · rintro ⟨hle, ⟨before, after, rfl, hstart⟩, front, behind, heq, hstop⟩
    obtain ⟨inside, rfl, rfl⟩ := exists_between heq (by omega)
    rw [byteLength_append] at hstop
    exact ⟨before, inside, behind, rfl, hstart, by omega⟩

theorem OffsetRange.LiesIn.ordered {r : OffsetRange} {text : List Char} (h : r.LiesIn text) :
    r.Ordered := (liesIn_iff_isBoundary.1 h).1

/-! ## Ranges of a splice -/

namespace Splice

variable {position : Nat} {rest result : List Char} {edits : List TextEdit}

theorem ordered (h : Splice position rest edits result) : ∀ e ∈ edits, e.range.Ordered := by
  induction h with
  | nil => exact List.forall_mem_nil _
  | cons hstart hstop _ ih =>
    refine List.forall_mem_cons.2 ⟨?_, ih⟩
    unfold OffsetRange.Ordered
    omega

/-- No range starts in front of the position. -/
theorem le_start (h : Splice position rest edits result) :
    ∀ e ∈ edits, position ≤ e.range.start := by
  induction h with
  | nil => exact List.forall_mem_nil _
  | cons hstart hstop _ ih =>
    refine List.forall_mem_cons.2 ⟨by omega, fun e he => ?_⟩
    have hle := ih e he
    omega

/-- Every range ends before the next one starts. -/
theorem disjoint (h : Splice position rest edits result) :
    edits.Pairwise fun a b => a.range.stop ≤ b.range.start := by
  induction h with
  | nil => exact .nil
  | cons _ _ hrest ih => exact List.pairwise_cons.2 ⟨hrest.le_start, ih⟩

/-- The ranges lie in the text on character boundaries. -/
theorem liesIn (h : Splice position rest edits result) (done : List Char)
    (hdone : byteLength done = position) : ∀ e ∈ edits, e.range.LiesIn (done ++ rest) := by
  induction h generalizing done with
  | nil => exact List.forall_mem_nil _
  | @cons position kept old rest result e edits hstart hstop _ ih =>
    refine List.forall_mem_cons.2 ⟨?_, ?_⟩
    · refine OffsetRange.liesIn_iff.2 ⟨done ++ kept, old, rest, by simp, ?_, hstop.symm⟩
      rw [byteLength_append, hdone, hstart]
    · have hrest := ih (done ++ kept ++ old) (by simp only [byteLength_append]; omega)
      simpa only [List.append_assoc] using hrest

end Splice

/-! ## What the pass has found -/

/-- The pass goes on behind a range only from a character boundary. -/
theorem isBoundary_of_spliceFrom {text result : List Char} {cursor : Nat} {e : TextEdit}
    {edits : List TextEdit} (h : spliceFrom text cursor (e :: edits) = .ok result) :
    IsBoundary text cursor := by
  rw [spliceFrom] at h
  cases hkept : slice? text cursor e.range.start with
  | none => simp [hkept] at h
  | some kept =>
    obtain ⟨before, after, htext, hbefore, -⟩ := slice?_eq_some_iff.1 hkept
    exact isBoundary_iff.2 ⟨before, _, htext, hbefore⟩

/-- What one round of the pass has found. -/
theorem exists_of_spliceFrom_cons {text result : List Char} {cursor : Nat} {e : TextEdit}
    {edits : List TextEdit} (h : spliceFrom text cursor (e :: edits) = .ok result) :
    ∃ kept tail, slice? text cursor e.range.start = some kept ∧
      spliceFrom text e.range.stop edits = .ok tail ∧
      result = kept ++ (e.newText.toList ++ tail) := by
  rw [spliceFrom] at h
  cases hkept : slice? text cursor e.range.start with
  | none => simp [hkept] at h
  | some kept =>
    by_cases hle : e.range.stop ≤ byteLength text
    · simp only [hkept, if_pos hle] at h
      cases htail : spliceFrom text e.range.stop edits with
      | error cause => simp [htail, bind, Except.bind] at h
      | ok tail =>
        refine ⟨kept, tail, rfl, rfl, ?_⟩
        simpa [htail, bind, Except.bind, pure, Except.pure] using h.symm
    · simp [hkept, hle] at h

/-- The answer of the pass is the splice, if no range stops before it starts and the last one ends
on a character boundary. -/
theorem splice_of_spliceFrom {edits : List TextEdit} {done rest result : List Char}
    (hordered : ∀ e ∈ edits, e.range.Ordered)
    (hlast : ∀ e ∈ edits.getLast?, IsBoundary (done ++ rest) e.range.stop)
    (h : spliceFrom (done ++ rest) (byteLength done) edits = .ok result) :
    Splice (byteLength done) rest edits result := by
  induction edits generalizing done rest result with
  | nil =>
    rw [spliceFrom, sliceFrom?_append, Option.getD_some] at h
    obtain rfl := Except.ok.inj h
    exact .nil _ _
  | cons e edits ih =>
    obtain ⟨kept, tail, hkept, htail, rfl⟩ := exists_of_spliceFrom_cons h
    obtain ⟨before, after, htext, hbefore, hstart⟩ := slice?_eq_some_iff.1 hkept
    obtain ⟨rfl, rfl⟩ := append_inj_of_byteLength htext hbefore.symm
    -- the end of the range is a boundary: the next round starts there, or it is the last end
    have hboundary : IsBoundary (done ++ (kept ++ after)) e.range.stop := by
      cases edits with
      | nil => exact hlast e rfl
      | cons e' edits => exact isBoundary_of_spliceFrom htail
    obtain ⟨front, behind, hfront, hstop⟩ := isBoundary_iff.1 hboundary
    have hle : byteLength (done ++ kept) ≤ byteLength front := by
      have := hordered e (.head _)
      unfold OffsetRange.Ordered at this
      rw [byteLength_append]
      omega
    have hcut : done ++ kept ++ after = front ++ behind := by rw [← hfront, List.append_assoc]
    obtain ⟨old, rfl, rfl⟩ := exists_between hcut hle
    refine .cons hstart.symm ?_ ?_
    · rw [byteLength_append, byteLength_append] at hstop
      omega
    · rw [← hstop]
      refine ih (fun e' he' => hordered e' (.tail _ he')) ?_ ?_
      · intro e' he'
        rw [← hfront]
        refine hlast e' ?_
        obtain ⟨d, edits, rfl⟩ := List.exists_cons_of_ne_nil
          (fun hnil : edits = [] => by simp [hnil] at he')
        rwa [List.getLast?_cons_cons]
      · rw [← hfront, hstop]
        exact htail

/-! ## Applying edits -/

/-- What stands behind a successful answer: the pass over the sorted edits. -/
theorem spliceFrom_of_applyEdits {text s : String} {edits : List TextEdit}
    (h : applyEdits text edits = .ok s) :
    spliceFrom text.toList 0 (sortEdits edits) = .ok s.toList := by
  cases hc : adjacentConflict? (sortEdits edits) with
  | some pair => simp [applyEdits, hc] at h
  | none =>
    rw [applyEdits_of_no_adjacentConflict hc] at h
    cases hs : spliceFrom text.toList 0 (sortEdits edits) with
    | error cause => simp [hs, Except.map] at h
    | ok result =>
      rw [hs, Except.map, Except.ok.injEq] at h
      rw [← h, String.toList_ofList]

/-- **What is kept.**  A successful answer keeps the text outside of the ranges, and the ranges are
disjoint ranges of the text, iff no range stops before it starts and the last one in the order ends
on a character boundary. -/
theorem applyEdits_keeps_text_iff {text s : String} {edits : List TextEdit}
    (h : applyEdits text edits = .ok s) :
    ((∀ e ∈ edits, e.range.LiesIn text.toList) ∧
        (edits.Pairwise fun a b => a.range.Disjoint b.range) ∧
        Splice 0 text.toList (sortEdits edits) s.toList) ↔
      (∀ e ∈ edits, e.range.Ordered) ∧
        ∀ e ∈ (sortEdits edits).getLast?, IsBoundary text.toList e.range.stop := by
  constructor
  · rintro ⟨hin, -, -⟩
    refine ⟨fun e he => (hin e he).ordered, fun e he => ?_⟩
    have hmem := mem_sortEdits.1 (List.mem_of_getLast? he)
    exact (OffsetRange.liesIn_iff_isBoundary.1 (hin e hmem)).2.2
  · rintro ⟨hordered, hlast⟩
    have hsplice : Splice 0 text.toList (sortEdits edits) s.toList :=
      @splice_of_spliceFrom _ [] _ _ (fun e he => hordered e (mem_sortEdits.1 he)) hlast
        (spliceFrom_of_applyEdits h)
    refine ⟨fun e he => hsplice.liesIn [] rfl e (mem_sortEdits.2 he), ?_, hsplice⟩
    have hdisjoint := hsplice.disjoint.imp fun {a b} hab =>
      (Or.inl hab : a.range.Disjoint b.range)
    exact ((sortEdits_perm edits).pairwise_iff fun {a b} hab => hab.symm).1 hdisjoint

/-- A range that ends in the middle of the last letter: the letter is lost. -/
theorem applyEdits_loses_letter :
    applyEdits "aé" [⟨⟨0, 2⟩, "x"⟩] = .ok "x" ∧
    ¬ ((∀ e ∈ [TextEdit.mk ⟨0, 2⟩ "x"], e.range.LiesIn "aé".toList) ∧
        ([TextEdit.mk ⟨0, 2⟩ "x"].Pairwise fun a b => a.range.Disjoint b.range) ∧
        Splice 0 "aé".toList (sortEdits [⟨⟨0, 2⟩, "x"⟩]) "x".toList) := by
  have h : applyEdits "aé" [⟨⟨0, 2⟩, "x"⟩] = .ok "x" := by
    unfold applyEdits sortEdits
    rw [List.mergeSort_singleton]
    rfl
  refine ⟨h, fun hkeeps => ?_⟩
  obtain ⟨-, hlast⟩ := (applyEdits_keeps_text_iff h).1 hkeeps
  have hin : IsBoundary "aé".toList 2 := hlast ⟨⟨0, 2⟩, "x"⟩ (by simp [sortEdits])
  exact absurd hin (by decide)

-- a range that stops before it starts: the text between its ends is there twice
example : applyEdits "abcdef" [⟨⟨5, 2⟩, "x"⟩] = .ok "abcdexcdef" := by
  unfold applyEdits sortEdits
  rw [List.mergeSort_singleton]
  rfl

end PropertyLint
