/-
# Markers put in and taken out

Taking the markers out of a text loses nothing, since the offsets tell where they stood
(`stripMarkersFrom_injective`).  Putting markers in at some offsets and taking them out again gives
the text and those of the offsets that can be used, in order and each once
(`strip_insertMarkersFrom`).  So markers that are taken out and put back stand where they stood, but
each of several markers at one place is one and the same offset (`markers_roundTrip`).
-/
import Mathlib.Data.List.Destutter
import Mathlib.Data.List.Sort
import PropertyLint.Proofs.Text.Splice
import PropertyLint.Text.Marker

namespace PropertyLint

/-! ## Sorted offsets -/

theorem eraseRepsBy_loop_eq (a : Nat) (as kept : List Nat) :
    List.eraseRepsBy.loop (· == ·) a as kept = kept.reverse ++ as.destutter' (· ≠ ·) a := by
  induction as generalizing a kept with
  | nil => simp [List.eraseRepsBy.loop]
  | cons b as ih =>
    by_cases hab : a = b
    · simp [List.eraseRepsBy.loop, hab, ih]
    · have hne : (a == b) = false := beq_false_of_ne hab
      simp [List.eraseRepsBy.loop, hab, hne, ih]

theorem eraseReps_eq_destutter (as : List Nat) : as.eraseReps = as.destutter (· ≠ ·) := by
  cases as with
  | nil => rfl
  | cons a as => exact eraseRepsBy_loop_eq a as []

/-- Of offsets in order each is kept once. -/
theorem sortOffsets_eq_dedup (offsets : List Nat) :
    sortOffsets offsets = (offsets.mergeSort (· ≤ ·)).dedup := by
  rw [sortOffsets, eraseReps_eq_destutter]
  exact (List.pairwise_mergeSort' (· ≤ ·) offsets).destutter_eq_dedup

theorem mem_sortOffsets {o : Nat} {offsets : List Nat} :
    o ∈ sortOffsets offsets ↔ o ∈ offsets := by
  rw [sortOffsets_eq_dedup, List.mem_dedup, List.mem_mergeSort]

theorem sortOffsets_pairwise (offsets : List Nat) : (sortOffsets offsets).Pairwise (· < ·) := by
  rw [sortOffsets_eq_dedup]
  have hsorted := List.pairwise_mergeSort' (· ≤ ·) offsets
  exact (hsorted.sublist (List.dedup_sublist _)).imp₂ (fun _ _ => Nat.lt_of_le_of_ne)
    (List.nodup_dedup _)

theorem sortOffsets_of_pairwise {offsets : List Nat} (h : offsets.Pairwise (· ≤ ·)) :
    sortOffsets offsets = offsets.dedup := by
  rw [sortOffsets_eq_dedup, List.mergeSort_of_pairwise (by simpa using h)]

/-! ## Markers taken out -/

variable {position : Nat} {c : Char} {cs : List Char}

theorem stripMarkersFrom_marker (position : Nat) (cs : List Char) :
    stripMarkersFrom position (marker :: cs)
      = ((stripMarkersFrom position cs).1, position :: (stripMarkersFrom position cs).2) := by
  rw [stripMarkersFrom, if_pos rfl]

theorem stripMarkersFrom_cons (h : c ≠ marker) (position : Nat) (cs : List Char) :
    stripMarkersFrom position (c :: cs)
      = (c :: (stripMarkersFrom (position + c.utf8Size) cs).1,
          (stripMarkersFrom (position + c.utf8Size) cs).2) := by
  rw [stripMarkersFrom, if_neg h]

/-- Characters that are no markers stay. -/
theorem stripMarkersFrom_append {before : List Char} (h : marker ∉ before) (position : Nat)
    (cs : List Char) :
    stripMarkersFrom position (before ++ cs)
      = (before ++ (stripMarkersFrom (position + byteLength before) cs).1,
          (stripMarkersFrom (position + byteLength before) cs).2) := by
  induction before generalizing position with
  | nil => rfl
  | cons c before ih =>
    obtain ⟨hc, hbefore⟩ := List.ne_and_not_mem_of_not_mem_cons h
    rw [List.cons_append, stripMarkersFrom_cons (Ne.symm hc), ih hbefore, byteLength_cons,
      Nat.add_assoc, List.cons_append]

theorem stripMarkersFrom_of_not_mem (h : marker ∉ cs) (position : Nat) :
    stripMarkersFrom position cs = (cs, []) := by
  simpa [stripMarkersFrom] using stripMarkersFrom_append h position []

theorem marker_not_mem_stripMarkersFrom (position : Nat) (cs : List Char) :
    marker ∉ (stripMarkersFrom position cs).1 := by
  induction cs generalizing position with
  | nil => exact List.not_mem_nil
  | cons c cs ih =>
    by_cases hc : c = marker
    · subst hc
      rw [stripMarkersFrom_marker]
      exact ih position
    · rw [stripMarkersFrom_cons hc]
      exact List.not_mem_cons_of_ne_of_not_mem (Ne.symm hc) (ih _)

/-- A marker has stood at a boundary of the text without markers. -/
theorem exists_cut_of_mem {o : Nat} (h : o ∈ (stripMarkersFrom position cs).2) :
    ∃ before after, (stripMarkersFrom position cs).1 = before ++ after ∧
      position + byteLength before = o := by
  induction cs generalizing position with
  | nil => exact absurd h List.not_mem_nil
  | cons c cs ih =>
    by_cases hc : c = marker
    · subst hc
      rw [stripMarkersFrom_marker] at h ⊢
      obtain rfl | h := List.mem_cons.1 h
      · exact ⟨[], _, rfl, rfl⟩
      · exact ih h
    · rw [stripMarkersFrom_cons hc] at h ⊢
      obtain ⟨before, after, heq, ho⟩ := ih h
      exact ⟨c :: before, after, congrArg (c :: ·) heq, by rw [byteLength_cons, ← ho]; omega⟩

theorem le_of_mem_stripMarkersFrom {o : Nat} (h : o ∈ (stripMarkersFrom position cs).2) :
    position ≤ o := by
  obtain ⟨before, -, -, rfl⟩ := exists_cut_of_mem h
  exact Nat.le_add_right _ _

theorem stripMarkersFrom_pairwise (position : Nat) (cs : List Char) :
    (stripMarkersFrom position cs).2.Pairwise (· ≤ ·) := by
  induction cs generalizing position with
  | nil => exact .nil
  | cons c cs ih =>
    by_cases hc : c = marker
    · subst hc
      rw [stripMarkersFrom_marker]
      exact List.pairwise_cons.2 ⟨fun _ => le_of_mem_stripMarkersFrom, ih position⟩
    · rw [stripMarkersFrom_cons hc]
      exact ih _

/-- Where a character stands that is no marker, no marker has stood behind it at its start. -/
theorem not_mem_of_ne_marker (position : Nat) (cs : List Char) (h : c ≠ marker) :
    position ∉ (stripMarkersFrom position (c :: cs)).2 := by
  rw [stripMarkersFrom_cons h]
  intro hmem
  have hle := le_of_mem_stripMarkersFrom hmem
  have hpos := c.utf8Size_pos
  omega

/-- The text without its markers and their offsets tell the text. -/
theorem stripMarkersFrom_injective (position : Nat) :
    Function.Injective (stripMarkersFrom position) := by
  intro cs
  induction cs generalizing position with
  | nil =>
    rintro (_ | ⟨d, ds⟩) h
    · rfl
    · by_cases hd : d = marker
      · simp [hd, stripMarkersFrom] at h
      · simp [hd, stripMarkersFrom] at h
  | cons c cs ih =>
    rintro (_ | ⟨d, ds⟩) h
    · by_cases hc : c = marker
      · simp [hc, stripMarkersFrom] at h
      · simp [hc, stripMarkersFrom] at h
    -- a marker at the start of one text only would be missing among the offsets of the other
    by_cases hc : c = marker <;> by_cases hd : d = marker
    · subst hc hd
      rw [stripMarkersFrom_marker, stripMarkersFrom_marker] at h
      simp only [Prod.mk.injEq, List.cons.injEq, true_and] at h
      rw [ih position (Prod.ext h.1 h.2)]
    · refine absurd ?_ (not_mem_of_ne_marker position ds hd)
      rw [← h, hc, stripMarkersFrom_marker]
      exact .head _
    · refine absurd ?_ (not_mem_of_ne_marker position cs hc)
      rw [h, hd, stripMarkersFrom_marker]
      exact .head _
    · rw [stripMarkersFrom_cons hc, stripMarkersFrom_cons hd] at h
      simp only [Prod.mk.injEq, List.cons.injEq] at h
      obtain ⟨⟨rfl, hclean⟩, hoffsets⟩ := h
      rw [ih _ (Prod.ext hclean hoffsets)]

/-! ## Markers put in -/

/-- A text up to an offset that is behind another one is a slice iff the offset is a boundary. -/
theorem isBoundary_iff_slice? {done rest : List Char} {o : Nat} (hle : byteLength done ≤ o) :
    IsBoundary (done ++ rest) o ↔
      ∃ chunk, slice? (done ++ rest) (byteLength done) o = some chunk := by
  constructor
  · intro h
    obtain ⟨before, after, heq, rfl⟩ := isBoundary_iff.1 h
    obtain ⟨chunk, rfl, rfl⟩ := exists_between heq hle
    rw [byteLength_append]
    exact ⟨chunk, slice?_append done chunk after⟩
  · rintro ⟨chunk, h⟩
    obtain ⟨before, after, heq, hbefore, rfl⟩ := slice?_eq_some_iff.1 h
    rw [heq]
    refine isBoundary_iff.2 ⟨before ++ chunk, after, (List.append_assoc ..).symm, ?_⟩
    rw [byteLength_append, hbefore]

/-- What has been put in comes out again, but for the offsets that are no boundaries. -/
theorem strip_insertMarkersFrom (done : List Char) {rest : List Char} {offsets : List Nat}
    (hrest : marker ∉ rest) (hsorted : offsets.Pairwise (· ≤ ·))
    (hle : ∀ o ∈ offsets, byteLength done ≤ o) :
    stripMarkersFrom (byteLength done) (insertMarkersFrom (done ++ rest) (byteLength done) offsets)
      = (rest, offsets.filter fun o => IsBoundary (done ++ rest) o) := by
  induction offsets generalizing done rest with
  | nil =>
    rw [insertMarkersFrom, sliceFrom?_append, Option.getD_some,
      stripMarkersFrom_of_not_mem hrest, List.filter_nil]
  | cons o offsets ih =>
    obtain ⟨ho, hle⟩ := List.forall_mem_cons.1 hle
    obtain ⟨hfirst, hlater⟩ := List.pairwise_cons.1 hsorted
    rw [insertMarkersFrom]
    cases hslice : slice? (done ++ rest) (byteLength done) o with
    | some chunk =>
      have hboundary := (isBoundary_iff_slice? ho).2 ⟨chunk, hslice⟩
      obtain ⟨before, after, heq, hbefore, hchunk⟩ := slice?_eq_some_iff.1 hslice
      obtain ⟨rfl, rfl⟩ := append_inj_of_byteLength heq hbefore.symm
      obtain rfl : byteLength (done ++ chunk) = o := by rw [byteLength_append, hchunk]
      rw [← List.append_assoc] at hboundary ⊢
      have hin := List.mem_append.not.1 hrest
      rw [not_or] at hin
      -- the marker stands behind the characters up to the offset
      rw [stripMarkersFrom_append hin.1, ← byteLength_append, stripMarkersFrom_marker,
        ih _ hin.2 hlater hfirst, List.filter_cons_of_pos (by simpa using hboundary)]
    | none =>
      have hboundary : ¬ IsBoundary (done ++ rest) o := by
        rw [isBoundary_iff_slice? ho, hslice]
        simp
      rw [ih done hrest hlater hle, List.filter_cons_of_neg (by simpa using hboundary)]

theorem stripMarkers_insertMarkers {text : String} (h : marker ∉ text.toList)
    (offsets : List Nat) :
    stripMarkers (insertMarkers text offsets)
      = (text, (sortOffsets offsets).filter fun o => IsBoundary text.toList o) := by
  have hsorted := (sortOffsets_pairwise offsets).imp Nat.le_of_lt
  have hstrip := strip_insertMarkersFrom [] h hsorted fun _ _ => Nat.zero_le _
  rw [byteLength_nil, List.nil_append] at hstrip
  rw [stripMarkers, insertMarkers, String.toList_ofList, hstrip]
  simp only [String.ofList_toList]

/-! ## Markers taken out and put back -/

/-- Two neighbours are not both markers. -/
def NotBothMarkers (c d : Char) : Prop := ¬ (c = marker ∧ d = marker)

instance : DecidableRel NotBothMarkers := fun _ _ => inferInstanceAs (Decidable (¬ (_ ∧ _)))

/-- The text with one marker in the place of every run of adjacent markers. -/
def collapseMarkers (text : String) : String := String.ofList (text.toList.destutter NotBothMarkers)

/-- With one marker for every run of them, each offset is left once. -/
theorem stripMarkersFrom_destutter (position : Nat) (c : Char) (cs : List Char) :
    stripMarkersFrom position (cs.destutter' NotBothMarkers c)
      = ((stripMarkersFrom position (c :: cs)).1,
          (stripMarkersFrom position (c :: cs)).2.dedup) := by
  induction cs generalizing position c with
  | nil =>
    by_cases hc : c = marker
    · simp [hc, stripMarkersFrom]
    · simp [hc, stripMarkersFrom]
  | cons d cs ih =>
    by_cases hc : c = marker
    · subst hc
      by_cases hd : d = marker
      · -- the second marker of a run is left out
        subst hd
        rw [List.destutter'_cons_neg _ (by simp [NotBothMarkers]), ih]
        simp only [stripMarkersFrom_marker]
        rw [List.dedup_cons_of_mem (.head _)]
      · rw [List.destutter'_cons_pos _ (by simp [NotBothMarkers, hd])]
        rw [stripMarkersFrom_marker, stripMarkersFrom_marker, ih,
          List.dedup_cons_of_notMem (not_mem_of_ne_marker _ _ hd)]
    · rw [List.destutter'_cons_pos _ (by simp [NotBothMarkers, hc])]
      rw [stripMarkersFrom_cons hc, stripMarkersFrom_cons hc, ih]

theorem stripMarkers_collapseMarkers (text : String) :
    stripMarkers (collapseMarkers text) = ((stripMarkers text).1, (stripMarkers text).2.dedup) := by
  unfold stripMarkers collapseMarkers
  rw [String.toList_ofList]
  cases text.toList with
  | nil => rfl
  | cons c cs => rw [List.destutter_cons', stripMarkersFrom_destutter]

theorem stripMarkers_injective : Function.Injective stripMarkers := by
  intro s t h
  unfold stripMarkers at h
  simp only [Prod.mk.injEq, String.ofList_inj] at h
  exact String.toList_inj.1 (stripMarkersFrom_injective 0 (Prod.ext h.1 h.2))

/-- **Markers.**  For a text without markers, what is put in at some offsets comes out again: the
text and those of the offsets that are character boundaries of it, in order and each once.  The
markers that are taken out of a text can be put back: that gives the text, with one marker for every
run of adjacent ones. -/
theorem markers_roundTrip :
    (∀ (text : String) (offsets : List Nat), marker ∉ text.toList →
      ∃ found, stripMarkers (insertMarkers text offsets) = (text, found) ∧
        found.Pairwise (· < ·) ∧
        ∀ o, o ∈ found ↔ o ∈ offsets ∧ IsBoundary text.toList o) ∧
    ∀ text, insertMarkers (stripMarkers text).1 (stripMarkers text).2 = collapseMarkers text := by
  constructor
  · intro text offsets h
    refine ⟨_, stripMarkers_insertMarkers h offsets, (sortOffsets_pairwise offsets).filter _, ?_⟩
    intro o
    rw [List.mem_filter, mem_sortOffsets, decide_eq_true_eq]
  · intro text
    -- both texts have the same characters and the same offsets of markers
    apply stripMarkers_injective
    have hclean : marker ∉ (stripMarkers text).1.toList := by
      simpa [stripMarkers] using marker_not_mem_stripMarkersFrom 0 text.toList
    have hboundary : ∀ o ∈ (stripMarkers text).2.dedup,
        IsBoundary (stripMarkers text).1.toList o := by
      intro o ho
      obtain ⟨before, after, heq, hlength⟩ := exists_cut_of_mem (List.mem_dedup.1 ho)
      refine isBoundary_iff.2 ⟨before, after, ?_, by rw [← hlength, Nat.zero_add]⟩
      simpa [stripMarkers] using heq
    have hsorted : (stripMarkers text).2.Pairwise (· ≤ ·) := stripMarkersFrom_pairwise 0 text.toList
    rw [stripMarkers_insertMarkers hclean, stripMarkers_collapseMarkers,
      sortOffsets_of_pairwise hsorted,
      List.filter_eq_self.2 fun o ho => decide_eq_true (hboundary o ho)]

/-- Offsets in no order, one of them twice, one in the middle of a character and one behind the end
of the text; and two markers at one place. -/
theorem markers_roundTrip_twoBytes : marker ∉ "aéb".toList ∧
    (∃ found, stripMarkers (insertMarkers "aéb" [4, 1, 9, 2, 1]) = ("aéb", found) ∧
      found.Pairwise (· < ·) ∧
      ∀ o, o ∈ found ↔ o ∈ [4, 1, 9, 2, 1] ∧ IsBoundary "aéb".toList o) ∧
    stripMarkers "↓↓a↓é" = ("aé", [0, 0, 1]) ∧ insertMarkers "aé" [0, 0, 1] = "↓a↓é" := by
  have hclean : marker ∉ "aéb".toList := by decide +kernel
  have hstrip : stripMarkers "↓↓a↓é" = ("aé", [0, 0, 1]) := by decide +kernel
  refine ⟨hclean, markers_roundTrip.1 "aéb" [4, 1, 9, 2, 1] hclean, hstrip, ?_⟩
  have hback := markers_roundTrip.2 "↓↓a↓é"
  rw [hstrip] at hback
  exact hback.trans (by decide +kernel)

end PropertyLint
