/-
# Which fixes are accepted together

Diagnostics are taken one after the other, and a fix is accepted as a whole if none of its edits
conflicts with an accepted one.  What one step preserves (`FixAll.Selects.add`) holds after all of
them: every diagnostic is fixed or pending, and a pending one has no fix or one that conflicts with
the accepted edits.  If every single fix can be applied, so can all accepted ones at once
(`exists_apply_fixAll`).

Sorting is stable, so the order in which diagnostics are given matters only among those about one
rule at one range (`Diagnostic.mergeSort_eq_of_filter`).  `fixAll_selects` puts this together.
-/
import PropertyLint.Fix.Provider
import PropertyLint.Proofs.Fix.Applicable
import PropertyLint.Proofs.Lint.Order

namespace PropertyLint

/-! ## Conflicts with accepted edits -/

namespace CodeFix

variable {fix : CodeFix} {edits : List TextEdit}

theorem conflictsWith_append (more : List TextEdit) (h : fix.conflictsWith edits = true) :
    fix.conflictsWith (edits ++ more) = true := by
  unfold conflictsWith at *
  obtain ⟨a, ha, h⟩ := List.any_eq_true.1 h
  refine List.any_eq_true.2 ⟨a, ha, ?_⟩
  rw [List.any_append, h, Bool.true_or]

theorem apart_of_conflictsWith_eq_false (h : fix.conflictsWith edits = false) {a b : TextEdit}
    (ha : a ∈ fix.edits) (hb : b ∈ edits) : a.Apart b := by
  unfold conflictsWith at h
  rw [List.any_eq_false] at h
  have h := h a ha
  rw [Bool.not_eq_true, List.any_eq_false] at h
  simpa [TextEdit.Apart] using h b hb

end CodeFix

/-! ## One diagnostic after the other -/

/-- The edits of the fix for a diagnostic, if it has one. -/
def editsFor (tree : SyntaxTree) (d : Diagnostic) : List TextEdit :=
  ((proposeFix d tree).map CodeFix.edits).getD []

/-- The diagnostics have been taken: all of them are fixed or pending, the edits are those of the
fixed ones, and a pending one has no fix or a fix that conflicts with the edits. -/
structure FixAll.Selects (all : FixAll) (tree : SyntaxTree) (ds : List Diagnostic) : Prop where
  perm : (all.fixed ++ all.pending).Perm ds
  proposed : ∀ d ∈ all.fixed, (proposeFix d tree).isSome = true
  edits : all.edits = all.fixed.flatMap (editsFor tree)
  conflicting : ∀ d ∈ all.pending, ∀ fix, proposeFix d tree = some fix →
    fix.conflictsWith all.edits = true

namespace FixAll

variable {tree : SyntaxTree} {all : FixAll} {ds : List Diagnostic}

/-- A diagnostic is accepted with its fix, or it is left pending. -/
theorem add_cases (tree : SyntaxTree) (all : FixAll) (d : Diagnostic) :
    (∃ fix, proposeFix d tree = some fix ∧ fix.conflictsWith all.edits = false ∧
      all.add tree d =
        { all with edits := all.edits ++ fix.edits, fixed := all.fixed ++ [d] }) ∨
    (∀ fix, proposeFix d tree = some fix → fix.conflictsWith all.edits = true) ∧
      all.add tree d = { all with pending := all.pending ++ [d] } := by
  cases hfix : proposeFix d tree with
  | none => exact .inr ⟨by simp, by simp only [add, hfix]⟩
  | some fix =>
    cases hconflict : fix.conflictsWith all.edits with
    | true => exact .inr ⟨by simpa using hconflict, by simp [add, hfix, hconflict]⟩
    | false => exact .inl ⟨fix, rfl, hconflict, by simp [add, hfix, hconflict]⟩

theorem selects_nil (tree : SyntaxTree) : ({} : FixAll).Selects tree [] :=
  ⟨.refl _, List.forall_mem_nil _, rfl, List.forall_mem_nil _⟩

theorem Selects.add (h : all.Selects tree ds) (d : Diagnostic) :
    (all.add tree d).Selects tree (ds ++ [d]) := by
  obtain ⟨fix, hfix, -, heq⟩ | ⟨hconflict, heq⟩ := add_cases tree all d
  · rw [heq]
    refine ⟨?_, ?_, ?_, ?_⟩
    · -- the new diagnostic stands behind the fixed ones, in front of the pending ones
      have hmiddle : (all.fixed ++ [d] ++ all.pending).Perm (all.fixed ++ all.pending ++ [d]) := by
        rw [List.append_assoc, List.append_assoc]
        exact List.perm_append_comm.append_left _
      exact hmiddle.trans (h.perm.append_right _)
    · exact List.forall_mem_append.2 ⟨h.proposed, List.forall_mem_singleton.2 (by simp [hfix])⟩
    · simp [h.edits, editsFor, hfix]
    · exact fun d' hd' fix' hfix' => CodeFix.conflictsWith_append _ (h.conflicting d' hd' fix' hfix')
  · rw [heq]
    refine ⟨?_, h.proposed, h.edits, ?_⟩
    · rw [← List.append_assoc]
      exact h.perm.append_right _
    · exact List.forall_mem_append.2 ⟨h.conflicting, List.forall_mem_singleton.2 hconflict⟩

theorem Selects.foldl (h : all.Selects tree ds) (es : List Diagnostic) :
    (es.foldl (FixAll.add tree) all).Selects tree (ds ++ es) := by
  induction es generalizing all ds with
  | nil => rwa [List.append_nil]
  | cons d es ih =>
    have hstep := ih (h.add d)
    rwa [List.append_assoc, List.singleton_append] at hstep

/-- No two accepted edits conflict, if those of every single fix do not. -/
theorem apart_add {d : Diagnostic} (h : all.edits.Pairwise TextEdit.Apart)
    (hfix : ∀ fix, proposeFix d tree = some fix → ¬ HasConflict fix.edits) :
    (all.add tree d).edits.Pairwise TextEdit.Apart := by
  obtain ⟨fix, hproposed, hconflict, heq⟩ | ⟨-, heq⟩ := add_cases tree all d
  · rw [heq]
    refine List.pairwise_append.2 ⟨h, not_hasConflict_iff.1 (hfix fix hproposed), ?_⟩
    intro a ha b hb
    exact symm (CodeFix.apart_of_conflictsWith_eq_false hconflict hb ha)
  · rwa [heq]

theorem apart_foldl {es : List Diagnostic} (h : all.edits.Pairwise TextEdit.Apart)
    (hfix : ∀ d ∈ es, ∀ fix, proposeFix d tree = some fix → ¬ HasConflict fix.edits) :
    (es.foldl (FixAll.add tree) all).edits.Pairwise TextEdit.Apart := by
  induction es generalizing all with
  | nil => exact h
  | cons d es ih =>
    exact ih (apart_add h (hfix d (.head _))) fun d' hd' => hfix d' (.tail _ hd')

/-- Every accepted edit belongs to the fix for one of the diagnostics. -/
theorem Selects.exists_fix (h : all.Selects tree ds) {e : TextEdit} (he : e ∈ all.edits) :
    ∃ d ∈ ds, ∃ fix, proposeFix d tree = some fix ∧ e ∈ fix.edits := by
  rw [h.edits] at he
  obtain ⟨d, hd, he⟩ := List.mem_flatMap.1 he
  obtain ⟨fix, hfix⟩ := Option.isSome_iff_exists.1 (h.proposed d hd)
  refine ⟨d, h.perm.mem_iff.1 (List.mem_append_left _ hd), fix, hfix, ?_⟩
  simpa [editsFor, hfix] using he

end FixAll

/-! ## The order of the diagnostics -/

namespace Diagnostic

/-- The diagnostic is about the rule at the range. -/
def isAbout (d : Diagnostic) (r : OffsetRange) (rule : Rule) : Bool :=
  d.range == r && d.rule == rule

theorem isAbout_iff {d : Diagnostic} {r : OffsetRange} {rule : Rule} :
    d.isAbout r rule = true ↔ d.range = r ∧ d.rule = rule := by
  simp [isAbout]

theorem le_iff {d e : Diagnostic} : d.le e = true ↔
    d.range.start < e.range.start ∨ d.range.start = e.range.start ∧
      (d.range.stop < e.range.stop ∨ d.range.stop = e.range.stop ∧
        d.rule.number ≤ e.rule.number) := by
  have hrange : d.range = e.range ↔
      d.range.start = e.range.start ∧ d.range.stop = e.range.stop := by
    cases d.range
    cases e.range
    simp
  simp only [le, OffsetRange.lt, Bool.or_eq_true, Bool.and_eq_true, decide_eq_true_eq, beq_iff_eq,
    hrange]
  omega

theorem le_total (d e : Diagnostic) : (d.le e || e.le d) = true := by
  rw [Bool.or_eq_true, le_iff, le_iff]
  omega

theorem le_trans (d e f : Diagnostic) (hde : d.le e = true) (hef : e.le f = true) :
    d.le f = true := by
  rw [le_iff] at *
  omega

theorem le_antisymm {d e : Diagnostic} (hde : d.le e = true) (hed : e.le d = true) :
    d.range = e.range ∧ d.rule = e.rule := by
  rw [le_iff] at hde hed
  refine ⟨?_, Rule.number_inj (by omega)⟩
  cases hd : d.range
  cases he : e.range
  simp only [hd, he, OffsetRange.mk.injEq] at *
  omega

theorem le_of_isAbout {d e : Diagnostic} {r : OffsetRange} {rule : Rule}
    (hd : d.isAbout r rule = true) (he : e.isAbout r rule = true) : d.le e = true := by
  obtain ⟨rfl, rfl⟩ := isAbout_iff.1 hd
  obtain ⟨hrange, hrule⟩ := isAbout_iff.1 he
  rw [le_iff, hrange, hrule]
  omega

/-- Sorting keeps the order among diagnostics about one rule at one range. -/
theorem filter_mergeSort (ds : List Diagnostic) (r : OffsetRange) (rule : Rule) :
    (ds.mergeSort le).filter (·.isAbout r rule) = ds.filter (·.isAbout r rule) := by
  have hsorted : (ds.filter (·.isAbout r rule)).Pairwise fun d e => d.le e = true := by
    refine List.pairwise_of_forall_mem_list fun d hd e he => ?_
    exact le_of_isAbout (List.mem_filter.1 hd).2 (List.mem_filter.1 he).2
  have hsub := (List.sublist_mergeSort le_trans le_total hsorted List.filter_sublist).filter
    (·.isAbout r rule)
  simp only [List.filter_filter, Bool.and_self] at hsub
  exact (hsub.eq_of_length ((List.mergeSort_perm ds le).filter _).length_eq.symm).symm

theorem isAbout_self (d : Diagnostic) : d.isAbout d.range d.rule = true :=
  isAbout_iff.2 ⟨rfl, rfl⟩

theorem mem_of_filter_isAbout {ds es : List Diagnostic} {d : Diagnostic}
    (h : ∀ r rule, ds.filter (·.isAbout r rule) = es.filter (·.isAbout r rule)) (hd : d ∈ ds) :
    d ∈ es := by
  have hd : d ∈ ds.filter (·.isAbout d.range d.rule) := List.mem_filter.2 ⟨hd, d.isAbout_self⟩
  rw [h] at hd
  exact (List.mem_filter.1 hd).1

/-- The first one of a sorted list comes before all of the list. -/
theorem le_of_mem_sorted {d e : Diagnostic} {es : List Diagnostic}
    (hes : (e :: es).Pairwise fun a b => a.le b = true) (hd : d ∈ e :: es) : e.le d = true := by
  rcases List.mem_cons.1 hd with rfl | hd
  · exact le_of_isAbout d.isAbout_self d.isAbout_self
  · exact List.rel_of_pairwise_cons hes hd

/-- Two sorted lists in which the diagnostics about each rule at each range are the same. -/
theorem eq_of_sorted_of_filter {ds es : List Diagnostic}
    (hds : ds.Pairwise fun d e => d.le e = true) (hes : es.Pairwise fun d e => d.le e = true)
    (h : ∀ r rule, ds.filter (·.isAbout r rule) = es.filter (·.isAbout r rule)) : ds = es := by
  induction ds generalizing es with
  | nil =>
    refine (List.eq_nil_iff_forall_not_mem.2 fun x hx => ?_).symm
    exact absurd (mem_of_filter_isAbout (fun r rule => (h r rule).symm) hx) List.not_mem_nil
  | cons d ds ih =>
    obtain _ | ⟨e, es⟩ := es
    · exact absurd (mem_of_filter_isAbout h (.head _)) List.not_mem_nil
    -- the first elements come before each other, so they are about one rule at one range
    have hde : d.le e = true :=
      le_of_mem_sorted hds (mem_of_filter_isAbout (fun r rule => (h r rule).symm) (.head _))
    have hed : e.le d = true := le_of_mem_sorted hes (mem_of_filter_isAbout h (.head _))
    obtain ⟨hrange, hrule⟩ := le_antisymm hde hed
    have he : e.isAbout d.range d.rule = true := isAbout_iff.2 ⟨hrange.symm, hrule.symm⟩
    have hfirst := h d.range d.rule
    simp only [List.filter_cons, d.isAbout_self, he, if_true] at hfirst
    obtain ⟨rfl, -⟩ := List.cons.inj hfirst
    refine congrArg (d :: ·) (ih hds.tail hes.tail fun r rule => ?_)
    have hrest := h r rule
    rw [List.filter_cons, List.filter_cons] at hrest
    split at hrest
    · exact (List.cons.inj hrest).2
    · exact hrest

/-- Lists with the same diagnostics, in the same order about each rule at each range, are sorted
alike. -/
theorem mergeSort_eq_of_filter {ds es : List Diagnostic}
    (h : ∀ r rule, ds.filter (·.isAbout r rule) = es.filter (·.isAbout r rule)) :
    ds.mergeSort le = es.mergeSort le := by
  refine eq_of_sorted_of_filter (List.pairwise_mergeSort le_trans le_total ds)
    (List.pairwise_mergeSort le_trans le_total es) fun r rule => ?_
  rw [filter_mergeSort, filter_mergeSort, h]

end Diagnostic

/-! ## All diagnostics -/

section
variable {tree : SyntaxTree} {ds : List Diagnostic}

theorem selects_fixAll (ds : List Diagnostic) (tree : SyntaxTree) :
    (fixAll ds tree).Selects tree ds := by
  have h := (FixAll.selects_nil tree).foldl (ds.mergeSort Diagnostic.le)
  exact ⟨h.perm.trans (List.mergeSort_perm ds _), h.proposed, h.edits, h.conflicting⟩

/-- The accepted fixes can be applied at once, if every single fix can be applied. -/
theorem exists_apply_fixAll
    (hfixes : ∀ d ∈ ds, ∀ fix, proposeFix d tree = some fix → fix.Applicable tree.chars) :
    ∃ s, (fixAll ds tree).apply tree.text = .ok s := by
  refine (exists_applyEdits_iff fun e he => ?_).2 (not_hasConflict_iff.2 ?_)
  · obtain ⟨d, hd, fix, hfix, he⟩ := (selects_fixAll ds tree).exists_fix he
    exact (hfixes d hd fix hfix).liesIn e he
  · refine FixAll.apart_foldl .nil fun d hd fix hfix => ?_
    exact (hfixes d ((List.mergeSort_perm ds _).mem_iff.1 hd) fix hfix).apart

/-- **Accepting fixes.**  All diagnostics are fixed or pending, and the edits are those of the fixed
ones; a pending one has no fix or a fix that conflicts with the edits.  The edits can be applied at
once if every single fix can be applied.  The order of the diagnostics makes no difference, except
among those about one rule at one range. -/
theorem fixAll_selects
    (hfixes : ∀ d ∈ ds, ∀ fix, proposeFix d tree = some fix → fix.Applicable tree.chars) :
    (fixAll ds tree).Selects tree ds ∧ (∃ s, (fixAll ds tree).apply tree.text = .ok s) ∧
      ∀ es : List Diagnostic,
        (∀ r rule, es.filter (·.isAbout r rule) = ds.filter (·.isAbout r rule)) →
        fixAll es tree = fixAll ds tree := by
  refine ⟨selects_fixAll ds tree, exists_apply_fixAll hfixes, fun es h => ?_⟩
  rw [fixAll, fixAll, Diagnostic.mergeSort_eq_of_filter h]

end

/-! ## Two names for one field -/

/-- A class with one field. -/
def oneField : String := "class A\x7bint B;\x7d"

/-- The diagnostic that asks for another name of the field. -/
def renameTo (name : String) : Diagnostic where
  rule := .backingFieldName
  severity := .warning
  location := ⟨0, ⟨12, 13⟩⟩
  message := "Field 'B' must be named '" ++ name ++ "'"
  args := ["B", name]
  properties := [("ExpectedName", name)]

/-- The fix with the new name of the field. -/
def renamingTo (name : String) : CodeFix :=
  .replace ("Rename to: '" ++ name ++ "'") ⟨12, 13⟩ name

/-- Of two names for one field, the first one is given, and the second one is left pending. -/
theorem fixAll_oneField : ∃ t, SyntaxTree.parse 0 oneField = .ok t ∧
    fixAll [renameTo "C", renameTo "D"] t =
      ⟨(renamingTo "C").edits, [renameTo "C"], [renameTo "D"]⟩ ∧
    (fixAll [renameTo "C", renameTo "D"] t).Selects t [renameTo "C", renameTo "D"] ∧
    (∃ s, (fixAll [renameTo "C", renameTo "D"] t).apply t.text = .ok s) ∧
      ∀ es : List Diagnostic,
        (∀ r rule, es.filter (·.isAbout r rule) =
          [renameTo "C", renameTo "D"].filter (·.isAbout r rule)) →
        fixAll es t = fixAll [renameTo "C", renameTo "D"] t := by
  have hfixes : ((SyntaxTree.parse 0 oneField).toOption.map fun t =>
      [renameTo "C", renameTo "D"].map fun d => proposeFix d t) =
      some [some (renamingTo "C"), some (renamingTo "D")] := by
    decide +kernel
  obtain ⟨t, hread, hfixes⟩ := Option.map_eq_some_iff.1 hfixes
  rw [toOption_eq_some_iff] at hread
  simp only [List.map_cons, List.map_nil, List.cons.injEq, and_true] at hfixes
  obtain ⟨hfirst, hsecond⟩ := hfixes
  obtain ⟨-, -, htext⟩ := SyntaxTree.isRead_of_parse hread
  have happlicable (name : String) : (renamingTo name).Applicable t.chars := by
    refine ⟨List.forall_mem_singleton.2 ?_, not_hasConflict_iff.2 (List.pairwise_singleton _ _)⟩
    rw [SyntaxTree.chars, htext]
    exact (rfl : (slice? oneField.toList 12 13).isSome = true)
  refine ⟨t, hread, ?_, fixAll_selects ?_⟩
  · have hsorted : [renameTo "C", renameTo "D"].mergeSort Diagnostic.le =
        [renameTo "C", renameTo "D"] := List.mergeSort_of_pairwise (by decide)
    rw [fixAll, hsorted]
    simp only [List.foldl_cons, List.foldl_nil, FixAll.add, hfirst, hsecond]
    rfl
  · simp only [List.forall_mem_cons, hfirst, hsecond, Option.some.injEq]
    exact ⟨fun _ h => h ▸ happlicable "C", fun _ h => h ▸ happlicable "D", List.forall_mem_nil _⟩

end PropertyLint
