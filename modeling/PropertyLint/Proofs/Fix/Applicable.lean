/-
# Fixes that can be applied

Whatever a diagnostic says, the edits of a fix for it lie in the text on character boundaries.  Most
fixes have one edit; the one that moves a member takes its lines out and puts them in further up,
in front of another member.  That one starts above the lines, and above the blank line that is taken
out with them (`lt_linesToRemove_of_lt`), so the two edits do not conflict, unless the member is to
be moved in front of itself (`proposeFix_apply_iff`).
-/
import PropertyLint.Fix.Provider
import PropertyLint.Proofs.Syntax.DocComment
import PropertyLint.Proofs.Text.Lines

namespace PropertyLint

/-! ## Fixes by themselves -/

/-- The edits of the fix lie in the text on character boundaries, and no two of them conflict. -/
structure CodeFix.Applicable (fix : CodeFix) (text : List Char) : Prop where
  liesIn : ∀ e ∈ fix.edits, e.range.LiesIn text
  apart : ¬ HasConflict fix.edits

/-- Edits that lie in the text can be applied iff no two of them conflict. -/
theorem exists_applyEdits_iff {text : String} {edits : List TextEdit}
    (hin : ∀ e ∈ edits, e.range.LiesIn text.toList) :
    (∃ s, applyEdits text edits = .ok s) ↔ ¬ HasConflict edits := by
  have hordered : ∀ e ∈ edits, e.range.Ordered := fun e he => (hin e he).ordered
  constructor
  · rintro ⟨s, hok⟩ hconflict
    obtain ⟨r, r', herror⟩ := (applyEdits_eq_overlapping_iff hordered).2 hconflict
    exact absurd (hok.symm.trans herror) (by simp)
  · intro hapart
    obtain ⟨result, hok, -⟩ := exists_applyEdits_eq_ok hordered hapart hin
    exact ⟨_, hok⟩

theorem CodeFix.applicable_replace {text : List Char} {r : OffsetRange} (h : r.LiesIn text)
    (label newText : String) : (CodeFix.replace label r newText).Applicable text :=
  ⟨List.forall_mem_singleton.2 h, not_hasConflict_iff.2 (List.pairwise_singleton _ _)⟩

theorem liesIn_point {text : List Char} {offset : Nat} (h : IsBoundary text offset) :
    (OffsetRange.point offset).LiesIn text :=
  OffsetRange.liesIn_iff_isBoundary.2 ⟨Nat.le_refl _, h, h⟩

theorem CodeFix.applicable_insert {text : List Char} {offset : Nat} (h : IsBoundary text offset)
    (label newText : String) : (CodeFix.insert label offset newText).Applicable text :=
  CodeFix.applicable_replace (liesIn_point h) label newText

theorem Around.liesIn {cs before inside after : List Char} {r : OffsetRange}
    (h : Around cs r before inside after) : r.LiesIn cs :=
  OffsetRange.liesIn_iff.2 ⟨before, inside, after, h.chars, h.start.symm, h.stop.symm⟩

variable {d : Diagnostic} {t : SyntaxTree} {fix : CodeFix}

/-! ## Fixes with one edit -/

section
variable (ht : t.IsRead)
include ht

theorem rename_applicable (hfix : Fix.rename d t = some fix) : fix.Applicable t.chars := by
  simp [Fix.rename, Option.bind_eq_some_iff] at hfix
  obtain ⟨e, -, m, hm, -, rfl⟩ := hfix
  obtain ⟨before, inside, after, hplace⟩ := SyntaxTree.exists_namePlace ht hm
  rw [← SyntaxTree.range_of_memberNamedAt? hm] at hplace
  exact CodeFix.applicable_replace hplace.liesIn _ _

theorem changeType_applicable (hfix : Fix.changeType d t = some fix) : fix.Applicable t.chars := by
  simp [Fix.changeType, Fix.replaceUnlessEqual, Option.bind_eq_some_iff] at hfix
  obtain ⟨e, -, type, htype, -, rfl⟩ := hfix
  obtain ⟨hrange, before, inside, after, hplace⟩ := SyntaxTree.exists_typePlace ht htype
  rw [← hrange] at hplace
  exact CodeFix.applicable_replace hplace.liesIn _ _

theorem replaceArgument_applicable (hfix : Fix.replaceArgument d t = some fix) :
    fix.Applicable t.chars := by
  simp only [Fix.replaceArgument, Fix.replaceUnlessEqual, Option.bind_eq_bind,
    Option.bind_eq_some_iff, Option.ite_none_left_eq_some, Option.some.injEq] at hfix
  obtain ⟨e, -, a, ha, -, rfl⟩ := hfix
  obtain ⟨hrange, before, inside, after, hplace⟩ := SyntaxTree.exists_argumentPlace ht ha
  rw [← hrange] at hplace
  exact CodeFix.applicable_replace hplace.liesIn _ _

omit ht in
theorem addArgumentList_applicable (hfix : Fix.addArgumentList d t = some fix) :
    fix.Applicable t.chars := by
  simp [Fix.addArgumentList, Option.bind_eq_some_iff] at hfix
  obtain ⟨args, -, hempty, rfl⟩ := hfix
  obtain ⟨before, after, haround⟩ := Around.of_textOf hempty (by decide)
  exact CodeFix.applicable_replace haround.liesIn _ _

omit ht in
theorem addAttribute_applicable (hfix : Fix.addAttribute d t = some fix) :
    fix.Applicable t.chars := by
  simp [Fix.addAttribute, Option.bind_eq_some_iff] at hfix
  obtain ⟨text, -, m, -, name, -, -, -, rfl⟩ := hfix
  exact CodeFix.applicable_insert (lineStart_spec _ _).1 _ _

end

/-! ## Moving a member -/

section
variable {lines : OffsetRange}

theorem linesToRemove_spec (hstart : IsBoundary t.chars lines.start)
    (hstop : IsBoundary t.chars lines.stop) :
    IsBoundary t.chars (Fix.linesToRemove t lines).start ∧
      IsBoundary t.chars (Fix.linesToRemove t lines).stop ∧
      (Fix.linesToRemove t lines).start ≤ lines.start ∧
      lines.stop ≤ (Fix.linesToRemove t lines).stop := by
  obtain ⟨hnext, hbehind⟩ := lineRange_stop_spec t.chars lines.stop
  obtain ⟨hprevious, hle⟩ := lineStart_spec t.chars (lines.start - 1)
  have hend := hstop.le
  unfold Fix.linesToRemove
  dsimp only
  split
  · refine ⟨hstart, hnext, Nat.le_refl _, ?_⟩
    dsimp only
    omega
  · split
    · exact ⟨hprevious, hstop, Nat.le_trans hle (Nat.sub_le _ _), Nat.le_refl _⟩
    · exact ⟨hstart, hstop, Nat.le_refl _, Nat.le_refl _⟩

/-- What is not blank and stands in front of the lines stands in front of the blank line above. -/
theorem lt_linesToRemove {offset : Nat} (hvisible : VisibleAt t.chars 0 offset)
    (hstart : lines.start ≤ byteLength t.chars) (hlt : offset < lines.start) :
    offset < (Fix.linesToRemove t lines).start := by
  obtain ⟨hboundary, hle⟩ := lineStart_spec t.chars (lines.start - 1)
  obtain ⟨hend, hbehind⟩ := lineRange_stop_spec t.chars (lines.start - 1)
  unfold Fix.linesToRemove
  dsimp only
  split
  · exact hlt
  · split
    · rename_i hblank
      simp only [Fix.isBlankLine, Bool.and_eq_true] at hblank
      have hin : (lineRange t.chars (lines.start - 1)).LiesIn t.chars := by
        refine OffsetRange.liesIn_iff_isBoundary.2 ⟨?_, hboundary, hend⟩
        unfold OffsetRange.Ordered
        show lineStart _ _ ≤ _
        omega
      obtain ⟨inside, hslice⟩ := Option.isSome_iff_exists.1 hin
      have hall := hblank.2.2
      rw [SyntaxTree.textOf, hslice, Option.getD_some, String.toList_ofList] at hall
      exact lt_start_of_blank hvisible hslice hall (by omega)
    · exact hlt

end

/-- The lines of a member with its doc comment. -/
def Member.lines (m : Member) (t : SyntaxTree) : OffsetRange :=
  ⟨lineStart t.chars m.fullRange.start, (lineRange t.chars (m.fullRange.stop - 1)).stop⟩

theorem exists_of_moveMember (hfix : Fix.moveMember d t = some fix) :
    ∃ name decl key target, d.property? .moveBefore = some name ∧
      t.containingType? d.range = some decl ∧
      decl.ownMembers.find? (fun m => m.range == d.range) = some key ∧
      key.isFieldOrProperty = true ∧ decl.fieldOrProperty? name = some target ∧
      target.fullRange.start ≤ key.fullRange.start ∧
      startsLine t.chars key.fullRange.start = true ∧
      fix.edits = [.insert (lineStart t.chars target.fullRange.start)
          (Fix.movedText t (key.lines t)),
        .delete (Fix.linesToRemove t (key.lines t)).start
          (Fix.linesToRemove t (key.lines t)).stop] := by
  simp [Fix.moveMember, Option.bind_eq_some_iff] at hfix
  obtain ⟨name, hname, decl, hdecl, key, hkey, target, htarget, ⟨hfield, hle⟩, hline, rfl⟩ := hfix
  exact ⟨name, decl, key, target, hname, hdecl, hkey, hfield, htarget, hle, hline, rfl⟩

/-- The diagnostic asks to move the member at its range in front of itself. -/
def MovesToItself (d : Diagnostic) (t : SyntaxTree) : Prop :=
  d.rule = .keyDeclaredFirst ∧ ∃ name decl m, d.property? .moveBefore = some name ∧
    t.containingType? d.range = some decl ∧ decl.fieldOrProperty? name = some m ∧ m.range = d.range

theorem hasConflict_pair {a b : TextEdit} :
    HasConflict [a, b] ↔ a.range.conflicts b.range = true := by
  rw [← not_iff_not, not_hasConflict_iff, Bool.not_eq_true]
  simp [TextEdit.Apart]

theorem SyntaxTree.lines_spec {file : FileId} {text : String} {decl : TypeDecl} {m : Member}
    (h : parse file text = .ok t) (hdecl : decl ∈ t.types) (hm : m ∈ decl.members) :
    IsBoundary t.chars (m.lines t).start ∧ IsBoundary t.chars (m.lines t).stop ∧
      (m.lines t).start ≤ (m.lines t).stop := by
  obtain ⟨hstart, hle⟩ := lineStart_spec t.chars m.fullRange.start
  obtain ⟨hstop, hbehind⟩ := lineRange_stop_spec t.chars (m.fullRange.stop - 1)
  refine ⟨hstart, hstop, ?_⟩
  have hfits := ((wellNested_of_mem_types h hdecl).part
    (List.mem_append_right _ (List.mem_map_of_mem hm) : .member m ∈ _)).fits
  have hne : m.range.start < m.range.stop := hfits.nonempty
  have hfull := m.fullRange_start_le
  have hfull' := m.le_fullRange_stop
  have hend := hstart.le
  unfold Member.lines
  dsimp only
  omega

section
variable {file : FileId} {text : String} (h : SyntaxTree.parse file text = .ok t)
include h

/-- The member at the range of the diagnostic is moved in front of the one that is named. -/
theorem movesToItself_iff {decl : TypeDecl} {name : String} {key target : Member}
    (hrule : d.rule = .keyDeclaredFirst) (hname : d.property? .moveBefore = some name)
    (hdecl : t.containingType? d.range = some decl) (hkey : key ∈ decl.members)
    (hrange : key.range = d.range) (htarget : decl.fieldOrProperty? name = some target) :
    MovesToItself d t ↔ target = key := by
  constructor
  · rintro ⟨-, name', decl', m, hname', hdecl', hm, hmrange⟩
    obtain rfl : name = name' := Option.some.inj (hname.symm.trans hname')
    obtain rfl : decl = decl' := Option.some.inj (hdecl.symm.trans hdecl')
    obtain rfl : target = m := Option.some.inj (htarget.symm.trans hm)
    by_contra hne
    exact SyntaxTree.range_start_ne h (SyntaxTree.containingType?_mem hdecl)
      (List.mem_of_find?_eq_some htarget) hkey hne
      (congrArg OffsetRange.start (hmrange.trans hrange.symm))
  · rintro rfl
    exact ⟨hrule, name, decl, target, hname, hdecl, htarget, hrange⟩

/-- A member that starts in front of one that starts its line stands above the lines of that one,
and above the blank line that is removed with them. -/
theorem lt_linesToRemove_of_lt {decl : TypeDecl} {key target : Member} (hdecl : decl ∈ t.types)
    (htarget : target ∈ decl.members) (hline : startsLine t.chars key.fullRange.start = true)
    (hlt : target.fullRange.start < key.fullRange.start) :
    target.fullRange.start < (Fix.linesToRemove t (key.lines t)).start := by
  have hvisible : VisibleAt text.toList 0 target.fullRange.start :=
    SyntaxTree.visibleAt_fullRange h hdecl htarget
  obtain ⟨-, -, rfl⟩ := SyntaxTree.isRead_of_parse h
  obtain ⟨before, hslice, hblank⟩ := startsLine_iff.1 hline
  exact lt_linesToRemove hvisible (lineStart_spec _ _).1.le
    (lt_start_of_blank hvisible hslice hblank hlt)

/-- The two edits of a move conflict iff the member is moved in front of itself. -/
theorem moveMember_spec (hrule : d.rule = .keyDeclaredFirst)
    (hfix : Fix.moveMember d t = some fix) :
    (∀ e ∈ fix.edits, e.range.LiesIn t.chars) ∧ (HasConflict fix.edits ↔ MovesToItself d t) := by
  obtain ⟨name, decl, key, target, hname, hdecl, hkey, -, htarget, hle, hline, hedits⟩ :=
    exists_of_moveMember hfix
  have hmem := SyntaxTree.containingType?_mem hdecl
  have hkeyMem : key ∈ decl.members := (List.mem_filter.1 (List.mem_of_find?_eq_some hkey)).1
  have htargetMem : target ∈ decl.members := List.mem_of_find?_eq_some htarget
  have hrange : key.range = d.range := by simpa using List.find?_some hkey
  obtain ⟨hstart, hstop, hordered⟩ := SyntaxTree.lines_spec h hmem hkeyMem
  obtain ⟨hstart', hstop', hfront, hbehind⟩ := linesToRemove_spec hstart hstop
  obtain ⟨hinsert, hinsertLe⟩ := lineStart_spec t.chars target.fullRange.start
  rw [hedits]
  constructor
  · refine List.forall_mem_cons.2 ⟨liesIn_point hinsert, List.forall_mem_singleton.2 ?_⟩
    refine OffsetRange.liesIn_iff_isBoundary.2 ⟨?_, hstart', hstop'⟩
    exact Nat.le_trans hfront (Nat.le_trans hordered hbehind)
  · rw [hasConflict_pair, OffsetRange.conflicts_iff, if_pos (.inl rfl),
      movesToItself_iff h hrule hname hdecl hkeyMem hrange htarget]
    dsimp only [TextEdit.insert, TextEdit.delete, OffsetRange.point]
    constructor
    · rintro ⟨-, hconflict⟩
      by_contra hne
      have hlt := Nat.lt_of_le_of_ne hle fun heq =>
        hne (SyntaxTree.eq_of_fullRange_start h hmem htargetMem hkeyMem heq)
      have habove := lt_linesToRemove_of_lt h hmem htargetMem hline hlt
      omega
    · rintro rfl
      exact ⟨Nat.le_trans hordered hbehind, hfront⟩

end

/-! ## Every fix -/

theorem FixProvider.propose_applicable {p : FixProvider} (ht : t.IsRead)
    (hp : p ≠ .moveMember) (hfix : p.propose d t = some fix) : fix.Applicable t.chars := by
  cases p with
  | rename => exact rename_applicable ht hfix
  | changeType => exact changeType_applicable ht hfix
  | replaceArgument => exact replaceArgument_applicable ht hfix
  | addArgumentList => exact addArgumentList_applicable hfix
  | moveMember => exact absurd rfl hp
  | addAttribute => exact addAttribute_applicable hfix

/-- Diagnostics about keys are for one provider alone. -/
theorem FixProvider.keyDeclaredFirst_mem_rules {p : FixProvider} :
    .keyDeclaredFirst ∈ p.rules ↔ p = .moveMember := by
  cases p <;> simp [rules]

theorem exists_of_proposeFix (hfix : proposeFix d t = some fix) :
    ∃ p : FixProvider, d.rule ∈ p.rules ∧ p.propose d t = some fix := by
  unfold proposeFix at hfix
  rw [Option.ite_none_right_eq_some] at hfix
  obtain ⟨p, hp, hpropose⟩ := List.exists_of_findSome?_eq_some hfix.2
  exact ⟨p, List.contains_iff_mem.1 (List.mem_filter.1 hp).2, hpropose⟩

/-- **Applying a fix.**  The edits of every fix lie in the text on character boundaries.  They can
be applied, because no two of them conflict, unless the fix moves a member in front of itself. -/
theorem proposeFix_apply_iff {file : FileId} {text : String}
    (h : SyntaxTree.parse file text = .ok t) (hfix : proposeFix d t = some fix) :
    (∀ e ∈ fix.edits, e.range.LiesIn text.toList) ∧
      (HasConflict fix.edits ↔ MovesToItself d t) ∧
      ((∃ s, fix.apply text = .ok s) ↔ ¬ MovesToItself d t) := by
  obtain ⟨ht, -, rfl⟩ := SyntaxTree.isRead_of_parse h
  obtain ⟨p, hrule, hpropose⟩ := exists_of_proposeFix hfix
  obtain ⟨hin, hconflict⟩ : (∀ e ∈ fix.edits, e.range.LiesIn t.chars) ∧
      (HasConflict fix.edits ↔ MovesToItself d t) := by
    by_cases hp : p = .moveMember
    · subst hp
      exact moveMember_spec h (List.mem_singleton.1 hrule) hpropose
    · obtain ⟨hin, hapart⟩ := FixProvider.propose_applicable ht hp hpropose
      refine ⟨hin, iff_of_false hapart fun hmoves => ?_⟩
      rw [hmoves.1, FixProvider.keyDeclaredFirst_mem_rules] at hrule
      exact hp hrule
  exact ⟨hin, hconflict, (exists_applyEdits_iff hin).trans (not_congr hconflict)⟩

/-- A class whose only field stands on a line of its own. -/
def fieldOnLine : String := "class A\x7b\nint B;\n\x7d"

/-- The diagnostic that asks to move the field in front of itself. -/
def moveFieldToItself : Diagnostic where
  rule := .keyDeclaredFirst
  severity := .warning
  location := ⟨0, ⟨9, 15⟩⟩
  message := "Field 'B' must be declared before 'B'"
  args := ["B", "B"]
  properties := [("MoveBefore", "B")]

/-- The fix puts the line of the field in where it takes it out. -/
def movingFieldToItself : CodeFix where
  label := "Move 'B' before 'B'"
  edits := [.insert 9 "int B;\n\n", .delete 9 16]

/-- The fix for a field that is to be moved in front of itself cannot be applied. -/
theorem proposeFix_moves_to_itself : ∃ t, SyntaxTree.parse 0 fieldOnLine = .ok t ∧
    proposeFix moveFieldToItself t = some movingFieldToItself ∧
    (∀ e ∈ movingFieldToItself.edits, e.range.LiesIn fieldOnLine.toList) ∧
      (HasConflict movingFieldToItself.edits ∧ MovesToItself moveFieldToItself t) ∧
      ¬ ∃ s, movingFieldToItself.apply fieldOnLine = .ok s := by
  have hfix : ((SyntaxTree.parse 0 fieldOnLine).toOption.bind (proposeFix moveFieldToItself)) =
      some movingFieldToItself := by
    decide +kernel
  obtain ⟨t, hread, hfix⟩ := Option.bind_eq_some_iff.1 hfix
  rw [toOption_eq_some_iff] at hread
  obtain ⟨hin, hmoves, hok⟩ := proposeFix_apply_iff hread hfix
  have hconflict : HasConflict movingFieldToItself.edits := hasConflict_pair.2 (by decide)
  exact ⟨t, hread, hfix, hin, ⟨hconflict, hmoves.1 hconflict⟩, fun h => hok.1 h (hmoves.1 hconflict)⟩

end PropertyLint
