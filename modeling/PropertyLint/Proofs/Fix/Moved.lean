/-
# What moving a member does to a text

The fix that moves a member looks at lines.  It takes out all lines of the member and one blank line
next to them, and puts the lines in above the line on which the other member starts
(`proposeFix_moves_lines`).  What stands behind the member on its last line is moved with it, and
what stands in front of the other member on its line comes to stand between the two, a brace like
anything else (`proposeFix_moves_brace`).  What the new text means if there are only blanks at these
two places is shown in `PropertyLint.Proofs.Fix.MovedMember`.
-/
import PropertyLint.Proofs.Fix.Applicable
import PropertyLint.Proofs.Syntax.MemberEnd

namespace PropertyLint

/-! ## Taking lines out and putting them in above -/

/-- White space, with one line feed at most. -/
def IsGap (cs : List Char) : Prop := cs.all isBlank = true ∧ cs.count '\n' ≤ 1

/-- A text with a member on some of its lines and with another member further up, cut where the
lines of the one are taken out and where they are put in above the line of the other. -/
structure LineMove where
  /-- The lines above the line on which the other member starts. -/
  above : List Char
  /-- What stands in front of the other member on the line on which it starts. -/
  shared : List Char
  /-- What follows up to the lines that are taken out. -/
  between : List Char
  /-- A blank line above the lines of the member. -/
  gapAbove : List Char
  indent : List Char
  /-- The member with its doc comment. -/
  member : List Char
  /-- What stands behind the member on its last line. -/
  tail : List Char
  feed : List Char
  /-- A blank line below the lines of the member. -/
  gapBelow : List Char
  below : List Char

namespace LineMove

/-- The text up to the lines of the member. -/
def front (m : LineMove) : List Char := m.above ++ (m.shared ++ (m.between ++ m.gapAbove))

/-- The lines of the member. -/
def lines (m : LineMove) : List Char := m.indent ++ (m.member ++ (m.tail ++ m.feed))

/-- The text. -/
def before (m : LineMove) : List Char := m.front ++ (m.lines ++ (m.gapBelow ++ m.below))

/-- The text with the lines further up.  A blank line follows them there, and one is taken out with
them if there is one. -/
def after (m : LineMove) : List Char :=
  m.above ++ (m.indent ++ (m.member ++ (m.tail ++ ('\n' :: '\n' ::
    (m.shared ++ (m.between ++ m.below))))))

/-- The text is cut at the ends of lines, around the member `key` and in front of the member
`target`. -/
structure Fits (m : LineMove) (key target : Member) : Prop where
  target : target.fullRange.start = byteLength (m.above ++ m.shared)
  key : Around m.before key.fullRange (m.front ++ m.indent) m.member
    (m.tail ++ (m.feed ++ (m.gapBelow ++ m.below)))
  above : EndsLine m.above
  shared : '\n' ∉ m.shared
  between : EndsLine (m.above ++ (m.shared ++ m.between))
  front : EndsLine m.front
  indent : '\n' ∉ m.indent ∧ m.indent.all isBlank = true
  tail : '\n' ∉ m.tail
  feed : IsFeed m.feed (m.gapBelow ++ m.below)
  gapAbove : IsGap m.gapAbove
  gapBelow : IsGap m.gapBelow
  oneGap : m.gapAbove = [] ∨ m.gapBelow = []

end LineMove

theorem isGap_of_line {line feed : List Char} (hline : '\n' ∉ line)
    (hfeed : feed = ['\n'] ∨ feed = []) (hblank : (line ++ feed).all isBlank = true) :
    IsGap (line ++ feed) := by
  refine ⟨hblank, ?_⟩
  rw [List.count_append, List.count_eq_zero.2 hline]
  obtain rfl | rfl := hfeed <;> simp

section
variable {t : SyntaxTree} {front rest : List Char}

theorem isBlankLine_iff {before inside after : List Char} {r : OffsetRange}
    (h : Around t.chars r before inside after) :
    Fix.isBlankLine t r = true ↔ inside ≠ [] ∧ inside.all isBlank = true := by
  have hempty : r.isEmpty = false ↔ inside ≠ [] := by
    have hstop := h.stop
    rw [OffsetRange.isEmpty, beq_eq_false_iff_ne, Ne, Ne, not_iff_not]
    constructor
    · intro heq
      exact eq_nil_of_byteLength_eq_zero (by omega)
    · rintro rfl
      simpa using hstop.symm
  rw [Fix.isBlankLine, Bool.and_eq_true, Bool.not_eq_true', hempty, h.textOf, String.toList_ofList]

/-- The line behind whole lines. -/
theorem exists_nextLine (hchars : t.chars = front ++ rest) (hfront : EndsLine front) :
    ∃ line feed below, rest = (line ++ feed) ++ below ∧ '\n' ∉ line ∧ IsFeed feed below ∧
      Around t.chars (lineRange t.chars (byteLength front)) front (line ++ feed) below := by
  obtain ⟨line, feed, below, rfl, hline, hfeed, hstop⟩ := exists_lineStop front rest
  rw [← hchars] at hstop
  refine ⟨line, feed, below, by simp, hline, hfeed, ?_, ?_, ?_⟩
  · rw [hchars, List.append_assoc]
  · rw [hchars]
    exact lineStart_of_endsLine hfront _
  · rw [hstop, byteLength_append]
    congr 1
    rw [hchars]
    exact (lineStart_of_endsLine hfront _).symm

/-- The line in front of the end of whole lines. -/
theorem exists_previousLine (hchars : t.chars = front ++ rest) (hfront : EndsLine front)
    (hne : front ≠ []) :
    ∃ above line, front = above ++ (line ++ ['\n']) ∧ EndsLine above ∧ '\n' ∉ line ∧
      Around t.chars (lineRange t.chars (byteLength front - 1)) above (line ++ ['\n']) rest := by
  obtain ⟨before, c, rfl⟩ := List.eq_nil_or_concat front |>.resolve_left hne
  rw [List.concat_eq_append] at *
  obtain rfl : c = '\n' := hfront c (by simp)
  have hoffset : byteLength (before ++ ['\n']) - 1 = byteLength before := by
    rw [byteLength_append]
    rfl
  rw [List.append_assoc] at hchars
  obtain ⟨above, line, rfl, habove, hline, hstart⟩ := exists_lineStart before (['\n'] ++ rest)
  have hstop : (lineRange (above ++ line ++ (['\n'] ++ rest)) (byteLength (above ++ line))).stop
      = byteLength (above ++ line) + 1 := by
    unfold lineRange
    rw [sliceFrom?_append]
    simp
  rw [← hchars] at hstart hstop
  refine ⟨above, line, by simp, habove, hline, ?_, ?_, ?_⟩
  · rw [hchars]
    simp
  · rw [hoffset]
    exact hstart
  · rw [hoffset, hstop]
    show _ = lineStart _ _ + _
    rw [hstart, byteLength_append, byteLength_append, Nat.add_assoc]
    rfl

/-- With the lines of a member one blank line is taken out, below them or else above them. -/
theorem exists_gaps {lines : List Char} (hchars : t.chars = front ++ (lines ++ rest))
    (hfront : EndsLine front) (hlines : EndsLine (front ++ lines) ∨ rest = []) :
    ∃ kept gapAbove gapBelow below, front = kept ++ gapAbove ∧ rest = gapBelow ++ below ∧
      EndsLine kept ∧ IsGap gapAbove ∧ IsGap gapBelow ∧ (gapAbove = [] ∨ gapBelow = []) ∧
      Fix.linesToRemove t ⟨byteLength front, byteLength (front ++ lines)⟩
        = ⟨byteLength kept, byteLength (front ++ lines ++ gapBelow)⟩ := by
  have hnone : IsGap [] := ⟨rfl, Nat.zero_le _⟩
  have hbehind : t.chars = front ++ lines ++ rest := by rw [hchars, List.append_assoc]
  unfold Fix.linesToRemove
  dsimp only
  split
  · rename_i hblank
    obtain hlines | rfl := hlines
    · obtain ⟨line, feed, below, rfl, hline, hfeed, haround⟩ := exists_nextLine hbehind hlines
      have hgap := isGap_of_line hline (hfeed.imp_right And.left)
        ((isBlankLine_iff haround).1 hblank).2
      refine ⟨front, [], line ++ feed, below, by simp, rfl, hfront, hnone, hgap, .inl rfl, ?_⟩
      rw [haround.stop, haround.start, byteLength_append (front ++ lines)]
    · -- behind the last line of the text there is nothing
      obtain ⟨line, feed, below, hnil, -, -, hstop⟩ := exists_lineStop (front ++ lines) []
      obtain ⟨rfl, rfl, rfl⟩ : line = [] ∧ feed = [] ∧ below = [] := by simpa using hnil
      rw [← hbehind] at hstop
      exact ⟨front, [], [], [], by simp, rfl, hfront, hnone, hnone, .inl rfl, by rw [hstop]; simp⟩
  split
  · rename_i hblank
    rw [Bool.and_eq_true, decide_eq_true_eq] at hblank
    have hne : front ≠ [] := by
      rintro rfl
      exact absurd hblank.1 (Nat.lt_irrefl 0)
    obtain ⟨above, line, hsplit, habove, hline, haround⟩ := exists_previousLine hchars hfront hne
    have hgap := isGap_of_line hline (.inl rfl) ((isBlankLine_iff haround).1 hblank.2).2
    refine ⟨above, line ++ ['\n'], [], rest, hsplit, rfl, habove, hgap, hnone, .inr rfl, ?_⟩
    rw [haround.start, List.append_nil]
  · exact ⟨front, [], [], rest, by simp, rfl, hfront, hnone, hnone, .inl rfl,
      by rw [List.append_nil]⟩

/-- The lines of a member that starts its line and ends with a character of one byte. -/
theorem exists_memberLines {m : Member} {before inside behind : List Char} {c : Char}
    (hplace : Around t.chars m.fullRange before (inside ++ [c]) behind) (hwidth : c.utf8Size = 1)
    (hc : c ≠ '\n') (hline : startsLine t.chars m.fullRange.start = true) :
    ∃ front indent tail feed rest, before = front ++ indent ∧ behind = tail ++ (feed ++ rest) ∧
      EndsLine front ∧ ('\n' ∉ indent ∧ indent.all isBlank = true) ∧ '\n' ∉ tail ∧
      IsFeed feed rest ∧
      Around t.chars (m.lines t) front (indent ++ (inside ++ [c] ++ (tail ++ feed))) rest := by
  obtain ⟨hchars, hstart, hstop⟩ := hplace
  obtain ⟨front, indent, rfl, hfront, hindent, hlineStart⟩ :=
    exists_lineStart before (inside ++ [c] ++ behind)
  rw [← hchars, ← hstart] at hlineStart
  -- the line of the last character goes on behind it
  have hlast : m.fullRange.stop - 1 = byteLength (front ++ indent ++ inside) := by
    rw [hstop, hstart]
    simp [hwidth]
    omega
  obtain ⟨line, feed, rest, hbehind, hnone, hfeed, hlineStop⟩ :=
    exists_lineStop (front ++ indent ++ inside) (c :: behind)
  have hchars' : t.chars = front ++ indent ++ inside ++ c :: behind := by
    rw [hchars]
    simp
  rw [← hchars', ← hlast] at hlineStop
  obtain ⟨tail, rfl, rfl⟩ : ∃ tail, line = c :: tail ∧ behind = tail ++ (feed ++ rest) := by
    cases line with
    | nil =>
      obtain rfl | ⟨rfl, rfl⟩ := hfeed
      · exact absurd (List.cons.inj hbehind).1 hc
      · simp at hbehind
    | cons d tail =>
      obtain ⟨rfl, hrest⟩ := List.cons.inj hbehind
      exact ⟨tail, rfl, hrest⟩
  refine ⟨front, indent, tail, feed, rest, rfl, rfl, hfront, ⟨hindent, ?_⟩,
    fun hmem => hnone (.tail _ hmem), hfeed, ?_, hlineStart, ?_⟩
  · obtain ⟨blank, hslice, hblank⟩ := startsLine_iff.1 hline
    rw [hlineStart, hstart, hchars, List.append_assoc, byteLength_append, slice?_append] at hslice
    rwa [Option.some.inj hslice]
  · rw [hchars]
    simp
  · unfold Member.lines
    dsimp only
    rw [hlineStart, hlineStop, hlast]
    simp
    omega

theorem endsWith_feed_iff {cs : List Char} :
    endsWith (String.ofList cs) "\n" = true ↔ cs.getLast? = some '\n' := by
  rw [endsWith, List.isSuffixOf_iff_suffix, List.getLast?_eq_some_iff,
    String.toList_ofList (l := cs)]
  exact exists_congr fun _ => eq_comm

/-- In front of another member the lines end with a line feed, and a blank line follows. -/
theorem movedText_eq {m : Member} {before inside tail feed behind : List Char} {c : Char}
    (hlines : Around t.chars (m.lines t) before (inside ++ [c] ++ (tail ++ feed)) behind)
    (hc : c ≠ '\n') (htail : '\n' ∉ tail) (hfeed : IsFeed feed behind) :
    Fix.movedText t (m.lines t) = String.ofList (inside ++ [c] ++ (tail ++ ['\n', '\n'])) := by
  unfold Fix.movedText
  rw [hlines.textOf]
  dsimp only
  obtain rfl | ⟨rfl, -⟩ := hfeed
  · have hlast : (inside ++ [c] ++ (tail ++ ['\n'])).getLast? = some '\n' := by
      rw [← List.append_assoc, List.getLast?_concat]
    rw [if_pos (endsWith_feed_iff.2 hlast), ← String.toList_inj]
    simp
  · -- the last character is one of the member or of what stands behind it
    have hlast : (inside ++ [c] ++ (tail ++ [])).getLast? ≠ some '\n' := by
      rw [List.append_nil, List.getLast?_append]
      cases h : tail.getLast? with
      | none => simpa using hc
      | some d =>
        rintro heq
        obtain rfl : d = '\n' := by simpa using heq
        exact htail (List.mem_of_getLast? h)
    rw [if_neg (mt endsWith_feed_iff.1 hlast), ← String.toList_inj]
    simp

end

/-! ## What the fix makes of a text -/

/-- Two edits in order that do not conflict give the splice of the text. -/
theorem applyEdits_pair {text : String} {e e' : TextEdit} {result : List Char}
    (hle : e.range.le e'.range = true) (hapart : ¬ HasConflict [e, e'])
    (hsplice : Splice 0 text.toList [e, e'] result) :
    applyEdits text [e, e'] = .ok (String.ofList result) := by
  have hsorted : sortEdits [e, e'] = [e, e'] :=
    List.mergeSort_of_pairwise (List.pairwise_pair.2 hle)
  have hnone : adjacentConflict? [e, e'] = none := by
    rw [hasConflict_pair, Bool.not_eq_true] at hapart
    simp [adjacentConflict?, hapart]
  have hpass := spliceFrom_of_splice hsplice [] rfl
  rw [List.nil_append] at hpass
  rw [applyEdits_of_no_adjacentConflict (by rwa [hsorted]), hsorted, hpass]
  rfl

namespace LineMove

/-- The edit that puts the lines in, and the one that takes them out. -/
def edits (m : LineMove) : List TextEdit :=
  [.insert (byteLength m.above)
      (String.ofList (m.indent ++ (m.member ++ (m.tail ++ ['\n', '\n'])))),
    .delete (byteLength (m.above ++ (m.shared ++ m.between)))
      (byteLength (m.front ++ m.lines ++ m.gapBelow))]

theorem splice (m : LineMove) : Splice 0 m.before m.edits m.after := by
  have hbefore : m.before = m.above ++ ([] ++ ((m.shared ++ m.between) ++
      ((m.gapAbove ++ (m.lines ++ m.gapBelow)) ++ m.below))) := by
    simp [before, front]
  have hafter : m.after = m.above ++
      ((String.ofList (m.indent ++ (m.member ++ (m.tail ++ ['\n', '\n'])))).toList ++
        ((m.shared ++ m.between) ++ ("".toList ++ m.below))) := by
    simp [after]
  rw [hbefore, hafter]
  refine .cons ?_ ?_ (.cons ?_ ?_ (.nil _ _)) <;>
    simp [TextEdit.insert, TextEdit.delete, OffsetRange.point, front, Nat.add_assoc]

theorem apply_edits {text : String} {m : LineMove} (htext : text.toList = m.before)
    (hapart : ¬ HasConflict m.edits) : applyEdits text m.edits = .ok (String.ofList m.after) := by
  refine applyEdits_pair ?_ hapart (htext ▸ m.splice)
  simp [OffsetRange.le, TextEdit.insert, TextEdit.delete, OffsetRange.point, front]
  omega

end LineMove

section
variable {d : Diagnostic} {t : SyntaxTree} {fix : CodeFix} {file : FileId} {text : String}
  {decl : TypeDecl} {key target : Member}

/-- How the text is cut for moving one member in front of another one further up. -/
theorem exists_lineMove (h : SyntaxTree.parse file text = .ok t) (hdecl : decl ∈ t.types)
    (hkey : key ∈ decl.members) (htarget : target ∈ decl.members)
    (hline : startsLine t.chars key.fullRange.start = true)
    (hlt : target.fullRange.start < key.fullRange.start) :
    ∃ m : LineMove, text.toList = m.before ∧ m.Fits key target ∧
      [.insert (lineStart t.chars target.fullRange.start) (Fix.movedText t (key.lines t)),
        .delete (Fix.linesToRemove t (key.lines t)).start
          (Fix.linesToRemove t (key.lines t)).stop] = m.edits := by
  obtain ⟨before, inside, c, behind, hplace, hc⟩ := SyntaxTree.exists_fullPlace h hdecl hkey
  obtain ⟨-, -, rfl⟩ := SyntaxTree.isRead_of_parse h
  have hc' : c.utf8Size = 1 ∧ c ≠ '\n' := by obtain rfl | rfl := hc <;> decide
  obtain ⟨front, indent, tail, feed, rest, rfl, rfl, hfront, hindent, htail, hfeed, hlines⟩ :=
    exists_memberLines hplace hc'.1 hc'.2 hline
  have hrange : key.lines t = ⟨byteLength front,
      byteLength (front ++ (indent ++ (inside ++ [c] ++ (tail ++ feed))))⟩ := by
    rw [byteLength_append, ← hlines.start, ← hlines.stop]
  -- the lines that are taken out, with a blank one
  have hends : EndsLine (front ++ (indent ++ (inside ++ [c] ++ (tail ++ feed)))) ∨ rest = [] := by
    obtain rfl | ⟨-, rfl⟩ := hfeed
    · refine .inl fun d hd => ?_
      simp only [← List.append_assoc, List.getLast?_concat] at hd
      exact (Option.some.inj hd).symm
    · exact .inr rfl
  obtain ⟨kept, gapAbove, gapBelow, below, rfl, rfl, hkept, hgapAbove, hgapBelow, hone, hremoved⟩ :=
    exists_gaps hlines.chars hfront hends
  rw [← hrange] at hremoved
  -- the other member starts above them
  have habove := lt_linesToRemove_of_lt h hdecl htarget hline hlt
  rw [hremoved] at habove
  obtain ⟨head, e, after, htext, hhead, -⟩ := SyntaxTree.visibleAt_fullRange h hdecl htarget
  rw [Nat.zero_add] at hhead
  have hchars : head ++ e :: after = kept ++ (gapAbove ++
      (indent ++ (inside ++ [c] ++ (tail ++ feed)) ++ (gapBelow ++ below))) := by
    rw [← htext, ← List.append_assoc kept]
    exact hlines.chars
  obtain ⟨between, rfl, -⟩ := exists_between hchars (by rw [hhead]; exact Nat.le_of_lt habove)
  obtain ⟨above, shared, rfl, hendsAbove, hshared, hstart⟩ := exists_lineStart head (e :: after)
  rw [← htext, hhead] at hstart
  change lineStart t.chars _ = _ at hstart
  refine ⟨⟨above, shared, between, gapAbove, indent, inside ++ [c], tail, feed, gapBelow, below⟩,
    ?_, ?_, ?_⟩
  · rw [htext, hchars]
    simp [LineMove.before, LineMove.front, LineMove.lines]
  · refine ⟨hhead.symm, ?_, hendsAbove, hshared, by simpa using hkept, ?_, hindent, htail, hfeed,
      hgapAbove, hgapBelow, hone⟩
    · refine ⟨by simp [LineMove.before, LineMove.lines], ?_, hplace.stop⟩
      rw [hplace.start]
      simp [LineMove.front]
    · simpa [LineMove.front] using hfront
  · have hmoved : Around t.chars (key.lines t) (above ++ shared ++ between ++ gapAbove)
        (indent ++ inside ++ [c] ++ (tail ++ feed)) (gapBelow ++ below) := by
      simpa only [List.append_assoc] using hlines
    rw [hstart, hremoved, movedText_eq hmoved hc'.2 htail hfeed]
    simp [LineMove.edits, LineMove.front, LineMove.lines]

/-- What the fix for a member that is declared too late finds and cuts. -/
theorem exists_move (h : SyntaxTree.parse file text = .ok t) (hrule : d.rule = .keyDeclaredFirst)
    (hfix : proposeFix d t = some fix) (hself : ¬ MovesToItself d t) :
    ∃ name decl key target, d.property? .moveBefore = some name ∧
      t.containingType? d.range = some decl ∧ key ∈ decl.ownMembers ∧ key.range = d.range ∧
      decl.fieldOrProperty? name = some target ∧
      target.fullRange.start < key.fullRange.start ∧
      ∃ m : LineMove, text.toList = m.before ∧ m.Fits key target ∧
        fix.apply text = .ok (String.ofList m.after) := by
  obtain ⟨p, hp, hfix⟩ := exists_of_proposeFix hfix
  rw [hrule, FixProvider.keyDeclaredFirst_mem_rules] at hp
  subst hp
  obtain ⟨name, decl, key, target, hname, hdecl, hkey, -, htarget, hle, hline, hedits⟩ :=
    exists_of_moveMember hfix
  have hmem := SyntaxTree.containingType?_mem hdecl
  have hkeyMem := List.mem_of_find?_eq_some hkey
  have hkeyMem' : key ∈ decl.members := (List.mem_filter.1 hkeyMem).1
  have htargetMem : target ∈ decl.members := List.mem_of_find?_eq_some htarget
  have hrange : key.range = d.range := by simpa using List.find?_some hkey
  have hother : target ≠ key :=
    mt (movesToItself_iff h hrule hname hdecl hkeyMem' hrange htarget).2 hself
  have hlt : target.fullRange.start < key.fullRange.start := Nat.lt_of_le_of_ne hle fun heq =>
    hother (SyntaxTree.eq_of_fullRange_start h hmem htargetMem hkeyMem' heq)
  obtain ⟨m, htext, hfits, hsame⟩ := exists_lineMove h hmem hkeyMem' htargetMem hline hlt
  refine ⟨name, decl, key, target, hname, hdecl, hkeyMem, hrange, htarget, hlt, m, htext, hfits, ?_⟩
  have hapart : ¬ HasConflict fix.edits := mt (moveMember_spec h hrule hfix).2.1 hself
  rw [hedits, hsame] at hapart
  rw [CodeFix.apply, hedits, hsame]
  exact LineMove.apply_edits htext hapart

/-- **Moving a member.**  The fix for a member that is declared too late takes all of its lines out,
with a blank line next to them, and puts them in above the line on which the member that it is moved
in front of starts, with a blank line behind them. -/
theorem proposeFix_moves_lines (h : SyntaxTree.parse file text = .ok t)
    (hrule : d.rule = .keyDeclaredFirst) (hfix : proposeFix d t = some fix)
    (hself : ¬ MovesToItself d t) :
    ∃ name decl key target, d.property? .moveBefore = some name ∧
      t.containingType? d.range = some decl ∧ key ∈ decl.ownMembers ∧ key.range = d.range ∧
      decl.fieldOrProperty? name = some target ∧
      ∃ m : LineMove, text.toList = m.before ∧ m.Fits key target ∧
        fix.apply text = .ok (String.ofList m.after) := by
  obtain ⟨name, decl, key, target, hname, hdecl, hkey, hrange, htarget, -, hmove⟩ :=
    exists_move h hrule hfix hself
  exact ⟨name, decl, key, target, hname, hdecl, hkey, hrange, htarget, hmove⟩

end

/-- A class with two fields on two lines.  Its brace stands behind the second one. -/
def braceBehindField : String := "class A\x7b\nint C=B;\nint B=1;\x7d"

/-- The diagnostic that asks to move the second field in front of the first one. -/
def moveSecondField : Diagnostic where
  rule := .keyDeclaredFirst
  severity := .warning
  location := ⟨0, ⟨18, 26⟩⟩
  message := "Field 'B' must be declared before 'C'"
  args := ["B", "C"]
  properties := [("MoveBefore", "C")]

/-- The fix takes the last line out and puts it in above the first field. -/
def movingSecondField : CodeFix where
  label := "Move 'B' before 'C'"
  edits := [.insert 9 "int B=1;\x7d\n\n", .delete 18 27]

/-- The brace of the class is moved with the field, and the first field comes to stand behind it. -/
theorem proposeFix_moves_brace : ∃ t, SyntaxTree.parse 0 braceBehindField = .ok t ∧
    moveSecondField.rule = .keyDeclaredFirst ∧
    proposeFix moveSecondField t = some movingSecondField ∧ ¬ MovesToItself moveSecondField t ∧
    movingSecondField.apply braceBehindField = .ok "class A\x7b\nint B=1;\x7d\n\nint C=B;\n" ∧
    ∃ key target, ∃ m : LineMove, braceBehindField.toList = m.before ∧ m.Fits key target ∧
      m.after = "class A\x7b\nint B=1;\x7d\n\nint C=B;\n".toList := by
  have hfix : ((SyntaxTree.parse 0 braceBehindField).toOption.bind (proposeFix moveSecondField)) =
      some movingSecondField := by
    decide +kernel
  obtain ⟨t, hread, hfix⟩ := Option.bind_eq_some_iff.1 hfix
  rw [toOption_eq_some_iff] at hread
  have hmember : Fix.moveMember moveSecondField t = some movingSecondField := by
    obtain ⟨p, hp, hpropose⟩ := exists_of_proposeFix hfix
    rw [show moveSecondField.rule = .keyDeclaredFirst from rfl,
      FixProvider.keyDeclaredFirst_mem_rules] at hp
    subst hp
    exact hpropose
  have hself : ¬ MovesToItself moveSecondField t := by
    rw [← (moveMember_spec hread rfl hmember).2]
    exact mt hasConflict_pair.1 (by decide)
  have happly : movingSecondField.apply braceBehindField
      = .ok "class A\x7b\nint B=1;\x7d\n\nint C=B;\n" := by
    rw [← toOption_eq_some_iff]
    unfold CodeFix.apply applyEdits sortEdits
    rw [show movingSecondField.edits = [.insert 9 "int B=1;\x7d\n\n", .delete 18 27] from rfl,
      List.mergeSort_of_pairwise (by decide)]
    decide +kernel
  obtain ⟨name, decl, key, target, -, -, -, -, -, m, htext, hfits, hmoved⟩ :=
    proposeFix_moves_lines hread rfl hfix hself
  refine ⟨t, hread, rfl, hfix, hself, happly, key, target, m, htext, hfits, ?_⟩
  rw [happly, Except.ok.injEq] at hmoved
  rw [hmoved, String.toList_ofList]

end PropertyLint
