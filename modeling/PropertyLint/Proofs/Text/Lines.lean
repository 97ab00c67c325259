/-
# Where lines start and end

Lines start and end on character boundaries, whatever offset they are looked up for
(`lineStart_spec`, `lineRange_stop_spec`).  At a boundary the text is cut into the lines above, the
line and the rest of the text (`exists_lineStart`, `exists_lineStop`).  A character that is no blank
and stands in front of the end of a blank slice stands in front of all of it (`lt_start_of_blank`);
so what stands in front of an offset that starts its line is on a line above, and not on a blank
one.
-/
import PropertyLint.Proofs.Text.Kept
import PropertyLint.Text.Line

namespace PropertyLint

variable {cs : List Char} {offset : Nat}

/-! ## Boundaries -/

theorem isBoundary_zero (cs : List Char) : IsBoundary cs 0 :=
  isBoundary_iff.2 ⟨[], cs, rfl, rfl⟩

theorem isBoundary_byteLength (cs : List Char) : IsBoundary cs (byteLength cs) :=
  isBoundary_iff.2 ⟨cs, [], (List.append_nil cs).symm, rfl⟩

theorem IsBoundary.le (h : IsBoundary cs offset) : offset ≤ byteLength cs := by
  obtain ⟨before, after, rfl, rfl⟩ := isBoundary_iff.1 h
  rw [byteLength_append]
  exact Nat.le_add_right _ _

/-! ## What is not blank -/

/-- A character that is no blank stands at the offset, in a text that starts at `position`. -/
def VisibleAt (cs : List Char) (position offset : Nat) : Prop :=
  ∃ before c after, cs = before ++ c :: after ∧ position + byteLength before = offset ∧
    isBlank c = false

theorem VisibleAt.head {c : Char} (hc : isBlank c = false) (cs : List Char) (position : Nat) :
    VisibleAt (c :: cs) position position := ⟨[], c, cs, rfl, rfl, hc⟩

theorem VisibleAt.append {cs : List Char} {position offset : Nat} (before : List Char)
    (h : VisibleAt cs (position + byteLength before) offset) :
    VisibleAt (before ++ cs) position offset := by
  obtain ⟨before', c, after, rfl, hoffset, hc⟩ := h
  refine ⟨before ++ before', c, after, (List.append_assoc ..).symm, ?_, hc⟩
  rw [byteLength_append, ← Nat.add_assoc, hoffset]

theorem VisibleAt.le {cs : List Char} {position offset : Nat} (h : VisibleAt cs position offset) :
    position ≤ offset := by
  obtain ⟨before, c, after, -, rfl, -⟩ := h
  exact Nat.le_add_right _ _

/-- A character that is no blank does not stand in a blank slice. -/
theorem lt_start_of_blank {inside : List Char} {start stop : Nat} (h : VisibleAt cs 0 offset)
    (hslice : slice? cs start stop = some inside) (hblank : inside.all isBlank = true)
    (hlt : offset < stop) : offset < start := by
  by_contra hle
  obtain ⟨before, c, after, rfl, rfl, hc⟩ := h
  obtain ⟨front, behind, heq, rfl, rfl⟩ := slice?_eq_some_iff.1 hslice
  obtain ⟨mid, rfl, hmid⟩ := exists_between heq.symm (by omega)
  rw [byteLength_append] at hlt
  -- the slice starts with what stands between its start and the character
  obtain ⟨rest, rfl, hrest⟩ := exists_between hmid.symm (by omega)
  obtain _ | ⟨d, rest⟩ := rest
  · rw [List.append_nil] at hlt
    omega
  · obtain ⟨rfl, -⟩ := List.cons.inj hrest
    simp [hc] at hblank

/-! ## Line starts -/

theorem feed_not_mem_takeWhile (cs : List Char) : '\n' ∉ cs.takeWhile (· != '\n') := by
  intro hmem
  have hfeed := List.all_eq_true.1 (List.all_takeWhile (p := (· != '\n')) (l := cs)) _ hmem
  simp at hfeed

/-- The text is empty or ends with a line feed. -/
def EndsLine (cs : List Char) : Prop := ∀ c ∈ cs.getLast?, c = '\n'

/-- Where the line of an offset starts: the lines above, and what stands in front of the offset on
its line. -/
theorem exists_lineStart (before after : List Char) :
    ∃ above inside, before = above ++ inside ∧ EndsLine above ∧ '\n' ∉ inside ∧
      lineStart (before ++ after) (byteLength before) = byteLength above := by
  have hsplit : (before.reverse.dropWhile (· != '\n')).reverse ++ lastLine before = before := by
    rw [lastLine, ← List.reverse_append, List.takeWhile_append_dropWhile, List.reverse_reverse]
  refine ⟨_, _, hsplit.symm, ?_, ?_, ?_⟩
  · intro c hc
    rw [List.getLast?_reverse] at hc
    have hfeed := List.head?_dropWhile_not (· != '\n') before.reverse
    rw [hc] at hfeed
    simpa using hfeed
  · rw [lastLine, List.mem_reverse]
    exact feed_not_mem_takeWhile _
  · have hlength := congrArg byteLength hsplit
    rw [byteLength_append] at hlength
    rw [lineStart, sliceTo?, splitAt?_append, Option.map_some]
    dsimp only
    omega

theorem lineStart_of_endsLine {before : List Char} (h : EndsLine before) (after : List Char) :
    lineStart (before ++ after) (byteLength before) = byteLength before := by
  obtain ⟨above, inside, rfl, -, hinside, hstart⟩ := exists_lineStart before after
  cases hlast : inside.getLast? with
  | none => rw [hstart, List.getLast?_eq_none_iff.1 hlast, List.append_nil]
  | some c =>
    -- the last character would be a line feed on the last line
    obtain rfl := h c (by rw [List.getLast?_append, hlast]; rfl)
    exact absurd (List.mem_of_getLast? hlast) hinside

theorem lineStart_of_not_isBoundary (h : ¬ IsBoundary cs offset) : lineStart cs offset = 0 := by
  unfold IsBoundary at h
  rw [lineStart, sliceTo?, Option.not_isSome_iff_eq_none.1 h, Option.map_none]

/-- A line starts on a character boundary, not behind the offset. -/
theorem lineStart_spec (cs : List Char) (offset : Nat) :
    IsBoundary cs (lineStart cs offset) ∧ lineStart cs offset ≤ offset := by
  by_cases h : IsBoundary cs offset
  · obtain ⟨before, after, rfl, rfl⟩ := isBoundary_iff.1 h
    obtain ⟨above, inside, rfl, -, -, hstart⟩ := exists_lineStart before after
    rw [hstart, byteLength_append]
    exact ⟨isBoundary_iff.2 ⟨above, inside ++ after, by simp, rfl⟩, Nat.le_add_right _ _⟩
  · rw [lineStart_of_not_isBoundary h]
    exact ⟨isBoundary_zero cs, Nat.zero_le _⟩

theorem startsLine_iff : startsLine cs offset = true ↔
    ∃ before, slice? cs (lineStart cs offset) offset = some before ∧ before.all isBlank = true := by
  unfold startsLine
  cases slice? cs (lineStart cs offset) offset <;> simp

/-! ## Line ends -/

/-- The first line of a text and its line feed. -/
theorem exists_append_feed {cs : List Char} (h : '\n' ∈ cs) :
    ∃ rest, cs = cs.takeWhile (· != '\n') ++ '\n' :: rest := by
  induction cs with
  | nil => simp at h
  | cons c cs ih =>
    by_cases hc : c = '\n'
    · subst hc
      exact ⟨cs, by simp⟩
    · obtain ⟨rest, hrest⟩ := ih ((List.mem_cons.1 h).resolve_left (Ne.symm hc))
      refine ⟨rest, ?_⟩
      rw [List.takeWhile_cons_of_pos (by simpa using hc), List.cons_append, ← hrest]

/-- What a line ends with in front of the rest of the text: its line feed, which only the last line
may lack. -/
def IsFeed (feed rest : List Char) : Prop := feed = ['\n'] ∨ feed = [] ∧ rest = []

/-- Where the line of an offset ends: what stands behind the offset on its line, and the rest of the
text. -/
theorem exists_lineStop (before after : List Char) :
    ∃ line feed rest, after = line ++ (feed ++ rest) ∧ '\n' ∉ line ∧ IsFeed feed rest ∧
      (lineRange (before ++ after) (byteLength before)).stop
        = byteLength before + (byteLength line + byteLength feed) := by
  unfold lineRange
  rw [sliceFrom?_append]
  dsimp only
  by_cases hfeed : '\n' ∈ after
  · obtain ⟨rest, hrest⟩ := exists_append_feed hfeed
    exact ⟨_, ['\n'], rest, hrest, feed_not_mem_takeWhile _, .inl rfl, by rw [if_pos hfeed]; rfl⟩
  · refine ⟨after, [], [], by simp, hfeed, .inr ⟨rfl, rfl⟩, ?_⟩
    rw [if_neg hfeed, byteLength_append]
    rfl

/-- A line ends on a character boundary, behind the offset unless the text ends. -/
theorem lineRange_stop_spec (cs : List Char) (offset : Nat) :
    IsBoundary cs (lineRange cs offset).stop ∧
      (offset < (lineRange cs offset).stop ∨ (lineRange cs offset).stop = byteLength cs) := by
  by_cases h : IsBoundary cs offset
  · obtain ⟨before, after, rfl, rfl⟩ := isBoundary_iff.1 h
    obtain ⟨line, feed, rest, rfl, -, hfeed, hstop⟩ := exists_lineStop before after
    rw [hstop]
    refine ⟨isBoundary_iff.2 ⟨before ++ (line ++ feed), rest, by simp, by simp⟩, ?_⟩
    obtain rfl | ⟨rfl, rfl⟩ := hfeed
    · exact .inl (Nat.lt_add_of_pos_right (Nat.lt_of_lt_of_le (by decide) (Nat.le_add_left _ _)))
    · exact .inr (by simp)
  · have hstop : (lineRange cs offset).stop = byteLength cs := by
      unfold IsBoundary at h
      rw [lineRange, sliceFrom?, Option.not_isSome_iff_eq_none.1 h, Option.map_none]
    rw [hstop]
    exact ⟨isBoundary_byteLength cs, .inr rfl⟩

end PropertyLint
