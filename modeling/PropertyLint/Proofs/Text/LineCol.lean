/-
# Lines and places

The start of a line is searched backwards from an offset, its end forwards, and the line number is a
count of line feeds.  `LineCut` cuts a text at the offset and where the line of the offset starts
and ends, and each of the three searches reads its answer off the same cut (`LineCut.lineStart_eq`,
`LineCut.lineRange_eq`, `LineCut.of_eq`).  So they agree about what a line is (`lines_agree`): two
offsets have one line number if and only if they have one line range, and the line ranges tile the
text.  Behind a line feed at the end of the text there is one more line, an empty one.

Places are ordered by line, and on one line by column.  A cut of a text further behind is at a later
place (`LineCol.behind_lt_append`), so offsets at character boundaries and their places are in the
same order.  An offset that is none has the place of the end of the text, also one inside a
character; so the place of a later offset is earlier if the first one is inside a character and
the second one is a boundary in front of the end (`LineCol.of_le_of_iff`), and in no other case.
Line and column are never greater than the number of bytes plus one.
-/
import Mathlib.Data.List.DropRight
import Mathlib.Data.Prod.Lex
import PropertyLint.Proofs.Text.Lines

namespace PropertyLint

/-! ## The last line -/

/-- A line feed ends the line, and any other character goes on with it. -/
theorem lastLine_concat (cs : List Char) (c : Char) :
    lastLine (cs ++ [c]) = if c = '\n' then [] else lastLine cs ++ [c] := by
  have hconcat := List.rtakeWhile_concat (· != '\n') cs c
  by_cases hc : c = '\n'
  · rw [if_neg (by simp [hc])] at hconcat
    rw [if_pos hc]
    exact hconcat
  · rw [if_pos (by simpa using hc)] at hconcat
    rw [if_neg hc]
    exact hconcat

theorem lastLine_append_of_not_mem (before : List Char) {cs : List Char} (h : '\n' ∉ cs) :
    lastLine (before ++ cs) = lastLine before ++ cs := by
  induction cs using List.reverseRecOn with
  | nil => rw [List.append_nil, List.append_nil]
  | append_singleton cs c ih =>
    rw [List.mem_append, List.mem_singleton, not_or] at h
    rw [← List.append_assoc, lastLine_concat, if_neg (Ne.symm h.2), ih h.1, List.append_assoc]

/-- The line of a cut starts behind the lines above. -/
theorem lastLine_append_of_endsLine {above inside : List Char} (habove : EndsLine above)
    (hinside : '\n' ∉ inside) : lastLine (above ++ inside) = inside := by
  have hstart : lastLine above = [] := by
    cases above using List.reverseRecOn with
    | nil => rfl
    | append_singleton above c =>
      rw [lastLine_concat, if_pos (habove c List.getLast?_concat)]
  rw [lastLine_append_of_not_mem above hinside, hstart, List.nil_append]

theorem length_le_byteLength (cs : List Char) : cs.length ≤ byteLength cs := by
  induction cs with
  | nil => exact Nat.le_refl _
  | cons c cs ih =>
    have hpos := c.utf8Size_pos
    rw [List.length_cons, byteLength_cons]
    omega

/-! ## Places in order -/

namespace LineCol

/-- By line, and on one line by column. -/
instance : LinearOrder LineCol :=
  LinearOrder.lift' (fun p => toLex (p.line, p.column)) fun p q h => by
    obtain ⟨hline, hcolumn⟩ := Prod.mk.inj (toLex.injective h)
    cases p
    cases q
    simp_all

theorem lt_iff {p q : LineCol} :
    p < q ↔ p.line < q.line ∨ p.line = q.line ∧ p.column < q.column :=
  Prod.Lex.toLex_lt_toLex

/-- The place behind a text. -/
def behind (before : List Char) : LineCol := ⟨before.count '\n' + 1, (lastLine before).length + 1⟩

/-- One more character leads to the next line, or to the next column. -/
theorem behind_lt_concat (before : List Char) (c : Char) :
    behind before < behind (before ++ [c]) := by
  rw [lt_iff, behind, behind, lastLine_concat, List.count_append]
  by_cases hc : c = '\n'
  · subst hc
    exact .inl (Nat.lt_succ_self _)
  · rw [if_neg hc, List.count_singleton, if_neg (by simpa using hc), List.length_append]
    exact .inr ⟨rfl, Nat.lt_succ_self _⟩

/-- The place behind a longer text is later. -/
theorem behind_lt_append (before : List Char) {cs : List Char} (hcs : cs ≠ []) :
    behind before < behind (before ++ cs) := by
  induction cs using List.reverseRecOn with
  | nil => exact absurd rfl hcs
  | append_singleton cs c ih =>
    rw [← List.append_assoc]
    by_cases hempty : cs = []
    · rw [hempty, List.append_nil]
      exact behind_lt_concat before c
    · exact lt_trans (ih hempty) (behind_lt_concat (before ++ cs) c)

/-! ## Places of offsets -/

variable {text : List Char} {o p : Nat}

theorem of_append (before after : List Char) :
    of (before ++ after) (byteLength before) = behind before := by
  have hmin : min (byteLength before) (byteLength (before ++ after)) = byteLength before := by
    rw [byteLength_append]
    omega
  rw [of, hmin, sliceTo?, splitAt?_append]
  rfl

/-- An offset that is no boundary stands for the end of the text. -/
theorem of_of_not_isBoundary (h : ¬ IsBoundary text o) : of text o = behind text := by
  have hslice : (sliceTo? text (min o (byteLength text))).getD text = text := by
    rcases Nat.le_total o (byteLength text) with hle | hle
    · rw [Nat.min_eq_left hle, sliceTo?, Option.not_isSome_iff_eq_none.1 h]
      rfl
    · have hend := splitAt?_append text []
      rw [List.append_nil] at hend
      rw [Nat.min_eq_right hle, sliceTo?, hend]
      rfl
  rw [of, hslice]
  rfl

theorem of_byteLength (text : List Char) : of text (byteLength text) = behind text := by
  have hend := of_append text []
  rwa [List.append_nil] at hend

/-- Boundaries and their places are in the same order. -/
theorem of_lt_of (ho : IsBoundary text o) (hp : IsBoundary text p) (hlt : o < p) :
    of text o < of text p := by
  obtain ⟨before, after, rfl, rfl⟩ := isBoundary_iff.1 ho
  obtain ⟨before', after', htext, rfl⟩ := isBoundary_iff.1 hp
  obtain ⟨mid, rfl, rfl⟩ := exists_between htext (Nat.le_of_lt hlt)
  have hmid : mid ≠ [] := by
    rintro rfl
    rw [List.append_nil] at hlt
    exact Nat.lt_irrefl _ hlt
  rw [of_append, htext, of_append]
  exact behind_lt_append before hmid

theorem of_le_end (text : List Char) (o : Nat) : of text o ≤ behind text := by
  by_cases h : IsBoundary text o
  · rcases Nat.lt_or_eq_of_le h.le with hlt | rfl
    · rw [← of_byteLength]
      exact (of_lt_of h (isBoundary_byteLength text) hlt).le
    · exact (of_byteLength text).le
  · exact (of_of_not_isBoundary h).le

/-- The numbers of a place are small: they fit into 32 bits for every text of less than 4 GiB. -/
theorem of_small (text : List Char) (o : Nat) :
    (of text o).line ≤ byteLength text + 1 ∧ (of text o).column ≤ byteLength text + 1 := by
  obtain ⟨before, hof, hle⟩ : ∃ before, of text o = behind before ∧
      byteLength before ≤ byteLength text := by
    by_cases h : IsBoundary text o
    · obtain ⟨before, after, rfl, rfl⟩ := isBoundary_iff.1 h
      exact ⟨before, of_append before after, h.le⟩
    · exact ⟨text, of_of_not_isBoundary h, Nat.le_refl _⟩
  have hlength := length_le_byteLength before
  have hcount : before.count '\n' ≤ before.length := List.count_le_length
  have hlast : (lastLine before).length ≤ before.length := by
    rw [lastLine, List.length_reverse]
    exact (List.takeWhile_sublist _).length_le.trans_eq List.length_reverse
  rw [hof]
  unfold behind
  dsimp only
  omega

/-- The offset is inside a character. -/
def Inside (text : List Char) (o : Nat) : Prop := o ≤ byteLength text ∧ ¬ IsBoundary text o

instance (text : List Char) (o : Nat) : Decidable (Inside text o) :=
  inferInstanceAs (Decidable (_ ∧ _))

/-- **Offsets and places.**  Of two offsets, the later one has no earlier place, unless the first
one is inside a character and the second one is a boundary in front of the end of the text.  Of two
boundaries, the later one has a later place.  No number of a place exceeds the number of the bytes
by more than one, so for a text of less than 4 GiB the places are the same in 32 bits. -/
theorem of_le_of_iff (h : o ≤ p) :
    (of text o ≤ of text p ↔ (Inside text o → IsBoundary text p → p = byteLength text)) ∧
      (IsBoundary text o → IsBoundary text p → o < p → of text o < of text p) ∧
      ∀ q, (of text q).line ≤ byteLength text + 1 ∧ (of text q).column ≤ byteLength text + 1 := by
  refine ⟨⟨fun hle hin hp => ?_, fun hin => ?_⟩, of_lt_of, of_small text⟩
  · by_contra hne
    rw [of_of_not_isBoundary hin.2, ← of_byteLength] at hle
    have hlt := of_lt_of hp (isBoundary_byteLength text) (Nat.lt_of_le_of_ne hp.le hne)
    exact absurd hle (not_le_of_gt hlt)
  · by_cases hp : IsBoundary text p
    · by_cases ho : IsBoundary text o
      · rcases Nat.lt_or_eq_of_le h with hlt | rfl
        · exact (of_lt_of ho hp hlt).le
        · exact le_refl _
      · rw [of_of_not_isBoundary ho, hin ⟨Nat.le_trans h hp.le, ho⟩ hp, of_byteLength]
    · rw [of_of_not_isBoundary hp]
      exact of_le_end text o

/-- In a text of a character of two bytes and two lines, the place of the offset inside the
character is the end of the text; behind the character and on the second line the order is kept. -/
theorem of_le_of_iff_twoBytes :
    Inside ['é', '\n', 'b'] 1 ∧ IsBoundary ['é', '\n', 'b'] 2 ∧
      ¬ of ['é', '\n', 'b'] 1 ≤ of ['é', '\n', 'b'] 2 ∧
      of ['é', '\n', 'b'] 1 ≤ of ['é', '\n', 'b'] 4 ∧
      of ['é', '\n', 'b'] 2 < of ['é', '\n', 'b'] 3 ∧
      (of ['é', '\n', 'b'] 4).column ≤ 5 := by
  have hinside : Inside ['é', '\n', 'b'] 1 := by decide
  have hbehind : IsBoundary ['é', '\n', 'b'] 2 := by decide
  obtain ⟨hfirst, -⟩ := @of_le_of_iff ['é', '\n', 'b'] 1 2 (by decide)
  obtain ⟨hlast, -⟩ := @of_le_of_iff ['é', '\n', 'b'] 1 4 (by decide)
  obtain ⟨-, hlater, hsmall⟩ := @of_le_of_iff ['é', '\n', 'b'] 2 3 (by decide)
  refine ⟨hinside, hbehind, fun hle => ?_, hlast.2 fun _ _ => rfl, ?_, (hsmall 4).2⟩
  · exact absurd (hfirst.1 hle hinside hbehind) (by decide)
  · exact hlater hbehind (by decide) (by decide)

/-- The place of an offset inside a character may be later than the place behind the character. -/
theorem of_not_monotone :
    ¬ ∀ (text : List Char) (o p : Nat), o ≤ p → of text o ≤ of text p := by
  intro hmono
  have hle := hmono ['é', 'b'] 1 2 (by decide)
  exact absurd hle (by decide)

end LineCol

variable {text : List Char} {o p : Nat}

/-! ## The cut -/

/-- A text cut at an offset and where the line of the offset starts and ends. -/
structure LineCut (text : List Char) (o : Nat) where
  /-- The lines above. -/
  above : List Char
  /-- What stands in front of the offset on its line. -/
  inside : List Char
  /-- What stands behind the offset on its line, without the line feed. -/
  line : List Char
  feed : List Char
  rest : List Char
  text_eq : text = above ++ (inside ++ (line ++ (feed ++ rest)))
  offset_eq : o = byteLength above + byteLength inside
  above_ends : EndsLine above
  inside_noFeed : '\n' ∉ inside
  line_noFeed : '\n' ∉ line
  feed_ends : IsFeed feed rest

theorem LineCut.nonempty (h : IsBoundary text o) : Nonempty (LineCut text o) := by
  obtain ⟨before, after, rfl, rfl⟩ := isBoundary_iff.1 h
  obtain ⟨above, inside, rfl, habove, hinside, -⟩ := exists_lineStart before after
  obtain ⟨line, feed, rest, rfl, hline, hfeed, -⟩ := exists_lineStop (above ++ inside) after
  exact ⟨⟨above, inside, line, feed, rest, List.append_assoc .., byteLength_append .., habove,
    hinside, hline, hfeed⟩⟩

namespace LineCut

theorem splitAt?_eq (cut : LineCut text o) :
    splitAt? text o = some (cut.above ++ cut.inside, cut.line ++ (cut.feed ++ cut.rest)) := by
  rw [splitAt?_eq_some_iff, List.append_assoc, byteLength_append]
  exact ⟨cut.text_eq, cut.offset_eq.symm⟩

/-! ## The three searches -/

theorem lineStart_eq (cut : LineCut text o) : lineStart text o = byteLength cut.above := by
  rw [lineStart, sliceTo?, cut.splitAt?_eq, Option.map_some]
  dsimp only
  rw [lastLine_append_of_endsLine cut.above_ends cut.inside_noFeed, byteLength_append]
  omega

/-- The rest of a text up to the first line feed. -/
theorem takeWhile_line {line feed rest : List Char} (hline : '\n' ∉ line)
    (hfeed : IsFeed feed rest) : (line ++ (feed ++ rest)).takeWhile (· != '\n') = line := by
  have hall : ∀ c ∈ line, (c != '\n') = true := by
    intro c hc
    simp only [bne_iff_ne]
    rintro rfl
    exact hline hc
  rw [List.takeWhile_append_of_pos hall]
  obtain rfl | ⟨rfl, rfl⟩ := hfeed
  · simp
  · simp

theorem lineRange_eq (cut : LineCut text o) : lineRange text o = ⟨byteLength cut.above,
    byteLength cut.above + (byteLength cut.inside + (byteLength cut.line
      + byteLength cut.feed))⟩ := by
  have hoffset := cut.offset_eq
  rw [lineRange, sliceFrom?, cut.splitAt?_eq, Option.map_some, cut.lineStart_eq]
  dsimp only
  rw [takeWhile_line cut.line_noFeed cut.feed_ends]
  obtain hfeed | ⟨hfeed, hrest⟩ := cut.feed_ends
  · have hone : byteLength cut.feed = 1 := by rw [hfeed]; rfl
    rw [if_pos (by simp [hfeed]), hone, OffsetRange.mk.injEq]
    exact ⟨rfl, by omega⟩
  · have hnone : '\n' ∉ cut.line ++ (cut.feed ++ cut.rest) := by
      simpa [hfeed, hrest] using cut.line_noFeed
    have hlength := congrArg byteLength cut.text_eq
    simp only [byteLength_append, hrest, byteLength_nil] at hlength
    rw [if_neg hnone, hlength, Nat.add_zero]

theorem of_eq (cut : LineCut text o) :
    LineCol.of text o = ⟨cut.above.count '\n' + 1, cut.inside.length + 1⟩ := by
  have hplace := LineCol.of_append (cut.above ++ cut.inside) (cut.line ++ (cut.feed ++ cut.rest))
  rw [List.append_assoc, byteLength_append, ← cut.text_eq, ← cut.offset_eq] at hplace
  rw [hplace, LineCol.behind, List.count_append, List.count_eq_zero_of_not_mem cut.inside_noFeed,
    lastLine_append_of_endsLine cut.above_ends cut.inside_noFeed, Nat.add_zero]

/-! ## What the line holds -/

theorem slice?_inside (cut : LineCut text o) : slice? text (lineStart text o) o = some cut.inside :=
  slice?_eq_some_iff.2
    ⟨cut.above, _, cut.text_eq, cut.lineStart_eq.symm, by rw [cut.lineStart_eq, ← cut.offset_eq]⟩

theorem slice?_lineRange (cut : LineCut text o) :
    slice? text (lineRange text o).start (lineRange text o).stop
      = some (cut.inside ++ cut.line ++ cut.feed) := by
  refine slice?_eq_some_iff.2 ⟨cut.above, cut.rest, ?_, ?_, ?_⟩
  · simpa only [List.append_assoc] using cut.text_eq
  · rw [cut.lineRange_eq]
  · rw [cut.lineRange_eq]
    simp only [byteLength_append, Nat.add_assoc]

/-- The cut at the start of the line. -/
def atStart (cut : LineCut text o) : LineCut text (byteLength cut.above) where
  above := cut.above
  inside := []
  line := cut.inside ++ cut.line
  feed := cut.feed
  rest := cut.rest
  text_eq := by simpa only [List.append_assoc, List.nil_append] using cut.text_eq
  offset_eq := rfl
  above_ends := cut.above_ends
  inside_noFeed := List.not_mem_nil
  line_noFeed := by
    rw [List.mem_append, not_or]
    exact ⟨cut.inside_noFeed, cut.line_noFeed⟩
  feed_ends := cut.feed_ends

theorem lineRange_atStart (cut : LineCut text o) :
    lineRange text (byteLength cut.above) = lineRange text o := by
  have hstart := cut.atStart.lineRange_eq
  simp only [atStart, byteLength_nil, byteLength_append, Nat.zero_add, Nat.add_assoc] at hstart
  rw [hstart, cut.lineRange_eq]

end LineCut

/-! ## Lines and line numbers -/

/-- Lines above an offset are told apart by their number. -/
theorem eq_of_count_eq {above above' after after' : List Char}
    (h : above ++ after = above' ++ after') (habove' : EndsLine above')
    (hcount : above.count '\n' = above'.count '\n')
    (hle : byteLength above ≤ byteLength above') : above = above' := by
  obtain ⟨mid, rfl, -⟩ := exists_between h hle
  rw [List.count_append] at hcount
  have hmid : '\n' ∉ mid := List.count_eq_zero.1 (by omega)
  cases hlast : mid.getLast? with
  | none => rw [List.getLast?_eq_none_iff.1 hlast, List.append_nil]
  | some c =>
    -- the last character is a line feed, and there is none
    obtain rfl := habove' c (by rw [List.getLast?_append, hlast]; rfl)
    exact absurd (List.mem_of_getLast? hlast) hmid

theorem LineCut.above_eq (cut : LineCut text o) (cut' : LineCut text p)
    (h : cut.above.count '\n' = cut'.above.count '\n') : cut.above = cut'.above := by
  have htext := cut.text_eq.symm.trans cut'.text_eq
  rcases Nat.le_total (byteLength cut.above) (byteLength cut'.above) with hle | hle
  · exact eq_of_count_eq htext cut'.above_ends h hle
  · exact (eq_of_count_eq htext.symm cut.above_ends h.symm hle).symm

/-- Two offsets are on one line if and only if their lines have one number. -/
theorem lineRange_eq_iff (ho : IsBoundary text o) (hp : IsBoundary text p) :
    lineRange text o = lineRange text p ↔ (LineCol.of text o).line = (LineCol.of text p).line := by
  obtain ⟨cut⟩ := LineCut.nonempty ho
  obtain ⟨cut'⟩ := LineCut.nonempty hp
  rw [cut.of_eq, cut'.of_eq]
  constructor
  · intro h
    rw [cut.lineRange_eq, cut'.lineRange_eq] at h
    obtain ⟨hstart, -⟩ := OffsetRange.mk.inj h
    obtain ⟨habove, -⟩ := append_inj_of_byteLength (cut.text_eq.symm.trans cut'.text_eq) hstart
    rw [habove]
  · intro h
    have habove := cut.above_eq cut' (Nat.succ.inj h)
    rw [← cut.lineRange_atStart, ← cut'.lineRange_atStart, habove]

/-! ## Lines tile the text -/

/-- `RangesTile stop start ranges`: the ranges follow on one another from `start` to `stop`, and
only the last one may be empty. -/
inductive RangesTile (stop : Nat) : Nat → List OffsetRange → Prop
  | last {r : OffsetRange} (hle : r.start ≤ r.stop) (hstop : r.stop = stop) :
      RangesTile stop r.start [r]
  | cons {r : OffsetRange} {ranges : List OffsetRange} (hlt : r.start < r.stop)
      (hrest : RangesTile stop r.stop ranges) : RangesTile stop r.start (r :: ranges)

namespace RangesTile

theorem start_le {stop start : Nat} {ranges : List OffsetRange}
    (h : RangesTile stop start ranges) : ∀ r ∈ ranges, start ≤ r.start := by
  induction h with
  | last hle hstop =>
    intro r hr
    obtain rfl := List.mem_singleton.1 hr
    exact Nat.le_refl _
  | cons hlt hrest ih =>
    intro r hr
    obtain rfl | hr := List.mem_cons.1 hr
    · exact Nat.le_refl _
    · exact Nat.le_trans hlt.le (ih r hr)

theorem pairwise {stop start : Nat} {ranges : List OffsetRange}
    (h : RangesTile stop start ranges) : ranges.Pairwise fun r s => r.start < s.start := by
  induction h with
  | last hle hstop => exact List.pairwise_singleton _ _
  | cons hlt hrest ih =>
    exact List.pairwise_cons.2 ⟨fun s hs => Nat.lt_of_lt_of_le hlt (hrest.start_le s hs), ih⟩

end RangesTile

/-- An offset between the start of a line and its end is on the line.  The end belongs to the next
line, or to this one if the text ends there without a line feed. -/
theorem lineRange_of_mem {above line feed rest : List Char} (habove : EndsLine above)
    (hline : '\n' ∉ line) (hfeed : IsFeed feed rest)
    (hp : IsBoundary (above ++ (line ++ (feed ++ rest))) p) (hle : byteLength above ≤ p)
    (hlt : p < byteLength above + (byteLength line + byteLength feed) ∨ feed = []) :
    lineRange (above ++ (line ++ (feed ++ rest))) p
      = ⟨byteLength above, byteLength above + (byteLength line + byteLength feed)⟩ := by
  obtain ⟨before, after, htext, rfl⟩ := isBoundary_iff.1 hp
  obtain ⟨inside, rfl, hafter⟩ := exists_between htext hle
  have hshort : byteLength inside ≤ byteLength line := by
    obtain rfl | ⟨rfl, rfl⟩ := hfeed
    · rcases hlt with hlt | hnil
      · have hone : byteLength ['\n'] = 1 := rfl
        rw [byteLength_append, hone] at hlt
        omega
      · exact absurd hnil (by simp)
    · have hlength := congrArg byteLength hafter
      simp only [byteLength_append, byteLength_nil] at hlength
      omega
  obtain ⟨behind, rfl, rfl⟩ := exists_between hafter.symm hshort
  rw [List.mem_append, not_or] at hline
  let cut : LineCut (above ++ (inside ++ behind ++ (feed ++ rest)))
      (byteLength (above ++ inside)) :=
    ⟨above, inside, behind, feed, rest, by simp only [List.append_assoc], byteLength_append ..,
      habove, hline.1, hline.2, hfeed⟩
  rw [cut.lineRange_eq, byteLength_append inside, Nat.add_assoc]

/-- The ranges are those of the lines from an offset to the end of the text. -/
structure LinesFrom (text : List Char) (start : Nat) (ranges : List OffsetRange) : Prop where
  tile : RangesTile (byteLength text) start ranges
  mem_iff : ∀ r, r ∈ ranges ↔ ∃ o, IsBoundary text o ∧ start ≤ o ∧ r = lineRange text o

namespace LinesFrom

variable {above line : List Char} {ranges : List OffsetRange}

/-- A line without a line feed is the last one. -/
theorem last (habove : EndsLine above) (hline : '\n' ∉ line) :
    LinesFrom (above ++ line) (byteLength above)
      [⟨byteLength above, byteLength above + byteLength line⟩] where
  tile := .last (r := ⟨_, _⟩) (Nat.le_add_right _ _) (byteLength_append above line).symm
  mem_iff r := by
    have hrange {o : Nat} (ho : IsBoundary (above ++ line) o) (hle : byteLength above ≤ o) :
        lineRange (above ++ line) o = ⟨byteLength above, byteLength above + byteLength line⟩ := by
      have hmem := @lineRange_of_mem o above line [] [] habove hline (.inr ⟨rfl, rfl⟩)
        (by simpa using ho) hle (.inr rfl)
      simpa using hmem
    rw [List.mem_singleton]
    constructor
    · rintro rfl
      have hstart : IsBoundary (above ++ line) (byteLength above) :=
        isBoundary_iff.2 ⟨above, line, rfl, rfl⟩
      exact ⟨byteLength above, hstart, Nat.le_refl _, (hrange hstart (Nat.le_refl _)).symm⟩
    · rintro ⟨o, ho, hle, rfl⟩
      exact hrange ho hle

/-- Behind a line feed there are the lines of the rest of the text. -/
theorem cons {rest : List Char} (habove : EndsLine above) (hline : '\n' ∉ line)
    (h : LinesFrom (above ++ (line ++ (['\n'] ++ rest))) (byteLength above + (byteLength line + 1))
      ranges) :
    LinesFrom (above ++ (line ++ (['\n'] ++ rest))) (byteLength above)
      (⟨byteLength above, byteLength above + (byteLength line + 1)⟩ :: ranges) where
  tile := .cons (r := ⟨_, _⟩) (Nat.lt_add_of_pos_right (Nat.succ_pos _)) h.tile
  mem_iff r := by
    have hrange {o : Nat} (ho : IsBoundary (above ++ (line ++ (['\n'] ++ rest))) o)
        (hle : byteLength above ≤ o) (hlt : o < byteLength above + (byteLength line + 1)) :
        lineRange (above ++ (line ++ (['\n'] ++ rest))) o
          = ⟨byteLength above, byteLength above + (byteLength line + 1)⟩ :=
      lineRange_of_mem habove hline (.inl rfl) ho hle (.inl hlt)
    rw [List.mem_cons, h.mem_iff]
    constructor
    · rintro (rfl | ⟨o, ho, hle, rfl⟩)
      · have hstart : IsBoundary (above ++ (line ++ (['\n'] ++ rest))) (byteLength above) :=
          isBoundary_iff.2 ⟨above, _, rfl, rfl⟩
        exact ⟨byteLength above, hstart, Nat.le_refl _,
          (hrange hstart (Nat.le_refl _) (by omega)).symm⟩
      · exact ⟨o, ho, by omega, rfl⟩
    · rintro ⟨o, ho, hle, rfl⟩
      by_cases hlt : o < byteLength above + (byteLength line + 1)
      · exact .inl (hrange ho hle hlt)
      · exact .inr ⟨o, ho, Nat.le_of_not_lt hlt, rfl⟩

end LinesFrom

/-- From the start of every line, lines follow to the end of the text. -/
theorem exists_linesFrom (after : List Char) {above : List Char} (habove : EndsLine above) :
    ∃ ranges, LinesFrom (above ++ after) (byteLength above) ranges := by
  -- on the length of what is left of the text
  induction hlen : after.length using Nat.strong_induction_on generalizing after above with
  | _ n ih =>
    obtain ⟨line, feed, rest, rfl, hline, hfeed, -⟩ := exists_lineStop above after
    obtain rfl | ⟨rfl, rfl⟩ := hfeed
    · have hnext : EndsLine (above ++ (line ++ ['\n'])) := by
        intro c hc
        rw [← List.append_assoc, List.getLast?_concat] at hc
        exact (Option.some.inj hc).symm
      have hshorter : rest.length < n := by
        rw [← hlen, List.length_append, List.length_append, List.length_singleton]
        omega
      obtain ⟨ranges, hranges⟩ := ih rest.length hshorter rest hnext rfl
      have hone : byteLength ['\n'] = 1 := rfl
      rw [List.append_assoc above, List.append_assoc line, byteLength_append above,
        byteLength_append line, hone] at hranges
      exact ⟨_, hranges.cons habove hline⟩
    · rw [List.append_nil, List.append_nil]
      exact ⟨_, .last habove hline⟩

/-! ## The line of an offset -/

/-- What the line of an offset says: the offset is on it, it holds no line feed in front of its end,
and the column and the test for a line start count and look at what is in front of the offset on it.
Line and column are at most one more than the number of bytes, so 32 bits hold them for every text
of less than 4 GiB. -/
structure LineAgrees (text : List Char) (o : Nat) : Prop where
  start_le : lineStart text o ≤ o
  le_stop : o ≤ (lineRange text o).stop
  range_start : (lineRange text o).start = lineStart text o
  text_of_line : ∃ line feed, slice? text (lineRange text o).start (lineRange text o).stop
      = some (line ++ feed) ∧ '\n' ∉ line ∧ (feed = ['\n'] ∨ feed = [])
  column : ∃ inside, slice? text (lineStart text o) o = some inside ∧
      (LineCol.of text o).column = inside.length + 1 ∧
      (startsLine text o = true ↔ ∀ c ∈ inside, isBlank c = true)
  small : (LineCol.of text o).line ≤ byteLength text + 1 ∧
      (LineCol.of text o).column ≤ byteLength text + 1

theorem lineAgrees (ho : IsBoundary text o) : LineAgrees text o := by
  obtain ⟨cut⟩ := LineCut.nonempty ho
  have hoffset := cut.offset_eq
  have hlength := congrArg byteLength cut.text_eq
  simp only [byteLength_append] at hlength
  refine ⟨?_, ?_, rfl, ?_, ?_, ?_⟩
  · rw [cut.lineStart_eq]
    omega
  · rw [cut.lineRange_eq]
    dsimp only
    omega
  · refine ⟨cut.inside ++ cut.line, cut.feed, cut.slice?_lineRange, ?_, ?_⟩
    · rw [List.mem_append, not_or]
      exact ⟨cut.inside_noFeed, cut.line_noFeed⟩
    · exact cut.feed_ends.imp_right And.left
  · refine ⟨cut.inside, cut.slice?_inside, by rw [cut.of_eq], ?_⟩
    rw [startsLine_iff, cut.slice?_inside]
    simp only [Option.some.injEq, exists_eq_left', List.all_eq_true]
  · exact LineCol.of_small text o

/-- **Lines agree.**  The searches for the start of a line, for its end, and for the line number and
the column agree at every boundary of every text, and the line ranges tile the text. -/
theorem lines_agree (text : List Char) :
    (∀ o, IsBoundary text o → LineAgrees text o) ∧
      (∀ o p, IsBoundary text o → IsBoundary text p →
        (lineRange text o = lineRange text p ↔
          (LineCol.of text o).line = (LineCol.of text p).line)) ∧
      ∃ ranges, RangesTile (byteLength text) 0 ranges ∧
        (ranges.Pairwise fun r s => r.start < s.start) ∧
        ∀ r, r ∈ ranges ↔ ∃ o, IsBoundary text o ∧ r = lineRange text o := by
  obtain ⟨ranges, hranges⟩ := @exists_linesFrom text [] (by simp [EndsLine])
  have hmem (r : OffsetRange) : r ∈ ranges ↔ ∃ o, IsBoundary text o ∧ r = lineRange text o := by
    simpa using hranges.mem_iff r
  exact ⟨fun o => lineAgrees, fun o p => lineRange_eq_iff, ranges, hranges.tile,
    hranges.tile.pairwise, hmem⟩

/-- A text of two lines, the first one with a character of two bytes, the second one with a tab in
front of its only letter and no line feed. -/
theorem lines_agree_twoLines :
    LineAgrees ['é', '\n', '\t', 'b'] 4 ∧
      lineRange ['é', '\n', '\t', 'b'] 3 = lineRange ['é', '\n', '\t', 'b'] 5 ∧
      lineRange ['é', '\n', '\t', 'b'] 2 ≠ lineRange ['é', '\n', '\t', 'b'] 3 := by
  obtain ⟨hagree, hsame, -⟩ := lines_agree ['é', '\n', '\t', 'b']
  refine ⟨hagree 4 (by decide), (hsame 3 5 (by decide) (by decide)).2 (by decide), fun h => ?_⟩
  exact absurd ((hsame 2 3 (by decide) (by decide)).1 h) (by decide)

end PropertyLint
