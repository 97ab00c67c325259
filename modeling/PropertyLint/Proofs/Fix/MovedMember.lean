/-
# Moving a member on lines of its own

Where only blanks stand behind the member on its last line, and in front of the other member on its
line, moving the lines of the member moves the member and nothing else (`proposeFix_moves_member`).
The text falls into four passages that start and end with lines.  The lexer takes each of them
apart for itself (`LineMove.Lexes`), so the new text has the same tokens in another order
(`Parts.exists_exchange`), and the parser reads the same declarations from them
(`LineMove.parse_after`).
-/
import PropertyLint.Proofs.Fix.Moved
import PropertyLint.Proofs.Syntax.Around
import PropertyLint.Proofs.Syntax.Exchange

namespace PropertyLint

open Grammar

namespace LineMove

/-- The lines above stay where they are. -/
def passageAbove (m : LineMove) : Passage := ⟨0, 0, byteLength m.above⟩

/-- The lines of the member without the line feed. -/
def inside (m : LineMove) : List Char := m.indent ++ (m.member ++ m.tail)

/-- The lines of the member are moved up. -/
def passageLines (m : LineMove) : Passage :=
  ⟨byteLength m.front, byteLength m.above, byteLength m.inside⟩

/-- What follows the lines above is moved down. -/
def passageBetween (m : LineMove) : Passage :=
  ⟨byteLength m.above, byteLength m.above + byteLength m.inside + 2,
    byteLength (m.shared ++ m.between)⟩

def passageBelow (m : LineMove) : Passage :=
  ⟨byteLength (m.front ++ m.lines ++ m.gapBelow),
    byteLength m.above + byteLength m.inside + 2 + byteLength (m.shared ++ m.between),
    byteLength m.below⟩

/-- Nothing but the member stands on its lines, and nothing in front of the other member on its
line. -/
def IsClear (m : LineMove) : Prop := m.shared.all isBlank = true ∧ m.tail.all isBlank = true

/-- The lexer takes the text apart where it is cut, and gives the tokens of each of the four
passages. -/
structure Lexes (m : LineMove) (as bs zs es : List Token) : Prop where
  above : ∃ a, m.above = a ++ ['\n'] ∧ Lexed [] 0 none a as none
  between : ∃ b, m.shared ++ m.between = b ++ ['\n'] ∧ Lexed [] (byteLength m.above) none b bs none
  lines : Lexed [] (byteLength m.front) none m.inside zs none
  below : ∃ doc, Lexed [] (byteLength (m.front ++ m.lines ++ m.gapBelow)) none m.below es doc

/-- The tokens of the text with the lines further up. -/
theorem Lexes.exists_after {m : LineMove} {as bs zs es : List Token} (h : m.Lexes as bs zs es) :
    ∃ as' bs' zs' es', tokensFrom m.after 0 none = .ok (as' ++ (zs' ++ (bs' ++ es'))) ∧
      List.Forall₂ m.passageAbove.TokenAt as as' ∧ List.Forall₂ m.passageBetween.TokenAt bs bs' ∧
      List.Forall₂ m.passageLines.TokenAt zs zs' ∧ List.Forall₂ m.passageBelow.TokenAt es es' := by
  obtain ⟨a, ha, habove⟩ := h.above
  obtain ⟨b, hb, hbetween⟩ := h.between
  obtain ⟨doc, hbelow⟩ := h.below
  obtain ⟨as', _, ha', has, ⟨⟩⟩ := Lexed.exists_of_start (S := m.passageAbove) habove
    (by simp [passageAbove, ha])
  obtain ⟨zs', _, hz', hzs, ⟨⟩⟩ := Lexed.exists_of_start (S := m.passageLines) h.lines
    (Nat.le_refl _)
  obtain ⟨bs', _, hb', hbs, ⟨⟩⟩ := Lexed.exists_of_start (S := m.passageBetween) hbetween
    (by simp only [passageBetween, hb]; simp)
  obtain ⟨es', e, he', hes, -⟩ := Lexed.exists_of_start (S := m.passageBelow) hbelow (Nat.le_refl _)
  refine ⟨as', bs', zs', es', ?_, has, hbs, hzs, hes⟩
  have hafter : m.after =
      a ++ '\n' :: (m.inside ++ '\n' :: ([] ++ '\n' :: (b ++ '\n' :: m.below))) := by
    have hb' : m.shared ++ (m.between ++ m.below) = b ++ '\n' :: m.below := by
      rw [← List.append_assoc, hb, List.append_assoc, List.singleton_append]
    simp [after, inside, ha, hb']
  have hfeed : '\n'.utf8Size = 1 := rfl
  have hlines : m.passageLines.start' = 0 + byteLength a + 1 := by
    simp [passageLines, ha, hfeed]
  have hbetween : m.passageBetween.start' = m.passageLines.start' + byteLength m.inside + 1 +
      byteLength ([] : List Char) + 1 := by
    simp [passageBetween, passageLines]
  have hbelow : m.passageBelow.start' = m.passageBetween.start' + byteLength b + 1 := by
    simp only [passageBelow, passageBetween]
    rw [hb]
    simp [hfeed, Nat.add_assoc]
  rw [hlines] at hz' hbetween
  rw [hbetween] at hb' hbelow
  rw [hbelow] at he'
  rw [hafter]
  have hblank := Lexed.appendLine (.nil _ none) (hb'.appendLine he')
  exact (ha'.appendLine (hz'.appendLine hblank)).tokensFrom_end

/-! ## The tokens of the passages -/

section
variable {m : LineMove} {key target : Member} {front rest : List Token} {t u : Token}
  {doc : Option OffsetRange} (hfits : m.Fits key target)
include hfits

theorem Fits.lexed_above (hclear : m.IsClear) (ht : isBorder t.kind = true)
    (hu : target.BeginsWith u) (h : Lexed [] 0 none m.before (front ++ t :: u :: rest) doc) :
    ∃ a, m.above = a ++ ['\n'] ∧ Lexed [] 0 none a (front ++ [t]) none ∧
      Lexed [] (byteLength m.above) none
        (m.shared ++ (m.between ++ (m.gapAbove ++ (m.lines ++ (m.gapBelow ++ m.below)))))
        (u :: rest) doc := by
  rw [before, LineMove.front, List.append_assoc, List.append_assoc, List.append_assoc] at h
  have habove := h.exists_line (isBorder_kind ht) hfits.above hclear.1
    (by rw [← hu.fullRange_start, hfits.target, Nat.zero_add])
  rwa [Nat.zero_add] at habove

theorem Fits.lexed_between (ht : isBorder t.kind = true) (hu : key.BeginsWith u)
    (h : Lexed [] (byteLength m.above) none
      (m.shared ++ (m.between ++ (m.gapAbove ++ (m.lines ++ (m.gapBelow ++ m.below)))))
      (front ++ t :: u :: rest) doc) :
    ∃ b, m.shared ++ m.between = b ++ ['\n'] ∧
      Lexed [] (byteLength m.above) none b (front ++ [t]) none ∧
      Lexed [] (byteLength m.front) none (m.lines ++ (m.gapBelow ++ m.below)) (u :: rest) doc := by
  have hends : EndsLine (m.shared ++ m.between) := by
    intro d hd
    refine hfits.between d ?_
    rw [List.getLast?_append, Option.mem_def.1 hd]
    rfl
  have hblank : (m.gapAbove ++ m.indent).all isBlank = true := by
    rw [List.all_append, hfits.gapAbove.1, hfits.indent.2, Bool.true_and]
  rw [lines, List.append_assoc m.indent, ← List.append_assoc, ← List.append_assoc m.gapAbove] at h
  obtain ⟨b, hb, hlexed, hrest⟩ := h.exists_line (isBorder_kind ht) hends hblank (by
    rw [← hu.fullRange_start, hfits.key.start]
    simp [LineMove.front])
  rw [List.append_assoc] at hrest
  obtain ⟨-, hrest⟩ := hrest.drop_blank hfits.gapAbove.1
  refine ⟨b, hb, hlexed, ?_⟩
  have hfront : byteLength m.above + byteLength (m.shared ++ m.between) + byteLength m.gapAbove
      = byteLength m.front := by
    simp [LineMove.front, Nat.add_assoc]
  rwa [hfront, ← List.append_assoc m.indent] at hrest

theorem Fits.lexed_lines (hclear : m.IsClear) (hstop : t.range.stop = key.fullRange.stop)
    (h : Lexed [] (byteLength m.front) none (m.lines ++ (m.gapBelow ++ m.below))
      (front ++ t :: rest) doc) :
    Lexed [] (byteLength m.front) none m.inside (front ++ [t]) none ∧
      Lexed [] (byteLength (m.front ++ m.lines ++ m.gapBelow)) none m.below rest doc := by
  have hlines : m.lines ++ (m.gapBelow ++ m.below) = (m.indent ++ m.member) ++
      (m.tail ++ ((m.feed ++ m.gapBelow) ++ m.below)) := by
    simp [lines]
  obtain ⟨a, b, hcut, hlexed, -, hend, hrest⟩ := h.exists_split
  rw [hstop, hfits.key.stop, hfits.key.start, byteLength_append, Nat.add_assoc,
    Nat.add_left_cancel_iff, ← byteLength_append] at hend
  obtain ⟨rfl, rfl⟩ := append_inj_of_byteLength (hlines.symm.trans hcut) hend
  obtain ⟨hspace, hrest⟩ := hrest.drop_blank hclear.2
  constructor
  · have hlineEnd : AtLineEnd (m.feed ++ m.gapBelow ++ m.below) := by
      obtain hfeed | ⟨hfeed, hnil⟩ := hfits.feed
      · rw [hfeed]
        exact fun d hd => (Option.some.inj hd).symm
      · rw [hfeed, List.nil_append, hnil]
        exact fun d hd => by cases hd
    rw [← List.append_nil (front ++ [t]), inside, ← List.append_assoc]
    refine (Lexed.append ?_ (.of_isSpace hspace _ _ none)).of_lineEnd hlineEnd
    rwa [List.append_nil] at hlexed
  · have hbelow : (m.feed ++ m.gapBelow).all isBlank = true := by
      obtain hfeed | ⟨hfeed, -⟩ := hfits.feed <;>
        rw [hfeed, List.all_append, hfits.gapBelow.1] <;> rfl
    obtain ⟨-, hrest⟩ := hrest.drop_blank hbelow
    convert hrest using 1
    rw [hstop, hfits.key.stop, hfits.key.start]
    simp [lines]
    omega

end

/-- The tokens end with one that stands around members. -/
def EndsWithBorder (ts : List Token) : Prop := ∃ front t, ts = front ++ [t] ∧ isBorder t.kind = true

/-- The tokens of the text are those of its passages. -/
structure Parts (m : LineMove) (c ct ck ce : Cursor) (as bs zs : List Token) : Prop where
  lexes : m.Lexes as bs zs ce.tokens
  above : c.tokens = as ++ ct.tokens
  between : ct.tokens = bs ++ ck.tokens
  lines : ck.tokens = zs ++ ce.tokens
  aboveEnds : EndsWithBorder as
  betweenEnds : EndsWithBorder bs
  linesEnd : EndsWithBorder zs
  target_last : ct.last ≤ byteLength m.above
  key_last : ck.last ≤ byteLength m.front
  stop : ce.last ≤ byteLength (m.front ++ m.lines ++ m.gapBelow)

theorem exists_parts {m : LineMove} {key target : Member} {c ct ck ce : Cursor}
    (hfits : m.Fits key target) (hclear : m.IsClear) (hplaces : Places c ct ck ce target key)
    (htokens : tokensFrom m.before 0 none = .ok c.tokens)
    (hfull : key.fullRange.stop = key.range.stop) (hlt : key.range.start < key.range.stop) :
    ∃ as bs zs, m.Parts c ct ck ce as bs zs := by
  obtain ⟨as, t₁, hread₁, ht₁⟩ := hplaces.above
  obtain ⟨bs, t₂, hread₂, ht₂⟩ := hplaces.between
  obtain ⟨zs, t₃, hread₃, ht₃⟩ := hplaces.closes
  obtain ⟨-, u, rest, hu, htarget⟩ := hplaces.targetStarts
  obtain ⟨-, v, rest', hv, hkey⟩ := hplaces.keyStarts
  obtain ⟨doc, hlexed⟩ := exists_lexed htokens
  rw [hread₁.tokens, hu, List.append_assoc, List.singleton_append] at hlexed
  obtain ⟨a, ha, hlexed₁, hrest⟩ := hfits.lexed_above hclear ht₁ htarget hlexed
  rw [← hu, hread₂.tokens, hv, List.append_assoc, List.singleton_append] at hrest
  obtain ⟨b, hb, hlexed₂, hrest⟩ := hfits.lexed_between ht₂ hkey hrest
  rw [← hv, hread₃.tokens, List.append_assoc, List.singleton_append] at hrest
  have hlast : ce.last = t₃.range.stop := by rw [hread₃.last, Cursor.lastStop_concat]
  have hend : t₃.range.stop = key.fullRange.stop := by
    have hstop := hplaces.stop
    omega
  obtain ⟨hlexed₃, hrest⟩ := hfits.lexed_lines hclear hend hrest
  refine ⟨as ++ [t₁], bs ++ [t₂], zs ++ [t₃],
    { lexes := ⟨⟨a, ha, hlexed₁⟩, ⟨b, hb, hlexed₂⟩, hlexed₃, doc, hrest⟩
      above := hread₁.tokens
      between := hread₂.tokens
      lines := hread₃.tokens
      aboveEnds := ⟨as, t₁, rfl, ht₁⟩
      betweenEnds := ⟨bs, t₂, rfl, ht₂⟩
      linesEnd := ⟨zs, t₃, rfl, isBorder_iff.2 (ht₃.imp_right .inr)⟩
      target_last := ?_
      key_last := ?_
      stop := ?_ }⟩
  · have hstop := hlexed₁.stop_le
    rw [hread₁.last, Cursor.lastStop_concat, ha, byteLength_append]
    omega
  · have hstop := hlexed₂.stop_le
    have hlength := congrArg byteLength hb
    rw [byteLength_append, byteLength_append] at hlength
    rw [hread₂.last, Cursor.lastStop_concat]
    simp only [LineMove.front, byteLength_append]
    omega
  · rw [hlast, hend, hfits.key.stop, hfits.key.start]
    simp [lines]
    omega

end LineMove

theorem Grammar.IsFresh.of_forall₂ {S : Passage} {ws ws' rest rest' : List Token}
    (h : IsFresh (ws ++ rest)) (hws : List.Forall₂ S.TokenAt ws ws')
    (hrest : ws = [] → IsFresh rest') : IsFresh (ws' ++ rest') := by
  cases hws with
  | nil => exact hrest rfl
  | cons hfirst _ =>
    rintro t ⟨⟩
    rw [← hfirst.1]
    exact h _ rfl

/-- Behind one piece of the second text another piece of the first one follows. -/
theorem Grammar.Frame.Matches.enter {F G : Frame} {ws ws' : List Token} {c c' d : Cursor}
    (hc : F.Matches [] c c') (hF : F.rest' = ws' ++ G.rest') (htokens : d.tokens = ws ++ G.rest)
    (hws : List.Forall₂ G.TokenAt ws ws') (hlast : d.last ≤ G.start)
    (hlast' : F.start' + F.size ≤ G.start')
    (hborder : G.IsLast ∨ ∀ t ∈ ws.getLast?, isBorder t.kind = true) : G.Matches ws d c' := by
  obtain ⟨_, htokens', ⟨⟩⟩ := hc.tokens'
  refine ⟨htokens, ⟨ws', by rw [htokens', hF, List.nil_append], hws⟩, .inr ⟨hlast, ?_⟩, hborder⟩
  obtain ⟨y, hy, -, hlast⟩ | ⟨-, hle⟩ := hc.last <;> omega

namespace LineMove

theorem EndsWithBorder.getLast? {ts : List Token} (h : EndsWithBorder ts) :
    ∀ t ∈ ts.getLast?, isBorder t.kind = true := by
  obtain ⟨front, t, rfl, ht⟩ := h
  rw [List.getLast?_concat]
  rintro u ⟨⟩
  exact ht

theorem EndsWithBorder.ne_nil {ts : List Token} (h : EndsWithBorder ts) : ts ≠ [] := by
  obtain ⟨front, t, rfl, -⟩ := h
  simp

section
variable {m : LineMove} {key target : Member} {c ct ck ce : Cursor} {as bs zs : List Token}

/-- The two texts have the same slices in each of the passages. -/
theorem copies (m : LineMove) (r r' : OffsetRange) (h : m.passageAbove.RangeAt r r' ∨
    m.passageLines.RangeAt r r' ∨ m.passageBetween.RangeAt r r' ∨ m.passageBelow.RangeAt r r') :
    textAt m.before r = textAt m.after r' := by
  have hfeed : '\n'.utf8Size = 1 := rfl
  obtain h | h | h | h := h
  · have heq := h.slice?_eq (x := []) (z := []) (a := m.above) rfl rfl rfl
      (m.shared ++ (m.between ++ (m.gapAbove ++ (m.lines ++ (m.gapBelow ++ m.below)))))
      (m.inside ++ (['\n', '\n'] ++ (m.shared ++ (m.between ++ m.below))))
    simpa [textAt, before, after, front, inside] using heq
  · have heq := h.slice?_eq (x := m.front) (z := m.above) (a := m.inside) rfl rfl rfl
      (m.feed ++ (m.gapBelow ++ m.below)) (['\n', '\n'] ++ (m.shared ++ (m.between ++ m.below)))
    simpa [textAt, before, after, lines, inside] using heq
  · have heq := h.slice?_eq (x := m.above) (z := m.above ++ (m.inside ++ ['\n', '\n']))
      (a := m.shared ++ m.between) rfl (by simp [passageBetween, hfeed]; omega) rfl
      (m.gapAbove ++ (m.lines ++ (m.gapBelow ++ m.below))) m.below
    simpa [textAt, before, after, front, inside] using heq
  · have heq := h.slice?_eq (x := m.front ++ m.lines ++ m.gapBelow)
      (z := m.above ++ (m.inside ++ (['\n', '\n'] ++ (m.shared ++ m.between))))
      (a := m.below) rfl (by simp [passageBelow, hfeed]; omega) rfl [] []
    simpa [textAt, before, after, inside] using heq

/-- In the text with the lines further up the two members have changed places. -/
theorem Parts.exists_exchange (h : m.Parts c ct ck ce as bs zs)
    (hplaces : Places c ct ck ce target key) (hc : c.last = 0) :
    ∃ tokens', tokensFrom m.after 0 none = .ok tokens' ∧
      ∃ S : Exchange m.before m.after ct ck ce, ∀ c', c'.tokens = tokens' → c'.last = 0 →
        S.above.Matches as c c' := by
  obtain ⟨as', bs', zs', es', htokens, has, hbs, hzs, hes⟩ := h.lexes.exists_after
  have hkey : IsFresh (zs ++ ce.tokens) := h.lines ▸ hplaces.keyStarts.1
  have htarget : IsFresh (bs ++ ck.tokens) := h.between ▸ hplaces.targetStarts.1
  have hbelow : IsFresh (ce.tokens ++ []) := by simpa using hplaces.below
  have hbelow' : IsFresh (es' ++ []) := hbelow.of_forall₂ hes fun _ => by rintro t ⟨⟩
  have hkey' : IsFresh (zs' ++ (bs' ++ es')) :=
    hkey.of_forall₂ hzs fun hnil => absurd hnil h.linesEnd.ne_nil
  have htarget' : IsFresh (bs' ++ es') :=
    htarget.of_forall₂ hbs fun hnil => absurd hnil h.betweenEnds.ne_nil
  have hend : IsFresh [] := by rintro t ⟨⟩
  refine ⟨_, htokens, {
    above := ⟨m.passageAbove, ct.tokens, zs' ++ (bs' ++ es'), hplaces.targetStarts.1, hkey'⟩
    first := ⟨m.passageBetween, ck.tokens, es', hplaces.keyStarts.1, by simpa using hbelow'⟩
    second := ⟨m.passageLines, ce.tokens, bs' ++ es', hplaces.below, htarget'⟩
    below := ⟨m.passageBelow, [], [], hend, hend⟩
    above_copies := fun r r' hr => m.copies r r' (.inl hr)
    first_copies := fun r r' hr => m.copies r r' (.inr (.inr (.inl hr)))
    second_copies := fun r r' hr => m.copies r r' (.inr (.inl hr))
    below_copies := fun r r' hr => m.copies r r' (.inr (.inr (.inr hr)))
    above_rest := rfl
    first_rest := rfl
    second_rest := rfl
    below_last := ⟨rfl, rfl⟩
    toSecond := fun c' hc => ⟨zs, ?_⟩
    toFirst := fun c' hc => ⟨bs, ?_⟩
    toBelow := fun c' hc => ⟨ce.tokens, ?_⟩ },
    fun c' hc' hlast => ⟨h.above, ⟨as', hc', has⟩, .inr ?_, .inr h.aboveEnds.getLast?⟩⟩
  · exact hc.enter rfl h.lines hzs h.key_last (by simp [passageAbove, passageLines])
      (.inr h.linesEnd.getLast?)
  · exact hc.enter rfl h.between hbs h.target_last (by simp [passageLines, passageBetween])
      (.inr h.betweenEnds.getLast?)
  · refine hc.enter (List.append_nil es').symm (List.append_nil _).symm hes h.stop ?_
      (.inl ⟨rfl, rfl⟩)
    simp [passageBetween, passageBelow]
  · rw [hc, hlast]
    exact ⟨Nat.zero_le _, Nat.zero_le _⟩

end

end LineMove

section
variable {d : Diagnostic} {t : SyntaxTree} {fix : CodeFix} {file : FileId} {text : String}
  {decl : TypeDecl} {key target : Member}

/-- The members of a type stand in the order in which they start. -/
theorem exists_members_eq (h : SyntaxTree.parse file text = .ok t) (hdecl : decl ∈ t.types)
    (hkey : key ∈ decl.members) (htarget : target ∈ decl.members)
    (hlt : target.fullRange.start < key.fullRange.start) :
    ∃ pre mid post, decl.members = pre ++ target :: (mid ++ key :: post) := by
  have hordered := TypeDecl.members_precede (SyntaxTree.wellNested_of_mem_types h hdecl)
  obtain ⟨pre, rest, hms⟩ := List.append_of_mem htarget
  rw [hms] at hordered
  have hkey' := hkey
  rw [hms, List.mem_append, List.mem_cons] at hkey'
  obtain hpre | rfl | hrest := hkey'
  · have hbefore : key.range.stop ≤ target.range.start :=
      (List.pairwise_append.1 hordered).2.2 key hpre target (.head _)
    have hstart := Nat.lt_of_lt_of_le (SyntaxTree.range_start_lt_stop h hdecl hkey) hbefore
    exact absurd (SyntaxTree.fullRange_start_lt h hdecl hkey htarget hstart) (Nat.lt_asymm hlt)
  · exact absurd hlt (Nat.lt_irrefl _)
  · obtain ⟨mid, post, rfl⟩ := List.append_of_mem hrest
    exact ⟨pre, mid, post, hms⟩

/-- Where the two members stand on lines of their own, the text with the lines further up is read as
the text was, but for the order of the members. -/
theorem LineMove.parse_after {m : LineMove} (h : SyntaxTree.parse file text = .ok t)
    (hdecl : decl ∈ t.types) {pre mid post : List Member}
    (hms : decl.members = pre ++ target :: (mid ++ key :: post)) (hkey : key.isType = false)
    (htext : text.toList = m.before) (hfits : m.Fits key target) (hclear : m.IsClear) :
    ∃ t', SyntaxTree.parse file (String.ofList m.after) = .ok t' ∧
      ChangedUnit text.toList m.after decl (pre ++ key :: target :: (mid ++ post)) t.root
        t'.root := by
  obtain ⟨-, -, tokens, c₁, htokens, hrun⟩ := SyntaxTree.exists_run_of_parse h
  obtain ⟨ct, ck, ce, hplaces, hS⟩ := compilationUnit_exchanges hms hkey hdecl hrun
  have hkeyMem : key ∈ decl.members := by
    rw [hms]
    simp
  rw [htext] at htokens ⊢
  obtain ⟨as, bs, zs, hparts⟩ := exists_parts hfits hclear hplaces htokens
    (SyntaxTree.fullRange_stop_eq h hdecl hkeyMem) (SyntaxTree.range_start_lt_stop h hdecl hkeyMem)
  obtain ⟨tokens', htokens', S, hmatches⟩ := hparts.exists_exchange hplaces rfl
  have htokenize : tokenize (String.ofList m.after) = .ok tokens' := by
    rw [tokenize, String.toList_ofList, htokens']
  obtain ⟨root, c₂, hrun', hchanged⟩ := hS S (hmatches (startOf (String.ofList m.after) tokens')
    rfl rfl)
  refine ⟨⟨file, String.ofList m.after, root⟩, ?_, hchanged⟩
  rw [SyntaxTree.parse_of_tokenize htokenize, show compilationUnit.outcome _ = _ from hrun']
  rfl

/-- **Moving a member on lines of its own.**  As long as only blanks stand behind the member on its
last line, and in front of the other member on its line, the new text is a program with the same
declarations, in which the member stands directly in front of the other one. -/
theorem proposeFix_moves_member (h : SyntaxTree.parse file text = .ok t)
    (hrule : d.rule = .keyDeclaredFirst) (hfix : proposeFix d t = some fix)
    (hself : ¬ MovesToItself d t) :
    ∃ name decl key target, d.property? .moveBefore = some name ∧
      t.containingType? d.range = some decl ∧ key.range = d.range ∧
      decl.fieldOrProperty? name = some target ∧
      ∃ m : LineMove, text.toList = m.before ∧ m.Fits key target ∧
        fix.apply text = .ok (String.ofList m.after) ∧
        (m.IsClear → ∃ pre mid post, decl.members = pre ++ target :: (mid ++ key :: post) ∧
          ∃ t', SyntaxTree.parse file (String.ofList m.after) = .ok t' ∧
            ChangedUnit text.toList m.after decl (pre ++ key :: target :: (mid ++ post)) t.root
              t'.root) := by
  obtain ⟨name, decl, key, target, hname, hdecl, hkey, hrange, htarget, hlt, m, htext, hfits,
    happly⟩ := exists_move h hrule hfix hself
  refine ⟨name, decl, key, target, hname, hdecl, hrange, htarget, m, htext, hfits, happly,
    fun hclear => ?_⟩
  have hmem := SyntaxTree.containingType?_mem hdecl
  obtain ⟨hkeyMem, hkeyType⟩ := List.mem_filter.1 hkey
  obtain ⟨pre, mid, post, hms⟩ := exists_members_eq h hmem hkeyMem
    (List.mem_of_find?_eq_some htarget) hlt
  exact ⟨pre, mid, post, hms, LineMove.parse_after h hmem hms (by simpa using hkeyType) htext hfits
    hclear⟩

end

/-- With the brace of the class on a line of its own, the second field alone is moved. -/
example : ((SyntaxTree.parse 0 "class A\x7b\nint C=B;\nint B=1;\n\x7d").toOption.bind
    (proposeFix ⟨.keyDeclaredFirst, .warning, ⟨0, ⟨18, 26⟩⟩, "", [], [("MoveBefore", "C")]⟩)).map
      CodeFix.edits = some [.insert 9 "int B=1;\n\n", .delete 18 27] := by
  decide +kernel

end PropertyLint
