/-
# The characters of tokens

Every token of a text is spelled by some of its characters, and behind them the reading of tokens
goes on as it does at the start of a text:

* `exists_spelledBy` : the characters of a token, with what stands before and behind them;
* `SpelledBy.word` : a word takes all the characters that it can have;
* `SpelledBy.punct` : a mark is spelled by its own characters;
* `SpelledBy.integer_le` : an integer is not greater than the greatest one.
-/
import PropertyLint.Syntax.Token.Lexer

namespace PropertyLint

/-! ## The place of a token -/

/-- The token is spelled by the first characters of a text, and `after` is what follows them. -/
structure SpelledBy (t : Token) (spelling after : List Char) : Prop where
  scanned : ∃ c inside count, spelling = c :: inside ∧ inside = (inside ++ after).take count ∧
    scan c (inside ++ after) = .ok (.token t.kind, count)
  stop : t.range.stop = t.range.start + byteLength spelling

/-- A token in the middle of the tokens of a text. -/
theorem exists_spelledBy {cs : List Char} {position : Nat} {doc : Option OffsetRange}
    {read rest : List Token} {t : Token}
    (h : tokensFrom cs position doc = .ok (read ++ t :: rest)) :
    ∃ before spelling after, cs = before ++ (spelling ++ after) ∧
      t.range.start = position + byteLength before ∧ SpelledBy t spelling after ∧
      tokensFrom (spelling ++ after) t.range.start t.doc = .ok (t :: rest) ∧
      tokensFrom after t.range.stop none = .ok rest := by
  -- one more piece in front of the token
  have hskip {c : Char} {cs : List Char} {count position : Nat}
      (hrec : ∃ before spelling after, cs.drop count = before ++ (spelling ++ after) ∧
        t.range.start = position + byteLength (c :: cs.take count) + byteLength before ∧
        SpelledBy t spelling after ∧
        tokensFrom (spelling ++ after) t.range.start t.doc = .ok (t :: rest) ∧
        tokensFrom after t.range.stop none = .ok rest) :
      ∃ before spelling after, c :: cs = before ++ (spelling ++ after) ∧
        t.range.start = position + byteLength before ∧ SpelledBy t spelling after ∧
        tokensFrom (spelling ++ after) t.range.start t.doc = .ok (t :: rest) ∧
        tokensFrom after t.range.stop none = .ok rest := by
    obtain ⟨before, spelling, after, hcs, hstart, hrest⟩ := hrec
    refine ⟨c :: cs.take count ++ before, spelling, after, ?_, ?_, hrest⟩
    · rw [List.append_assoc, ← hcs, List.cons_append, List.take_append_drop]
    · rw [hstart, byteLength_append, Nat.add_assoc]
  fun_induction tokensFrom cs position doc generalizing read with
  | case1 => simp at h
  | case2 => simp at h
  | case3 =>
    rename_i ih
    exact hskip (ih h)
  | case4 =>
    rename_i ih
    exact hskip (ih h)
  | case5 =>
    rename_i ih
    exact hskip (ih h)
  | case6 position doc c cs count stop kind hscan =>
    rename_i ih
    cases htail : tokensFrom (cs.drop count) stop none with
    | error e => simp [htail, bind, Except.bind] at h
    | ok tail =>
      simp only [htail, bind, Except.bind, pure, Except.pure, Except.ok.injEq] at h
      obtain _ | ⟨u, read⟩ := read
      · -- the token is the first one
        rw [List.nil_append, List.cons.injEq] at h
        obtain ⟨rfl, rfl⟩ := h
        have htake : cs.take count ++ cs.drop count = cs := List.take_append_drop count cs
        refine ⟨[], c :: cs.take count, cs.drop count, by simp, by simp, ⟨⟨c, cs.take count, count,
          rfl, by rw [htake], by rw [htake]; exact hscan⟩, rfl⟩, ?_, htail⟩
        rw [List.cons_append, htake, tokensFrom, hscan]
        simp only [bind, Except.bind, pure, Except.pure]
        rw [show tokensFrom (cs.drop count) (position + byteLength (c :: cs.take count)) none
          = .ok tail from htail]
      · rw [List.cons_append, List.cons.injEq] at h
        exact hskip (ih (htail.trans (congrArg _ h.2)))

/-! ## One piece at a time -/

theorem tokensFrom_of_scan {c : Char} {cs : List Char} {kind : TokenKind} {count : Nat}
    (h : scan c cs = .ok (.token kind, count)) (position : Nat) (doc : Option OffsetRange) :
    tokensFrom (c :: cs) position doc
      = (tokensFrom (cs.drop count) (position + byteLength (c :: cs.take count)) none).map
          (⟨kind, ⟨position, position + byteLength (c :: cs.take count)⟩, doc⟩ :: ·) := by
  rw [tokensFrom, h]
  dsimp only
  cases tokensFrom (cs.drop count) (position + byteLength (c :: cs.take count)) none <;> rfl

theorem exists_tokensFrom_of_gap {c : Char} {cs : List Char} {piece : Piece} {count : Nat}
    (h : scan c cs = .ok (piece, count)) (hgap : ∀ kind, piece ≠ .token kind) (position : Nat)
    (doc : Option OffsetRange) :
    ∃ doc', tokensFrom (c :: cs) position doc
      = tokensFrom (cs.drop count) (position + byteLength (c :: cs.take count)) doc' := by
  rw [tokensFrom, h]
  dsimp only
  cases piece with
  | blank => exact ⟨_, rfl⟩
  | comment => exact ⟨_, rfl⟩
  | docComment => exact ⟨_, rfl⟩
  | token kind => exact absurd rfl (hgap kind)

/-! ## Words -/

/-- The text is a word as it stands: a letter with letters and digits behind it. -/
def spellsWord (text : String) : Bool :=
  match text.toList with
  | c :: cs => isWordStart c && cs.all isWordChar
  | [] => false

theorem isWordStart_ne {c d : Char} (hc : isWordStart c = true) (hd : isWordStart d = false) :
    c ≠ d := by
  rintro rfl
  exact Bool.false_ne_true (hd.symm.trans hc)

theorem isSpace_of_isWordStart {c : Char} (h : isWordStart c = true) : isSpace c = false := by
  rw [← Bool.not_eq_true]
  intro hs
  simp only [isSpace, Bool.or_eq_true, beq_iff_eq] at hs
  rcases hs with (((rfl | rfl) | rfl) | rfl) | rfl <;> revert h <;> decide

/-- A word takes the letters and digits that follow its first letter. -/
theorem scan_of_isWordStart {c : Char} (h : isWordStart c = true) (cs : List Char) :
    scan c cs = .ok (.token (.word (wordOf (c :: cs))), (cs.takeWhile isWordChar).length) := by
  have hslash : c ≠ '/' := isWordStart_ne h (by decide)
  have hhash : c ≠ '#' := isWordStart_ne h (by decide)
  simp [scan, isSpace_of_isWordStart h, hslash.symm, hhash, h]

/-- The sign in front of a word is no part of it. -/
theorem scan_of_at {cs : List Char} (h : cs.head?.any isWordStart = true) :
    scan '@' cs = .ok (.token (.word (wordOf cs)), (cs.takeWhile isWordChar).length) := by
  unfold scan
  rw [if_neg (by decide), if_neg (by simp), if_neg (by simp), if_neg (by simp), if_neg (by decide),
    if_neg (by decide), if_pos ⟨rfl, h⟩]

/-- A piece that no more than one character behind it can change: a gap, a word or a mark. -/
def Piece.isPlain : Piece → Bool
  | blank | comment | docComment | token (.word _) | token (.punct _) => true
  | token _ => false

theorem not_isPlain_of_number {cs : List Char} {kind : TokenKind} {count : Nat}
    (h : number cs = .ok (kind, count)) : (Piece.token kind).isPlain = false := by
  unfold number at h
  dsimp only at h
  split at h
  · simp only [Except.ok.injEq, Prod.mk.injEq] at h
    rw [← h.1]
    rfl
  · split at h
    · simp only [Except.ok.injEq, Prod.mk.injEq] at h
      rw [← h.1]
      rfl
    · simp at h

/-- A token that no more than one character behind it can change is a word, with or without the sign
in front of it, or a mark. -/
theorem scan_eq_plain {c : Char} {cs : List Char} {kind : TokenKind} {count : Nat}
    (h : scan c cs = .ok (.token kind, count)) (hplain : (Piece.token kind).isPlain = true) :
    (isWordStart c = true ∧ kind = .word (wordOf (c :: cs)) ∧
        count = (cs.takeWhile isWordChar).length) ∨
      (c = '@' ∧ cs.head?.any isWordStart = true ∧ kind = .word (wordOf cs) ∧
        count = (cs.takeWhile isWordChar).length) ∨
      ∃ p, kind = .punct p ∧ Punct.ofPrefix? (c :: cs) = some p ∧ count = p.chars.length - 1 := by
  by_cases hstart : isWordStart c = true
  · rw [scan_of_isWordStart hstart] at h
    simp only [Except.ok.injEq, Prod.mk.injEq, Piece.token.injEq] at h
    exact .inl ⟨hstart, h.1.symm, h.2.symm⟩
  by_cases hat : c = '@' ∧ cs.head?.any isWordStart = true
  · obtain ⟨rfl, hhead⟩ := hat
    rw [scan_of_at hhead] at h
    simp only [Except.ok.injEq, Prod.mk.injEq, Piece.token.injEq] at h
    exact .inr (.inl ⟨rfl, hhead, h.1.symm, h.2.symm⟩)
  refine .inr (.inr ?_)
  unfold scan at h
  rw [if_neg hstart, if_neg hat] at h
  by_cases hdigit : isDigit c = true
  · rw [if_pos hdigit] at h
    cases hn : number (c :: cs) with
    | error e =>
      simp only [hn, bind, Except.bind] at h
      repeat' split at h
      all_goals simp at h
    | ok result =>
      obtain ⟨kind', n⟩ := result
      simp only [hn, bind, Except.bind, pure, Except.pure] at h
      repeat' split at h
      all_goals simp at h
      rw [← h.1, not_isPlain_of_number hn] at hplain
      exact absurd hplain Bool.false_ne_true
  · rw [if_neg hdigit] at h
    simp only [bind, Except.bind, pure, Except.pure] at h
    repeat' split at h
    all_goals simp at h
    · simp [← h.1, Piece.isPlain] at hplain
    · simp [← h.1, Piece.isPlain] at hplain
    · simp [← h.1, Piece.isPlain] at hplain
    · rename_i mark hmark
      exact ⟨mark, h.1.symm, hmark, h.2.symm⟩

/-- The characters of a word: all that it can have, perhaps with the sign in front of it. -/
theorem SpelledBy.word {t : Token} {spelling after : List Char} {w : String}
    (h : SpelledBy t spelling after) (hkind : t.kind = .word w) :
    spellsWord w = true ∧ (spelling = w.toList ∨ spelling = '@' :: w.toList) ∧
      after.takeWhile isWordChar = [] := by
  obtain ⟨c, inside, count, rfl, hinside, hscan⟩ := h.scanned
  rw [hkind] at hscan
  -- the lexer takes all that a word can have, so nothing of it is left behind the word
  have hinside : (inside ++ after).takeWhile isWordChar = inside := by
    obtain ⟨-, -, rfl⟩ | ⟨-, -, -, rfl⟩ | ⟨p, hp, -⟩ := scan_eq_plain hscan rfl
    · exact (List.prefix_iff_eq_take.1 (List.takeWhile_prefix _)).trans hinside.symm
    · exact (List.prefix_iff_eq_take.1 (List.takeWhile_prefix _)).trans hinside.symm
    · exact absurd hp (by simp)
  have hall : ∀ x ∈ inside, isWordChar x = true := by
    rw [← List.all_eq_true, ← hinside]
    exact List.all_takeWhile
  have hstop : after.takeWhile isWordChar = [] := by
    rw [List.takeWhile_append_of_pos hall] at hinside
    exact List.append_right_eq_self.1 hinside
  obtain ⟨hstart, hword, -⟩ | ⟨rfl, hhead, hword, -⟩ | ⟨p, hp, -⟩ := scan_eq_plain hscan rfl
  · obtain rfl := TokenKind.word.inj hword
    have hc : isWordChar c = true := by rw [isWordChar, hstart, Bool.true_or]
    have hw : (wordOf (c :: (inside ++ after))).toList = c :: inside := by
      rw [wordOf, String.toList_ofList, List.takeWhile_cons_of_pos hc, hinside]
    refine ⟨?_, .inl hw.symm, hstop⟩
    rw [spellsWord, hw]
    simpa [hstart] using hall
  · obtain rfl := TokenKind.word.inj hword
    have hw : (wordOf (inside ++ after)).toList = inside := by
      rw [wordOf, String.toList_ofList, hinside]
    refine ⟨?_, .inr (by rw [hw]), hstop⟩
    rw [spellsWord, hw]
    obtain _ | ⟨x, inside⟩ := inside
    · -- the word would start behind its end
      obtain _ | ⟨y, after⟩ := after
      · simp at hhead
      · have hy : isWordChar y = true := by
          rw [isWordChar, Bool.or_eq_true]
          exact .inl (by simpa using hhead)
        rw [List.takeWhile_cons_of_pos hy] at hstop
        exact absurd hstop (List.cons_ne_nil _ _)
    · have hx : isWordStart x = true := by simpa using hhead
      simp only [hx, Bool.true_and, List.all_eq_true]
      exact fun y hy => hall y (.tail _ hy)
  · exact absurd hp (by simp)

/-- The characters of a mark. -/
theorem SpelledBy.punct {t : Token} {spelling after : List Char} {p : Punct}
    (h : SpelledBy t spelling after) (hkind : t.kind = .punct p) :
    spelling = p.chars ∧ Punct.ofPrefix? (spelling ++ after) = some p := by
  obtain ⟨c, inside, count, rfl, hinside, hscan⟩ := h.scanned
  rw [hkind] at hscan
  obtain ⟨-, hword, -⟩ | ⟨-, -, hword, -⟩ | ⟨q, hq, hprefix, rfl⟩ := scan_eq_plain hscan rfl
  · exact absurd hword (by simp)
  · exact absurd hword (by simp)
  · obtain rfl := TokenKind.punct.inj hq
    refine ⟨?_, hprefix⟩
    have hle : p.chars.isPrefixOf (c :: (inside ++ after)) = true := by
      unfold Punct.ofPrefix? at hprefix
      exact (List.find?_eq_some_iff_append.1 hprefix).1
    -- no mark is empty
    have hpos : p.chars.length = p.chars.length - 1 + 1 := by cases p <;> rfl
    rw [List.prefix_iff_eq_take.1 (List.isPrefixOf_iff_prefix.1 hle), hpos, List.take_succ_cons,
      ← hinside]

/-! ## Integers -/

theorem number_integer_le {cs : List Char} {value count : Nat}
    (h : number cs = .ok (.integer value, count)) : value ≤ maxInteger := by
  unfold number at h
  dsimp only at h
  split at h
  · simp at h
  · split at h
    next hle =>
      simp only [Except.ok.injEq, Prod.mk.injEq, TokenKind.integer.injEq] at h
      rwa [← h.1]
    next => simp at h

/-- An integer is read as a number. -/
theorem exists_number_of_scan {c : Char} {cs : List Char} {value count : Nat}
    (h : scan c cs = .ok (.token (.integer value), count)) :
    ∃ n, number (c :: cs) = .ok (.integer value, n) := by
  by_cases hstart : isWordStart c = true
  · simp [scan_of_isWordStart hstart] at h
  by_cases hat : c = '@' ∧ cs.head?.any isWordStart = true
  · obtain ⟨rfl, hhead⟩ := hat
    simp [scan_of_at hhead] at h
  unfold scan at h
  rw [if_neg hstart, if_neg hat] at h
  cases hn : number (c :: cs) with
  | error e =>
    simp only [hn, bind, Except.bind, pure, Except.pure] at h
    repeat' split at h
    all_goals simp at h
  | ok result =>
    simp only [hn, bind, Except.bind, pure, Except.pure] at h
    repeat' split at h
    all_goals simp at h
    exact ⟨result.2, by rw [← h.1]⟩

theorem SpelledBy.integer_le {t : Token} {spelling after : List Char} {value : Nat}
    (h : SpelledBy t spelling after) (hkind : t.kind = .integer value) : value ≤ maxInteger := by
  obtain ⟨c, inside, count, -, -, hscan⟩ := h.scanned
  rw [hkind] at hscan
  obtain ⟨n, hnumber⟩ := exists_number_of_scan hscan
  exact number_integer_le hnumber

end PropertyLint
