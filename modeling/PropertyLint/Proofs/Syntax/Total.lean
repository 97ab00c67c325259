/-
# Every text is read or refused

The pieces that the lexer cuts off a text consist of characters that are there (`scan_answers`), and
what it cannot read starts at one of them (`exists_of_tokensFrom_error`).  The parser is stopped by
no bound, and its cursor stays among the tokens.  So a text gives a tree, with all its tokens read,
or an error at the start of one of its characters or at its end (`SyntaxTree.parse_total`).
-/
import PropertyLint.Proofs.Syntax.RefusalDecls
import PropertyLint.Proofs.Syntax.Passes
import PropertyLint.Proofs.Syntax.Places
import PropertyLint.Proofs.Text.Lines

namespace PropertyLint

variable {α β : Type}

/-! ## Pieces -/

/-- What the lexer takes off a text has the property, and where it fails the cause is one of its
own. -/
def Answers (Q : α → Nat → Prop) : Except SyntaxCause (α × Nat) → Prop
  | .ok (a, count) => Q a count
  | .error cause => cause ≠ .tooDeep

namespace Answers

variable {Q : α → Nat → Prop} {R : β → Nat → Prop}

@[simp] theorem ok_iff {a : α} {count : Nat} : Answers Q (.ok (a, count)) ↔ Q a count := .rfl

@[simp] theorem pure_iff {a : α} {count : Nat} : Answers Q (pure (a, count)) ↔ Q a count := .rfl

@[simp] theorem error_iff {cause : SyntaxCause} :
    Answers Q (.error cause : Except SyntaxCause (α × Nat)) ↔ cause ≠ .tooDeep := .rfl

theorem ite {p : Prop} [Decidable p] {x y : Except SyntaxCause (α × Nat)}
    (hx : p → Answers Q x) (hy : ¬ p → Answers Q y) : Answers Q (if p then x else y) := by
  split
  · exact hx ‹_›
  · exact hy ‹_›

theorem bind {x : Except SyntaxCause (α × Nat)} {f : α × Nat → Except SyntaxCause (β × Nat)}
    (h : Answers Q x) (hf : ∀ a count, Q a count → Answers R (f (a, count))) :
    Answers R (x >>= f) := by
  cases x with
  | error cause => exact h
  | ok r => exact hf r.1 r.2 h

theorem of_ok {x : Except SyntaxCause (α × Nat)} {a : α} {count : Nat} (h : Answers Q x)
    (hx : x = .ok (a, count)) : Q a count := by
  subst hx
  exact h

theorem of_error {x : Except SyntaxCause (α × Nat)} {cause : SyntaxCause} (h : Answers Q x)
    (hx : x = .error cause) : cause ≠ .tooDeep := by
  subst hx
  exact h

end Answers

/-- What is taken are characters that are there. -/
def UpTo (n : Nat) : α → Nat → Prop := fun _ count => count ≤ n

theorem stringBody_answers (cs : List Char) : Answers (UpTo cs.length) (stringBody cs) := by
  fun_induction stringBody cs with
  | case4 c rest ih => exact ih.bind fun _ count hcount => by simpa [UpTo] using hcount
  | case6 c rest _ _ _ _ ih => exact ih.bind fun _ count hcount => by simpa [UpTo] using hcount
  | _ => simp [UpTo]

theorem verbatimBody_answers (cs : List Char) : Answers (UpTo cs.length) (verbatimBody cs) := by
  fun_induction verbatimBody cs with
  | case2 rest ih => exact ih.bind fun _ count hcount => by simpa [UpTo] using hcount
  | case4 c rest _ _ ih => exact ih.bind fun _ count hcount => by simpa [UpTo] using hcount
  | _ => simp [UpTo]

theorem charBody_answers (cs : List Char) : Answers (UpTo cs.length) (charBody cs) := by
  unfold charBody
  split <;> simp [UpTo]

theorem length_fractionPart_le (cs : List Char) : (fractionPart cs).length ≤ cs.length := by
  unfold fractionPart
  split
  · split
    · simpa using (List.takeWhile_sublist isDigit).length_le
    · simp
  · simp

theorem number_answers (cs : List Char) :
    Answers (fun kind count => count ≤ cs.length ∧ kind ≠ .endOfText) (number cs) := by
  -- the whole part, the fraction and the suffix are taken one behind the other
  let whole := cs.takeWhile isDigit
  let body := whole ++ fractionPart (cs.drop whole.length)
  let suffix := ((cs.drop body.length).take 1).filter (· ∈ realSuffixes ++ integerSuffixes)
  have hcount : body.length + suffix.length ≤ cs.length := by
    have hwhole : whole.length ≤ cs.length := (List.takeWhile_sublist _).length_le
    have hfraction := length_fractionPart_le (cs.drop whole.length)
    have hsuffix : suffix.length ≤ (cs.drop body.length).length :=
      Nat.le_trans (List.length_filter_le _ _) (List.length_take_le' _ _)
    simp only [List.length_drop] at hfraction hsuffix
    have hbody : body.length = whole.length + (fractionPart (cs.drop whole.length)).length :=
      List.length_append
    omega
  unfold number
  refine .ite (fun _ => ⟨hcount, by simp⟩) fun _ => .ite (fun _ => ⟨hcount, by simp⟩) fun _ => ?_
  simp

theorem commentEnd?_le {cs : List Char} {inside : Nat} (h : commentEnd? cs = some inside) :
    inside + 2 ≤ cs.length := by
  fun_induction commentEnd? cs generalizing inside with
  | case1 => simp at h
  | case2 =>
    obtain rfl : 0 = inside := by simpa using h
    simp
  | case3 c rest _ ih =>
    obtain ⟨k, hk, rfl⟩ := Option.map_eq_some_iff.1 h
    have := ih hk
    simp only [List.length_cons]
    omega

theorem length_chars_le {cs : List Char} {p : Punct} (h : Punct.ofPrefix? cs = some p) :
    p.chars.length ≤ cs.length := by
  have hprefix : p.chars.isPrefixOf cs = true := by
    simpa using List.find?_some h
  exact (List.isPrefixOf_iff_prefix.1 hprefix).length_le

/-- The lexer takes no more characters than there are, and the end of the text is no piece of it. -/
theorem scan_answers (c : Char) (cs : List Char) :
    Answers (fun piece count => count ≤ cs.length ∧ piece ≠ .token .endOfText) (scan c cs) := by
  have hline : restOfLine cs ≤ cs.length := (List.takeWhile_sublist _).length_le
  have hword : (cs.takeWhile isWordChar).length ≤ cs.length := (List.takeWhile_sublist _).length_le
  unfold scan
  -- blanks and comments
  refine .ite (fun _ => ⟨Nat.zero_le _, by simp⟩) fun _ => .ite (fun _ => ⟨hline, by simp⟩) fun _ =>
    .ite (fun _ => ⟨hline, by simp⟩) fun _ => .ite (fun _ => ?_) fun _ => ?_
  · split
    · rename_i inside hend
      have := commentEnd?_le hend
      rw [List.length_tail] at this
      exact ⟨by omega, by simp⟩
    · simp
  -- words and numbers
  refine .ite (fun _ => ⟨hline, by simp⟩) fun _ => .ite (fun _ => ⟨hword, by simp⟩) fun _ =>
    .ite (fun _ => ⟨hword, by simp⟩) fun _ => .ite (fun _ => ?_) fun _ => ?_
  · refine (number_answers (c :: cs)).bind fun kind count hcount => ⟨?_, by simpa using hcount.2⟩
    have := hcount.1
    rw [List.length_cons] at this
    omega
  -- strings, characters and marks
  refine .ite (fun _ => ?_) fun _ => .ite (fun hat => ?_) fun _ => .ite (fun _ => ?_) fun _ => ?_
  · exact (stringBody_answers cs).bind fun _ _ hcount => ⟨hcount, by simp⟩
  · obtain ⟨cs, rfl⟩ := List.head?_eq_some_iff.1 hat.2
    exact (verbatimBody_answers cs).bind fun _ _ hcount => ⟨Nat.succ_le_succ hcount, by simp⟩
  · exact (charBody_answers cs).bind fun _ _ hcount => ⟨hcount, by simp⟩
  · split
    · rename_i mark hmark
      have := length_chars_le hmark
      rw [List.length_cons] at this
      exact ⟨by omega, by simp⟩
    · simp

/-! ## Tokens -/

/-- The lexer cuts the token off the text: its range are the characters that are taken from its
start on. -/
def Token.CutFrom (cs : List Char) (t : Token) : Prop :=
  ∃ before c inside after, cs = before ++ (c :: inside ++ after) ∧
    scan c (inside ++ after) = .ok (.token t.kind, inside.length) ∧
    t.range.start = byteLength before ∧ t.range.stop = t.range.start + byteLength (c :: inside)

theorem SpelledBy.exists_scan {t : Token} {spelling after : List Char}
    (h : SpelledBy t spelling after) : ∃ c inside, spelling = c :: inside ∧
      scan c (inside ++ after) = .ok (.token t.kind, inside.length) := by
  obtain ⟨c, inside, count, rfl, hinside, hscan⟩ := h.scanned
  have hcount := ((scan_answers c (inside ++ after)).of_ok hscan).1
  have hlength := congrArg List.length hinside
  rw [List.length_take, Nat.min_eq_left hcount] at hlength
  exact ⟨c, inside, rfl, by rwa [hlength]⟩

theorem cutFrom_of_tokenize {text : String} {tokens : List Token}
    (h : tokenize text = .ok tokens) : ∀ t ∈ tokens, t.CutFrom text.toList := by
  intro t ht
  obtain ⟨read, rest, rfl⟩ := List.append_of_mem ht
  obtain ⟨before, spelling, after, hcs, hstart, hspelled, -⟩ := exists_spelledBy h
  obtain ⟨c, inside, rfl, hscan⟩ := hspelled.exists_scan
  exact ⟨before, c, inside, after, hcs, hscan, by simpa using hstart, hspelled.stop⟩

theorem Token.CutFrom.kind_ne {cs : List Char} {t : Token} (h : t.CutFrom cs) :
    t.kind ≠ .endOfText := by
  obtain ⟨-, c, inside, after, -, hscan, -⟩ := h
  intro hkind
  exact ((scan_answers c (inside ++ after)).of_ok hscan).2 (by rw [hkind])

theorem Token.CutFrom.isBoundary {cs : List Char} {t : Token} (h : t.CutFrom cs) :
    IsBoundary cs t.range.start := by
  obtain ⟨before, c, inside, after, hcs, -, hstart, -⟩ := h
  exact isBoundary_iff.2 ⟨before, _, hcs, hstart.symm⟩

/-- The lexer fails at a character, for a cause that is its own. -/
theorem exists_of_tokensFrom_error {cs : List Char} {position : Nat} {doc : Option OffsetRange}
    {e : SyntaxError} (h : tokensFrom cs position doc = .error e) :
    e.cause ≠ .tooDeep ∧ ∃ before c after, cs = before ++ c :: after ∧
      e.offset = position + byteLength before := by
  -- one more piece in front of the place
  have hskip {c : Char} {cs : List Char} {count position : Nat}
      (hrec : e.cause ≠ .tooDeep ∧ ∃ before d after, cs.drop count = before ++ d :: after ∧
        e.offset = position + byteLength (c :: cs.take count) + byteLength before) :
      e.cause ≠ .tooDeep ∧ ∃ before d after, c :: cs = before ++ d :: after ∧
        e.offset = position + byteLength before := by
    obtain ⟨hcause, before, d, after, hcs, hoffset⟩ := hrec
    refine ⟨hcause, c :: cs.take count ++ before, d, after, ?_, ?_⟩
    · rw [List.append_assoc, ← hcs, List.cons_append, List.take_append_drop]
    · rw [hoffset, byteLength_append, Nat.add_assoc]
  fun_induction tokensFrom cs position doc with
  | case1 => simp at h
  | case2 position doc c cs cause hscan =>
    obtain rfl := Except.error.inj h
    exact ⟨(scan_answers c cs).of_error hscan, [], c, cs, rfl, rfl⟩
  | case3 =>
    rename_i ih
    exact hskip (ih h)
  | case4 =>
    rename_i ih
    exact hskip (ih h)
  | case5 =>
    rename_i ih
    exact hskip (ih h)
  | case6 position doc c cs count stop kind hscan =>
    rename_i ih
    refine hskip (ih ?_)
    cases htail : tokensFrom (cs.drop count) stop none with
    | error e' => simpa [htail, bind, Except.bind] using h
    | ok tail => simp [htail, bind, Except.bind, pure, Except.pure] at h

/-! ## Cursors in a text -/

/-- The cursor in front of the tokens of a text. -/
def startOf (text : String) (tokens : List Token) : Grammar.Cursor :=
  ⟨tokens, 0, 0, byteLength text.toList⟩

/-- The error is at one of the characters of the text or at its end, and it is the text that caused
it and not a bound of the parser. -/
structure SyntaxError.IsAbout (e : SyntaxError) (text : String) : Prop where
  cause : e.cause ≠ .tooDeep
  le : e.offset ≤ byteLength text.toList
  boundary : IsBoundary text.toList e.offset

namespace Grammar

variable {text : String} {tokens : List Token} {c : Cursor}

theorem mem_of_reaches (h : (startOf text tokens).Reaches c) : ∀ t ∈ c.tokens, t ∈ tokens := by
  obtain ⟨read, hread⟩ := h
  intro t ht
  rw [show tokens = read ++ c.tokens from hread.tokens]
  exact List.mem_append_right read ht

/-- Wherever the parser gets to, the next token starts at a character. -/
theorem isBoundary_position (hcut : ∀ t ∈ tokens, t.CutFrom text.toList)
    (h : (startOf text tokens).Reaches c) : IsBoundary text.toList c.position := by
  unfold Cursor.position
  cases htokens : c.tokens with
  | nil =>
    obtain ⟨read, hread⟩ := h
    dsimp only
    rw [hread.size]
    exact isBoundary_byteLength text.toList
  | cons t rest => exact (hcut t (mem_of_reaches h t (by rw [htokens]; exact .head _))).isBoundary

/-- Only behind the last token the text ends. -/
theorem tokens_eq_nil (hcut : ∀ t ∈ tokens, t.CutFrom text.toList)
    (h : (startOf text tokens).Reaches c) (hhead : c.head = .endOfText) : c.tokens = [] := by
  unfold Cursor.head at hhead
  cases htokens : c.tokens with
  | nil => rfl
  | cons t rest =>
    rw [htokens] at hhead
    exact absurd hhead (hcut t (mem_of_reaches h t (by rw [htokens]; exact .head _))).kind_ne

end Grammar

namespace SyntaxTree

open Grammar

theorem parse_of_tokenize {text : String} {tokens : List Token} (h : tokenize text = .ok tokens)
    (file : FileId) : parse file text
      = (compilationUnit.outcome (startOf text tokens)).1.map fun root => ⟨file, text, root⟩ := by
  unfold parse startOf
  rw [h]
  show ((compilationUnit.outcome _).1 >>= _) = _
  cases (compilationUnit.outcome ⟨tokens, 0, 0, byteLength text.toList⟩).1 <;> rfl

/-- **Every text is read or refused.**  Wherever the lexer cuts off a piece, all of its characters
are there.  Where the lexer fails, it fails at a character.  Otherwise every token consists of
characters of the text, and the parser gets to a place among the tokens: to their end, where all of
them have been read, or to one at which the next token is not what is looked for. -/
theorem parse_total (file : FileId) (text : String) :
    (∀ before c after piece count, text.toList = before ++ c :: after →
      scan c after = .ok (piece, count) → count ≤ after.length) ∧
    ((∃ e, tokenize text = .error e ∧ parse file text = .error e ∧ e.IsAbout text) ∨
      ∃ tokens, tokenize text = .ok tokens ∧ (∀ t ∈ tokens, t.CutFrom text.toList) ∧
        ((∃ c expected, (startOf text tokens).Reaches c ∧
            parse file text = .error (c.refusal expected) ∧
            (c.refusal expected).IsAbout text) ∨
          ∃ c root, (startOf text tokens).Reaches c ∧ c.tokens = [] ∧
            Runs compilationUnit (startOf text tokens) root c ∧
            parse file text = .ok ⟨file, text, root⟩)) := by
  refine ⟨fun _ c after _ _ _ hscan => ((scan_answers c after).of_ok hscan).1, ?_⟩
  cases htokens : tokenize text with
  | error e =>
    obtain ⟨hcause, before, c, after, htext, hoffset⟩ := exists_of_tokensFrom_error htokens
    have hboundary : IsBoundary text.toList e.offset :=
      isBoundary_iff.2 ⟨before, _, htext, by simp [hoffset]⟩
    refine .inl ⟨e, rfl, ?_, hcause, hboundary.le, hboundary⟩
    simp only [parse, htokens, bind, Except.bind]
  | ok tokens =>
    have hcut := cutFrom_of_tokenize htokens
    refine .inr ⟨tokens, rfl, hcut, ?_⟩
    rw [parse_of_tokenize htokens]
    cases hrun : (compilationUnit.outcome (startOf text tokens)).1 with
    | error e =>
      obtain ⟨c, expected, hreaches, rfl⟩ := refuses_of_compilationUnit hrun
      have hboundary := isBoundary_position hcut hreaches
      exact .inl ⟨c, expected, hreaches, rfl, (c.refuses_refusal expected).cause_ne,
        hboundary.le, hboundary⟩
    | ok root =>
      have hrun : Runs compilationUnit (startOf text tokens) root _ := Prod.ext hrun rfl
      have hreaches := compilationUnit_moves hrun
      have hend := tokens_eq_nil hcut hreaches (head_of_compilationUnit hrun)
      exact .inr ⟨_, root, hreaches, hend, hrun, rfl⟩

end SyntaxTree

end PropertyLint
