/-
# Reading on behind a text

`Passes before kinds rest` says that reading from the start of `before ++ rest` comes to `rest`,
after tokens of the given kinds; so reading can be followed piece by piece, at any offset:

* `Passes.of_token`, `Passes.of_gap`, `Passes.trans` : one piece, and one piece after the other;
* `exists_passes` : what is put behind a text that ends with a token changes no token but the last.
-/
import PropertyLint.Proofs.Syntax.Spelling

namespace PropertyLint

/-! ## Characters that decide a piece -/

theorem takeWhile_append_of_lt {p : Char → Bool} {cs : List Char}
    (h : (cs.takeWhile p).length < cs.length) (after : List Char) :
    (cs ++ after).takeWhile p = cs.takeWhile p := by
  rw [List.takeWhile_append, if_neg (Nat.ne_of_lt h)]

theorem restOfLine_append {cs : List Char} (h : restOfLine cs < cs.length) (after : List Char) :
    restOfLine (cs ++ after) = restOfLine cs := by
  unfold restOfLine at *
  rw [takeWhile_append_of_lt h]

theorem commentEnd?_append {cs : List Char} {n : Nat} (h : commentEnd? cs = some n)
    (after : List Char) : commentEnd? (cs ++ after) = some n := by
  fun_induction commentEnd? cs generalizing n with
  | case1 => simp at h
  | case2 => simpa [commentEnd?] using h
  | case3 c cs hne ih =>
    obtain ⟨m, hm, rfl⟩ := Option.map_eq_some_iff.1 h
    rw [List.cons_append, commentEnd?, ih hm]
    · rfl
    · rintro cs' rfl hcs
      obtain _ | ⟨d, cs⟩ := cs
      · simp [commentEnd?] at hm
      · rw [List.cons_append, List.cons.injEq] at hcs
        exact hne cs rfl (by rw [hcs.1])

/-- Which mark comes first is decided by two characters. -/
theorem ofPrefix?_append (c d : Char) (cs after : List Char) :
    Punct.ofPrefix? (c :: d :: (cs ++ after)) = Punct.ofPrefix? (c :: d :: cs) := by
  unfold Punct.ofPrefix?
  congr 1
  funext p
  cases p <;> rfl

theorem scan_slash_append {d : Char} {cs : List Char} {piece : Piece} {count : Nat}
    (h : scan '/' (d :: cs) = .ok (piece, count)) (hcount : count < (d :: cs).length)
    (after : List Char) : scan '/' (d :: cs ++ after) = .ok (piece, count) := by
  unfold scan at h ⊢
  rw [if_neg (by decide)] at h ⊢
  by_cases hslash : d = '/'
  · subst hslash
    obtain _ | ⟨e, cs⟩ := cs
    · -- the line of the comment would end behind its last character
      simp [restOfLine] at h
      simp [← h.2] at hcount
    · by_cases hdoc : e = '/'
      · subst hdoc
        rw [if_pos (by simp)] at h ⊢
        simp only [Except.ok.injEq, Prod.mk.injEq] at h ⊢
        exact ⟨h.1, by rw [restOfLine_append (h.2 ▸ hcount), h.2]⟩
      · rw [if_neg (by simpa using Ne.symm hdoc), if_pos (by simp)] at h ⊢
        simp only [Except.ok.injEq, Prod.mk.injEq] at h ⊢
        exact ⟨h.1, by rw [restOfLine_append (h.2 ▸ hcount), h.2]⟩
  rw [if_neg (by simp [Ne.symm hslash]), if_neg (by simp [Ne.symm hslash])] at h ⊢
  by_cases hstar : d = '*'
  · subst hstar
    rw [if_pos (by simp)] at h ⊢
    rw [List.cons_append, List.tail_cons] at *
    cases hend : commentEnd? cs with
    | none => simp [hend] at h
    | some n =>
      rw [hend] at h
      rw [commentEnd?_append hend]
      exact h
  -- no comment starts here, so it is the mark
  · rw [if_neg (by simp [Ne.symm hstar]), if_neg (by decide), if_neg (by decide),
      if_neg (by simp), if_neg (by decide), if_neg (by decide), if_neg (by simp),
      if_neg (by decide)] at h ⊢
    rw [List.cons_append, ofPrefix?_append]
    exact h

theorem scan_append {c : Char} {cs : List Char} {piece : Piece} {count : Nat}
    (h : scan c cs = .ok (piece, count)) (hcount : count < cs.length)
    (hplain : piece.isPlain = true) (after : List Char) :
    scan c (cs ++ after) = .ok (piece, count) := by
  obtain _ | ⟨d, cs⟩ := cs
  · simp at hcount
  by_cases hslash : c = '/'
  · subst hslash
    exact scan_slash_append h hcount after
  have hno (cs ds : List Char) : ¬ ('/' :: ds).isPrefixOf (c :: cs) = true := by
    simp [Ne.symm hslash]
  unfold scan at h ⊢
  by_cases hspace : isSpace c = true
  · rw [if_pos hspace] at h ⊢
    exact h
  rw [if_neg hspace, if_neg (hno _ _), if_neg (hno _ _), if_neg (hno _ _)] at h ⊢
  -- every test looks at the same characters in both texts
  by_cases hhash : c = '#'
  · rw [if_pos hhash] at h ⊢
    simp only [Except.ok.injEq, Prod.mk.injEq] at h ⊢
    exact ⟨h.1, by rw [restOfLine_append (h.2 ▸ hcount), h.2]⟩
  rw [if_neg hhash] at h ⊢
  by_cases hstart : isWordStart c = true
  · have hc : isWordChar c = true := by rw [isWordChar, hstart, Bool.true_or]
    rw [if_pos hstart] at h ⊢
    simp only [Except.ok.injEq, Prod.mk.injEq, wordOf, List.takeWhile_cons_of_pos hc] at h ⊢
    rw [takeWhile_append_of_lt (h.2 ▸ hcount)]
    exact h
  rw [if_neg hstart] at h ⊢
  rw [List.cons_append, List.head?_cons] at *
  by_cases hat : c = '@' ∧ (some d).any isWordStart = true
  · rw [if_pos hat] at h ⊢
    simp only [Except.ok.injEq, Prod.mk.injEq, wordOf] at h ⊢
    rw [← List.cons_append, takeWhile_append_of_lt (h.2 ▸ hcount)]
    exact h
  rw [if_neg hat] at h ⊢
  -- numbers, strings and characters are not plain
  by_cases hdigit : isDigit c = true
  · rw [if_pos hdigit] at h
    cases hn : number (c :: d :: cs) with
    | error e => simp [hn, bind, Except.bind] at h
    | ok result =>
      simp only [hn, bind, Except.bind, pure, Except.pure, Except.ok.injEq, Prod.mk.injEq] at h
      rw [← h.1, not_isPlain_of_number hn] at hplain
      exact absurd hplain Bool.false_ne_true
  rw [if_neg hdigit] at h ⊢
  by_cases hquote : c = '"'
  · rw [if_pos hquote] at h
    cases hs : stringBody (d :: cs) <;> simp [hs, bind, Except.bind, pure, Except.pure] at h
    simp [← h.1, Piece.isPlain] at hplain
  rw [if_neg hquote] at h ⊢
  by_cases hverbatim : c = '@' ∧ some d = some '"'
  · rw [if_pos hverbatim] at h
    cases hs : verbatimBody cs <;> simp [hs, bind, Except.bind, pure, Except.pure] at h
    simp [← h.1, Piece.isPlain] at hplain
  rw [if_neg hverbatim] at h ⊢
  by_cases hchar : c = '\''
  · rw [if_pos hchar] at h
    cases hs : charBody (d :: cs) <;> simp [hs, bind, Except.bind, pure, Except.pure] at h
    simp [← h.1, Piece.isPlain] at hplain
  rw [if_neg hchar, ofPrefix?_append] at *
  exact h

theorem eq_nil_of_byteLength_eq_zero {cs : List Char} (h : byteLength cs = 0) : cs = [] := by
  obtain _ | ⟨c, cs⟩ := cs
  · rfl
  · have hpos := c.utf8Size_pos
    rw [byteLength_cons] at h
    omega

/-! ## Following the reading -/

/-- Reading from the start of `before ++ rest` comes to `rest`, and the tokens that have been read
by then are of the given kinds. -/
def Passes (before : List Char) (kinds : List TokenKind) (rest : List Char) : Prop :=
  ∀ position doc, ∃ read doc', read.map Token.kind = kinds ∧
    tokensFrom (before ++ rest) position doc
      = (tokensFrom rest (position + byteLength before) doc').map (read ++ ·)

theorem Passes.nil (rest : List Char) : Passes [] [] rest := by
  intro position doc
  refine ⟨[], doc, rfl, ?_⟩
  cases h : tokensFrom rest position doc <;> simp [h, Except.map]

theorem Passes.trans {before mid rest : List Char} {kinds kinds' : List TokenKind}
    (h : Passes before kinds (mid ++ rest)) (h' : Passes mid kinds' rest) :
    Passes (before ++ mid) (kinds ++ kinds') rest := by
  intro position doc
  obtain ⟨read, doc₁, hkinds, heq⟩ := h position doc
  obtain ⟨read', doc₂, hkinds', heq'⟩ := h' (position + byteLength before) doc₁
  refine ⟨read ++ read', doc₂, by rw [List.map_append, hkinds, hkinds'], ?_⟩
  rw [List.append_assoc, heq, heq', byteLength_append, Nat.add_assoc]
  cases tokensFrom rest (position + (byteLength before + byteLength mid)) doc₂ <;>
    simp [Except.map]

theorem Passes.of_token {c : Char} {inside rest : List Char} {kind : TokenKind}
    (h : scan c (inside ++ rest) = .ok (.token kind, inside.length)) :
    Passes (c :: inside) [kind] rest := by
  intro position doc
  refine ⟨[⟨kind, ⟨position, position + byteLength (c :: inside)⟩, doc⟩], none, rfl, ?_⟩
  rw [List.cons_append, tokensFrom_of_scan h, List.drop_left, List.take_left]
  rfl

theorem Passes.of_gap {c : Char} {inside rest : List Char} {piece : Piece}
    (h : scan c (inside ++ rest) = .ok (piece, inside.length))
    (hgap : ∀ kind, piece ≠ .token kind) : Passes (c :: inside) [] rest := by
  intro position doc
  obtain ⟨doc', heq⟩ := exists_tokensFrom_of_gap h hgap position doc
  refine ⟨[], doc', rfl, ?_⟩
  rw [List.cons_append, heq, List.drop_left, List.take_left]
  cases tokensFrom rest (position + byteLength (c :: inside)) doc' <;> rfl

/-- A text that ends with a token: whatever is put behind it, the reading comes to the characters of
that token in the same way. -/
theorem exists_passes {cs : List Char} {position : Nat} {doc : Option OffsetRange}
    {read : List Token} {d : Token} (h : tokensFrom cs position doc = .ok (read ++ [d]))
    (hstop : d.range.stop = position + byteLength cs)
    (hplain : ∀ t ∈ read, (Piece.token t.kind).isPlain = true) :
    ∃ before spelling, cs = before ++ spelling ∧ SpelledBy d spelling [] ∧
      ∀ after, Passes before (read.map Token.kind) (spelling ++ after) := by
  -- one more piece in front
  have hstep {c : Char} {cs : List Char} {piece : Piece} {count : Nat} {read : List Token}
      (kinds : List TokenKind) (hscan : scan c cs = .ok (piece, count))
      (hpiece : piece.isPlain = true)
      (hkinds : ∀ inside rest, scan c (inside ++ rest) = .ok (piece, inside.length) →
        Passes (c :: inside) kinds rest)
      (hrec : ∃ before spelling, cs.drop count = before ++ spelling ∧ SpelledBy d spelling [] ∧
        ∀ after, Passes before (read.map Token.kind) (spelling ++ after)) :
      ∃ before spelling, c :: cs = before ++ spelling ∧ SpelledBy d spelling [] ∧
        ∀ after, Passes before (kinds ++ read.map Token.kind) (spelling ++ after) := by
    obtain ⟨before, spelling, hcs, hs, hread⟩ := hrec
    have hcount : count < cs.length := by
      obtain ⟨c, inside, -, rfl, -⟩ := hs.scanned
      have := congrArg List.length hcs
      simp only [List.length_drop, List.length_append, List.length_cons] at this
      omega
    have hlength : (cs.take count).length = count := by
      rw [List.length_take, Nat.min_eq_left (Nat.le_of_lt hcount)]
    have hsplit : cs = cs.take count ++ (before ++ spelling) := by
      rw [← hcs, List.take_append_drop]
    refine ⟨c :: cs.take count ++ before, spelling, ?_, hs, ?_⟩
    · rw [List.append_assoc, List.cons_append, ← hsplit]
    · intro after
      refine (hkinds _ _ ?_).trans (hread after)
      have := scan_append hscan hcount hpiece after
      rw [hlength, ← this, ← List.append_assoc before, ← List.append_assoc, ← hsplit]
  -- the rest of the text behind a piece ends where the text ends
  have hlast {c : Char} {cs : List Char} {position : Nat} (count : Nat)
      (h : d.range.stop = position + byteLength (c :: cs)) :
      d.range.stop = position + byteLength (c :: cs.take count) + byteLength (cs.drop count) := by
    rw [h, Nat.add_assoc, ← byteLength_append, List.cons_append, List.take_append_drop]
  fun_induction tokensFrom cs position doc generalizing read with
  | case1 => simp at h
  | case2 => simp at h
  | case3 position doc c cs count stop hscan =>
    rename_i ih
    exact hstep [] hscan rfl (fun _ _ h => .of_gap h (by simp)) (ih h (hlast count hstop) hplain)
  | case4 position doc c cs count stop hscan =>
    rename_i ih
    exact hstep [] hscan rfl (fun _ _ h => .of_gap h (by simp)) (ih h (hlast count hstop) hplain)
  | case5 position doc c cs count stop range hscan =>
    rename_i ih
    exact hstep [] hscan rfl (fun _ _ h => .of_gap h (by simp)) (ih h (hlast count hstop) hplain)
  | case6 position doc c cs count stop kind hscan =>
    rename_i ih
    cases htail : tokensFrom (cs.drop count) stop none with
    | error e => simp [htail, bind, Except.bind] at h
    | ok tail =>
      simp only [htail, bind, Except.bind, pure, Except.pure, Except.ok.injEq] at h
      obtain _ | ⟨u, read⟩ := read
      · -- the token is the last one
        rw [List.nil_append, List.cons.injEq] at h
        obtain ⟨rfl, rfl⟩ := h
        have hdrop : cs.drop count = [] := by
          apply eq_nil_of_byteLength_eq_zero
          have := hlast count hstop
          simp only [stop] at this
          omega
        have htake : cs.take count = cs := by
          rw [← List.take_append_drop count cs, hdrop, List.append_nil, List.take_take,
            Nat.min_self]
        refine ⟨[], c :: cs, rfl, ⟨⟨c, cs, count, rfl, ?_, ?_⟩, hstop⟩, fun after => .nil _⟩
        · rw [List.append_nil, htake]
        · rw [List.append_nil]
          exact hscan
      · rw [List.cons_append, List.cons.injEq] at h
        obtain ⟨rfl, rfl⟩ := h
        exact hstep [kind] hscan (hplain _ (.head _)) (fun _ _ h => .of_token h)
          (ih htail (hlast count hstop) fun t ht => hplain t (.tail _ ht))

/-- The piece at a character that starts a mark and nothing else. -/
theorem scan_eq_mark {c : Char} (h : isSpace c = false ∧ c ≠ '/' ∧ c ≠ '#' ∧
    isWordStart c = false ∧ c ≠ '@' ∧ isDigit c = false ∧ c ≠ '"' ∧ c ≠ '\'') (cs : List Char) :
    scan c cs = match Punct.ofPrefix? (c :: cs) with
      | some mark => .ok (.token (.punct mark), mark.chars.length - 1)
      | none => .error (.unexpectedChar c) := by
  obtain ⟨hspace, hslash, hhash, hstart, hat, hdigit, hquote, hchar⟩ := h
  have hno (ds : List Char) : ¬ ('/' :: ds).isPrefixOf (c :: cs) = true := by
    simp [Ne.symm hslash]
  unfold scan
  rewrite [if_neg (by simp [hspace]), if_neg (hno _), if_neg (hno _), if_neg (hno _),
    if_neg hhash, if_neg (by simp [hstart]), if_neg (by simp [hat]), if_neg (by simp [hdigit]),
    if_neg hquote, if_neg (by simp [hat]), if_neg hchar]
  cases Punct.ofPrefix? (c :: cs) <;> rfl

/-- The piece at a mark that is not the start of a longer one. -/
theorem exists_scan_of_mark {p : Punct} {after : List Char} (hslash : p ≠ .slash)
    (h : Punct.ofPrefix? (p.chars ++ after) = some p) :
    ∃ c inside, p.chars = c :: inside ∧
      scan c (inside ++ after) = .ok (.token (.punct p), inside.length) := by
  have hchars : ∃ c inside, p.chars = c :: inside ∧ isSpace c = false ∧ c ≠ '/' ∧ c ≠ '#' ∧
      isWordStart c = false ∧ c ≠ '@' ∧ isDigit c = false ∧ c ≠ '"' ∧ c ≠ '\'' := by
    cases p <;> first
      | exact absurd rfl hslash
      | exact ⟨_, _, rfl, by decide⟩
  obtain ⟨c, inside, hp, hc⟩ := hchars
  refine ⟨c, inside, hp, ?_⟩
  rw [scan_eq_mark hc, ← List.cons_append, ← hp, h]
  simp [hp]

/-- The piece at a digit that no word starts with. -/
theorem scan_eq_number {c : Char} (hstart : isWordStart c = false) (hdigit : isDigit c = true)
    (cs : List Char) :
    scan c cs = do
      let (kind, count) ← number (c :: cs)
      return (.token kind, count - 1) := by
  have hne {d : Char} (hd : isDigit d = false) : c ≠ d := by
    rintro rfl
    exact Bool.false_ne_true (hd.symm.trans hdigit)
  have hspace : ¬ isSpace c = true := by
    simp only [isSpace, Bool.or_eq_true, beq_iff_eq, not_or]
    exact ⟨⟨⟨⟨hne (by decide), hne (by decide)⟩, hne (by decide)⟩, hne (by decide)⟩,
      hne (by decide)⟩
  have hno (ds : List Char) : ¬ ('/' :: ds).isPrefixOf (c :: cs) = true := by
    simp [(hne (d := '/') (by decide)).symm]
  unfold scan
  rw [if_neg hspace, if_neg (hno _), if_neg (hno _), if_neg (hno _), if_neg (hne (by decide)),
    if_neg (by simp [hstart]), if_neg fun h => hne (by decide) h.1, if_pos hdigit]

end PropertyLint
