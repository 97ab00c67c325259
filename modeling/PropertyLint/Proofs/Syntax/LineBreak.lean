/-
# Texts joined at a line break

No token goes on behind the end of a line, but for a verbatim string or a block comment that is not
closed yet.  So a piece that the lexer takes off a text is the same with a line feed and another
text behind it (`scan_append_feed`), and the tokens of two texts, each of them read from its start,
are those of the texts joined at a line feed (`tokenize_append_feed`).  Only a doc comment at the
end of the first text counts for the first token of the second one.
-/
import PropertyLint.Proofs.Syntax.Payload
import PropertyLint.Proofs.Syntax.Tiling

namespace PropertyLint

variable {c : Char} {cs after : List Char}

/-! ## Pieces in front of a line feed -/

theorem isPrefixOf_append_feed {p : List Char} (hp : '\n' ∉ p) (cs after : List Char) :
    p.isPrefixOf (cs ++ '\n' :: after) = p.isPrefixOf cs := by
  induction p generalizing cs with
  | nil => rfl
  | cons x p ih =>
    obtain ⟨hx, hp⟩ := not_or.1 (List.mem_cons.not.1 hp)
    cases cs with
    | nil => simp [List.isPrefixOf, Ne.symm hx]
    | cons y cs => simp [List.isPrefixOf, ih hp]

theorem takeWhile_append_feed {p : Char → Bool} (hp : p '\n' = false) (cs after : List Char) :
    (cs ++ '\n' :: after).takeWhile p = cs.takeWhile p := by
  rw [List.takeWhile_append, List.takeWhile_cons_of_neg (by simp [hp])]
  split <;> rename_i h
  · rw [List.append_nil, (List.takeWhile_prefix p).eq_of_length h]
  · rfl

theorem ofPrefix?_append_feed (cs after : List Char) :
    Punct.ofPrefix? (cs ++ '\n' :: after) = Punct.ofPrefix? cs := by
  unfold Punct.ofPrefix?
  congr 1
  funext p
  exact isPrefixOf_append_feed (by cases p <;> decide) cs after

theorem fractionPart_append_feed (cs after : List Char) :
    fractionPart (cs ++ '\n' :: after) = fractionPart cs := by
  obtain _ | ⟨x, _ | ⟨d, cs⟩⟩ := cs
  · rfl
  · by_cases hx : x = '.'
    · subst hx
      rfl
    · simp [fractionPart, hx]
  · by_cases hx : x = '.'
    · subst hx
      rw [List.cons_append, List.cons_append, fractionPart, takeWhile_append_feed (by decide)]
      rfl
    · simp [fractionPart, hx]

/-- Where a list is cut at one of its elements, what is behind it is not looked at. -/
theorem take_one_filter_append_feed {p : Char → Bool} (hp : p '\n' = false) (cs after : List Char) :
    ((cs ++ '\n' :: after).take 1).filter p = (cs.take 1).filter p := by
  cases cs with
  | nil => simp [hp]
  | cons c cs => rfl

theorem number_append_feed (cs after : List Char) : number (cs ++ '\n' :: after) = number cs := by
  have hwhole : (cs ++ '\n' :: after).takeWhile isDigit = cs.takeWhile isDigit :=
    takeWhile_append_feed (by decide) cs after
  have hle : (cs.takeWhile isDigit).length ≤ cs.length := (List.takeWhile_sublist _).length_le
  have hfraction : fractionPart ((cs ++ '\n' :: after).drop (cs.takeWhile isDigit).length)
      = fractionPart (cs.drop (cs.takeWhile isDigit).length) := by
    rw [List.drop_append_of_le_length hle, fractionPart_append_feed]
  have hbody : (cs.takeWhile isDigit
      ++ fractionPart (cs.drop (cs.takeWhile isDigit).length)).length ≤ cs.length := by
    have := length_fractionPart_le (cs.drop (cs.takeWhile isDigit).length)
    rw [List.length_drop] at this
    rw [List.length_append]
    omega
  have hsuffix := take_one_filter_append_feed (p := (· ∈ realSuffixes ++ integerSuffixes))
    (by decide) (cs.drop (cs.takeWhile isDigit
      ++ fractionPart (cs.drop (cs.takeWhile isDigit).length)).length) after
  rw [← List.drop_append_of_le_length hbody] at hsuffix
  unfold number
  dsimp only
  rw [hwhole, hfraction, hsuffix]

/-- What two readers have in common if the second one gives what the first one gives. -/
theorem bind_eq_ok_of_imp {ε α β : Type} {x y : Except ε α} {f : α → Except ε β} {b : β}
    (h : x >>= f = .ok b) (hxy : ∀ a, x = .ok a → f a = .ok b → y = .ok a) : y >>= f = .ok b := by
  cases x with
  | error e => cases h
  | ok a =>
    rw [hxy a rfl h]
    exact h

/-- The same for readers that count some more characters. -/
theorem bind_eq_ok_of_le {ε α β : Type} {x y : Except ε (α × Nat)} {f : α → β} {k m n : Nat} {b : β}
    (h : (x >>= fun r => .ok (f r.1, r.2 + k)) = .ok (b, n)) (hn : n ≤ m + k)
    (hxy : ∀ a i, x = .ok (a, i) → i ≤ m → y = .ok (a, i)) :
    (y >>= fun r => .ok (f r.1, r.2 + k)) = .ok (b, n) := by
  refine bind_eq_ok_of_imp h fun (a, i) hx hr => hxy a i hx ?_
  have hi : i + k = n := congrArg Prod.snd (Except.ok.inj hr)
  omega

theorem stringBody_append {value : List Char} {n : Nat} (h : stringBody cs = .ok (value, n))
    (after : List Char) : stringBody (cs ++ after) = .ok (value, n) := by
  fun_induction stringBody cs generalizing value n with
  | case1 => simp at h
  | case2 rest => simpa [stringBody] using h
  | case3 => simp at h
  | case4 c rest ih =>
    rw [List.cons_append, List.cons_append, stringBody]
    exact bind_eq_ok_of_imp h fun _ hrest _ => ih hrest
  | case5 => simp at h
  | case6 c rest hquote hslash hescape hfeed ih =>
    have hne : c ≠ '\\' := by
      rintro rfl
      obtain _ | ⟨d, rest⟩ := rest
      · exact hslash rfl rfl
      · exact hescape d rest rfl rfl
    rw [List.cons_append, stringBody]
    · exact bind_eq_ok_of_imp h fun _ hrest _ => ih hrest
    · exact hquote
    · exact fun hc _ => hne hc
    · exact fun _ _ hc _ => hne hc
    · exact hfeed

/-- A verbatim string that is closed at the end of a text is closed in front of a line feed. -/
theorem verbatimBody_append_feed {value : List Char} {n : Nat}
    (h : verbatimBody cs = .ok (value, n)) (after : List Char) :
    verbatimBody (cs ++ '\n' :: after) = .ok (value, n) := by
  fun_induction verbatimBody cs generalizing value n with
  | case1 => simp at h
  | case2 rest ih =>
    rw [List.cons_append, List.cons_append, verbatimBody]
    exact bind_eq_ok_of_imp h fun _ hrest _ => ih hrest
  | case3 rest hquote =>
    obtain _ | ⟨d, rest⟩ := rest
    · simpa [verbatimBody] using h
    · rw [List.cons_append, List.cons_append, verbatimBody]
      · exact h
      · rintro _ heq
        exact hquote rest (by rw [(List.cons.inj heq).1])
  | case4 c rest hquotes hquote ih =>
    rw [List.cons_append, verbatimBody]
    · exact bind_eq_ok_of_imp h fun _ hrest _ => ih hrest
    · exact fun _ hc _ => hquote hc
    · exact hquote

theorem charBody_append {value : Char} {n : Nat} (h : charBody cs = .ok (value, n))
    (after : List Char) : charBody (cs ++ after) = .ok (value, n) := by
  unfold charBody at h
  split at h
  · exact h
  · simp at h
  · rename_i c rest hescape hc
    rw [List.cons_append, List.cons_append, charBody]
    · exact h
    · exact fun _ hslash _ => hc hslash
    · exact hc
  · simp at h

theorem scan_quote (cs : List Char) : scan '"' cs =
    (stringBody cs >>= fun r => .ok (.token (.string (String.ofList r.1)), r.2)) := by
  unfold scan
  rw [if_neg (by decide), if_neg (by simp), if_neg (by simp), if_neg (by simp), if_neg (by decide),
    if_neg (by decide), if_neg (by simp), if_neg (by decide), if_pos rfl]
  rfl

theorem scan_verbatim (cs : List Char) : scan '@' ('"' :: cs) =
    (verbatimBody cs >>= fun r => .ok (.token (.string (String.ofList r.1)), r.2 + 1)) := by
  unfold scan
  rw [if_neg (by decide), if_neg (by simp), if_neg (by simp), if_neg (by simp), if_neg (by decide),
    if_neg (by decide), if_neg (by simp; decide), if_neg (by decide), if_neg (by decide),
    if_pos ⟨rfl, rfl⟩]
  rfl

theorem scan_apostrophe (cs : List Char) : scan '\'' cs =
    (charBody cs >>= fun r => .ok (.token (.char r.1), r.2)) := by
  unfold scan
  rw [if_neg (by decide), if_neg (by simp), if_neg (by simp), if_neg (by simp), if_neg (by decide),
    if_neg (by decide), if_neg (by simp), if_neg (by decide), if_neg (by decide), if_neg (by simp),
    if_pos rfl]
  rfl

/-- A line feed behind a text changes nothing, as long as it changes nothing for a comment or a
literal that goes on up to a mark. -/
theorem scan_feed_congr (after : List Char)
    (hcomment : ∀ rest, c = '/' → cs = '*' :: rest →
      commentEnd? (rest ++ '\n' :: after) = commentEnd? rest)
    (hstring : c = '"' → stringBody (cs ++ '\n' :: after) = stringBody cs)
    (hverbatim : ∀ rest, c = '@' → cs = '"' :: rest →
      verbatimBody (rest ++ '\n' :: after) = verbatimBody rest)
    (hchar : c = '\'' → charBody (cs ++ '\n' :: after) = charBody cs) :
    scan c (cs ++ '\n' :: after) = scan c cs := by
  by_cases hblock : c = '/' ∧ cs.head? = some '*'
  · obtain ⟨rfl, hhead⟩ := hblock
    obtain ⟨rest, rfl⟩ := List.head?_eq_some_iff.1 hhead
    rw [List.cons_append, scan_starred, scan_starred, hcomment rest rfl rfl]
  by_cases hquote : c = '"'
  · subst hquote
    rw [scan_quote, scan_quote, hstring rfl]
  by_cases hat : c = '@' ∧ cs.head? = some '"'
  · obtain ⟨rfl, hhead⟩ := hat
    obtain ⟨rest, rfl⟩ := List.head?_eq_some_iff.1 hhead
    rw [List.cons_append, scan_verbatim, scan_verbatim, hverbatim rest rfl rfl]
  by_cases hapostrophe : c = '\''
  · subst hapostrophe
    rw [scan_apostrophe, scan_apostrophe, hchar rfl]
  -- the other tests look at the same characters in both texts, up to the line feed at most
  have hno (p : List Char) (hp : '\n' ∉ p) :
      p.isPrefixOf (c :: (cs ++ '\n' :: after)) = p.isPrefixOf (c :: cs) :=
    isPrefixOf_append_feed hp (c :: cs) after
  have hmark : Punct.ofPrefix? (c :: (cs ++ '\n' :: after)) = Punct.ofPrefix? (c :: cs) :=
    ofPrefix?_append_feed (c :: cs) after
  have hline : restOfLine (cs ++ '\n' :: after) = restOfLine cs :=
    congrArg List.length (takeWhile_append_feed (by decide) cs after)
  have hword (cs : List Char) :
      (cs ++ '\n' :: after).takeWhile isWordChar = cs.takeWhile isWordChar :=
    takeWhile_append_feed (by decide) cs after
  have hwordOf (cs : List Char) : wordOf (cs ++ '\n' :: after) = wordOf cs :=
    congrArg String.ofList (hword cs)
  have hwordOf' : wordOf (c :: (cs ++ '\n' :: after)) = wordOf (c :: cs) := hwordOf (c :: cs)
  have hnumber : number (c :: (cs ++ '\n' :: after)) = number (c :: cs) :=
    number_append_feed (c :: cs) after
  have hhead (p : Char → Bool) (hp : p '\n' = false) :
      (cs ++ '\n' :: after).head?.any p = cs.head?.any p := by
    cases cs with
    | nil => simpa using hp
    | cons d cs => rfl
  have hat' : ¬ (c = '@' ∧ (cs ++ '\n' :: after).head? = some '"') := by
    cases cs with
    | nil => simp
    | cons d cs => exact hat
  have hblock' : ¬ ['/', '*'].isPrefixOf (c :: cs) = true := by
    rw [List.isPrefixOf_iff_prefix]
    rintro ⟨rest, hrest⟩
    obtain ⟨rfl, rfl⟩ := List.cons.inj hrest
    exact hblock ⟨rfl, rfl⟩
  unfold scan
  rw [hno _ (by decide), hno _ (by decide), hno _ (by decide), hmark, hline, hword, hwordOf,
    hwordOf', hnumber, hhead _ (by decide)]
  simp only [if_neg hblock', if_neg hquote, if_neg hat, if_neg hat', if_neg hapostrophe]

/-- What the lexer takes off a text does not change with a line feed behind the text. -/
theorem scan_append_feed {piece : Piece} {n : Nat} (h : scan c cs = .ok (piece, n))
    (after : List Char) : scan c (cs ++ '\n' :: after) = .ok (piece, n) := by
  rw [scan_feed_congr after, h]
  · rintro rest rfl rfl
    rw [scan_starred] at h
    cases hend : commentEnd? rest with
    | none => simp [hend] at h
    | some inside => exact commentEnd?_append hend _
  · rintro rfl
    rw [scan_quote] at h
    obtain ⟨r, hbody, -⟩ := exists_of_bind_eq_ok h
    rw [hbody, stringBody_append hbody]
  · rintro rest rfl rfl
    rw [scan_verbatim] at h
    obtain ⟨r, hbody, -⟩ := exists_of_bind_eq_ok h
    rw [hbody, verbatimBody_append_feed hbody]
  · rintro rfl
    rw [scan_apostrophe] at h
    obtain ⟨r, hbody, -⟩ := exists_of_bind_eq_ok h
    rw [hbody, charBody_append hbody]

/-- A comment that is closed in a text is closed there without what is behind the text. -/
theorem commentEnd?_of_append {n : Nat} (h : commentEnd? (cs ++ after) = some n)
    (hn : n + 2 ≤ cs.length) : commentEnd? cs = some n := by
  obtain ⟨inside, behind, heq, rfl, hno⟩ := commentEnd?_eq_some_iff.1 h
  have hclosed : inside ++ ['*', '/'] <+: cs ++ after := ⟨behind, by rw [heq]; simp⟩
  obtain ⟨rest, rfl⟩ := List.prefix_of_prefix_length_le hclosed (List.prefix_append cs after)
    (by simpa using hn)
  exact commentEnd?_eq_some_iff.2 ⟨inside, rest, by simp, rfl, hno⟩

theorem stringBody_of_append_feed {value : List Char} {n : Nat}
    (h : stringBody (cs ++ '\n' :: after) = .ok (value, n)) (hn : n ≤ cs.length) :
    stringBody cs = .ok (value, n) := by
  fun_induction stringBody cs generalizing value n with
  | case1 => simp [stringBody] at h
  | case2 rest => simpa [stringBody] using h
  | case3 =>
    -- the line feed would be a part of the string
    obtain ⟨r, -, hr⟩ := exists_of_bind_eq_ok h
    obtain ⟨-, rfl⟩ := Prod.mk.inj (Except.ok.inj hr)
    simp at hn
  | case4 c rest ih => exact bind_eq_ok_of_le h hn fun _ _ hrest hi => ih hrest hi
  | case5 => simp [stringBody] at h
  | case6 c rest hquote hslash hescape hfeed ih =>
    have hne : c ≠ '\\' := by
      rintro rfl
      obtain _ | ⟨d, rest⟩ := rest
      · exact hslash rfl rfl
      · exact hescape d rest rfl rfl
    rw [List.cons_append, stringBody] at h
    · exact bind_eq_ok_of_le h hn fun _ _ hrest hi => ih hrest hi
    · exact hquote
    · exact fun hc _ => hne hc
    · exact fun _ _ hc _ => hne hc
    · exact hfeed

theorem verbatimBody_of_append_feed {value : List Char} {n : Nat}
    (h : verbatimBody (cs ++ '\n' :: after) = .ok (value, n)) (hn : n ≤ cs.length) :
    verbatimBody cs = .ok (value, n) := by
  fun_induction verbatimBody cs generalizing value n with
  | case1 =>
    rw [List.nil_append, verbatimBody] at h
    · obtain ⟨r, -, hr⟩ := exists_of_bind_eq_ok h
      obtain ⟨-, rfl⟩ := Prod.mk.inj (Except.ok.inj hr)
      simp at hn
    · simp
    · simp
  | case2 rest ih => exact bind_eq_ok_of_le h hn fun _ _ hrest hi => ih hrest hi
  | case3 rest hquote =>
    obtain _ | ⟨d, rest⟩ := rest
    · simpa [verbatimBody] using h
    · rw [List.cons_append, List.cons_append, verbatimBody] at h
      · exact h
      · rintro _ heq
        exact hquote rest (by rw [(List.cons.inj heq).1])
  | case4 c rest hquotes hquote ih =>
    rw [List.cons_append, verbatimBody] at h
    · exact bind_eq_ok_of_le h hn fun _ _ hrest hi => ih hrest hi
    · exact fun _ hc _ => hquote hc
    · exact hquote

theorem charBody_of_append_feed {value : Char} {n : Nat}
    (h : charBody (cs ++ '\n' :: after) = .ok (value, n)) (hn : n ≤ cs.length) :
    charBody cs = .ok (value, n) := by
  obtain _ | ⟨x, _ | ⟨y, _ | ⟨z, cs⟩⟩⟩ := cs
  all_goals
    unfold charBody at h
    try unfold charBody
    split at h <;> simp_all
  omega

/-- What the lexer takes off in front of a line feed does not change if the text ends there. -/
theorem scan_of_append_feed {piece : Piece} {n : Nat}
    (h : scan c (cs ++ '\n' :: after) = .ok (piece, n)) (hn : n ≤ cs.length) :
    scan c cs = .ok (piece, n) := by
  rw [← scan_feed_congr after, h]
  · rintro rest rfl rfl
    rw [List.cons_append, scan_starred] at h
    cases hend : commentEnd? (rest ++ '\n' :: after) with
    | none => simp [hend] at h
    | some i =>
      simp only [hend, Except.ok.injEq, Prod.mk.injEq] at h
      obtain ⟨-, rfl⟩ := h
      exact (commentEnd?_of_append hend (Nat.le_of_succ_le_succ hn)).symm
  · rintro rfl
    rw [scan_quote] at h
    obtain ⟨⟨v, i⟩, hbody, hr⟩ := exists_of_bind_eq_ok h
    obtain ⟨-, rfl⟩ := Prod.mk.inj (Except.ok.inj hr)
    rw [hbody, stringBody_of_append_feed hbody hn]
  · rintro rest rfl rfl
    rw [List.cons_append, scan_verbatim] at h
    obtain ⟨⟨v, i⟩, hbody, hr⟩ := exists_of_bind_eq_ok h
    obtain ⟨-, rfl⟩ := Prod.mk.inj (Except.ok.inj hr)
    rw [hbody, verbatimBody_of_append_feed hbody (Nat.le_of_succ_le_succ hn)]
  · rintro rfl
    rw [scan_apostrophe] at h
    obtain ⟨⟨v, i⟩, hbody, hr⟩ := exists_of_bind_eq_ok h
    obtain ⟨-, rfl⟩ := Prod.mk.inj (Except.ok.inj hr)
    rw [hbody, charBody_of_append_feed hbody hn]

/-! ## Tokens -/

/-- What a token is and where it stands. -/
def Token.placed (t : Token) : TokenKind × OffsetRange := (t.kind, t.range)

theorem isSpace_feed : isSpace '\n' = true := by decide

/-- The tokens of a text stay its tokens with a line feed behind it, and behind that the lexer goes
on with what follows. -/
theorem tokensFrom_append_feed {position : Nat} {doc : Option OffsetRange} {tokens : List Token}
    (h : tokensFrom cs position doc = .ok tokens) (after : List Char) :
    ∃ doc', tokensFrom (cs ++ '\n' :: after) position doc
      = (tokensFrom after (position + byteLength cs + 1) doc').map (tokens ++ ·) := by
  -- behind a piece the rest of the text goes on, with the line feed behind it
  have hrest {c : Char} {cs : List Char} {piece : Piece} {count : Nat}
      (hscan : scan c cs = .ok (piece, count)) (position : Nat) :
      scan c (cs ++ '\n' :: after) = .ok (piece, count) ∧
        (cs ++ '\n' :: after).drop count = cs.drop count ++ '\n' :: after ∧
        (cs ++ '\n' :: after).take count = cs.take count ∧
        position + byteLength (c :: cs) + 1
          = position + byteLength (c :: cs.take count) + byteLength (cs.drop count) + 1 := by
    have hcount := ((scan_answers c cs).of_ok hscan).1
    have hlength := congrArg byteLength (List.take_append_drop count cs)
    rw [byteLength_append] at hlength
    refine ⟨scan_append_feed hscan after, List.drop_append_of_le_length hcount,
      List.take_append_of_le_length hcount, ?_⟩
    rw [byteLength_cons, byteLength_cons]
    omega
  fun_induction tokensFrom cs position doc generalizing tokens with
  | case1 position doc =>
    obtain rfl := Except.ok.inj h
    refine ⟨doc, ?_⟩
    rw [List.nil_append, tokensFrom, isSpace_scan isSpace_feed]
    dsimp only
    rw [show byteLength ('\n' :: after.take 0) = 1 from rfl, List.drop_zero, byteLength_nil,
      Nat.add_zero]
    cases tokensFrom after (position + 1) doc <;> rfl
  | case2 => simp at h
  | case3 position doc c cs count stop hscan
  | case4 position doc c cs count stop hscan =>
    rename_i ih
    obtain ⟨hscan, hdrop, htake, hnext⟩ := hrest hscan position
    rw [List.cons_append, tokensFrom, hscan, hnext]
    dsimp only
    rw [hdrop, htake]
    exact ih h
  | case5 position doc c cs count stop range =>
    rename_i hscan ih
    obtain ⟨hscan, hdrop, htake, hnext⟩ := hrest hscan position
    rw [List.cons_append, tokensFrom, hscan, hnext]
    dsimp only
    rw [hdrop, htake]
    exact ih h
  | case6 position doc c cs count stop kind hscan =>
    rename_i ih
    obtain ⟨tail, htail, h⟩ := exists_of_bind_eq_ok h
    obtain rfl := Except.ok.inj h
    obtain ⟨doc', hdoc'⟩ := ih htail
    obtain ⟨hscan, hdrop, htake, hnext⟩ := hrest hscan position
    refine ⟨doc', ?_⟩
    rw [List.cons_append, tokensFrom_of_scan hscan, hdrop, htake, hnext]
    rw [show tokensFrom (cs.drop count ++ '\n' :: after)
      (position + byteLength (c :: cs.take count)) none = _ from hdoc']
    cases tokensFrom after _ doc' <;> rfl

/-- The kinds and ranges of tokens do not depend on where the text stands, up to that place. -/
theorem exists_tokensFrom_shift (k : Nat) {position : Nat} {doc : Option OffsetRange}
    {tokens : List Token} (h : tokensFrom cs position doc = .ok tokens)
    (doc' : Option OffsetRange) :
    ∃ tokens', tokensFrom cs (k + position) doc' = .ok tokens' ∧
      tokens'.map Token.placed = (tokens.map (Token.relocate (k + ·))).map Token.placed := by
  fun_induction tokensFrom cs position doc generalizing doc' tokens with
  | case1 position doc =>
    obtain rfl := Except.ok.inj h
    exact ⟨[], by rw [tokensFrom], rfl⟩
  | case2 => simp at h
  | case3 position doc c cs count stop hscan
  | case4 position doc c cs count stop hscan =>
    rename_i ih
    obtain ⟨doc'', hrest⟩ := exists_tokensFrom_of_gap hscan (by simp) (k + position) doc'
    rw [hrest, Nat.add_assoc]
    exact ih h doc''
  | case5 position doc c cs count stop range =>
    rename_i hscan ih
    obtain ⟨doc'', hrest⟩ := exists_tokensFrom_of_gap hscan (by simp) (k + position) doc'
    rw [hrest, Nat.add_assoc]
    exact ih h doc''
  | case6 position doc c cs count stop kind hscan =>
    rename_i ih
    obtain ⟨tail, htail, h⟩ := exists_of_bind_eq_ok h
    obtain rfl := Except.ok.inj h
    obtain ⟨tail', htail', hplaced⟩ := ih htail none
    refine ⟨⟨kind, ⟨k + position, k + stop⟩, doc'⟩ :: tail', ?_, ?_⟩
    · rw [tokensFrom_of_scan hscan, Nat.add_assoc k,
        show tokensFrom (cs.drop count) (k + (position + byteLength (c :: cs.take count))) none
          = .ok tail' from htail']
      rfl
    · rw [List.map_cons, List.map_cons, List.map_cons, hplaced]
      rfl

/-- **Texts are read line by line.**  Two texts that the lexer reads are read as one text with a
line feed in between.  The tokens of the first one come first, as they are, and behind them those of
the second one and its end, moved behind the line feed. -/
theorem tokenize_append_feed {a b : String} {as bs : List Token} (ha : tokenize a = .ok as)
    (hb : tokenize b = .ok bs) :
    ∃ tokens, tokenize (a ++ "\n" ++ b) = .ok tokens ∧
      (tokens ++ [endToken (a ++ "\n" ++ b)]).map Token.placed = as.map Token.placed ++
        ((bs ++ [endToken b]).map
          (Token.relocate (byteLength a.toList + 1 + ·))).map Token.placed := by
  have htext : (a ++ "\n" ++ b).toList = a.toList ++ '\n' :: b.toList := by simp
  obtain ⟨doc, hjoined⟩ := tokensFrom_append_feed ha b.toList
  obtain ⟨rest, hrest, hplaced⟩ := exists_tokensFrom_shift (byteLength a.toList + 1) hb doc
  rw [Nat.zero_add, ← Nat.add_zero (byteLength a.toList + 1), hrest] at hjoined
  refine ⟨as ++ rest, ?_, ?_⟩
  · rw [tokenize, htext, hjoined]
    rfl
  · have hfeed : '\n'.utf8Size = 1 := rfl
    have hend : (endToken (a ++ "\n" ++ b)).placed
        = ((endToken b).relocate (byteLength a.toList + 1 + ·)).placed := by
      simp [endToken, Token.placed, Token.relocate, OffsetRange.relocate, OffsetRange.point, htext,
        hfeed, Nat.add_assoc]
    simp only [List.map_append, hplaced, List.map_singleton, hend, List.append_assoc]

/-- A number and a comment that go up to the end of the first text, and a word in the second one. -/
theorem tokenize_number_comment_word :
    ∃ as bs tokens, tokenize "1//é" = .ok as ∧ tokenize "b" = .ok bs ∧
      tokenize ("1//é" ++ "\n" ++ "b") = .ok tokens ∧
      as.map Token.placed = [(.integer 1, ⟨0, 1⟩)] ∧
      tokens.map Token.placed = [(.integer 1, ⟨0, 1⟩), (.word "b", ⟨6, 7⟩)] ∧
      (tokens ++ [endToken ("1//é" ++ "\n" ++ "b")]).map Token.placed = as.map Token.placed ++
        ((bs ++ [endToken "b"]).map
          (Token.relocate (byteLength "1//é".toList + 1 + ·))).map Token.placed := by
  have hreads : (tokenize "1//é").toOption = some [⟨.integer 1, ⟨0, 1⟩, none⟩] ∧
      (tokenize "b").toOption = some [⟨.word "b", ⟨0, 1⟩, none⟩] ∧
      ((tokenize ("1//é" ++ "\n" ++ "b")).toOption.map fun tokens => tokens.map Token.placed)
        = some [(.integer 1, ⟨0, 1⟩), (.word "b", ⟨6, 7⟩)] := by decide +kernel
  obtain ⟨ha, hb, hjoined⟩ := hreads
  rw [toOption_eq_some_iff] at ha hb
  obtain ⟨tokens, htokens, hplaced⟩ := tokenize_append_feed ha hb
  rw [htokens] at hjoined
  exact ⟨_, _, tokens, ha, hb, htokens, rfl, Option.some.inj hjoined, hplaced⟩

end PropertyLint
