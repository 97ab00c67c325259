/-
# Texts that are put into a program

A fix puts a text in the place of a type or of an argument.  Here is how such a text reads there,
with the rest of the program behind it:

* `isTypeText_reads` : a text that reads as a type is still read as one, but its last word may go on
  with the word behind it;
* `lastStop_of_isTypeText` : where a type stood in front of a name, it ends where the text ends.
-/
import PropertyLint.Proofs.Syntax.Passes
import PropertyLint.Proofs.Syntax.ArgumentEnd

namespace PropertyLint

/-! ## Texts and the tokens they are read as -/

/-- With `after` behind it, the text is read as tokens of the given kinds, and the last of them ends
where the text ends. -/
def ReadsAs (text : List Char) (kinds : List TokenKind) (after : List Char) : Prop :=
  ∀ position doc, ∃ init last, (init ++ [last]).map Token.kind = kinds ∧
    last.range.stop = position + byteLength text ∧
    tokensFrom (text ++ after) position doc
      = (tokensFrom after last.range.stop none).map (init ++ last :: ·)

theorem ReadsAs.of_token {c : Char} {inside after : List Char} {kind : TokenKind}
    (h : scan c (inside ++ after) = .ok (.token kind, inside.length)) :
    ReadsAs (c :: inside) [kind] after := by
  intro position doc
  refine ⟨[], ⟨kind, ⟨position, position + byteLength (c :: inside)⟩, doc⟩, rfl, rfl, ?_⟩
  rw [List.cons_append, tokensFrom_of_scan h, List.drop_left, List.take_left]
  rfl

theorem exists_of_map_eq_ok {ε α β : Type} {x : Except ε α} {f : α → β} {b : β}
    (h : x.map f = .ok b) : ∃ a, x = .ok a ∧ f a = b := by
  cases x with
  | error e => simp [Except.map] at h
  | ok a => exact ⟨a, rfl, Except.ok.inj h⟩

theorem ReadsAs.exists_of_tokensFrom {text after : List Char} {kinds : List TokenKind}
    {position : Nat} {doc : Option OffsetRange} {ts : List Token} (h : ReadsAs text kinds after)
    (hts : tokensFrom (text ++ after) position doc = .ok ts) :
    ∃ init last rest, ts = (init ++ [last]) ++ rest ∧ (init ++ [last]).map Token.kind = kinds ∧
      last.range.stop = position + byteLength text ∧
      tokensFrom after last.range.stop none = .ok rest := by
  obtain ⟨init, last, hkinds, hstop, heq⟩ := h position doc
  rw [hts] at heq
  obtain ⟨rest, hrest, rfl⟩ := exists_of_map_eq_ok heq.symm
  exact ⟨init, last, rest, by simp, hkinds, hstop, hrest⟩

theorem ReadsAs.passes {text after : List Char} {kinds : List TokenKind}
    (h : ReadsAs text kinds after) : Passes text kinds after := by
  intro position doc
  obtain ⟨init, last, hkinds, hstop, heq⟩ := h position doc
  refine ⟨init ++ [last], none, hkinds, ?_⟩
  rw [heq, hstop]
  simp only [List.append_assoc, List.singleton_append]

theorem Passes.readsAs {before text after : List Char} {kinds kinds' : List TokenKind}
    (h : Passes before kinds (text ++ after)) (h' : ReadsAs text kinds' after) :
    ReadsAs (before ++ text) (kinds ++ kinds') after := by
  intro position doc
  obtain ⟨read, doc₁, hkinds, heq⟩ := h position doc
  obtain ⟨init, last, hkinds', hstop, heq'⟩ := h' (position + byteLength before) doc₁
  refine ⟨read ++ init, last, ?_, ?_, ?_⟩
  · rw [List.append_assoc, List.map_append, hkinds, hkinds']
  · rw [hstop, byteLength_append, Nat.add_assoc]
  · rw [List.append_assoc, heq, heq']
    cases tokensFrom after last.range.stop none <;> simp [Except.map]

theorem ReadsAs.of_mark {p : Punct} {after : List Char} (hslash : p ≠ .slash)
    (h : Punct.ofPrefix? (p.chars ++ after) = some p) : ReadsAs p.chars [.punct p] after := by
  obtain ⟨c, inside, hp, hscan⟩ := exists_scan_of_mark hslash h
  rw [hp]
  exact .of_token hscan

theorem exists_of_spellsWord {w : String} (h : spellsWord w = true) :
    ∃ c cs, w.toList = c :: cs ∧ isWordStart c = true ∧ ∀ x ∈ c :: cs, isWordChar x = true := by
  unfold spellsWord at h
  split at h
  · rename_i c cs hlist
    rw [Bool.and_eq_true, List.all_eq_true] at h
    refine ⟨c, cs, hlist, h.1, List.forall_mem_cons.2 ⟨?_, h.2⟩⟩
    rw [isWordChar, h.1, Bool.true_or]
  · simp at h

/-- A word goes on with the letters and digits behind it. -/
theorem ReadsAs.of_word {w : String} (hw : spellsWord w = true) {spelling : List Char}
    (hspelling : spelling = w.toList ∨ spelling = '@' :: w.toList) (after : List Char) :
    ReadsAs (spelling ++ after.takeWhile isWordChar)
      [.word (w ++ String.ofList (after.takeWhile isWordChar))] (after.dropWhile isWordChar) := by
  obtain ⟨c, cs, hlist, hstart, hall⟩ := exists_of_spellsWord hw
  have hword : (w.toList ++ after).takeWhile isWordChar
      = w.toList ++ after.takeWhile isWordChar :=
    List.takeWhile_append_of_pos (hlist ▸ hall)
  have hkind : wordOf (w.toList ++ after) = w ++ String.ofList (after.takeWhile isWordChar) := by
    rw [wordOf, hword, ← String.toList_inj, String.toList_append, String.toList_ofList,
      String.toList_ofList]
  have hafter : after.takeWhile isWordChar ++ after.dropWhile isWordChar = after :=
    List.takeWhile_append_dropWhile
  rw [hlist, List.cons_append] at hword
  obtain rfl | rfl := hspelling
  · rw [← hkind, hlist, List.cons_append, List.cons_append]
    apply ReadsAs.of_token
    rw [List.append_assoc, hafter, scan_of_isWordStart hstart]
    rw [List.takeWhile_cons_of_pos (hall c (.head _)), List.cons_append, List.cons.injEq] at hword
    rw [hword.2]
  · rw [← hkind, List.cons_append]
    apply ReadsAs.of_token
    rw [List.append_assoc, hafter, scan_of_at (by simpa [hlist] using hstart), hlist,
      List.cons_append, hword]

/-! ## Texts that read as types -/

/-- The text, from its first character to its last, reads as a type. -/
def isTypeText (text : String) : Bool :=
  let whole : OffsetRange := ⟨0, byteLength text.toList⟩
  match tokenize text with
  | .error _ => false
  | .ok tokens =>
    match (Grammar.type .declaration).outcome ⟨tokens, 0, 0, whole.stop⟩ with
    | (.error _, _) => false
    | (.ok t, c) => c.tokens.isEmpty && t.range == whole

theorem TypeState.isPlain_of_run {s s' : TypeState} {kinds : List TokenKind}
    (h : s.run kinds = some s') : ∀ k ∈ kinds, (Piece.token k).isPlain = true := by
  induction kinds generalizing s with
  | nil => simp
  | cons k kinds ih =>
    rw [run_cons] at h
    obtain ⟨s₁, hstep, h⟩ := Option.bind_eq_some_iff.1 h
    refine List.forall_mem_cons.2 ⟨?_, ih h⟩
    unfold step at hstep
    split at hstep <;> first | rfl | simp at hstep

/-- The last token of a type. -/
theorem TypeState.last_of_run {kinds : List TokenKind} {k : TokenKind}
    (h : start.run (kinds ++ [k]) = some done) :
    (∃ w, k = .word w ∧ ∀ w', start.run (kinds ++ [.word w']) = some done) ∨
      k = .punct .greater ∨ k = .punct .closeBracket ∨ k = .punct .question := by
  rw [run_append] at h
  obtain ⟨s, hs, h⟩ := Option.bind_eq_some_iff.1 h
  rw [run_cons] at h
  obtain ⟨s', hstep, rfl⟩ : ∃ s', s.step k = some s' ∧ s' = done := by
    obtain ⟨s', hstep, h⟩ := Option.bind_eq_some_iff.1 h
    exact ⟨s', hstep, Option.some.inj h⟩
  simp only [run_append, hs]
  unfold step at hstep
  split at hstep <;> simp_all [step, done]

theorem exists_of_isTypeText {text : String} (h : isTypeText text = true) :
    ∃ init last, tokenize text = .ok (init ++ [last]) ∧
      TypeState.start.run ((init ++ [last]).map Token.kind) = some .done ∧
      last.range.stop = byteLength text.toList := by
  unfold isTypeText at h
  dsimp only at h
  split at h
  · simp at h
  rename_i tokens htokens
  split at h
  · simp at h
  rename_i t c hrun
  rw [Bool.and_eq_true, List.isEmpty_iff, beq_iff_eq] at h
  -- nothing is left behind the type, so it consists of all the tokens
  obtain ⟨⟨read, hread, hspells⟩, hrange⟩ := Grammar.type_reads hrun
  obtain rfl : tokens = read := by
    have := hread.tokens
    rwa [h.1, List.append_nil] at this
  obtain rfl | ⟨init, last, hconcat⟩ := List.eq_nil_or_concat tokens
  · simp [TypeState.start, TypeState.done] at hspells
  obtain rfl : tokens = init ++ [last] := hconcat.trans List.concat_eq_append
  refine ⟨init, last, htokens, hspells, ?_⟩
  have hlast := hread.last
  rw [Grammar.Cursor.lastStop_concat] at hlast
  rw [h.2, Grammar.Cursor.rangeSince, OffsetRange.mk.injEq, ← hrange.1] at hrange
  omega

/-- No longer mark starts with a mark that a type may end with, unless the characters behind it are
those of a mark. -/
theorem ofPrefix?_of_typeEnd {p : Punct} {after : List Char}
    (hp : p = .greater ∨ p = .closeBracket ∨ p = .question) (hassign : after.head? ≠ some '=')
    (hquestion : after.head? ≠ some '?') : Punct.ofPrefix? (p.chars ++ after) = some p := by
  obtain _ | ⟨c, after⟩ := after
  · rcases hp with rfl | rfl | rfl <;> rfl
  · rw [List.head?_cons, ne_eq, Option.some.injEq] at hassign hquestion
    rcases hp with rfl | rfl | rfl <;>
      simp [Punct.ofPrefix?, Punct.all, Punct.chars, List.isPrefixOf, Ne.symm hassign,
        Ne.symm hquestion]

/-- A text that reads as a type reads as one wherever it stands, up to the end of its last word. -/
theorem isTypeText_reads {text : String} (h : isTypeText text = true) {after : List Char}
    (hassign : after.head? ≠ some '=') (hquestion : after.head? ≠ some '?') :
    ∃ kinds, TypeState.start.run kinds = some .done ∧
      (ReadsAs text.toList kinds after ∨
        (after.takeWhile isWordChar ≠ [] ∧
          ReadsAs (text.toList ++ after.takeWhile isWordChar) kinds
            (after.dropWhile isWordChar))) := by
  obtain ⟨init, last, htokens, hrun, hstop⟩ := exists_of_isTypeText h
  have hplain : ∀ t ∈ init, (Piece.token t.kind).isPlain = true := fun t ht =>
    TypeState.isPlain_of_run hrun _ (List.mem_map_of_mem (List.mem_append_left _ ht))
  obtain ⟨before, spelling, htext, hspelled, hpasses⟩ := exists_passes htokens
    (by rw [hstop, Nat.zero_add]) hplain
  rw [List.map_append, List.map_singleton] at hrun
  have hmark {p : Punct} (hlast : last.kind = .punct p)
      (hp : p = .greater ∨ p = .closeBracket ∨ p = .question) :
      ReadsAs text.toList (init.map Token.kind ++ [last.kind]) after := by
    obtain ⟨rfl, -⟩ := hspelled.punct hlast
    rw [htext, hlast]
    refine (hpasses after).readsAs (.of_mark ?_ (ofPrefix?_of_typeEnd hp hassign hquestion))
    rcases hp with rfl | rfl | rfl <;> decide
  -- only a last word can go on behind the text
  rcases TypeState.last_of_run hrun with ⟨w, hlast, hrun⟩ | hlast | hlast | hlast
  · obtain ⟨hw, hspelling, -⟩ := hspelled.word hlast
    refine ⟨init.map Token.kind ++ [.word (w ++ String.ofList (after.takeWhile isWordChar))],
      hrun _, ?_⟩
    have hsplit : spelling ++ after
        = (spelling ++ after.takeWhile isWordChar) ++ after.dropWhile isWordChar := by
      rw [List.append_assoc, List.takeWhile_append_dropWhile]
    have hreads := (hsplit ▸ hpasses after).readsAs (.of_word hw hspelling after)
    rw [← List.append_assoc, ← htext] at hreads
    by_cases hmore : after.takeWhile isWordChar = []
    · have hdrop : after.dropWhile isWordChar = after := by
        have := List.takeWhile_append_dropWhile (p := isWordChar) (l := after)
        rwa [hmore, List.nil_append] at this
      rw [hdrop] at hreads
      simp only [hmore, List.append_nil] at hreads ⊢
      exact .inl hreads
    · exact .inr ⟨hmore, hreads⟩
  · exact ⟨_, hrun, .inl (hmark hlast (by simp))⟩
  · exact ⟨_, hrun, .inl (hmark hlast (by simp))⟩
  · exact ⟨_, hrun, .inl (hmark hlast (by simp))⟩

/-! ## A type in the place of another one -/

/-- The kinds of the tokens do not depend on where the text stands. -/
theorem map_kind_of_tokensFrom {cs : List Char} {position position' : Nat}
    {doc doc' : Option OffsetRange} {ts ts' : List Token} (h : tokensFrom cs position doc = .ok ts)
    (h' : tokensFrom cs position' doc' = .ok ts') : ts.map Token.kind = ts'.map Token.kind := by
  fun_induction tokensFrom cs position doc generalizing position' doc' ts ts' with
  | case1 =>
    rw [tokensFrom] at h'
    simp_all
  | case2 => simp at h
  | case3 position doc c cs count stop hscan =>
    rename_i ih
    rw [tokensFrom, hscan] at h'
    exact ih h h'
  | case4 position doc c cs count stop hscan =>
    rename_i ih
    rw [tokensFrom, hscan] at h'
    exact ih h h'
  | case5 position doc c cs count stop range =>
    rename_i hscan ih
    rw [tokensFrom, hscan] at h'
    exact ih h h'
  | case6 position doc c cs count stop kind hscan =>
    rename_i ih
    rw [tokensFrom_of_scan hscan] at h'
    obtain ⟨us', hus', rfl⟩ := exists_of_map_eq_ok h'
    cases hus : tokensFrom (cs.drop count) stop none with
    | error e => simp [hus, bind, Except.bind] at h
    | ok us =>
      simp only [hus, bind, Except.bind, pure, Except.pure, Except.ok.injEq] at h
      rw [← h, List.map_cons, List.map_cons, ih hus hus']

/-- The first token of a text that starts with it. -/
theorem exists_of_scan {c : Char} {cs : List Char} {kind : TokenKind} {count position : Nat}
    {doc : Option OffsetRange} {t : Token} {ts : List Token}
    (hscan : scan c cs = .ok (.token kind, count))
    (h : tokensFrom (c :: cs) position doc = .ok (t :: ts)) :
    t.kind = kind ∧ ∃ stop, tokensFrom (cs.drop count) stop none = .ok ts := by
  rw [tokensFrom_of_scan hscan] at h
  obtain ⟨us, hus, heq⟩ := exists_of_map_eq_ok h
  obtain ⟨rfl, rfl⟩ := List.cons.inj heq
  exact ⟨rfl, _, hus⟩

/-- The word that a text starts with, if the text starts with a letter or a digit. -/
theorem exists_tokensFrom_dropWhile {cs : List Char} {position : Nat} {doc : Option OffsetRange}
    {t : Token} {ts : List Token} {w : String} (h : tokensFrom cs position doc = .ok (t :: ts))
    (hword : t.kind = .word w) (hcs : cs.takeWhile isWordChar ≠ []) :
    ∃ stop, tokensFrom (cs.dropWhile isWordChar) stop none = .ok ts := by
  obtain _ | ⟨c, cs⟩ := cs
  · exact absurd rfl hcs
  have hc : isWordChar c = true := by
    cases hc : isWordChar c with
    | true => rfl
    | false => exact absurd (List.takeWhile_cons_of_neg (by simp [hc])) hcs
  cases hstart : isWordStart c with
  | true =>
    obtain ⟨-, stop, hts⟩ := exists_of_scan (scan_of_isWordStart hstart cs) h
    refine ⟨stop, ?_⟩
    have hdrop : cs.drop (cs.takeWhile isWordChar).length = cs.dropWhile isWordChar := by
      have hsplit := congrArg (List.drop (cs.takeWhile isWordChar).length)
        (List.takeWhile_append_dropWhile (p := isWordChar) (l := cs))
      rw [List.drop_left] at hsplit
      exact hsplit.symm
    rw [List.dropWhile_cons_of_pos hc, ← hdrop, hts]
  -- a number is no word
  | false =>
    have hdigit : isDigit c = true := by simpa [isWordChar, hstart] using hc
    have hscan := scan_eq_number hstart hdigit cs
    cases hn : number (c :: cs) with
    | error e =>
      rw [tokensFrom, hscan, hn] at h
      simp [bind, Except.bind] at h
    | ok result =>
      obtain ⟨kind, count⟩ := result
      rw [hn] at hscan
      obtain ⟨hkind, -⟩ := exists_of_scan hscan h
      have hplain := not_isPlain_of_number hn
      rw [← hkind, hword] at hplain
      exact absurd hplain (by simp [Piece.isPlain])

theorem head_ne_of_word {cs : List Char} {position : Nat} {doc : Option OffsetRange} {t : Token}
    {ts : List Token} {w : String} (h : tokensFrom cs position doc = .ok (t :: ts))
    (hword : t.kind = .word w) : cs.head? ≠ some '=' ∧ cs.head? ≠ some '?' := by
  have hne {c : Char} (hc : isSpace c = false ∧ c ≠ '/' ∧ c ≠ '#' ∧ isWordStart c = false ∧
      c ≠ '@' ∧ isDigit c = false ∧ c ≠ '"' ∧ c ≠ '\'') : cs.head? ≠ some c := by
    intro hhead
    obtain ⟨cs, rfl⟩ := List.head?_eq_some_iff.1 hhead
    have hscan := scan_eq_mark hc cs
    split at hscan
    · obtain ⟨hkind, -⟩ := exists_of_scan hscan h
      exact absurd (hword.symm.trans hkind) (by simp)
    · rw [tokensFrom, hscan] at h
      simp at h
  exact ⟨hne (by decide), hne (by decide)⟩

/-- **A type in the place of another one.**  The old type stood in front of a name.  If the new one
still stands in front of a word, it is the whole new text. -/
theorem lastStop_of_isTypeText {text : String} (htext : isTypeText text = true) {after : List Char}
    {position stop : Nat} {doc : Option OffsetRange} {t : Token} {rest read more : List Token}
    {w : String} (hafter : tokensFrom after stop none = .ok (t :: rest)) (ht : t.kind = .word w)
    (hstops : TypeState.done.Stops (rest.map Token.kind))
    (h : tokensFrom (text.toList ++ after) position doc = .ok (read ++ more))
    (hread : TypeState.start.run (read.map Token.kind) = some .done) {w' : String}
    {kinds : List TokenKind} (hmore : more.map Token.kind = .word w' :: kinds) :
    Grammar.Cursor.lastStop 0 read = position + byteLength text.toList := by
  obtain ⟨hassign, hquestion⟩ := head_ne_of_word hafter ht
  obtain ⟨kinds', hrun, hreads | ⟨hstart, hreads⟩⟩ := isTypeText_reads htext hassign hquestion
  -- both the new text and what has been read are types in front of a word
  · obtain ⟨init, last, rest', htokens, hkinds, hstop, hrest'⟩ := hreads.exists_of_tokensFrom h
    have hrest := map_kind_of_tokensFrom hrest' hafter
    rw [List.map_cons, ht] at hrest
    have hsame : read.map Token.kind ++ .word w' :: kinds
        = (init ++ [last]).map Token.kind ++ .word w :: rest.map Token.kind := by
      rw [← hmore, ← hrest, ← List.map_append, ← List.map_append, htokens]
    have hlength : read.length = (init ++ [last]).length := by
      have := congrArg List.length (TypeState.unique hsame rfl rfl hread (hkinds ▸ hrun))
      simpa only [List.length_map] using this
    rw [(List.append_inj htokens hlength).1, Grammar.Cursor.lastStop_concat, hstop]
  -- the last word has taken in the name, and behind the name no type ends
  · obtain ⟨stop', hdrop⟩ := exists_tokensFrom_dropWhile hafter ht hstart
    rw [← List.takeWhile_append_dropWhile (p := isWordChar) (l := after), ← List.append_assoc] at h
    obtain ⟨init, last, rest', htokens, hkinds, -, hrest'⟩ := hreads.exists_of_tokensFrom h
    have hrest := map_kind_of_tokensFrom hrest' hdrop
    have hsame : (init ++ [last]).map Token.kind ++ rest'.map Token.kind
        = read.map Token.kind ++ .word w' :: kinds := by
      rw [← hmore, ← List.map_append, ← List.map_append, htokens]
    exact absurd hread (TypeState.not_followed hsame (hkinds ▸ hrun) (hrest ▸ hstops))

/-! ## Texts that read as arguments -/

/-- The text is an argument of a simple form. -/
inductive ArgumentText : String → Prop
  | string {w : String} (h : spellsWord w = true) : ArgumentText ("\"" ++ w ++ "\"")
  | nameOf {w : String} (h : spellsWord w = true) : ArgumentText ("nameof(" ++ w ++ ")")
  | typeOf {type : String} (h : isTypeText type = true) : ArgumentText ("typeof(" ++ type ++ ")")

theorem ReadsAs.trans {text text' after : List Char} {kinds kinds' : List TokenKind}
    (h : ReadsAs text kinds (text' ++ after)) (h' : ReadsAs text' kinds' after) :
    ReadsAs (text ++ text') (kinds ++ kinds') after := h.passes.readsAs h'

theorem ReadsAs.of_open (after : List Char) : ReadsAs ['('] [.punct .openParen] after :=
  .of_mark (p := .openParen) (by decide) (by simp [Punct.ofPrefix?, Punct.all, Punct.chars])

theorem ReadsAs.of_close (after : List Char) : ReadsAs [')'] [.punct .closeParen] after :=
  .of_mark (p := .closeParen) (by decide) (by simp [Punct.ofPrefix?, Punct.all, Punct.chars])

/-- A word in front of a character that no word has. -/
theorem ReadsAs.of_whole_word {w : String} (hw : spellsWord w = true) {c : Char}
    (hc : isWordChar c = false) (after : List Char) :
    ReadsAs w.toList [.word w] (c :: after) := by
  have h := ReadsAs.of_word hw (.inl rfl) (c :: after)
  rw [List.takeWhile_cons_of_neg (by simp [hc]), List.dropWhile_cons_of_neg (by simp [hc])] at h
  simpa using h

theorem stringBody_word {w : List Char} (hw : ∀ c ∈ w, isWordChar c = true) (after : List Char) :
    stringBody (w ++ '"' :: after) = .ok (w, w.length + 1) := by
  induction w with
  | nil => rfl
  | cons c w ih =>
    have hne {d : Char} (hd : isWordChar d = false) : c ≠ d := by
      rintro rfl
      exact Bool.false_ne_true (hd.symm.trans (hw c (.head _)))
    have ih := ih fun c hc => hw c (.tail _ hc)
    have hquote : c ≠ '"' := hne (by decide)
    have hescape : c ≠ '\\' := hne (by decide)
    have hline : c ≠ '\n' := hne (by decide)
    rw [List.cons_append, stringBody, ih] <;> simp [bind, Except.bind, pure, Except.pure, *]

theorem ReadsAs.of_string {w : String} (hw : spellsWord w = true) (after : List Char) :
    ReadsAs ("\"" ++ w ++ "\"").toList [.string w] after := by
  obtain ⟨c, cs, hlist, -, hall⟩ := exists_of_spellsWord hw
  have hbody := stringBody_word (hlist ▸ hall) after
  rw [show ("\"" ++ w ++ "\"").toList = '"' :: (w.toList ++ ['"']) by simp]
  apply ReadsAs.of_token
  rw [List.append_assoc, List.singleton_append]
  unfold scan
  rw [if_neg (by decide), if_neg (by simp), if_neg (by simp), if_neg (by simp), if_neg (by decide),
    if_neg (by decide), if_neg (by simp), if_neg (by decide), if_pos rfl, hbody]
  simp [bind, Except.bind, pure, Except.pure]

/-- A word with something in parentheses behind it. -/
theorem ReadsAs.in_parens {name : String} (hname : spellsWord name = true)
    {inside after : List Char}
    {kinds : List TokenKind} (h : ReadsAs inside kinds (')' :: after)) :
    ReadsAs (name.toList ++ '(' :: (inside ++ [')']))
      ([.word name, .punct .openParen] ++ kinds ++ [.punct .closeParen]) after := by
  have hclose : ReadsAs (inside ++ [')']) (kinds ++ [.punct .closeParen]) after :=
    h.trans (.of_close after)
  have hopen : ReadsAs ('(' :: (inside ++ [')']))
      (.punct .openParen :: (kinds ++ [.punct .closeParen])) after :=
    (ReadsAs.of_open _).trans hclose
  have hword : ReadsAs name.toList [.word name] ('(' :: (inside ++ [')']) ++ after) :=
    .of_whole_word hname (by decide) _
  rw [List.append_assoc]
  exact hword.trans hopen

/-- An argument of a simple form reads as one wherever it stands. -/
theorem ArgumentText.reads {text : String} (h : ArgumentText text) (after : List Char) :
    ∃ kinds, Grammar.ArgumentKinds kinds ∧ ReadsAs text.toList kinds after := by
  cases h with
  | string hw => exact ⟨_, .string _, .of_string hw after⟩
  | @nameOf w hw =>
    refine ⟨_, .nameOf w, ?_⟩
    rw [show ("nameof(" ++ w ++ ")").toList = "nameof".toList ++ '(' :: (w.toList ++ [')']) by simp]
    exact .in_parens (by decide) (.of_whole_word hw (by decide) after)
  | @typeOf type ht =>
    obtain ⟨kinds, hrun, hreads | ⟨hstart, -⟩⟩ :=
      @isTypeText_reads _ ht (')' :: after) (by simp) (by simp)
    · refine ⟨_, .typeOf hrun, ?_⟩
      rw [show ("typeof(" ++ type ++ ")").toList
        = "typeof".toList ++ '(' :: (type.toList ++ [')']) by simp]
      exact .in_parens (by decide) hreads
    · exact absurd (List.takeWhile_cons_of_neg (by decide)) hstart

end PropertyLint
