/-
# What stands between tokens

A text consists of its tokens and of what stands between them: white space and comments
(`Gap`).  What a gap consists of is decided by its characters and what follows (`Gap.unique`), so
the doc comments in it are well defined.  The lexer takes the pieces of a gap off one by one and
covers the doc comments among them (`gapInFront_of_tokensFrom`).  So the tokens, with the end of the
text as the last one, stand one behind the other with gaps between them, and the doc range of a
token goes from the start of the first doc comment in the gap in front of it to the end of the last
one (`tokenize_tiles`).
-/
import PropertyLint.Proofs.Syntax.Layout
import PropertyLint.Proofs.Text.Splice

namespace PropertyLint

variable {c : Char} {cs after : List Char} {piece : Piece} {count : Nat}

/-! ## Comments -/

/-- The text is empty or starts with a line feed. -/
def AtLineEnd (cs : List Char) : Prop := ∀ c ∈ cs.head?, c = '\n'

/-- The characters are one comment, with `after` behind it.  A comment goes up to the end of a line,
and so does a line from `#` on, or it goes up to the first mark that closes it. -/
inductive IsComment : List Char → List Char → Prop where
  | line {inside after : List Char} : '\n' ∉ inside → AtLineEnd after →
      IsComment ('/' :: '/' :: inside) after
  | directive {inside after : List Char} : '\n' ∉ inside → AtLineEnd after →
      IsComment ('#' :: inside) after
  | block {inside after : List Char} : ¬ ['*', '/'] <:+: inside →
      IsComment ('/' :: '*' :: (inside ++ ['*', '/'])) after

/-- A comment is a doc comment if it starts with three slashes. -/
def IsDoc (cs : List Char) : Prop := ['/', '/', '/'] <+: cs

instance (cs : List Char) : Decidable (IsDoc cs) := inferInstanceAs (Decidable (_ <+: _))

/-- The piece that a comment is read as. -/
def commentPiece (cs : List Char) : Piece := if IsDoc cs then .docComment else .comment

theorem take_restOfLine (cs : List Char) : cs.take (restOfLine cs) = cs.takeWhile (· != '\n') :=
  (List.prefix_iff_eq_take.1 (List.takeWhile_prefix _)).symm

theorem atLineEnd_drop_restOfLine (cs : List Char) : AtLineEnd (cs.drop (restOfLine cs)) := by
  have hsplit := List.take_append_drop (restOfLine cs) cs
  rw [take_restOfLine] at hsplit
  have hdrop := List.append_cancel_left
    (hsplit.trans (List.takeWhile_append_dropWhile (p := (· != '\n')) (l := cs)).symm)
  rw [hdrop]
  intro c hc
  have hstop := List.head?_dropWhile_not (· != '\n') cs
  rw [Option.mem_def.1 hc] at hstop
  simpa using hstop

/-- A line ends where the first line feed is. -/
theorem restOfLine_append_of_atLineEnd {inside : List Char} (h : '\n' ∉ inside)
    (hend : AtLineEnd after) : restOfLine (inside ++ after) = inside.length := by
  have hinside : ∀ x ∈ inside, (x != '\n') = true := by
    intro x hx
    rw [bne_iff_ne]
    rintro rfl
    exact h hx
  have hafter : after.takeWhile (· != '\n') = [] := by
    obtain _ | ⟨x, after⟩ := after
    · rfl
    · rw [hend x rfl]
      rfl
  rw [restOfLine, List.takeWhile_append_of_pos hinside, hafter, List.append_nil]

/-- The end of a comment is the first mark that closes it. -/
theorem commentEnd?_eq_some_iff {n : Nat} :
    commentEnd? cs = some n ↔ ∃ inside after, cs = inside ++ '*' :: '/' :: after ∧
      inside.length = n ∧ ¬ ['*', '/'] <:+: inside := by
  fun_induction commentEnd? cs generalizing n with
  | case1 => simp
  | case2 rest =>
    constructor
    · intro h
      obtain rfl := Option.some.inj h
      exact ⟨[], rest, rfl, rfl, by simp⟩
    · rintro ⟨inside, after, heq, rfl, hno⟩
      -- a longer inside would start with the mark, or end in the middle of it
      obtain _ | ⟨x, _ | ⟨y, inside⟩⟩ := inside
      · rfl
      · simp at heq
      · obtain ⟨rfl, rfl, -⟩ : '*' = x ∧ '/' = y ∧ rest = inside ++ '*' :: '/' :: after := by
          simpa using heq
        exact absurd ⟨[], inside, rfl⟩ hno
  | case3 c rest hne ih =>
    rw [Option.map_eq_some_iff]
    constructor
    · rintro ⟨m, hm, rfl⟩
      obtain ⟨inside, after, rfl, rfl, hno⟩ := ih.1 hm
      refine ⟨c :: inside, after, rfl, rfl, ?_⟩
      rw [List.infix_cons_iff, not_or]
      refine ⟨?_, hno⟩
      rintro ⟨behind, heq⟩
      obtain ⟨rfl, rfl⟩ : '*' = c ∧ '/' :: behind = inside := by simpa using heq
      exact hne _ rfl rfl
    · rintro ⟨inside, after, heq, rfl, hno⟩
      obtain _ | ⟨x, inside⟩ := inside
      · obtain ⟨rfl, rfl⟩ : c = '*' ∧ rest = '/' :: after := by simpa using heq
        exact absurd rfl (hne _ rfl)
      · obtain ⟨rfl, rfl⟩ : c = x ∧ rest = inside ++ '*' :: '/' :: after := by simpa using heq
        rw [List.infix_cons_iff, not_or] at hno
        exact ⟨inside.length, ih.2 ⟨inside, after, rfl, rfl, hno.2⟩, rfl⟩

/-! ## Pieces -/

/-- Two slashes start a comment up to the end of the line. -/
theorem scan_slashes (cs : List Char) :
    scan '/' ('/' :: cs)
      = .ok (commentPiece ('/' :: '/' :: cs.take (restOfLine cs)), restOfLine cs + 1) := by
  have hline : restOfLine ('/' :: cs) = restOfLine cs + 1 := by simp [restOfLine]
  have hdoc : IsDoc ('/' :: '/' :: cs.take (restOfLine cs)) ↔
      ['/', '/', '/'].isPrefixOf ('/' :: '/' :: cs) = true := by
    rw [IsDoc, List.isPrefixOf_iff_prefix, take_restOfLine]
    obtain _ | ⟨x, cs⟩ := cs
    · simp
    · by_cases hx : x = '\n' <;> simp [hx]
  unfold scan commentPiece
  rw [if_neg (by decide), hline]
  by_cases hthree : ['/', '/', '/'].isPrefixOf ('/' :: '/' :: cs) = true
  · rw [if_pos hthree, if_pos (hdoc.2 hthree)]
  · rw [if_neg hthree, if_pos (by simp), if_neg (hdoc.not.2 hthree)]

/-- A slash with a star starts a comment up to the mark that closes it. -/
theorem scan_starred (cs : List Char) :
    scan '/' ('*' :: cs) = match commentEnd? cs with
      | some inside => .ok (.comment, inside + 3)
      | none => .error .unterminatedComment := by
  have hslash : isSpace '/' = false := by decide
  cases hend : commentEnd? cs <;> simp [scan, hslash, hend]

/-- A hash starts a comment up to the end of the line. -/
theorem scan_hash (cs : List Char) : scan '#' cs = .ok (.comment, restOfLine cs) := by
  unfold scan
  rw [if_neg (by decide), if_neg (by simp), if_neg (by simp), if_neg (by simp), if_pos rfl]

/-- Everything else that is no white space is a token. -/
theorem exists_token_of_scan (h : scan c cs = .ok (piece, count)) (hspace : isSpace c = false)
    (hslash : c = '/' → cs.head? ≠ some '/' ∧ cs.head? ≠ some '*') (hhash : c ≠ '#') :
    ∃ kind, piece = .token kind := by
  have hno (d : Char) (ds : List Char) (hd : c = '/' → cs.head? ≠ some d) :
      ¬ ('/' :: d :: ds).isPrefixOf (c :: cs) = true := by
    rw [List.isPrefixOf_iff_prefix]
    rintro ⟨rest, hrest⟩
    obtain ⟨rfl, rfl⟩ := List.cons.inj hrest
    exact hd rfl rfl
  unfold scan at h
  rw [if_neg (by simp [hspace]), if_neg (hno _ _ fun h => (hslash h).1),
    if_neg (hno _ _ fun h => (hslash h).1), if_neg (hno _ _ fun h => (hslash h).2),
    if_neg hhash] at h
  simp only [bind, Except.bind, pure, Except.pure] at h
  repeat' split at h
  all_goals simp at h
  all_goals exact ⟨_, h.1.symm⟩

/-- What a piece of a text is: white space, a comment or a token. -/
theorem scan_cases (h : scan c cs = .ok (piece, count)) :
    (piece = .blank ∧ isSpace c = true ∧ count = 0) ∨
      (piece = commentPiece (c :: cs.take count) ∧
        IsComment (c :: cs.take count) (cs.drop count)) ∨
      ∃ kind, piece = .token kind := by
  have hline (cs : List Char) : '\n' ∉ cs.take (restOfLine cs) := by
    rw [take_restOfLine]
    exact feed_not_mem_takeWhile cs
  cases hspace : isSpace c with
  | true =>
    rw [scan, if_pos hspace] at h
    simp only [Except.ok.injEq, Prod.mk.injEq] at h
    exact .inl ⟨h.1.symm, rfl, h.2.symm⟩
  | false =>
    refine .inr ?_
    by_cases hhash : c = '#'
    · subst hhash
      rw [scan_hash] at h
      simp only [Except.ok.injEq, Prod.mk.injEq] at h
      obtain ⟨rfl, rfl⟩ := h
      exact .inl ⟨by simp [commentPiece, IsDoc],
        .directive (hline cs) (atLineEnd_drop_restOfLine cs)⟩
    by_cases hslash : c = '/' ∧ (cs.head? = some '/' ∨ cs.head? = some '*')
    · refine .inl ?_
      obtain ⟨rfl, hhead | hhead⟩ := hslash
      · obtain ⟨cs, rfl⟩ := List.head?_eq_some_iff.1 hhead
        rw [scan_slashes] at h
        simp only [Except.ok.injEq, Prod.mk.injEq] at h
        obtain ⟨rfl, rfl⟩ := h
        exact ⟨rfl, .line (hline cs) (atLineEnd_drop_restOfLine cs)⟩
      · obtain ⟨cs, rfl⟩ := List.head?_eq_some_iff.1 hhead
        rw [scan_starred] at h
        cases hend : commentEnd? cs with
        | none => simp [hend] at h
        | some n =>
          simp only [hend, Except.ok.injEq, Prod.mk.injEq] at h
          obtain ⟨rfl, rfl⟩ := h
          obtain ⟨inside, after, rfl, rfl, hno⟩ := commentEnd?_eq_some_iff.1 hend
          have htake : ('*' :: (inside ++ '*' :: '/' :: after)).take (inside.length + 3)
              = '*' :: (inside ++ ['*', '/']) := by
            simp [List.take_append, List.take_of_length_le]
          have hdrop : ('*' :: (inside ++ '*' :: '/' :: after)).drop (inside.length + 3)
              = after := by
            simp [List.drop_append]
          rw [htake, hdrop]
          exact ⟨by simp [commentPiece, IsDoc], .block hno⟩
    · exact .inr (exists_token_of_scan h hspace
        (fun hc => not_or.1 fun hhead => hslash ⟨hc, hhead⟩) hhash)

/-- A comment is read as a whole. -/
theorem scan_of_isComment {comment : List Char} (h : IsComment comment after) :
    ∃ c inside, comment = c :: inside ∧
      scan c (inside ++ after) = .ok (commentPiece comment, inside.length) := by
  cases h with
  | @line inside _ hinside hend =>
    refine ⟨'/', '/' :: inside, rfl, ?_⟩
    rw [List.cons_append, scan_slashes, restOfLine_append_of_atLineEnd hinside hend, List.take_left]
    rfl
  | @directive inside _ hinside hend =>
    refine ⟨'#', inside, rfl, ?_⟩
    rw [scan_hash, restOfLine_append_of_atLineEnd hinside hend]
    simp [commentPiece, IsDoc]
  | @block inside _ hno =>
    refine ⟨'/', '*' :: (inside ++ ['*', '/']), rfl, ?_⟩
    have hend := commentEnd?_eq_some_iff.2 ⟨inside, after, rfl, rfl, hno⟩
    rw [List.cons_append, List.append_assoc, List.cons_append, List.cons_append, List.nil_append,
      scan_starred, hend]
    simp [commentPiece, IsDoc]

/-! ## Gaps -/

/-- The range of a comment at an offset, if it is a doc comment. -/
def docRanges (position : Nat) (comment : List Char) : List OffsetRange :=
  if IsDoc comment then [⟨position, position + byteLength comment⟩] else []

/-- `Gap after position cs docs`: the characters, which start at the offset and have `after` behind
them, are white space and comments, and `docs` are the ranges of the doc comments among them. -/
inductive Gap (after : List Char) : Nat → List Char → List OffsetRange → Prop where
  | nil (position : Nat) : Gap after position [] []
  | space {position : Nat} {c : Char} {cs : List Char} {docs : List OffsetRange} :
      isSpace c = true → Gap after (position + c.utf8Size) cs docs →
      Gap after position (c :: cs) docs
  | comment {position : Nat} {comment cs : List Char} {docs : List OffsetRange} :
      IsComment comment (cs ++ after) → Gap after (position + byteLength comment) cs docs →
      Gap after position (comment ++ cs) (docRanges position comment ++ docs)

theorem isSpace_scan (h : isSpace c = true) (cs : List Char) : scan c cs = .ok (.blank, 0) := by
  rw [scan, if_pos h]

/-- The characters of a gap decide what it consists of. -/
theorem Gap.unique {position : Nat} {docs docs' : List OffsetRange} (h : Gap after position cs docs)
    (h' : Gap after position cs docs') : docs = docs' := by
  have hblank {c : Char} {inside rest : List Char} (hc : isSpace c = true)
      (h : IsComment (c :: inside) rest) : False := by
    obtain ⟨d, inside', heq, hscan⟩ := scan_of_isComment h
    obtain ⟨rfl, rfl⟩ := List.cons.inj heq
    rw [isSpace_scan hc, commentPiece] at hscan
    split at hscan <;> simp at hscan
  generalize hcs : cs = cs' at h'
  induction h generalizing docs' cs' with
  | nil position =>
    cases h' with
    | nil => rfl
    | space => simp at hcs
    | comment hcomment =>
      obtain ⟨c, inside, rfl, -⟩ := scan_of_isComment hcomment
      simp at hcs
  | space hc _ ih =>
    cases h' with
    | nil => simp at hcs
    | space _ hrest =>
      obtain ⟨rfl, rfl⟩ := List.cons.inj hcs
      exact ih _ rfl hrest
    | comment hcomment =>
      obtain ⟨d, inside, rfl, -⟩ := scan_of_isComment hcomment
      obtain ⟨rfl, -⟩ := List.cons.inj hcs
      exact (hblank hc hcomment).elim
  | comment hcomment _ ih =>
    obtain ⟨c, inside, rfl, hscan⟩ := scan_of_isComment hcomment
    cases h' with
    | nil => simp at hcs
    | space hc =>
      obtain ⟨rfl, -⟩ := List.cons.inj hcs
      exact (hblank hc hcomment).elim
    | comment hcomment' hrest =>
      -- both comments are what is read here
      obtain ⟨d, inside', rfl, hscan'⟩ := scan_of_isComment hcomment'
      rw [List.cons_append, List.cons_append, List.cons.injEq] at hcs
      obtain ⟨rfl, hinside⟩ := hcs
      rw [← List.append_assoc, ← hinside, List.append_assoc, hscan] at hscan'
      simp only [Except.ok.injEq, Prod.mk.injEq] at hscan'
      obtain ⟨rfl, rfl⟩ := List.append_inj hinside hscan'.2
      rw [ih _ rfl hrest]

/-- From the start of the first of some ranges to the end of the last one. -/
def spanOf (ranges : List OffsetRange) : Option OffsetRange :=
  match ranges.head?, ranges.getLast? with
  | some first, some last => some ⟨first.start, last.stop⟩
  | _, _ => none

/-- One more range behind the others. -/
theorem spanOf_concat {ranges : List OffsetRange} {r : OffsetRange} (hr : r.start ≤ r.stop)
    (h : ∀ d ∈ spanOf ranges, d.start ≤ d.stop ∧ d.stop ≤ r.start) :
    spanOf (ranges ++ [r]) = some (((spanOf ranges).map fun d => d.cover r).getD r) := by
  obtain _ | ⟨first, ranges⟩ := ranges
  · rfl
  · obtain ⟨last, hlast⟩ : ∃ last, (first :: ranges).getLast? = some last :=
      ⟨_, List.getLast?_eq_some_getLast (List.cons_ne_nil _ _)⟩
    have hspan : spanOf (first :: ranges) = some ⟨first.start, last.stop⟩ := by
      rw [spanOf, hlast, List.head?_cons]
    have hd := h _ hspan
    rw [hspan, Option.map_some, Option.getD_some, OffsetRange.cover, spanOf]
    simp only [List.cons_append, List.head?_cons]
    rw [← List.cons_append, List.getLast?_concat]
    dsimp only at hd ⊢
    rw [Nat.min_eq_left (by omega), Nat.max_eq_right (by omega)]

/-- A text starts with a gap, and behind it the first of the tokens starts, or the text ends.  The
token covers the doc comments in the gap together with those that have been read before. -/
def GapInFront (cs : List Char) (position : Nat) (ranges : List OffsetRange)
    (tokens : List Token) : Prop :=
  ∃ gap after docs, cs = gap ++ after ∧ Gap after position gap docs ∧
    (tokens = [] → after = []) ∧
    ∀ t ∈ tokens.head?, t.range.start = position + byteLength gap ∧ t.doc = spanOf (ranges ++ docs)

/-- One more piece in front of the gap. -/
theorem GapInFront.of_scan {position : Nat} {ranges : List OffsetRange} {tokens : List Token}
    (h : scan c cs = .ok (piece, count)) (hpiece : ∀ kind, piece ≠ .token kind)
    (hrest : GapInFront (cs.drop count) (position + byteLength (c :: cs.take count))
      (if piece = .docComment then
        ranges ++ [⟨position, position + byteLength (c :: cs.take count)⟩] else ranges) tokens) :
    GapInFront (c :: cs) position ranges tokens := by
  obtain ⟨gap, after, docs, heq, hgap, hend, htoken⟩ := hrest
  have hcs : c :: cs = c :: cs.take count ++ gap ++ after := by
    rw [List.append_assoc, ← heq, List.cons_append, List.take_append_drop]
  have hlength : position + byteLength (c :: cs.take count) + byteLength gap
      = position + byteLength (c :: cs.take count ++ gap) := by
    rw [byteLength_append, Nat.add_assoc]
  rw [hlength] at htoken
  obtain ⟨rfl, hspace, rfl⟩ | ⟨rfl, hcomment⟩ | ⟨kind, hkind⟩ := scan_cases h
  · exact ⟨_, after, docs, hcs, .space hspace (by simpa using hgap), hend, htoken⟩
  · rw [heq] at hcomment
    refine ⟨_, after, _, hcs, .comment hcomment hgap, hend, ?_⟩
    unfold docRanges
    unfold commentPiece at htoken
    by_cases hdoc : IsDoc (c :: cs.take count)
    · simpa [hdoc] using htoken
    · simpa [hdoc] using htoken
  · exact absurd hkind (hpiece kind)

/-- The lexer takes off a gap in front of the next token. -/
theorem gapInFront_of_tokensFrom {position : Nat} {doc : Option OffsetRange}
    {ranges : List OffsetRange} {tokens : List Token} (h : tokensFrom cs position doc = .ok tokens)
    (hdoc : doc = spanOf ranges) (hranges : ∀ d ∈ doc, d.start ≤ d.stop ∧ d.stop ≤ position) :
    GapInFront cs position ranges tokens := by
  have hlater {doc : Option OffsetRange} {position stop : Nat} (hle : position ≤ stop)
      (h : ∀ d ∈ doc, d.start ≤ d.stop ∧ d.stop ≤ position) :
      ∀ d ∈ doc, d.start ≤ d.stop ∧ d.stop ≤ stop :=
    fun d hd => ⟨(h d hd).1, Nat.le_trans (h d hd).2 hle⟩
  fun_induction tokensFrom cs position doc generalizing ranges tokens with
  | case1 position =>
    obtain rfl := Except.ok.inj h
    exact ⟨[], [], [], rfl, .nil position, fun _ => rfl, by simp⟩
  | case2 => simp at h
  | case3 position doc c cs count stop hscan
  | case4 position doc c cs count stop hscan =>
    rename_i ih
    exact .of_scan hscan (by simp) (ih h hdoc (hlater (Nat.le_add_right _ _) hranges))
  | case5 position doc c cs count stop range =>
    rename_i hscan ih
    have hle : position ≤ stop := Nat.le_add_right _ _
    have hspan : spanOf (ranges ++ [range])
        = some ((doc.map fun d => d.cover range).getD range) := by
      rw [spanOf_concat hle (by rwa [← hdoc]), hdoc]
    refine .of_scan hscan (by simp) (ih h hspan.symm ?_)
    rintro d ⟨⟩
    cases doc with
    | none => exact ⟨hle, Nat.le_refl _⟩
    | some d =>
      have := hranges d rfl
      simp only [Option.map_some, Option.getD_some, OffsetRange.cover, range]
      omega
  | case6 position doc c cs count stop kind hscan =>
    cases htail : tokensFrom (cs.drop count) stop none with
    | error e => simp [htail, bind, Except.bind] at h
    | ok tail =>
      simp only [htail, bind, Except.bind, pure, Except.pure, Except.ok.injEq] at h
      obtain rfl := h
      refine ⟨[], c :: cs, [], rfl, .nil position, by simp, ?_⟩
      rintro t ⟨⟩
      exact ⟨rfl, by rw [List.append_nil]; exact hdoc⟩

/-! ## The tokens of a text -/

/-- The end of a text, as the last of its tokens. -/
def endToken (text : String) : Token := ⟨.endOfText, .point (byteLength text.toList), none⟩

/-- Wherever the parser gets to, the token that is next is the first one of those that are left with
the end of the text behind them. -/
theorem head_append_endToken {text : String} {tokens : List Token} {c : Grammar.Cursor}
    (h : (startOf text tokens).Reaches c) :
    ∃ t ∈ (c.tokens ++ [endToken text]).head?,
      c.head = t.kind ∧ c.position = t.range.start ∧ c.doc = t.doc := by
  obtain ⟨read, hread⟩ := h
  have hsize : c.size = byteLength text.toList := hread.size
  unfold Grammar.Cursor.head Grammar.Cursor.position Grammar.Cursor.doc
  cases c.tokens with
  | nil => exact ⟨_, rfl, rfl, hsize, rfl⟩
  | cons t rest => exact ⟨t, rfl, rfl, rfl, rfl⟩

/-- Behind some of the tokens the lexer goes on with the rest of the text. -/
theorem exists_append_of_tokenize {text : String} {front rest : List Token}
    (h : tokenize text = .ok (front ++ rest)) :
    ∃ before after, text.toList = before ++ after ∧
      byteLength before = Grammar.Cursor.lastStop 0 front ∧
      tokensFrom after (byteLength before) none = .ok rest := by
  obtain rfl | ⟨init, t, rfl⟩ := List.eq_nil_or_concat front
  · exact ⟨[], text.toList, rfl, rfl, h⟩
  · rw [List.concat_eq_append, List.append_assoc] at h
    obtain ⟨before, spelling, after, hcs, hstart, hspelled, -, hrest⟩ := exists_spelledBy h
    have hstop : t.range.stop = byteLength (before ++ spelling) := by
      rw [hspelled.stop, hstart, byteLength_append, Nat.zero_add]
    refine ⟨before ++ spelling, after, by rw [hcs, List.append_assoc], ?_, hstop ▸ hrest⟩
    rw [List.concat_eq_append, Grammar.Cursor.lastStop_concat, hstop]

/-- From the end of the token before, which is at `last`, up to the start of the token there is a
gap.  The doc range of the token lies in it, from the start of the first doc comment in the gap to
the end of the last one.  The end of the text has no doc range. -/
structure Token.BehindGap (cs : List Char) (last : Nat) (t : Token) : Prop where
  gap : ∃ gap after, slice? cs last t.range.start = some gap ∧
    sliceFrom? cs t.range.start = some after ∧ (∃ docs, Gap after last gap docs) ∧
    ∀ docs, Gap after last gap docs → t.doc = if t.kind = .endOfText then none else spanOf docs
  doc : ∀ d ∈ t.doc, last ≤ d.start ∧ d.start ≤ d.stop ∧ d.stop ≤ t.range.start

/-- The token is cut out of the text at characters, and a word stands there as it is, perhaps with
the sign in front of it. -/
structure Token.CutOut (cs : List Char) (t : Token) : Prop where
  kind : t.kind ≠ .endOfText
  lt : t.range.start < t.range.stop
  start : IsBoundary cs t.range.start
  stop : IsBoundary cs t.range.stop
  word : ∀ w, t.kind = .word w → spellsWord w = true ∧
    (slice? cs t.range.start t.range.stop = some w.toList ∨
      slice? cs t.range.start t.range.stop = some ('@' :: w.toList))

namespace Spaced

variable {start : Nat} {tokens : List Token}

theorem le_start (h : Spaced start tokens) : ∀ t ∈ tokens, start ≤ t.range.start := by
  induction tokens generalizing start with
  | nil => exact List.forall_mem_nil _
  | cons t rest ih =>
    obtain ⟨hstart, hlt, hrest⟩ := h
    refine List.forall_mem_cons.2 ⟨hstart, fun u hu => ?_⟩
    have := ih hrest u hu
    omega

theorem pairwise (h : Spaced start tokens) : tokens.Pairwise fun t u =>
    t.range.start < u.range.start ∧ t.range.stop ≤ u.range.start := by
  induction tokens generalizing start with
  | nil => exact .nil
  | cons t rest ih =>
    obtain ⟨-, hlt, hrest⟩ := h
    refine .cons (fun u hu => ?_) (ih hrest)
    have hle := hrest.le_start u hu
    exact ⟨Nat.lt_of_lt_of_le hlt hle, hle⟩

end Spaced

section
variable {text : String} {tokens : List Token} (h : tokenize text = .ok tokens)
include h

theorem cutOut_of_tokenize : ∀ t ∈ tokens, t.CutOut text.toList := by
  intro t ht
  have hkind := (cutFrom_of_tokenize h t ht).kind_ne
  obtain ⟨front, rest, rfl⟩ := List.append_of_mem ht
  obtain ⟨before, spelling, after, hcs, hstart, hspelled, -⟩ := exists_spelledBy h
  rw [Nat.zero_add] at hstart
  have hstop := hspelled.stop
  rw [hstart] at hstop
  have hslice : slice? text.toList t.range.start t.range.stop = some spelling := by
    rw [hstart, hstop, hcs, slice?_append]
  refine ⟨hkind, ?_, isBoundary_iff.2 ⟨before, _, hcs, hstart.symm⟩,
    isBoundary_iff.2 ⟨before ++ spelling, after, by rw [hcs, List.append_assoc], ?_⟩, ?_⟩
  · obtain ⟨-, -, hlt, -⟩ := (placed_of_tokenize h).append.2
    exact hlt
  · rw [byteLength_append, hstop]
  · intro w hw
    obtain ⟨hword, hspelling, -⟩ := hspelled.word hw
    rw [hslice]
    exact ⟨hword, hspelling.imp (congrArg some) (congrArg some)⟩

theorem behindGap_of_tokenize {front rest : List Token} {t : Token}
    (ht : tokens ++ [endToken text] = front ++ t :: rest) :
    t.BehindGap text.toList (Grammar.Cursor.lastStop 0 front) := by
  have hnone : none = spanOf [] := rfl
  obtain rfl | ⟨init, u, rfl⟩ := List.eq_nil_or_concat rest
  · -- the end of the text
    obtain ⟨rfl, ht⟩ := List.append_inj' ht rfl
    obtain rfl : endToken text = t := by simpa using ht
    have hfront := h
    rw [← List.append_nil tokens] at hfront
    obtain ⟨before, after, hcs, hlast, htokens⟩ := exists_append_of_tokenize hfront
    obtain ⟨gap, behind, docs, rfl, hgap, hend, -⟩ :=
      gapInFront_of_tokensFrom htokens hnone (by simp)
    obtain rfl := hend rfl
    have hstart : (endToken text).range.start = byteLength before + byteLength gap := by
      rw [← byteLength_append, ← List.append_nil gap, ← hcs]
      rfl
    rw [← hlast]
    refine ⟨⟨gap, [], ?_, ?_, ⟨docs, hgap⟩, fun _ _ => rfl⟩, ?_⟩
    · rw [hstart, hcs, slice?_append]
    · rw [hstart, hcs, ← byteLength_append, ← List.append_assoc, sliceFrom?_append]
    · rintro d ⟨⟩
  · -- a token of the text
    rw [List.concat_eq_append, ← List.cons_append, ← List.append_assoc] at ht
    obtain ⟨rfl, -⟩ := List.append_inj' ht rfl
    obtain ⟨before, after, hcs, hlast, htokens⟩ := exists_append_of_tokenize h
    obtain ⟨gap, behind, docs, rfl, hgap, -, hnext⟩ :=
      gapInFront_of_tokensFrom htokens hnone (by simp)
    obtain ⟨hstart, hdoc⟩ := hnext t rfl
    have hkind := (cutFrom_of_tokenize h t (List.mem_append_right _ (.head _))).kind_ne
    have hbetween := (placed_of_tokenize h).append.2.1
    rw [← hlast] at hbetween ⊢
    refine ⟨⟨gap, behind, ?_, ?_, ⟨docs, hgap⟩, fun docs' hgap' => ?_⟩, hbetween⟩
    · rw [hstart, hcs, slice?_append]
    · rw [hstart, hcs, ← byteLength_append, ← List.append_assoc, sliceFrom?_append]
    · rw [if_neg hkind, hgap'.unique hgap, hdoc, List.nil_append]

theorem pairwise_of_tokenize : (tokens ++ [endToken text]).Pairwise fun t u =>
    t.range.start < u.range.start ∧ t.range.stop ≤ u.range.start := by
  refine List.pairwise_append.2 ⟨(spaced_of_tokensFrom h).pairwise, List.pairwise_singleton _ _, ?_⟩
  intro t ht u hu
  obtain rfl := List.mem_singleton.1 hu
  have hcut := cutOut_of_tokenize h t ht
  exact ⟨Nat.lt_of_lt_of_le hcut.lt hcut.stop.le, hcut.stop.le⟩

end

/-- The tokens stand in the text one behind the other, with gaps in front of them and between them,
and with a gap between the last one and the end of the text. -/
structure Tiles (text : String) (tokens : List Token) : Prop where
  cutOut : ∀ t ∈ tokens, t.CutOut text.toList
  ordered : (tokens ++ [endToken text]).Pairwise fun t u =>
    t.range.start < u.range.start ∧ t.range.stop ≤ u.range.start
  gaps : ∀ front t rest, tokens ++ [endToken text] = front ++ t :: rest →
    t.BehindGap text.toList (Grammar.Cursor.lastStop 0 front)

/-- **Tokens and gaps make up a text.**  No token is empty, each one starts behind the one in front
of it and ends at a character, and what is between them is white space and comments.  The doc
comments among these are what the doc range of the next token is about. -/
theorem tokenize_tiles {text : String} {tokens : List Token} (h : tokenize text = .ok tokens) :
    Tiles text tokens :=
  ⟨cutOut_of_tokenize h, pairwise_of_tokenize h, fun _ _ _ => behindGap_of_tokenize h⟩

/-- A word with the sign in front of it, behind a line from `#` on, two doc comments and a block
comment. -/
def wordBehindDocs : String := "#if\n/// é\n/* / */ /// x\n@a//\n+"

theorem wordBehindDocs_tiles : ∃ tokens, tokenize wordBehindDocs = .ok tokens ∧
    (tokens.map fun t => (t.kind, t.range, t.doc)) =
      [(.word "a", ⟨25, 27⟩, some ⟨4, 24⟩), (.punct .plus, ⟨30, 31⟩, none)] ∧
    Tiles wordBehindDocs tokens := by
  have hread : (tokenize wordBehindDocs).toOption.map
      (fun tokens => tokens.map fun t => (t.kind, t.range, t.doc)) =
        some [(.word "a", ⟨25, 27⟩, some ⟨4, 24⟩), (.punct .plus, ⟨30, 31⟩, none)] := by
    decide +kernel
  obtain ⟨tokens, htokens, hkinds⟩ := Option.map_eq_some_iff.1 hread
  rw [toOption_eq_some_iff] at htokens
  exact ⟨tokens, htokens, hkinds, tokenize_tiles htokens⟩

end PropertyLint
