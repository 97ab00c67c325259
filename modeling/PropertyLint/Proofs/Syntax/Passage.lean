/-
# The same characters in two texts

The lexer takes one piece after the other off a text (`Lexed`).  Up to the end of a line it takes
the same pieces whatever follows the line (`Lexed.of_lineEnd`, `Lexed.feed`), and where the same
characters stand at another place, it gives the same tokens there (`Lexed.exists_at`).  In front of
a token, or of its doc comment, a line may end with blanks behind it, and then the lexer has come to
the end of that line (`Lexed.exists_line`).
-/
import Mathlib.Data.List.Forall2
import PropertyLint.Proofs.Syntax.DocComment
import PropertyLint.Proofs.Syntax.LineBreak

namespace PropertyLint

variable {c : Char} {cs inside after a b x y s : List Char} {piece : Piece} {position count : Nat}
  {doc doc' doc'' : Option OffsetRange} {ts us front rest : List Token} {t u : Token}

/-! ## One piece after the other -/

/-- The range of characters at an offset. -/
def rangeAt (position : Nat) (cs : List Char) : OffsetRange := ⟨position, position + byteLength cs⟩

/-- The tokens that a piece gives, with the doc comment in front of it. -/
def Piece.tokens (piece : Piece) (range : OffsetRange) (doc : Option OffsetRange) : List Token :=
  match piece with
  | .token kind => [⟨kind, range, doc⟩]
  | _ => []

/-- The doc comment that has been read behind a piece. -/
def Piece.docBehind (piece : Piece) (range : OffsetRange) (doc : Option OffsetRange) :
    Option OffsetRange :=
  match piece with
  | .blank | .comment => doc
  | .docComment => some ((doc.map fun d => d.cover range).getD range)
  | .token _ => none

/-- The lexer takes the characters off a text piece by piece, with `after` behind them. -/
inductive Lexed (after : List Char) :
    Nat → Option OffsetRange → List Char → List Token → Option OffsetRange → Prop where
  | nil (position : Nat) (doc : Option OffsetRange) : Lexed after position doc [] [] doc
  | cons {position : Nat} {doc doc' : Option OffsetRange} {c : Char} {inside cs : List Char}
      {piece : Piece} {ts : List Token} :
      scan c (inside ++ (cs ++ after)) = .ok (piece, inside.length) →
      Lexed after (position + byteLength (c :: inside))
        (piece.docBehind (rangeAt position (c :: inside)) doc) cs ts doc' →
      Lexed after position doc (c :: (inside ++ cs))
        (piece.tokens (rangeAt position (c :: inside)) doc ++ ts) doc'

theorem tokensFrom_cons (h : scan c (inside ++ cs) = .ok (piece, inside.length)) (position : Nat)
    (doc : Option OffsetRange) :
    tokensFrom (c :: (inside ++ cs)) position doc =
      (tokensFrom cs (position + byteLength (c :: inside))
        (piece.docBehind (rangeAt position (c :: inside)) doc)).map
          (piece.tokens (rangeAt position (c :: inside)) doc ++ ·) := by
  have hmap (r : Except SyntaxError (List Token)) : r.map ([] ++ ·) = r := by cases r <;> rfl
  cases piece with
  | token kind =>
    rw [tokensFrom_of_scan h, List.drop_left, List.take_left]
    rfl
  | _ =>
    rw [tokensFrom, h]
    dsimp only
    rw [List.drop_left, List.take_left]
    exact (hmap _).symm

namespace Lexed

/-- Behind the characters the lexer goes on. -/
theorem tokensFrom_eq (h : Lexed after position doc a ts doc') :
    tokensFrom (a ++ after) position doc =
      (tokensFrom after (position + byteLength a) doc').map (ts ++ ·) := by
  induction h with
  | nil position doc => cases h : tokensFrom after position doc <;> simp [h, Except.map]
  | @cons position doc doc' c inside cs piece ts hscan _ ih =>
    rw [List.cons_append, List.append_assoc, tokensFrom_cons hscan, ih, Nat.add_assoc,
      ← byteLength_append, List.cons_append]
    cases tokensFrom after (position + byteLength (c :: (inside ++ cs))) doc' <;> simp [Except.map]

theorem single (h : scan c (inside ++ after) = .ok (piece, inside.length)) (position : Nat)
    (doc : Option OffsetRange) :
    Lexed after position doc (c :: inside) (piece.tokens (rangeAt position (c :: inside)) doc)
      (piece.docBehind (rangeAt position (c :: inside)) doc) := by
  have hone : Lexed after position doc (c :: (inside ++ []))
      (piece.tokens (rangeAt position (c :: inside)) doc ++ []) _ := .cons h (.nil _ _)
  rwa [List.append_nil, List.append_nil] at hone

theorem space (hc : isSpace c = true) (h : Lexed after (position + c.utf8Size) doc cs ts doc') :
    Lexed after position doc (c :: cs) ts doc' := by
  have hscan : scan c ([] ++ (cs ++ after)) = .ok (.blank, ([] : List Char).length) :=
    isSpace_scan hc _
  exact .cons hscan h

theorem append (h : Lexed (b ++ after) position doc a ts doc')
    (h' : Lexed after (position + byteLength a) doc' b us doc'') :
    Lexed after position doc (a ++ b) (ts ++ us) doc'' := by
  induction h with
  | nil => exact h'
  | cons hscan _ ih =>
    rw [List.cons_append, List.append_assoc, List.append_assoc]
    refine .cons (by rwa [List.append_assoc]) (ih ?_)
    rwa [Nat.add_assoc, ← byteLength_append, List.cons_append]

theorem of_isSpace (h : s.all isSpace = true) (after : List Char) (position : Nat)
    (doc : Option OffsetRange) : Lexed after position doc s [] doc := by
  induction s generalizing position with
  | nil => exact .nil position doc
  | cons c s ih =>
    rw [List.all_cons, Bool.and_eq_true] at h
    exact .space h.1 (ih h.2 _)

/-- At the end of a line the text may end. -/
theorem of_lineEnd (h : Lexed after position doc a ts doc') (hend : AtLineEnd after) :
    Lexed [] position doc a ts doc' := by
  obtain _ | ⟨d, after⟩ := after
  · exact h
  obtain rfl := hend d rfl
  induction h with
  | nil position doc => exact .nil position doc
  | cons hscan _ ih =>
    refine .cons ?_ ih
    rw [← List.append_assoc] at hscan
    rw [List.append_nil]
    exact scan_of_append_feed hscan (by simp)

/-- At the end of a line another one may follow. -/
theorem feed (h : Lexed [] position doc a ts doc') (after : List Char) :
    Lexed ('\n' :: after) position doc a ts doc' := by
  induction h with
  | nil position doc => exact .nil position doc
  | cons hscan _ ih =>
    refine .cons ?_ ih
    rw [List.append_nil] at hscan
    rw [← List.append_assoc]
    exact scan_append_feed hscan after

end Lexed

/-- A line feed and what follows it. -/
theorem Lexed.appendLine (h : Lexed [] position doc a ts doc')
    (h' : Lexed [] (position + byteLength a + 1) doc' b us doc'') :
    Lexed [] position doc (a ++ '\n' :: b) (ts ++ us) doc'' := by
  refine Lexed.append ?_ (.space isSpace_feed h')
  rw [List.append_nil]
  exact h.feed b

/-- The tokens of a text are read piece by piece. -/
theorem exists_lexed (h : tokensFrom cs position doc = .ok ts) :
    ∃ doc', Lexed [] position doc cs ts doc' := by
  -- one more piece in front
  have hstep {c : Char} {cs : List Char} {piece : Piece} {count position : Nat}
      {doc : Option OffsetRange} {ts : List Token} (hscan : scan c cs = .ok (piece, count))
      (h : ∃ doc', Lexed [] (position + byteLength (c :: cs.take count))
        (piece.docBehind (rangeAt position (c :: cs.take count)) doc) (cs.drop count) ts doc') :
      ∃ doc', Lexed [] position doc (c :: cs)
        (piece.tokens (rangeAt position (c :: cs.take count)) doc ++ ts) doc' := by
    obtain ⟨doc', h⟩ := h
    have hcount : (cs.take count).length = count :=
      List.length_take_of_le ((scan_answers c cs).of_ok hscan).1
    have hlexed := Lexed.cons (by rwa [List.append_nil, List.take_append_drop, hcount]) h
    rw [List.take_append_drop] at hlexed
    exact ⟨doc', hlexed⟩
  fun_induction tokensFrom cs position doc generalizing ts with
  | case1 position doc =>
    obtain rfl := Except.ok.inj h
    exact ⟨doc, .nil position doc⟩
  | case2 => simp at h
  | case3 position doc c cs count stop hscan
  | case4 position doc c cs count stop hscan =>
    rename_i ih
    exact hstep hscan (ih h)
  | case5 position doc c cs count stop range =>
    rename_i hscan ih
    exact hstep hscan (ih h)
  | case6 position doc c cs count stop kind hscan =>
    rename_i ih
    obtain ⟨tail, htail, h⟩ := exists_of_bind_eq_ok h
    obtain rfl := Except.ok.inj h
    exact hstep hscan (ih htail)

theorem Lexed.tokensFrom_end (h : Lexed [] position doc cs ts doc') :
    tokensFrom cs position doc = .ok ts := by
  have heq := h.tokensFrom_eq
  rw [List.append_nil, tokensFrom] at heq
  rw [heq]
  simp [Except.map]

/-! ## Up to a token -/

/-- A comment on more than one line ends with the mark that closes it. -/
theorem IsComment.getLast?_of_feed {comment : List Char} (h : IsComment comment after)
    (hfeed : '\n' ∈ comment) : comment.getLast? = some '/' := by
  cases h with
  | line hno => exact absurd hfeed (by simpa using hno)
  | directive hno => exact absurd hfeed (by simpa using hno)
  | @block inside =>
    rw [show '/' :: '*' :: (inside ++ ['*', '/']) = ('/' :: '*' :: (inside ++ ['*'])) ++ ['/'] by
      simp]
    exact List.getLast?_concat

namespace Lexed

/-- Up to the end of a token. -/
theorem exists_split (h : Lexed after position doc cs (front ++ t :: rest) doc') :
    ∃ a b, cs = a ++ b ∧ Lexed (b ++ after) position doc a (front ++ [t]) none ∧
      (∃ before spelling, a = before ++ spelling ∧ SpelledBy t spelling (b ++ after)) ∧
      t.range.stop = position + byteLength a ∧ Lexed after t.range.stop none b rest doc' := by
  generalize hts : front ++ t :: rest = ts at h
  induction h generalizing front with
  | nil => simp at hts
  | @cons position doc doc' c inside cs piece ts hscan hrest ih =>
    -- the token is one of those behind the piece
    have hlater {front : List Token} (hts : front ++ t :: rest = ts) :
        ∃ a b, c :: (inside ++ cs) = a ++ b ∧ Lexed (b ++ after) position doc a
            (piece.tokens (rangeAt position (c :: inside)) doc ++ (front ++ [t])) none ∧
          (∃ before spelling, a = before ++ spelling ∧ SpelledBy t spelling (b ++ after)) ∧
          t.range.stop = position + byteLength a ∧ Lexed after t.range.stop none b rest doc' := by
      obtain ⟨a, b, rfl, hlexed, ⟨before, spelling, rfl, hspelled⟩, hstop, hrest⟩ := ih hts
      refine ⟨c :: (inside ++ (before ++ spelling)), b, by simp, .cons ?_ hlexed,
        ⟨c :: (inside ++ before), spelling, by simp, hspelled⟩, ?_, hrest⟩
      · rwa [List.append_assoc _ b] at hscan
      · rw [hstop, Nat.add_assoc, ← byteLength_append, List.cons_append]
    cases piece with
    | token kind =>
      cases front with
      | nil =>
        obtain ⟨rfl, rfl⟩ := List.cons.inj hts
        refine ⟨c :: inside, cs, rfl, ?_,
          ⟨[], c :: inside, rfl, ⟨c, inside, _, rfl, ?_, hscan⟩, rfl⟩, rfl, hrest⟩
        · exact .single hscan position doc
        · rw [List.take_left]
      | cons v front =>
        obtain ⟨rfl, hrest⟩ := List.cons.inj hts
        exact hlater hrest
    | _ => exact hlater hts


theorem stop_le (h : Lexed after position doc a (front ++ [t]) doc') :
    t.range.stop ≤ position + byteLength a := by
  obtain ⟨read, b, rfl, -, -, hstop, -⟩ := h.exists_split
  rw [hstop, byteLength_append]
  omega

theorem le_fullStart (h : Lexed [] position none cs (u :: rest) doc') : position ≤ u.fullStart := by
  have hfirst : tokensFrom cs position none = .ok ([] ++ u :: rest) := h.tokensFrom_end
  exact (Token.visibleAt_fullStart hfirst).le

/-- Up to the start of the first token or of its doc comment. -/
theorem split_fullStart (h : Lexed [] position none (x ++ y) (u :: rest) doc')
    (hstart : u.fullStart = position + byteLength x) :
    Lexed y position none x [] none ∧ Lexed [] u.fullStart none y (u :: rest) doc' := by
  generalize hcs : x ++ y = cs, hdoc : none = doc, hts : u :: rest = ts at h
  induction h generalizing x with
  | nil => simp at hts
  | @cons position doc doc' c inside cs piece ts hscan hrest ih =>
    subst hdoc
    have hwhole := Lexed.cons hscan hrest
    rw [← hts] at hwhole ⊢
    obtain rfl | hx := eq_or_ne x []
    · rw [← hcs, ← Nat.add_zero position, ← byteLength_nil, ← hstart] at hwhole
      exact ⟨.nil _ _, hwhole⟩
    -- a doc comment or a token would start in front of the place
    have hlt : position < u.fullStart := by
      have := mt eq_nil_of_byteLength_eq_zero hx
      omega
    have hlater (hpiece : piece.docBehind (rangeAt position (c :: inside)) none = none)
        (htokens : piece.tokens (rangeAt position (c :: inside)) none = []) :
        Lexed y position none x [] none ∧ Lexed [] u.fullStart none y (u :: rest) doc' := by
      rw [hpiece] at hrest ih
      rw [htokens, List.nil_append] at hts
      subst hts
      obtain ⟨x, rfl, rfl⟩ := exists_between (a := c :: inside) hcs.symm (by
        have := hrest.le_fullStart
        omega)
      rw [byteLength_append, ← Nat.add_assoc] at hstart
      obtain ⟨hlexed, hlexed'⟩ := ih hstart rfl rfl rfl
      rw [List.append_nil] at hscan
      have hone := Lexed.single hscan position none
      rw [hpiece, htokens] at hone
      exact ⟨hone.append hlexed, hlexed'⟩
    cases piece with
    | blank => exact hlater rfl rfl
    | comment => exact hlater rfl rfl
    | docComment =>
      obtain rfl : u :: rest = ts := hts
      obtain ⟨d, hd, heq⟩ | ⟨hnone, -⟩ := Token.fullStart_of_first hrest.tokensFrom_end (by
        rintro d ⟨⟩
        exact Nat.le_add_right _ _)
      · obtain rfl := Option.some.inj hd
        exact absurd (heq ▸ hlt) (Nat.lt_irrefl _)
      · cases hnone
    | token kind =>
      obtain ⟨rfl, -⟩ := List.cons.inj hts
      exact absurd hlt (Nat.lt_irrefl _)

/-- Blanks in front are no part of anything else. -/
theorem drop_blank (h : Lexed after position doc (s ++ y) ts doc') (hs : s.all isBlank = true) :
    s.all isSpace = true ∧ Lexed after (position + byteLength s) doc y ts doc' := by
  induction s generalizing position with
  | nil => exact ⟨rfl, h⟩
  | cons c s ih =>
    rw [List.all_cons, Bool.and_eq_true] at hs
    generalize hcs : c :: s ++ y = cs at h
    cases h with
    | nil => simp at hcs
    | @cons _ _ _ d inside cs piece ts hscan hrest =>
      obtain ⟨rfl, hcs'⟩ := List.cons.inj hcs
      have hblank : piece = .blank := by
        by_contra hpiece
        exact Bool.false_ne_true ((not_isBlank_of_scan hscan hpiece).symm.trans hs.1)
      subst hblank
      obtain ⟨-, hspace, hinside⟩ | ⟨hcomment, -⟩ | ⟨kind, hkind⟩ := scan_cases hscan
      · obtain rfl := List.eq_nil_of_length_eq_zero hinside
        obtain rfl : s ++ y = cs := hcs'
        obtain ⟨hs', hrest⟩ := ih hrest hs.2
        refine ⟨by rw [List.all_cons, hspace, hs', Bool.true_and], ?_⟩
        rwa [byteLength_cons, ← Nat.add_assoc]
      · unfold commentPiece at hcomment
        split at hcomment <;> simp at hcomment
      · simp at hkind

/-- In front of blanks at the start of a line the line before ends. -/
theorem line (h : Lexed after position doc (x ++ '\n' :: s) [] doc')
    (hs : s.all isBlank = true) :
    s.all isSpace = true ∧ Lexed ('\n' :: (s ++ after)) position doc x [] doc' := by
  generalize hcs : x ++ '\n' :: s = cs, hts : [] = ts at h
  induction h generalizing x with
  | nil => simp at hcs
  | @cons position doc doc' c inside cs piece ts hscan hrest ih =>
    rw [← hts]
    obtain ⟨hnone, rfl⟩ := List.append_eq_nil_iff.1 hts.symm
    have hlater {x : List Char} (hcs : x ++ '\n' :: s = cs) :
        s.all isSpace = true ∧
          Lexed ('\n' :: (s ++ after)) position doc (c :: inside ++ x) [] doc' := by
      obtain ⟨hspace, hx⟩ := ih hcs rfl
      have hscan' : scan c (inside ++ (x ++ '\n' :: (s ++ after))) =
          .ok (piece, inside.length) := by
        rw [← hscan, ← hcs]
        simp
      have hone := Lexed.cons hscan' hx
      rw [hnone] at hone
      exact ⟨hspace, hone⟩
    rw [← List.cons_append] at hcs
    obtain ⟨z, hz, hs'⟩ | ⟨x, rfl, hbehind⟩ := List.append_eq_append_iff.1 hcs
    · obtain _ | ⟨d, z⟩ := z
      · rw [List.append_nil] at hz
        rw [← hz, ← List.append_nil (c :: inside)]
        exact hlater hs'
      obtain ⟨rfl, rfl⟩ := List.cons.inj hs'
      -- the line feed is a part of the piece, so it is all of it
      obtain ⟨rfl, -, hinside⟩ | ⟨-, hcomment⟩ | ⟨kind, rfl⟩ := scan_cases hscan
      · obtain rfl := List.eq_nil_of_length_eq_zero hinside
        obtain ⟨rfl, rfl⟩ : x = [] ∧ z = [] := by
          obtain _ | ⟨e, x⟩ := x
          · exact ⟨rfl, (List.cons.inj hz).2.symm⟩
          · simp at hz
        rw [← List.append_nil cs] at hrest
        obtain ⟨hspace, hnil⟩ := hrest.drop_blank hs
        cases hnil
        exact ⟨hspace, .nil _ _⟩
      · rw [List.take_left] at hcomment
        have hlast := hcomment.getLast?_of_feed (by simp [hz])
        have hmem : '/' ∈ '\n' :: z := by
          rw [hz, List.getLast?_append_cons] at hlast
          exact List.mem_of_getLast? hlast
        have hblank : '/' ∈ z ++ cs := List.mem_append_left _ (by simpa using hmem)
        exact absurd (List.all_eq_true.1 hs _ hblank) (by decide)
      · simp [Piece.tokens] at hnone
    · exact hlater hbehind.symm

end Lexed

/-- A mark ends with a character that is no blank. -/
theorem SpelledBy.exists_visible {p : Punct} {spelling : List Char} (h : SpelledBy t spelling after)
    (hp : t.kind = .punct p) : ∃ init d, spelling = init ++ [d] ∧ isBlank d = false := by
  obtain ⟨rfl, -⟩ := h.punct hp
  cases p
  all_goals first
    | exact ⟨[], _, rfl, by decide⟩
    | exact ⟨[_], _, rfl, by decide⟩

/-- A character that is no blank, with no more than blanks behind it on the next line, stands in
front of the end of its own line. -/
theorem exists_lineEnd {d : Char} (hcs : x ++ (s ++ y) = a ++ b) (hlast : d ∈ a.getLast?)
    (hd : isBlank d = false) (hx : EndsLine x) (hs : s.all isBlank = true)
    (hle : byteLength a ≤ byteLength (x ++ s)) :
    ∃ above, x = a ++ (above ++ ['\n']) ∧ b = above ++ ['\n'] ++ (s ++ y) := by
  have hfront : byteLength a ≤ byteLength x := by
    by_contra hlt
    obtain ⟨mid, rfl, hmid⟩ := exists_between hcs (by omega)
    obtain ⟨blank, rfl, -⟩ := exists_between hmid.symm (by simp at hle; omega)
    obtain _ | ⟨m, mid⟩ := mid
    · simp at hlt
    · rw [List.getLast?_append_cons] at hlast
      have hblank := List.all_eq_true.1 hs d (List.mem_append_left _ (List.mem_of_getLast? hlast))
      exact Bool.false_ne_true (hd.symm.trans hblank)
  obtain ⟨g, rfl, rfl⟩ := exists_between hcs.symm hfront
  obtain rfl | ⟨above, e, rfl⟩ := List.eq_nil_or_concat g
  · rw [List.append_nil] at hx
    obtain rfl := hx d hlast
    simp [isBlank, blankRanges] at hd
  · rw [List.concat_eq_append] at *
    obtain rfl : e = '\n' := hx e (by simp)
    exact ⟨above, rfl, rfl⟩

/-- In front of a token, or of its doc comment, blanks may stand on its line.  The lexer has come to
the end of the line before, where a mark stands in front of the token. -/
theorem Lexed.exists_line
    (h : Lexed [] position none (x ++ (s ++ y)) (front ++ t :: u :: rest) doc')
    (ht : ∃ p, t.kind = .punct p) (hx : EndsLine x) (hs : s.all isBlank = true)
    (hstart : u.fullStart = position + byteLength (x ++ s)) :
    ∃ above, x = above ++ ['\n'] ∧ Lexed [] position none above (front ++ [t]) none ∧
      Lexed [] (position + byteLength x) none (s ++ y) (u :: rest) doc' := by
  obtain ⟨a, b, hcs, hlexed, ⟨before, spelling, ha, hspelled⟩, hstop, hrest⟩ := h.exists_split
  obtain ⟨p, hp⟩ := ht
  obtain ⟨init, d, rfl, hd⟩ := hspelled.exists_visible hp
  have hlast : d ∈ a.getLast? := by
    rw [ha, ← List.append_assoc]
    exact List.getLast?_concat
  have hle := hrest.le_fullStart
  rw [hstart, hstop] at hle
  obtain ⟨above, rfl, rfl⟩ := exists_lineEnd hcs hlast hd hx hs (Nat.add_le_add_iff_left.1 hle)
  have hsplit : u.fullStart = t.range.stop + byteLength (above ++ ['\n'] ++ s) := by
    rw [hstart, hstop]
    simp only [byteLength_append]
    omega
  rw [← List.append_assoc] at hrest
  obtain ⟨hgap, hrest⟩ := hrest.split_fullStart hsplit
  rw [List.append_assoc, List.singleton_append] at hgap
  obtain ⟨hspace, habove⟩ := hgap.line hs
  refine ⟨a ++ above, by rw [List.append_assoc], ?_, ?_⟩
  · have hend : AtLineEnd ('\n' :: (s ++ y)) := fun c hc => (Option.some.inj hc).symm
    rw [← List.append_nil (front ++ [t])]
    refine (Lexed.append ?_ (hstop ▸ habove)).of_lineEnd hend
    simpa using hlexed
  · have hblank := Lexed.of_isSpace hspace (y ++ [])
      (position + byteLength (a ++ (above ++ ['\n']))) none
    refine hblank.append ?_
    rw [Nat.add_assoc, ← byteLength_append, ← hstart]
    exact hrest

/-! ## The same characters in two texts -/

/-- Characters of some bytes that stand in two texts. -/
structure Passage where
  /-- Where they start in the first text. -/
  start : Nat
  /-- Where they start in the second one. -/
  start' : Nat
  size : Nat

namespace Passage

variable (S : Passage)

/-- The texts in the other order. -/
def swap : Passage := ⟨S.start', S.start, S.size⟩

/-- The offsets are at one place. -/
def At (x x' : Nat) : Prop := ∃ y ≤ S.size, x = S.start + y ∧ x' = S.start' + y

def RangeAt (r r' : OffsetRange) : Prop := S.At r.start r'.start ∧ S.At r.stop r'.stop

/-- The tokens are the same but for the text in which they are. -/
def TokenAt (t t' : Token) : Prop :=
  t.kind = t'.kind ∧ S.RangeAt t.range t'.range ∧ Option.Rel S.RangeAt t.doc t'.doc

variable {S}

theorem At.swap {x x' : Nat} (h : S.At x x') : S.swap.At x' x := by
  obtain ⟨y, hy, hx, hx'⟩ := h
  exact ⟨y, hy, hx', hx⟩

theorem RangeAt.swap {r r' : OffsetRange} (h : S.RangeAt r r') : S.swap.RangeAt r' r :=
  ⟨h.1.swap, h.2.swap⟩

theorem TokenAt.swap {t t' : Token} (h : S.TokenAt t t') : S.swap.TokenAt t' t := by
  obtain ⟨hkind, hrange, hdoc⟩ := h
  refine ⟨hkind.symm, hrange.swap, ?_⟩
  generalize t.doc = d, t'.doc = d' at hdoc ⊢
  cases hdoc with
  | some hdoc => exact .some hdoc.swap
  | none => exact .none

theorem At.max {x x' y y' : Nat} (hx : S.At x x') (hy : S.At y y') :
    S.At (max x y) (max x' y') := by
  obtain ⟨a, ha, rfl, rfl⟩ := hx
  obtain ⟨b, hb, rfl, rfl⟩ := hy
  exact ⟨Max.max a b, by omega, by omega, by omega⟩

theorem At.min {x x' y y' : Nat} (hx : S.At x x') (hy : S.At y y') :
    S.At (min x y) (min x' y') := by
  obtain ⟨a, ha, rfl, rfl⟩ := hx
  obtain ⟨b, hb, rfl, rfl⟩ := hy
  exact ⟨Min.min a b, by omega, by omega, by omega⟩

theorem RangeAt.cover {r r' q q' : OffsetRange} (hr : S.RangeAt r r') (hq : S.RangeAt q q') :
    S.RangeAt (r.cover q) (r'.cover q') :=
  ⟨hr.1.min hq.1, hr.2.max hq.2⟩

/-- The same characters stand at two places. -/
theorem RangeAt.slice?_eq_some {r r' : OffsetRange} (h : S.RangeAt r r')
    (hstart : S.start = byteLength x) (hsize : S.size = byteLength a)
    (hslice : slice? (x ++ (a ++ y)) r.start r.stop = some inside)
    {z : List Char} (hstart' : S.start' = byteLength z) (y' : List Char) :
    slice? (z ++ (a ++ y')) r'.start r'.stop = some inside := by
  obtain ⟨⟨i, -, hi, hi'⟩, ⟨j, hj, hj, hj'⟩⟩ := h
  obtain ⟨before, after, hcs, hbefore, hstop⟩ := slice?_eq_some_iff.1 hslice
  obtain ⟨p, rfl, hp⟩ := exists_between hcs (by omega)
  rw [← List.append_assoc] at hp
  obtain ⟨q, rfl, -⟩ := exists_between hp.symm (by simp at hbefore ⊢; omega)
  refine slice?_eq_some_iff.2 ⟨z ++ p, q ++ y', by simp, ?_, ?_⟩
  · simp at hbefore ⊢
    omega
  · omega

/-- The texts have the same slices there. -/
theorem RangeAt.slice?_eq {r r' : OffsetRange} {z : List Char} (h : S.RangeAt r r')
    (hstart : S.start = byteLength x) (hstart' : S.start' = byteLength z)
    (hsize : S.size = byteLength a) (y y' : List Char) :
    slice? (x ++ (a ++ y)) r.start r.stop = slice? (z ++ (a ++ y')) r'.start r'.stop := by
  ext inside
  exact ⟨fun hslice => h.slice?_eq_some hstart hsize hslice hstart' y',
    fun hslice => h.swap.slice?_eq_some hstart' hsize hslice hstart y⟩

end Passage

/-- The lexer gives the same tokens at another place. -/
theorem Lexed.exists_at {S : Passage} {position' : Nat} {e : Option OffsetRange}
    (h : Lexed after position doc a ts doc') (hposition : S.At position position')
    (hsize : position + byteLength a ≤ S.start + S.size) (hdoc : Option.Rel S.RangeAt doc e) :
    ∃ ts' e', Lexed after position' e a ts' e' ∧ List.Forall₂ S.TokenAt ts ts' ∧
      Option.Rel S.RangeAt doc' e' := by
  induction h generalizing position' e with
  | nil => exact ⟨[], e, .nil _ _, .nil, hdoc⟩
  | @cons position doc doc' c inside cs piece ts hscan _ ih =>
    obtain ⟨y, hy, rfl, rfl⟩ := hposition
    have hsize' : y + byteLength (c :: inside) + byteLength cs ≤ S.size := by
      simp at hsize ⊢
      omega
    have hrange : S.RangeAt (rangeAt (S.start + y) (c :: inside))
        (rangeAt (S.start' + y) (c :: inside)) :=
      ⟨⟨y, hy, rfl, rfl⟩,
        ⟨y + byteLength (c :: inside), by omega, Nat.add_assoc .., Nat.add_assoc ..⟩⟩
    have hbehind : Option.Rel S.RangeAt
        (piece.docBehind (rangeAt (S.start + y) (c :: inside)) doc)
        (piece.docBehind (rangeAt (S.start' + y) (c :: inside)) e) := by
      cases piece with
      | blank => exact hdoc
      | comment => exact hdoc
      | docComment =>
        cases hdoc with
        | none => exact .some hrange
        | some hdoc => exact .some (hdoc.cover hrange)
      | token => exact .none
    have htokens : List.Forall₂ S.TokenAt
        (piece.tokens (rangeAt (S.start + y) (c :: inside)) doc)
        (piece.tokens (rangeAt (S.start' + y) (c :: inside)) e) := by
      cases piece with
      | token => exact .cons ⟨rfl, hrange, hdoc⟩ .nil
      | _ => exact .nil
    obtain ⟨ts', e', hrest, hts, hdoc'⟩ := ih hrange.2 (by simp at hsize' ⊢; omega) hbehind
    exact ⟨_, e', .cons hscan hrest, List.rel_append htokens hts, hdoc'⟩

theorem Lexed.exists_of_start {S : Passage} (h : Lexed after S.start none a ts doc')
    (hsize : byteLength a ≤ S.size) :
    ∃ ts' e', Lexed after S.start' none a ts' e' ∧ List.Forall₂ S.TokenAt ts ts' ∧
      Option.Rel S.RangeAt doc' e' :=
  h.exists_at ⟨0, Nat.zero_le _, rfl, rfl⟩ (Nat.add_le_add_left hsize _) .none

end PropertyLint
