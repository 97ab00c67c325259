/-
# Layout and parsing

Blanks, line breaks and comments between tokens change where the tokens stand and nothing else.
`tokensUpTo` replaces an offset by the number of tokens that end there or before: the start of a
token and both ends of its doc comment by the number of the token, its end by the next number.  Two
texts with the same kinds of tokens and doc comments in front of the same tokens have the same
tokens after this (`relocate_startOf`), so parsing them comes to the same
(`SyntaxTree.parse_layout`).
-/
import PropertyLint.Proofs.Syntax.RelocateDecls
import PropertyLint.Proofs.Syntax.Identity
import PropertyLint.Proofs.Syntax.Total

namespace PropertyLint

/-! ## Numbers for offsets -/

/-- The number of tokens that end at an offset or in front of it. -/
def tokensUpTo (tokens : List Token) (offset : Nat) : Nat :=
  tokens.countP fun t => t.range.stop ≤ offset

/-- The start of the token with a number; behind the last token the text ends. -/
def tokenStart (text : String) (tokens : List Token) (i : Nat) : Nat :=
  match tokens[i]? with
  | some t => t.range.start
  | none => byteLength text.toList

theorem tokensUpTo_mono (tokens : List Token) : Monotone (tokensUpTo tokens) := by
  intro o o' h
  refine List.countP_mono_left fun t _ ht => ?_
  rw [decide_eq_true_eq] at *
  exact Nat.le_trans ht h

/-- The tokens stand between two offsets one behind the other, and a doc comment stands between its
token and the token before. -/
def Placed : Nat → List Token → Nat → Prop
  | start, [], stop => start ≤ stop
  | start, t :: rest, stop =>
    (∀ d ∈ t.doc, start ≤ d.start ∧ d.start ≤ d.stop ∧ d.stop ≤ t.range.start) ∧
      start ≤ t.range.start ∧ t.range.start < t.range.stop ∧ Placed t.range.stop rest stop

theorem placed_of_tokensFrom {tokens : List Token} {cs : List Char} {start position : Nat}
    {doc : Option OffsetRange} (h : tokensFrom cs position doc = .ok tokens)
    (hstart : start ≤ position)
    (hdoc : ∀ d ∈ doc, start ≤ d.start ∧ d.start ≤ d.stop ∧ d.stop ≤ position) :
    Placed start tokens (position + byteLength cs) := by
  -- behind a piece the rest of the text goes on
  have hnext (c : Char) (cs : List Char) (count position : Nat) :
      position + byteLength (c :: cs.take count) + byteLength (cs.drop count)
        = position + byteLength (c :: cs) := by
    rw [Nat.add_assoc, ← byteLength_append, List.cons_append, List.take_append_drop]
  fun_induction tokensFrom cs position doc generalizing start tokens with
  | case1 position doc =>
    obtain rfl := Except.ok.inj h
    exact hstart
  | case2 => simp at h
  | case3 position doc c cs count stop =>
    rename_i ih
    rw [← hnext c cs count position]
    exact ih h (by omega) fun d hd => by have := hdoc d hd; omega
  | case4 position doc c cs count stop =>
    rename_i ih
    rw [← hnext c cs count position]
    exact ih h (by omega) fun d hd => by have := hdoc d hd; omega
  | case5 position doc c cs count stop range =>
    rename_i ih
    rw [← hnext c cs count position]
    refine ih h (by omega) ?_
    rintro d ⟨⟩
    cases doc with
    | none => exact ⟨hstart, Nat.le_add_right _ _, Nat.le_refl _⟩
    | some doc =>
      have := hdoc doc rfl
      simp only [Option.map_some, Option.getD_some, OffsetRange.cover, range]
      omega
  | case6 position doc c cs count stop kind =>
    rename_i ih
    rw [← hnext c cs count position]
    cases htail : tokensFrom (cs.drop count) stop none with
    | error e => simp [htail, bind, Except.bind] at h
    | ok tail =>
      simp only [htail, bind, Except.bind, pure, Except.pure, Except.ok.injEq] at h
      obtain rfl := h
      have hpos := c.utf8Size_pos
      refine ⟨hdoc, hstart, ?_, ih htail (Nat.le_refl _) (by simp)⟩
      simp only [stop, byteLength_cons]
      omega

namespace Placed

variable {start stop o : Nat} {front rest tokens : List Token}

theorem lt_stop (h : Placed start tokens stop) : ∀ t ∈ tokens, start < t.range.stop := by
  induction tokens generalizing start with
  | nil => exact List.forall_mem_nil _
  | cons u rest ih =>
    obtain ⟨-, hstart, hlt, hrest⟩ := h
    have hu := Nat.lt_of_le_of_lt hstart hlt
    exact List.forall_mem_cons.2 ⟨hu, fun t ht => Nat.lt_trans hu (ih hrest t ht)⟩

theorem le_lastStop (h : Placed start (front ++ rest) stop) :
    start ≤ Grammar.Cursor.lastStop start front := by
  induction front generalizing start with
  | nil => exact Nat.le_refl _
  | cons t front ih =>
    obtain ⟨-, hstart, hlt, h⟩ := h
    exact Nat.le_trans hstart (Nat.le_trans (Nat.le_of_lt hlt) (ih h))

theorem append (h : Placed start (front ++ rest) stop) :
    (∀ t ∈ front, t.range.stop ≤ Grammar.Cursor.lastStop start front) ∧
      Placed (Grammar.Cursor.lastStop start front) rest stop := by
  induction front generalizing start with
  | nil => exact ⟨List.forall_mem_nil _, h⟩
  | cons t front ih =>
    obtain ⟨-, -, -, h⟩ := h
    obtain ⟨hfront, hrest⟩ := ih h
    exact ⟨List.forall_mem_cons.2 ⟨h.le_lastStop, hfront⟩, hrest⟩

/-- Behind some of the tokens and in front of the end of the next one, their number is counted. -/
theorem tokensUpTo_eq (h : Placed start (front ++ rest) stop)
    (hle : Grammar.Cursor.lastStop start front ≤ o) (hlt : ∀ t ∈ rest.head?, o < t.range.stop) :
    tokensUpTo (front ++ rest) o = front.length := by
  obtain ⟨hfront, hrest⟩ := h.append
  have hbefore : front.countP (fun t => t.range.stop ≤ o) = front.length :=
    List.countP_eq_length.2 fun t ht => decide_eq_true (Nat.le_trans (hfront t ht) hle)
  have hbehind : rest.countP (fun t => t.range.stop ≤ o) = 0 := by
    cases rest with
    | nil => rfl
    | cons t rest =>
      have ht := hlt t rfl
      refine List.countP_eq_zero.2 (List.forall_mem_cons.2 ⟨by simpa using ht, fun u hu => ?_⟩)
      simpa using Nat.lt_trans ht (hrest.2.2.2.lt_stop u hu)
  rw [tokensUpTo, List.countP_append, hbefore, hbehind, Nat.add_zero]

/-- A token ends at the number of the next one. -/
theorem tokensUpTo_stop {t : Token} (h : Placed start (front ++ t :: rest) stop) :
    tokensUpTo (front ++ t :: rest) t.range.stop = front.length + 1 := by
  obtain ⟨-, -, -, -, hrest⟩ := h.append
  have hmove : front ++ t :: rest = (front ++ [t]) ++ rest := by simp
  rw [hmove] at h ⊢
  rw [h.tokensUpTo_eq (by rw [Grammar.Cursor.lastStop_concat]) fun u hu =>
    hrest.lt_stop u (List.mem_of_head? hu)]
  simp

end Placed

/-! ## Numbered tokens -/

/-- The tokens with their numbers in place of their offsets. -/
def numberTokens : Nat → List Token → List Token
  | _, [] => []
  | i, t :: rest => ⟨t.kind, ⟨i, i + 1⟩, t.doc.map fun _ => ⟨i, i⟩⟩ :: numberTokens (i + 1) rest

theorem relocate_tokens_eq {front rest : List Token} {stop : Nat}
    (h : Placed 0 (front ++ rest) stop) :
    rest.map (Token.relocate (tokensUpTo (front ++ rest))) = numberTokens front.length rest := by
  induction rest generalizing front with
  | nil => rfl
  | cons t rest ih =>
    obtain ⟨-, hdoc, hstart, hlt, -⟩ := h.append
    have hcount {o : Nat} (hle : Grammar.Cursor.lastStop 0 front ≤ o) (ho : o < t.range.stop) :
        tokensUpTo (front ++ t :: rest) o = front.length :=
      h.tokensUpTo_eq hle fun u hu => by rwa [← Option.some.inj hu]
    have hmove : front ++ t :: rest = (front ++ [t]) ++ rest := by simp
    have happend : Placed 0 ((front ++ [t]) ++ rest) stop := by rwa [← hmove]
    have hrest := ih happend
    rw [← hmove, List.length_append, List.length_singleton] at hrest
    rw [List.map_cons, numberTokens, hrest, Token.relocate, OffsetRange.relocate,
      hcount hstart hlt, h.tokensUpTo_stop]
    congr 2
    cases hd : t.doc with
    | none => rfl
    | some d =>
      have := hdoc d hd
      rw [Option.map_some, Option.map_some, OffsetRange.relocate, hcount (by omega) (by omega),
        hcount (by omega) (by omega)]

/-- Only the kinds of the tokens and the presence of doc comments are left. -/
theorem numberTokens_congr {tokens tokens' : List Token}
    (hkinds : tokens.map Token.kind = tokens'.map Token.kind)
    (hdocs : tokens.map (fun t => t.doc.isSome) = tokens'.map fun t => t.doc.isSome) (i : Nat) :
    numberTokens i tokens = numberTokens i tokens' := by
  induction tokens generalizing tokens' i with
  | nil =>
    obtain rfl : tokens' = [] := by simpa using hkinds
    rfl
  | cons t rest ih =>
    cases tokens' with
    | nil => simp at hkinds
    | cons t' rest' =>
      simp only [List.map_cons, List.cons.injEq] at hkinds hdocs
      have hdoc : (t.doc.map fun _ => (⟨i, i⟩ : OffsetRange)) = t'.doc.map fun _ => ⟨i, i⟩ := by
        cases h : t.doc <;> cases h' : t'.doc <;> simp [h, h'] at hdocs ⊢
      rw [numberTokens, numberTokens, hkinds.1, hdoc, ih hkinds.2 hdocs.2]

section
variable {text : String} {tokens : List Token} (h : tokenize text = .ok tokens)
include h

theorem placed_of_tokenize : Placed 0 tokens (byteLength text.toList) := by
  have hplaced := placed_of_tokensFrom h (Nat.le_refl 0) (by simp)
  rwa [Nat.zero_add] at hplaced

/-- A token starts at its number and ends at the next one. -/
theorem tokensUpTo_token {i : Nat} {t : Token} (ht : tokens[i]? = some t) :
    tokensUpTo tokens t.range.start = i ∧ tokensUpTo tokens t.range.stop = i + 1 := by
  obtain ⟨front, rest, rfl, rfl⟩ :
      ∃ front rest, tokens = front ++ t :: rest ∧ front.length = i := by
    obtain ⟨hi, rfl⟩ := List.getElem?_eq_some_iff.1 ht
    exact ⟨tokens.take i, tokens.drop (i + 1), by simp, by simp; omega⟩
  have hplaced := placed_of_tokenize h
  obtain ⟨-, -, hstart, hlt, -⟩ := hplaced.append
  exact ⟨hplaced.tokensUpTo_eq hstart fun u hu => by rwa [← Option.some.inj hu],
    hplaced.tokensUpTo_stop⟩

theorem tokensUpTo_byteLength : tokensUpTo tokens (byteLength text.toList) = tokens.length := by
  have hplaced : Placed 0 (tokens ++ []) (byteLength text.toList) := by
    rw [List.append_nil]
    exact placed_of_tokenize h
  have hend := hplaced.tokensUpTo_eq hplaced.append.2 (by simp)
  rwa [List.append_nil] at hend

theorem tokensUpTo_tokenStart {i : Nat} (hi : i ≤ tokens.length) :
    tokensUpTo tokens (tokenStart text tokens i) = i := by
  unfold tokenStart
  cases ht : tokens[i]? with
  | some t => exact (tokensUpTo_token h ht).1
  | none =>
    have hlength := List.getElem?_eq_none_iff.1 ht
    exact (tokensUpTo_byteLength h).trans (Nat.le_antisymm hlength hi)

theorem relocate_startOf :
    (startOf text tokens).relocate (tokensUpTo tokens)
      = ⟨numberTokens 0 tokens, 0, 0, tokens.length⟩ := by
  have hplaced : Placed 0 ([] ++ tokens) (byteLength text.toList) := placed_of_tokenize h
  have hzero : tokensUpTo tokens 0 = 0 :=
    hplaced.tokensUpTo_eq (Nat.le_refl 0) fun t ht =>
      (placed_of_tokenize h).lt_stop t (List.mem_of_head? ht)
  rw [startOf, Grammar.Cursor.relocate, hzero, tokensUpTo_byteLength h]
  exact congrArg (fun ts => (⟨ts, 0, 0, tokens.length⟩ : Grammar.Cursor))
    (relocate_tokens_eq hplaced)

omit h in
/-- Wherever the parser gets to, it is at the start of a token or at the end of the text. -/
theorem position_eq_tokenStart {c : Grammar.Cursor} (hc : (startOf text tokens).Reaches c) :
    ∃ i, i ≤ tokens.length ∧ c.position = tokenStart text tokens i := by
  obtain ⟨read, hread⟩ := hc
  have htokens : tokens = read ++ c.tokens := hread.tokens
  refine ⟨read.length, by simp [htokens], ?_⟩
  unfold tokenStart Grammar.Cursor.position
  rw [hread.size, htokens, List.getElem?_append_right (Nat.le_refl _), Nat.sub_self]
  cases c.tokens <;> rfl

omit h in
theorem offset_eq_tokenStart {e : SyntaxError}
    (hfails : Grammar.Fails Grammar.compilationUnit (startOf text tokens) e) :
    ∃ i, i ≤ tokens.length ∧ e.offset = tokenStart text tokens i := by
  obtain ⟨c, expected, hreaches, rfl⟩ := Grammar.refuses_of_compilationUnit hfails
  exact position_eq_tokenStart hreaches

end

namespace SyntaxTree

open Grammar

variable {text₁ text₂ : String} {tokens₁ tokens₂ : List Token}

/-- **Layout.**  For two texts that differ only in what stands between their tokens, parsing fails
for both, with the same message and at the start of the same token or at the ends, or it succeeds
for both.  Then all parts of both trees start with a token and end with one, and the trees are the
same when every offset in them is replaced by the number of its token. -/
theorem parse_layout (file₁ file₂ : FileId) (h₁ : tokenize text₁ = .ok tokens₁)
    (h₂ : tokenize text₂ = .ok tokens₂)
    (hkinds : tokens₁.map Token.kind = tokens₂.map Token.kind)
    (hdocs : tokens₁.map (fun t => t.doc.isSome) = tokens₂.map fun t => t.doc.isSome) :
    (∃ cause i, i ≤ tokens₁.length ∧
        parse file₁ text₁ = .error ⟨cause, tokenStart text₁ tokens₁ i⟩ ∧
        parse file₂ text₂ = .error ⟨cause, tokenStart text₂ tokens₂ i⟩) ∨
      ∃ t₁ t₂, parse file₁ text₁ = .ok t₁ ∧ parse file₂ text₂ = .ok t₂ ∧
        (∀ p, t₁.Holds p → p.range.OnTokens tokens₁) ∧
        (∀ p, t₂.Holds p → p.range.OnTokens tokens₂) ∧
        t₁.root.relocate (tokensUpTo tokens₁) = t₂.root.relocate (tokensUpTo tokens₂) := by
  have hlength : tokens₁.length = tokens₂.length := by
    simpa using congrArg List.length hkinds
  -- with numbers for offsets both runs start from one cursor
  have hrun₁ := compilationUnit_relocates (tokensUpTo_mono tokens₁) (startOf text₁ tokens₁)
  have hrun₂ := compilationUnit_relocates (tokensUpTo_mono tokens₂) (startOf text₂ tokens₂)
  rw [relocate_startOf h₁, numberTokens_congr hkinds hdocs, hlength] at hrun₁
  rw [relocate_startOf h₂, hrun₁] at hrun₂
  have hparse₁ := parse_of_tokenize h₁ file₁
  have hparse₂ := parse_of_tokenize h₂ file₂
  rcases hout₁ : compilationUnit.outcome (startOf text₁ tokens₁) with ⟨e₁ | root₁, c₁⟩ <;>
    rcases hout₂ : compilationUnit.outcome (startOf text₂ tokens₂) with ⟨e₂ | root₂, c₂⟩ <;>
    rw [hout₁, hout₂] at hrun₂ <;> simp only [relocateOutcome, Prod.mk.injEq, Except.ok.injEq,
      Except.error.injEq, reduceCtorEq, false_and] at hrun₂ <;>
    rw [hout₁] at hparse₁ <;> rw [hout₂] at hparse₂
  · -- the places of both errors have the same number
    obtain ⟨i₁, hi₁, hoffset₁⟩ :=
      offset_eq_tokenStart (show Fails _ _ e₁ by rw [Fails, hout₁])
    obtain ⟨i₂, hi₂, hoffset₂⟩ :=
      offset_eq_tokenStart (show Fails _ _ e₂ by rw [Fails, hout₂])
    obtain ⟨cause, offset₁⟩ := e₁
    obtain ⟨cause₂, offset₂⟩ := e₂
    simp only [SyntaxError.relocate, SyntaxError.mk.injEq] at hrun₂ hoffset₁ hoffset₂
    obtain ⟨⟨rfl, hnumber⟩, -⟩ := hrun₂
    rw [hoffset₁, hoffset₂, tokensUpTo_tokenStart h₁ hi₁, tokensUpTo_tokenStart h₂ hi₂] at hnumber
    refine .inl ⟨cause, i₁, hi₁, ?_, ?_⟩
    · rw [hparse₁, hoffset₁]
      rfl
    · rw [hparse₂, hoffset₂, hnumber]
      rfl
  · have ht₁ : parse file₁ text₁ = .ok ⟨file₁, text₁, root₁⟩ := hparse₁
    have ht₂ : parse file₂ text₂ = .ok ⟨file₂, text₂, root₂⟩ := hparse₂
    exact .inr ⟨_, _, ht₁, ht₂, fun p hp => (onTokens_of_parse ht₁ h₁ hp).range,
      fun p hp => (onTokens_of_parse ht₂ h₂ hp).range, hrun₂.1⟩

/-- A class on one line. -/
def oneLine : String := "class A\x7bint F;\x7d"

/-- The same class with a comment and on two lines. -/
def twoLines : String := "class A /* c */\n\x7b int F ; \x7d"

/-- Both texts are read, with the same tree but for the places. -/
theorem parse_layout_twoLines : ∃ tokens₁ tokens₂, tokenize oneLine = .ok tokens₁ ∧
    tokenize twoLines = .ok tokens₂ ∧ tokens₁.map Token.kind = tokens₂.map Token.kind ∧
    (tokens₁.map fun t => t.doc.isSome) = (tokens₂.map fun t => t.doc.isSome) ∧
    ((∃ cause i, i ≤ tokens₁.length ∧
        parse 0 oneLine = .error ⟨cause, tokenStart oneLine tokens₁ i⟩ ∧
        parse 1 twoLines = .error ⟨cause, tokenStart twoLines tokens₂ i⟩) ∨
      ∃ t₁ t₂, parse 0 oneLine = .ok t₁ ∧ parse 1 twoLines = .ok t₂ ∧
        (∀ p, t₁.Holds p → p.range.OnTokens tokens₁) ∧
        (∀ p, t₂.Holds p → p.range.OnTokens tokens₂) ∧
        t₁.root.relocate (tokensUpTo tokens₁) = t₂.root.relocate (tokensUpTo tokens₂)) ∧
    ((parse 0 oneLine).toOption.map fun t => t.types.map TypeDecl.range) = some [⟨0, 15⟩] ∧
    ((parse 1 twoLines).toOption.map fun t => t.types.map TypeDecl.range) = some [⟨0, 27⟩] := by
  have hread : ((tokenize oneLine).toOption.bind fun tokens₁ =>
      (tokenize twoLines).toOption.map fun tokens₂ =>
        decide (tokens₁.map Token.kind = tokens₂.map Token.kind) &&
          decide ((tokens₁.map fun t => t.doc.isSome) = tokens₂.map fun t => t.doc.isSome)) =
        some true := by decide +kernel
  obtain ⟨tokens₁, h₁, hread⟩ := Option.bind_eq_some_iff.1 hread
  obtain ⟨tokens₂, h₂, hread⟩ := Option.map_eq_some_iff.1 hread
  rw [Bool.and_eq_true, decide_eq_true_eq, decide_eq_true_eq] at hread
  rw [toOption_eq_some_iff] at h₁ h₂
  exact ⟨tokens₁, tokens₂, h₁, h₂, hread.1, hread.2, parse_layout 0 1 h₁ h₂ hread.1 hread.2,
    by decide +kernel, by decide +kernel⟩

end SyntaxTree

end PropertyLint
