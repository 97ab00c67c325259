/-
# Parsers on a piece of two texts

The same piece may stand in two texts, at different places and with different things in front of it
and behind it (`Frame`).  A parser that stops before the end of the piece has looked at nothing
behind it, so in the other text it does the same (`Frames`).  A parser that ends with a mark that it
looks for does so even at the end of the piece (`Closes`).  There is one rule for every way to build
a parser.

Loops recurse on a bound, and the bounds in the two texts are different.  So the parser does the
same unless it uses up a bound (`TooDeep`).
-/
import PropertyLint.Proofs.Syntax.Onward
import PropertyLint.Proofs.Syntax.Passage

namespace PropertyLint.Grammar

variable {α β γ δ : Type} {c c' c₁ c₂ : Cursor} {ws ws₁ ws₂ read : List Token}

/-! ## Pieces of two texts -/

/-- A token that ends a member or stands around members. -/
def isBorder : TokenKind → Bool
  | .punct p => p == .semicolon || p == .openBrace || p == .closeBrace
  | _ => false

theorem isBorder_iff {k : TokenKind} : isBorder k = true ↔
    k = .punct .semicolon ∨ k = .punct .openBrace ∨ k = .punct .closeBrace := by
  cases k <;> simp [isBorder, or_assoc]

theorem isBorder_kind {k : TokenKind} (h : isBorder k = true) : ∃ p, k = .punct p := by
  obtain h | h | h := isBorder_iff.1 h <;> exact ⟨_, h⟩

/-- A test of the next token and the one behind it that does not look behind a border, but for an
equals sign. -/
def Bordered (f : TokenKind → TokenKind → α) : Prop :=
  ∀ ⦃next s s'⦄, isBorder next = true → s ≠ .punct .assign → s' ≠ .punct .assign →
    f next s = f next s'

theorem Bordered.of_marks {f : TokenKind → TokenKind → α}
    (hsemicolon : ∀ s s', f (.punct .semicolon) s = f (.punct .semicolon) s')
    (hopen : ∀ s s', f (.punct .openBrace) s = f (.punct .openBrace) s')
    (hclose : ∀ s s', f (.punct .closeBrace) s = f (.punct .closeBrace) s') : Bordered f := by
  intro next s s' hnext _ _
  obtain rfl | rfl | rfl := isBorder_iff.1 hnext
  · exact hsemicolon s s'
  · exact hopen s s'
  · exact hclose s s'

/-- The tokens do not go on with what stands in front of them, if that is a member. -/
def IsFresh (rest : List Token) : Prop :=
  ∀ t ∈ rest.head?, t.kind ≠ .punct .assign ∧ t.kind ≠ .punct .semicolon

theorem forall₂_getLast? {R : α → β → Prop} {as : List α} {bs : List β}
    (h : List.Forall₂ R as bs) : Option.Rel R as.getLast? bs.getLast? := by
  induction h with
  | nil => exact .none
  | cons hfirst hrest ih =>
    cases hrest with
    | nil => exact .some hfirst
    | cons _ _ => rwa [List.getLast?_cons_cons, List.getLast?_cons_cons]

/-- A piece of some bytes that stands in two texts, with the tokens behind it. -/
structure Frame extends Passage where
  rest : List Token
  rest' : List Token
  fresh : IsFresh rest
  fresh' : IsFresh rest'

namespace Frame

variable (F : Frame)

/-- The texts in the other order. -/
def swap : Frame := ⟨F.toPassage.swap, F.rest', F.rest, F.fresh', F.fresh⟩

/-- The two texts end with the piece. -/
def IsLast : Prop := F.rest = [] ∧ F.rest' = []

/-- Nothing is left of the two texts, or something is left of the piece. -/
def Open (ws : List Token) : Prop := ws = [] → F.IsLast

/-- The cursors are at one place of the piece, with the given tokens up to its end. -/
structure Matches (ws : List Token) (c c' : Cursor) : Prop where
  tokens : c.tokens = ws ++ F.rest
  tokens' : ∃ ws', c'.tokens = ws' ++ F.rest' ∧ List.Forall₂ F.TokenAt ws ws'
  last : F.At c.last c'.last ∨ c.last ≤ F.start ∧ c'.last ≤ F.start'
  border : F.IsLast ∨ ∀ t ∈ ws.getLast?, isBorder t.kind = true

variable {F}

theorem IsLast.swap (h : F.IsLast) : F.swap.IsLast := And.symm h

theorem Open.swap (h : F.Open ws) : F.swap.Open ws := fun hws => (h hws).swap

namespace Matches

/-- What has been read up to a place in front of the end of the piece is a part of the piece. -/
theorem eq_append (h : F.Matches ws c c') (hread : c.tokens = read ++ c₁.tokens)
    (h₁ : c₁.tokens = ws₁ ++ F.rest) : ws = read ++ ws₁ := by
  have heq : ws ++ F.rest = (read ++ ws₁) ++ F.rest := by
    rw [← h.tokens, hread, h₁, List.append_assoc]
  exact List.append_cancel_right heq

theorem eq_of_tokens (h : F.Matches ws c c') (h₁ : c.tokens = ws₁ ++ F.rest) : ws = ws₁ :=
  List.append_cancel_right (h.tokens.symm.trans h₁)

theorem head (h : F.Matches ws c c') (hopen : F.Open ws) : c'.head = c.head := by
  obtain ⟨ws', htokens', hws⟩ := h.tokens'
  unfold Cursor.head
  rw [h.tokens, htokens']
  cases hws with
  | nil => rw [(hopen rfl).1, (hopen rfl).2]
  | cons ht => exact ht.1.symm

/-- Behind the last token of the piece other tokens may stand, but no member goes on with them. -/
theorem second (h : F.Matches ws c c') (hopen : F.Open ws) :
    c'.second = c.second ∨ isBorder c.head = true ∧ c.second ≠ .punct .assign ∧
      c'.second ≠ .punct .assign := by
  obtain ⟨ws', htokens', hws⟩ := h.tokens'
  cases hws with
  | nil =>
    unfold Cursor.second
    rw [h.tokens, htokens', (hopen rfl).1, (hopen rfl).2]
    exact .inl rfl
  | cons ht hrest =>
    cases hrest with
    | nil =>
      have hbehind {d : Cursor} {t : Token} {rest : List Token} (hrest : IsFresh rest)
          (hd : d.tokens = [t] ++ rest) : d.second ≠ .punct .assign := by
        unfold Cursor.second
        rw [hd]
        obtain _ | ⟨u, rest⟩ := rest
        · simp
        · exact (hrest u rfl).1
      obtain ⟨hnil, hnil'⟩ | hborder := h.border
      · refine .inl ?_
        unfold Cursor.second
        rw [h.tokens, htokens', hnil, hnil']
        rfl
      · refine .inr ⟨?_, hbehind F.fresh h.tokens, hbehind F.fresh' htokens'⟩
        rw [Cursor.head, h.tokens]
        exact hborder _ rfl
    | cons hu =>
      unfold Cursor.second
      rw [h.tokens, htokens']
      exact .inl hu.1.symm

/-- A test that does not look behind the piece. -/
theorem look {f : TokenKind → TokenKind → α} (h : F.Matches ws c c') (hopen : F.Open ws)
    (hf : Bordered f) : f c'.head c'.second = f c.head c.second := by
  rw [h.head hopen]
  rcases h.second hopen with hsecond | ⟨hborder, hs, hs'⟩
  · rw [hsecond]
  · exact (hf hborder hs hs').symm

theorem position (h : F.Matches ws c c') (hne : ws ≠ []) : F.At c.position c'.position := by
  obtain ⟨ws', htokens', hws⟩ := h.tokens'
  unfold Cursor.position
  rw [h.tokens, htokens']
  cases hws with
  | nil => exact absurd rfl hne
  | cons ht => exact ht.2.1.1

theorem doc (h : F.Matches ws c c') (hne : ws ≠ []) : Option.Rel F.RangeAt c.doc c'.doc := by
  obtain ⟨ws', htokens', hws⟩ := h.tokens'
  unfold Cursor.doc
  rw [h.tokens, htokens']
  cases hws with
  | nil => exact absurd rfl hne
  | cons ht => exact ht.2.2

theorem advance {t : Token} (h : F.Matches (t :: ws) c c') :
    F.Matches ws c.advance c'.advance := by
  obtain ⟨ws', htokens', hws⟩ := h.tokens'
  have htokens := h.tokens
  cases hws with
  | cons ht hrest =>
    unfold Cursor.advance
    rw [htokens, htokens']
    refine ⟨rfl, ⟨_, rfl, hrest⟩, .inl ht.2.1.2,
      h.border.imp_right fun hborder u hu => hborder u ?_⟩
    cases ws with
    | nil => cases hu
    | cons v ws => rwa [List.getLast?_cons_cons]

theorem withFresh (h : F.Matches ws c c') (n n' : NodeId) :
    F.Matches ws (c.withFresh n) (c'.withFresh n') := ⟨h.tokens, h.tokens', h.last, h.border⟩

theorem renew (h : F.Matches ws c c') : F.Matches ws c.renew c'.renew := h.withFresh _ _

/-- A range goes from a place in the piece to the end of the token that was read last. -/
theorem rangeSince (h : F.Matches ws c c') {start start' : Nat} (hstart : F.At start start') :
    F.RangeAt (c.rangeSince start) (c'.rangeSince start') := by
  refine ⟨hstart, ?_⟩
  rcases h.last with hlast | ⟨hle, hle'⟩
  · exact hlast.max hstart
  · -- nothing has been read in the piece yet
    obtain ⟨y, hy, rfl, rfl⟩ := hstart
    exact ⟨y, hy, Nat.max_eq_right (by omega), Nat.max_eq_right (by omega)⟩

theorem swap (h : F.Matches ws c c') :
    ∃ ws', F.swap.Matches ws' c' c ∧ (ws' = [] → ws = []) := by
  obtain ⟨ws', htokens', hws⟩ := h.tokens'
  have hborder (hlast : ∀ t ∈ ws.getLast?, isBorder t.kind = true) :
      ∀ t ∈ ws'.getLast?, isBorder t.kind = true := by
    have hrel := forall₂_getLast? hws
    generalize ws.getLast? = o, ws'.getLast? = o' at hlast hrel ⊢
    cases hrel with
    | none => exact hlast
    | some hsame =>
      rintro t ⟨⟩
      rw [← hsame.1]
      exact hlast _ rfl
  refine ⟨ws', ⟨htokens', ⟨ws, h.tokens, ?_⟩, h.last.imp Passage.At.swap And.symm,
    h.border.imp IsLast.swap hborder⟩, ?_⟩
  · exact hws.flip.imp fun _ _ => Passage.TokenAt.swap
  · rintro rfl
    cases hws
    rfl

end Matches

theorem Open.append (h : F.Open ws₁) : F.Open (read ++ ws₁) :=
  fun heq => h (List.append_eq_nil_iff.1 heq).2

end Frame

/-! ## Parsers that do the same -/

/-- The parser uses up a bound. -/
def TooDeep (p : Parser α) (c : Cursor) : Prop := ∃ e, Fails p c e ∧ e.cause = .tooDeep

/-- The parser gives something as it should be, unless it uses up a bound. -/
def Leads (p : Parser α) (c : Cursor) (T : α → Cursor → Prop) : Prop :=
  TooDeep p c ∨ ∃ a c', Runs p c a c' ∧ T a c'

namespace Leads

variable {p : Parser α} {k : α → Parser β} {T T' : α → Cursor → Prop} {S : β → Cursor → Prop}

theorem mono (h : Leads p c T) (hT : ∀ a c', T a c' → T' a c') : Leads p c T' :=
  h.imp_right fun ⟨a, c', hrun, ha⟩ => ⟨a, c', hrun, hT a c' ha⟩

theorem bind (h : Leads p c T) (hk : ∀ a c', T a c' → Leads (k a) c' S) :
    Leads (p >>= k) c S := by
  obtain ⟨e, hfails, he⟩ | ⟨a, c', hrun, ha⟩ := h
  · exact .inl ⟨e, fails_bind.2 (.inl hfails), he⟩
  · exact (hk a c' ha).imp
      (fun ⟨e, hfails, he⟩ => ⟨e, fails_bind.2 (.inr ⟨a, c', hrun, hfails⟩), he⟩)
      fun ⟨b, c'', hrun', hb⟩ => ⟨b, c'', runs_bind.2 ⟨a, c', hrun, hrun'⟩, hb⟩

theorem of_outcome_eq {q : Parser α} (heq : p.outcome c = q.outcome c) (h : Leads q c T) :
    Leads p c T := by
  obtain ⟨e, hfails, he⟩ | ⟨a, c', hrun, ha⟩ := h
  · refine .inl ⟨e, ?_, he⟩
    rwa [Fails, heq]
  · refine .inr ⟨a, c', ?_, ha⟩
    rwa [Runs, heq]

theorem pure {a : α} (h : T a c) : Leads (Pure.pure a) c T :=
  .inr ⟨a, c, runs_pure.2 ⟨rfl, rfl⟩, h⟩

/-- A first step that is known. -/
theorem next {a : α} (h : Runs p c a c') (hk : Leads (k a) c' S) : Leads (p >>= k) c S :=
  bind (T := fun b d => b = a ∧ d = c') (.inr ⟨a, c', h, rfl, rfl⟩) fun _ _ hb => by
    obtain ⟨rfl, rfl⟩ := hb
    exact hk

end Leads

namespace Frame

variable (F : Frame)

/-- The parser comes to the same place as the first one, with a related result. -/
def Follows (R : α → β → Prop) (ws₁ : List Token) (a : α) (c₁ : Cursor) (q : Parser β)
    (c' : Cursor) : Prop :=
  Leads q c' fun b c₁' => F.Matches ws₁ c₁ c₁' ∧ R a b

/-- Where the first parser stops in the piece, the second one does the same. -/
def Frames (R : α → β → Prop) (p : Parser α) (q : Parser β) : Prop :=
  ∀ ⦃ws ws₁ c c' a c₁⦄, F.Matches ws c c' → Runs p c a c₁ → c₁.tokens = ws₁ ++ F.rest →
    F.Open ws₁ → F.Follows R ws₁ a c₁ q c'

/-- Where the first parser stops in the piece or at its end, the second one does the same. -/
def Closes (R : α → β → Prop) (p : Parser α) (q : Parser β) : Prop :=
  ∀ ⦃ws ws₁ c c' a c₁⦄, F.Matches ws c c' → Runs p c a c₁ → c₁.tokens = ws₁ ++ F.rest →
    F.Follows R ws₁ a c₁ q c'

variable {F} {R : α → β → Prop} {S : γ → δ → Prop}

theorem Closes.frames {p : Parser α} {q : Parser β} (h : F.Closes R p q) : F.Frames R p q :=
  fun _ _ _ _ _ _ hc hrun h₁ _ => h hc hrun h₁

theorem Follows.mono {R' : α → β → Prop} {a : α} {q : Parser β}
    (h : F.Follows R ws₁ a c₁ q c') (hR : ∀ b, R a b → R' a b) : F.Follows R' ws₁ a c₁ q c' :=
  Leads.mono h fun b _ hb => hb.imp_right (hR b)

theorem Follows.bind {a : α} {d : γ} {q : Parser β} {l : β → Parser δ}
    (h : F.Follows R ws₁ a c₁ q c')
    (hl : ∀ b c₁', F.Matches ws₁ c₁ c₁' → R a b → F.Follows S ws₂ d c₂ (l b) c₁') :
    F.Follows S ws₂ d c₂ (q >>= l) c' :=
  Leads.bind h fun b c₁' hb => hl b c₁' hb.1 hb.2

namespace Frames

variable {p : Parser α} {q : Parser β} {k : α → Parser γ} {l : β → Parser δ}

theorem mono {R' : α → β → Prop} (h : F.Frames R p q) (hR : ∀ a b, R a b → R' a b) :
    F.Frames R' p q :=
  fun _ _ _ _ _ _ hc hrun h₁ hopen => (h hc hrun h₁ hopen).mono (hR _)

theorem bind [o : ∀ a, Onward (k a)] (hp : F.Frames R p q)
    (hkl : ∀ a b, R a b → F.Frames S (k a) (l b)) : F.Frames S (p >>= k) (q >>= l) := by
  intro ws ws₂ c c' d c₂ hc hrun h₂ hopen
  obtain ⟨a, c₁, ha, hd⟩ := runs_bind.1 hrun
  obtain ⟨read, hread⟩ := (o a).moves hd
  have h₁ : c₁.tokens = (read ++ ws₂) ++ F.rest := by rw [hread.tokens, h₂, List.append_assoc]
  exact (hp hc ha h₁ hopen.append).bind fun b c₁' hc₁ hb => hkl a b hb hc₁ hd h₂ hopen

theorem pure {a : α} {b : β} (h : R a b) : F.Frames R (pure a) (pure b) := by
  intro ws ws₁ c c' a c₁ hc hrun h₁ hopen
  obtain ⟨rfl, rfl⟩ := runs_pure.1 hrun
  obtain rfl : ws = ws₁ := hc.eq_of_tokens h₁
  exact .inr ⟨b, c', runs_pure.2 ⟨rfl, rfl⟩, hc, h⟩

theorem done {a : α} {b : β} : F.Frames (fun _ _ => True) (Pure.pure a) (Pure.pure b) :=
  pure trivial

theorem map {f : α → γ} {g : β → δ} (hp : F.Frames R p q) (h : ∀ a b, R a b → S (f a) (g b)) :
    F.Frames S (f <$> p) (g <$> q) := by
  intro ws ws₁ c c' d c₁ hc hrun h₁ hopen
  obtain ⟨a, ha, rfl⟩ := runs_map.1 hrun
  obtain ⟨e, hfails, he⟩ | ⟨b, c₁', hb, hc₁, hab⟩ := hp hc ha h₁ hopen
  · exact .inl ⟨e, fails_map.2 hfails, he⟩
  · exact .inr ⟨g b, c₁', runs_map.2 ⟨b, hb, rfl⟩, hc₁, h a b hab⟩

theorem mapAny {f : α → γ} {g : β → δ} (hp : F.Frames R p q) :
    F.Frames (fun _ _ => True) (f <$> p) (g <$> q) :=
  hp.map fun _ _ _ => trivial

theorem discard (hp : F.Frames R p q) :
    F.Frames (fun _ _ => True) (discard p) (discard q) :=
  hp.mapAny

theorem ite {P : Prop} [Decidable P] {p' : Parser α} {q' : Parser β} (h : F.Frames R p q)
    (h' : F.Frames R p' q') : F.Frames R (if P then p else p') (if P then q else q') := by
  split
  · exact h
  · exact h'

/-- A parser that never succeeds. -/
theorem of_not_runs (h : ∀ c a c', ¬ Runs p c a c') : F.Frames R p q :=
  fun _ _ _ _ _ _ _ hrun _ _ => absurd hrun (h _ _ _)

theorem failExpecting (e : Expected) : F.Frames R (Grammar.failExpecting e) q :=
  of_not_runs fun c a c' => by simp

theorem failTooDeep : F.Frames R Grammar.failTooDeep q := of_not_runs fun c a c' => by simp

/-- A second bound that is used up. -/
theorem tooDeep : F.Frames R p Grammar.failTooDeep :=
  fun _ _ _ _ _ _ _ _ _ _ => .inl ⟨_, fails_failTooDeep.2 rfl, rfl⟩

/-- What depends on the next token and the one behind it. -/
theorem look {f : TokenKind → TokenKind → γ} {p q : Parser γ}
    (hp : ∀ c, p.outcome c = (.ok (f c.head c.second), c))
    (hq : ∀ c, q.outcome c = (.ok (f c.head c.second), c)) (hf : Bordered f) :
    F.Frames Eq p q := by
  intro ws ws₁ c c' a c₁ hc hrun h₁ hopen
  obtain ⟨ha, rfl⟩ := Prod.mk.inj ((hp c).symm.trans hrun)
  obtain rfl := Except.ok.inj ha
  obtain rfl : ws = ws₁ := hc.eq_of_tokens h₁
  exact .inr ⟨_, c', hq c', hc, (hc.look hopen hf).symm⟩

/-- What depends on the next token. -/
theorem lookHead {f : TokenKind → γ} {p : Parser γ}
    (hp : ∀ c, p.outcome c = (.ok (f c.head), c)) : F.Frames Eq p p :=
  look (f := fun next _ => f next) hp hp fun _ _ _ _ _ _ => rfl

theorem peek : F.Frames Eq Grammar.peek Grammar.peek :=
  lookHead (f := fun next => next) fun _ => rfl

theorem atMark (m : Punct) : F.Frames Eq (Grammar.atMark m) (Grammar.atMark m) :=
  lookHead (f := fun next => next == .punct m) fun _ => rfl

theorem atWord (w : String) : F.Frames Eq (Grammar.atWord w) (Grammar.atWord w) :=
  lookHead (f := fun next => next == .word w) fun _ => rfl

theorem atAnyWord (ws : List String) : F.Frames Eq (Grammar.atAnyWord ws) (Grammar.atAnyWord ws) :=
  lookHead (f := fun next => ws.any fun w => next == .word w) fun _ => rfl

/-- What follows depends on the next token and the one behind it. -/
theorem choice {f : TokenKind → TokenKind → δ} {p : Parser α} {q : Parser β} {k : δ → Parser α}
    {l : δ → Parser β} [o : ∀ d, Onward (k d)]
    (hp : ∀ c, p.outcome c = (k (f c.head c.second)).outcome c)
    (hq : ∀ c, q.outcome c = (l (f c.head c.second)).outcome c) (hf : Bordered f)
    (hkl : ∀ d, F.Frames R (k d) (l d)) : F.Frames R p q := by
  intro ws ws₁ c c' a c₁ hc hrun hc₁ hopen
  rw [Runs, hp] at hrun
  obtain ⟨read, hread⟩ := (o _).moves hrun
  obtain rfl := hc.eq_append hread.tokens hc₁
  have hsame := hc.look hopen.append hf
  have hfollows := hkl _ hc hrun hc₁ hopen
  rw [← hsame] at hfollows
  exact Leads.of_outcome_eq (hq c') hfollows

/-- A choice between two parsers by the next token and the one behind it. -/
theorem choose {f : TokenKind → TokenKind → Bool} {p v w : Parser α} {q x y : Parser β}
    [Onward v] [Onward w] (hp : ∀ c, p.outcome c = (if f c.head c.second then v else w).outcome c)
    (hq : ∀ c, q.outcome c = (if f c.head c.second then x else y).outcome c) (hf : Bordered f)
    (hvx : F.Frames R v x) (hwy : F.Frames R w y) : F.Frames R p q :=
  choice (k := fun b => if b then v else w) (l := fun b => if b then x else y) hp hq hf
    fun _ => ite hvx hwy

theorem advance : F.Frames (fun _ _ => True) Grammar.advance Grammar.advance := by
  intro ws ws₁ c c' a c₁ hc hrun h₁ hopen
  obtain rfl := runs_advance.1 hrun
  cases ws with
  | nil =>
    -- at the end of both texts nothing is left to read
    obtain ⟨read, hread⟩ := c.reaches_advance
    obtain ⟨hrest, hrest'⟩ := hopen (List.append_eq_nil_iff.1 (hc.eq_append hread.tokens h₁).symm).2
    obtain ⟨ws', htokens', hws⟩ := hc.tokens'
    cases hws
    have htokens : c.tokens = [] := by rw [hc.tokens, hrest]; rfl
    have htokens' : c'.tokens = [] := by rw [htokens', hrest']; rfl
    have heq : c.advance = c := by simp [Cursor.advance, htokens]
    have heq' : c'.advance = c' := by simp [Cursor.advance, htokens']
    rw [heq] at h₁
    obtain rfl : [] = ws₁ := hc.eq_of_tokens h₁
    exact .inr ⟨(), c', runs_advance.2 heq', heq.symm ▸ hc, trivial⟩
  | cons t ws =>
    have hc₁ := hc.advance
    obtain rfl : ws = ws₁ := List.append_cancel_right (hc₁.tokens.symm.trans h₁)
    exact .inr ⟨(), _, runs_advance.2 rfl, hc₁, trivial⟩

/-! ### Sequences -/

section
variable {p q : Parser α} {k l : α → Parser γ}

/-- What follows goes by the result. -/
theorem same {l : α → Parser δ} [o : ∀ a, Onward (k a)] (hp : F.Frames Eq p q)
    (hkl : ∀ a, F.Frames S (k a) (l a)) : F.Frames S (p >>= k) (q >>= l) :=
  hp.bind fun a _ hab => hab ▸ hkl a

end

section
variable {p : Parser α} {q : Parser β} {k : α → Parser γ} {l : β → Parser δ}

/-- What follows is the same for every result. -/
theorem any [o : ∀ a, Onward (k a)] (hp : F.Frames R p q) (hkl : ∀ a b, F.Frames S (k a) (l b)) :
    F.Frames S (p >>= k) (q >>= l) :=
  hp.bind fun a b _ => hkl a b

/-- Where something is read behind it, a question about the cursor is asked inside of the piece. -/
theorem ask {f : Cursor → α} {p : Parser α} {R : α → α → Prop} {l : α → Parser δ}
    (hp : ∀ c, p.outcome c = (.ok (f c), c)) (hconsumes : Consumes (p >>= k))
    (hR : ∀ ws c c', F.Matches ws c c' → ws ≠ [] → R (f c) (f c'))
    (hkl : ∀ a b, R a b → F.Frames S (k a) (l b)) : F.Frames S (p >>= k) (p >>= l) := by
  intro ws ws₁ c c' d c₁ hc hrun h₁ hopen
  obtain ⟨⟨read, hread⟩, hlt⟩ := hconsumes hrun
  obtain rfl := hc.eq_append hread.tokens h₁
  obtain ⟨a, c₀, ha, hd⟩ := runs_bind.1 hrun
  obtain ⟨hsame, rfl⟩ := Prod.mk.inj ((hp c).symm.trans ha)
  obtain rfl := Except.ok.inj hsame
  have hne : read ++ ws₁ ≠ [] := by
    intro heq
    rw [hread.tokens, (List.append_eq_nil_iff.1 heq).1] at hlt
    exact Nat.lt_irrefl _ hlt
  have hask : F.Follows R (read ++ ws₁) (f c) c p c' :=
    .inr ⟨f c', c', hp c', hc, hR _ _ _ hc hne⟩
  exact hask.bind fun b c₁' hc₁ hb => hkl _ b hb hc₁ hd h₁ hopen

theorem position {l : Nat → Parser δ} {k : Nat → Parser γ}
    (hconsumes : Consumes (Grammar.position >>= k))
    (hkl : ∀ start start', F.At start start' → F.Frames S (k start) (l start')) :
    F.Frames S (Grammar.position >>= k) (Grammar.position >>= l) :=
  ask (f := Cursor.position) (fun _ => rfl) hconsumes (fun _ _ _ hc hne => hc.position hne) hkl

/-- A question about the cursor whose answer does not matter. -/
theorem skip {f : Cursor → α} {p : Parser α} {l : α → Parser δ}
    (hp : ∀ c, p.outcome c = (.ok (f c), c)) (hkl : ∀ a b, F.Frames S (k a) (l b)) :
    F.Frames S (p >>= k) (p >>= l) := by
  intro ws ws₁ c c' d c₁ hc hrun h₁ hopen
  obtain ⟨a, c₀, ha, hd⟩ := runs_bind.1 hrun
  obtain ⟨-, rfl⟩ := Prod.mk.inj ((hp c).symm.trans ha)
  have hask : F.Follows (fun _ _ => True) ws a c p c' := .inr ⟨f c', c', hp c', hc, trivial⟩
  exact hask.bind fun b c₁' hc₁ _ => hkl a b hc₁ hd h₁ hopen

/-- What follows looks at the tokens itself. -/
theorem get {k : Cursor → Parser γ} {l : Cursor → Parser δ} [o : ∀ c, Onward (k c)]
    (hkl : ∀ ws c c', F.Matches ws c c' → F.Open ws → F.Frames S (k c) (l c')) :
    F.Frames S (MonadState.get >>= k) (MonadState.get >>= l) := by
  intro ws ws₁ c c' d c₁ hc hrun h₁ hopen
  obtain ⟨a, c₀, ha, hd⟩ := runs_bind.1 hrun
  obtain ⟨rfl, rfl⟩ := runs_get.1 ha
  obtain ⟨read, hread⟩ := (o c).moves hd
  obtain rfl := hc.eq_append hread.tokens h₁
  have hask : F.Follows (fun _ b => b = c') (read ++ ws₁) c c MonadState.get c' :=
    .inr ⟨c', c', rfl, hc, rfl⟩
  refine hask.bind fun b c₁' hc₁ hb => ?_
  obtain rfl := hb
  exact hkl _ c b hc hopen.append hc₁ hd h₁ hopen

theorem somewhere {k : Nat → Parser γ} {l : Nat → Parser δ}
    (hkl : ∀ start start', F.Frames S (k start) (l start')) :
    F.Frames S (Grammar.position >>= k) (Grammar.position >>= l) :=
  skip (f := Cursor.position) (fun _ => rfl) hkl

theorem bound {k : Nat → Parser γ} {l : Nat → Parser δ}
    (hkl : ∀ rounds rounds', F.Frames S (k rounds) (l rounds')) :
    F.Frames S (Grammar.bound >>= k) (Grammar.bound >>= l) :=
  skip (f := fun c => c.tokens.length + 1) (fun _ => rfl) hkl

end

/-! ### Single tokens and nodes -/

theorem takeMark (m : Punct) : F.Frames Eq (Grammar.takeMark m) (Grammar.takeMark m) :=
  (atMark m).same fun _ => ite (advance.any fun _ _ => pure rfl) (pure rfl)

theorem takeWord (w : String) : F.Frames Eq (Grammar.takeWord w) (Grammar.takeWord w) :=
  (atWord w).same fun _ => ite (advance.any fun _ _ => pure rfl) (pure rfl)

theorem expectMark (m : Punct) :
    F.Frames (fun _ _ => True) (Grammar.expectMark m) (Grammar.expectMark m) :=
  (takeMark m).same fun _ => ite (pure trivial) (failExpecting _)

end Frames

/-- Both words are the same, at one place of the piece. -/
def IdentAt (F : Frame) (i i' : Ident) : Prop := i.text = i'.text ∧ F.RangeAt i.range i'.range

namespace Frames

theorem identifier : F.Frames F.IdentAt Grammar.identifier Grammar.identifier := by
  intro ws ws₁ c c' i c₁ hc hrun h₁ hopen
  obtain ⟨rfl, doc, rest, htokens⟩ := runs_identifier.1 hrun
  cases ws with
  | nil =>
    -- nothing is left behind the end
    have hread := Cursor.reads_advance htokens
    have hnil := hc.eq_append hread.tokens h₁
    simp at hnil
  | cons t ws =>
    obtain ⟨ws', htokens', hws⟩ := hc.tokens'
    obtain ⟨rfl, -⟩ := List.cons.inj (htokens.symm.trans hc.tokens)
    have hc₁ := hc.advance
    obtain rfl : ws = ws₁ := List.append_cancel_right (hc₁.tokens.symm.trans h₁)
    cases hws with
    | @cons _ t' _ _ ht hrest =>
      obtain ⟨kind', range', doc'⟩ := t'
      obtain ⟨rfl, hrange, -⟩ := ht
      exact .inr ⟨⟨i.text, range'⟩, _, runs_identifier.2 ⟨rfl, doc', _, htokens'⟩, hc₁, rfl, hrange⟩

end Frames

/-! ## Parsers that do the same up to the end of the piece -/

namespace Closes

variable {p : Parser α} {q : Parser β} {k : α → Parser γ} {l : β → Parser δ}

theorem bind [hk : ∀ a, Onward (k a)] (hp : F.Closes R p q)
    (hkl : ∀ a b, R a b → F.Closes S (k a) (l b)) : F.Closes S (p >>= k) (q >>= l) := by
  intro ws ws₂ c c' d c₂ hc hrun h₂
  obtain ⟨a, c₁, ha, hd⟩ := runs_bind.1 hrun
  obtain ⟨read, hread⟩ := (hk a).moves hd
  have h₁ : c₁.tokens = (read ++ ws₂) ++ F.rest := by rw [hread.tokens, h₂, List.append_assoc]
  exact (hp hc ha h₁).bind fun b c₁' hc₁ hb => hkl a b hb hc₁ hd h₂

theorem any [∀ a, Onward (k a)] (hp : F.Closes R p q) (hkl : ∀ a b, F.Closes S (k a) (l b)) :
    F.Closes S (p >>= k) (q >>= l) :=
  hp.bind fun a b _ => hkl a b

/-- Where something is read behind it, a parser has stopped inside of the piece. -/
theorem of_frames [hk : ∀ a, Consuming (k a)] (hp : F.Frames R p q)
    (hkl : ∀ a b, R a b → F.Closes S (k a) (l b)) : F.Closes S (p >>= k) (q >>= l) := by
  intro ws ws₂ c c' d c₂ hc hrun h₂
  obtain ⟨a, c₁, ha, hd⟩ := runs_bind.1 hrun
  obtain ⟨⟨read, hread⟩, hlt⟩ := (hk a).consumes hd
  have h₁ : c₁.tokens = (read ++ ws₂) ++ F.rest := by rw [hread.tokens, h₂, List.append_assoc]
  have hopen : F.Open (read ++ ws₂) := by
    intro heq
    rw [hread.tokens, (List.append_eq_nil_iff.1 heq).1] at hlt
    exact absurd hlt (Nat.lt_irrefl _)
  exact (hp hc ha h₁ hopen).bind fun b c₁' hc₁ hb => hkl a b hb hc₁ hd h₂

/-- A question about the cursor whose answer does not matter. -/
theorem skip {f : Cursor → α} {p : Parser α} {l : α → Parser δ}
    (hp : ∀ c, p.outcome c = (.ok (f c), c)) (hkl : ∀ a b, F.Closes S (k a) (l b)) :
    F.Closes S (p >>= k) (p >>= l) := by
  intro ws ws₁ c c' d c₁ hc hrun h₁
  obtain ⟨a, c₀, ha, hd⟩ := runs_bind.1 hrun
  obtain ⟨-, rfl⟩ := Prod.mk.inj ((hp c).symm.trans ha)
  have hask : F.Follows (fun _ _ => True) ws a c p c' := .inr ⟨f c', c', hp c', hc, trivial⟩
  exact hask.bind fun b c₁' hc₁ _ => hkl a b hc₁ hd h₁

theorem somewhere {k : Nat → Parser γ} {l : Nat → Parser δ}
    (hkl : ∀ start start', F.Closes S (k start) (l start')) :
    F.Closes S (Grammar.position >>= k) (Grammar.position >>= l) :=
  skip (f := Cursor.position) (fun _ => rfl) hkl

theorem bound {k : Nat → Parser γ} {l : Nat → Parser δ}
    (hkl : ∀ rounds rounds', F.Closes S (k rounds) (l rounds')) :
    F.Closes S (Grammar.bound >>= k) (Grammar.bound >>= l) :=
  skip (f := fun c => c.tokens.length + 1) (fun _ => rfl) hkl

theorem pure {a : α} {b : β} (h : R a b) : F.Closes R (pure a) (pure b) := by
  intro ws ws₁ c c' a c₁ hc hrun h₁
  obtain ⟨rfl, rfl⟩ := runs_pure.1 hrun
  obtain rfl : ws = ws₁ := hc.eq_of_tokens h₁
  exact .inr ⟨b, c', runs_pure.2 ⟨rfl, rfl⟩, hc, h⟩

theorem map {f : α → γ} {g : β → δ} (hp : F.Closes R p q) (h : ∀ a b, R a b → S (f a) (g b)) :
    F.Closes S (f <$> p) (g <$> q) := by
  intro ws ws₁ c c' d c₁ hc hrun h₁
  obtain ⟨a, ha, rfl⟩ := runs_map.1 hrun
  obtain ⟨e, hfails, he⟩ | ⟨b, c₁', hb, hc₁, hab⟩ := hp hc ha h₁
  · exact .inl ⟨e, fails_map.2 hfails, he⟩
  · exact .inr ⟨g b, c₁', runs_map.2 ⟨b, hb, rfl⟩, hc₁, h a b hab⟩

theorem mono {R' : α → β → Prop} (h : F.Closes R p q) (hR : ∀ a b, R a b → R' a b) :
    F.Closes R' p q :=
  fun _ _ _ _ _ _ hc hrun h₁ => (h hc hrun h₁).mono (hR _)

/-- The same with what all results are like. -/
theorem facts {P : α → Prop} {Q : β → Prop} (h : F.Closes R p q)
    (hP : ∀ ⦃c a c'⦄, Runs p c a c' → P a) (hQ : ∀ ⦃c b c'⦄, Runs q c b c' → Q b) :
    F.Closes (fun a b => R a b ∧ P a ∧ Q b) p q :=
  fun _ _ _ _ _ _ hc hrun h₁ => (h hc hrun h₁).imp_right fun ⟨b, c₁', hrun', hc₁, hab⟩ =>
    ⟨b, c₁', hrun', hc₁, hab, hP hrun, hQ hrun'⟩

theorem ite {P : Prop} [Decidable P] {p' : Parser α} {q' : Parser β} (h : F.Closes R p q)
    (h' : F.Closes R p' q') : F.Closes R (if P then p else p') (if P then q else q') := by
  split
  · exact h
  · exact h'

theorem of_not_runs (h : ∀ c a c', ¬ Runs p c a c') : F.Closes R p q :=
  fun _ _ _ _ _ _ _ hrun _ => absurd hrun (h _ _ _)

theorem failTooDeep : F.Closes R Grammar.failTooDeep q := of_not_runs fun c a c' => by simp

theorem tooDeep : F.Closes R p Grammar.failTooDeep :=
  fun _ _ _ _ _ _ _ _ _ => .inl ⟨_, fails_failTooDeep.2 rfl, rfl⟩

/-- The range of a new node ends with the piece at most. -/
theorem newNode {start start' : Nat} (h : F.At start start') :
    F.Closes (fun n n' => F.RangeAt n.range n'.range) (Grammar.newNode start)
      (Grammar.newNode start') := by
  intro ws ws₁ c c' n c₁ hc hrun h₁
  obtain ⟨rfl, rfl⟩ := runs_newNode.1 hrun
  obtain rfl : ws = ws₁ := hc.eq_of_tokens h₁
  exact .inr ⟨_, _, runs_newNode.2 ⟨rfl, rfl⟩, hc.renew, hc.rangeSince h⟩

/-- A new node whose range does not matter. -/
theorem someNode (start start' : Nat) :
    F.Closes (fun _ _ => True) (Grammar.newNode start) (Grammar.newNode start') := by
  intro ws ws₁ c c' n c₁ hc hrun h₁
  obtain ⟨rfl, rfl⟩ := runs_newNode.1 hrun
  obtain rfl : ws = ws₁ := hc.eq_of_tokens h₁
  exact .inr ⟨_, _, runs_newNode.2 ⟨rfl, rfl⟩, hc.renew, trivial⟩

theorem someRange (start start' : Nat) :
    F.Closes (fun _ _ => True) (Grammar.rangeFrom start) (Grammar.rangeFrom start') := by
  intro ws ws₁ c c' r c₁ hc hrun h₁
  obtain ⟨rfl, rfl⟩ := runs_rangeFrom.1 hrun
  obtain rfl : ws = ws₁ := hc.eq_of_tokens h₁
  exact .inr ⟨_, _, runs_rangeFrom.2 ⟨rfl, rfl⟩, hc, trivial⟩

theorem freshId : F.Closes (fun _ _ => True) Grammar.freshId Grammar.freshId := by
  intro ws ws₁ c c' n c₁ hc hrun h₁
  obtain ⟨rfl, rfl⟩ := runs_freshId.1 hrun
  obtain rfl : ws = ws₁ := hc.eq_of_tokens h₁
  exact .inr ⟨_, _, runs_freshId.2 ⟨rfl, rfl⟩, hc.renew, trivial⟩

/-- The mark that is next is in the piece if what stands behind it is. -/
theorem expectMark (m : Punct) :
    F.Closes (fun _ _ => True) (Grammar.expectMark m) (Grammar.expectMark m) := by
  intro ws ws₁ c c' u c₁ hc hrun h₁
  obtain ⟨hhead, rfl⟩ := runs_expectMark.1 hrun
  obtain ⟨t, -, hread⟩ := exists_reads_advance hhead (by simp)
  obtain rfl := hc.eq_append hread.tokens h₁
  have hhead' := (hc.head fun heq => absurd heq (by simp)).trans hhead
  exact .inr ⟨(), _, runs_expectMark.2 ⟨hhead', rfl⟩, hc.advance, trivial⟩

/-- A mark with which no member goes on is not next at the end of a piece. -/
theorem takeMark {m : Punct} (hm : m = .assign ∨ m = .semicolon) :
    F.Closes Eq (Grammar.takeMark m) (Grammar.takeMark m) := by
  have hfresh {d : Cursor} {rest : List Token} (hrest : IsFresh rest) (hd : d.tokens = rest) :
      d.head ≠ .punct m := by
    unfold Cursor.head
    rw [hd]
    obtain _ | ⟨t, rest⟩ := rest
    · simp
    · obtain rfl | rfl := hm
      · exact (hrest t rfl).1
      · exact (hrest t rfl).2
  intro ws ws₁ c c' b c₁ hc hrun h₁
  rcases ws with _ | ⟨t, ws⟩
  · obtain ⟨ws', htokens', hws⟩ := hc.tokens'
    cases hws
    have hhead := hfresh F.fresh hc.tokens
    obtain ⟨h, -⟩ | ⟨-, rfl, rfl⟩ := runs_takeMark.1 hrun
    · exact absurd h hhead
    · obtain rfl : [] = ws₁ := hc.eq_of_tokens h₁
      exact .inr ⟨false, c', runs_takeMark.2 (.inr ⟨hfresh F.fresh' htokens', rfl, rfl⟩), hc, rfl⟩
  · have hhead := hc.head fun heq => absurd heq (by simp)
    obtain ⟨h, rfl, rfl⟩ | ⟨h, rfl, rfl⟩ := runs_takeMark.1 hrun
    · have hc₁ := hc.advance
      obtain rfl : ws = ws₁ := List.append_cancel_right (hc₁.tokens.symm.trans h₁)
      exact .inr ⟨true, _, runs_takeMark.2 (.inl ⟨hhead.trans h, rfl, rfl⟩), hc₁, rfl⟩
    · obtain rfl : t :: ws = ws₁ := hc.eq_of_tokens h₁
      exact .inr ⟨false, _, runs_takeMark.2 (.inr ⟨hhead ▸ h, rfl, rfl⟩), hc, rfl⟩

/-- A choice between two parsers that read more, by the next token and the one behind it. -/
theorem choose {f : TokenKind → TokenKind → Bool} {p p₁ p₂ : Parser α} {q q₁ q₂ : Parser β}
    [hp₁ : Consuming p₁] [hp₂ : Consuming p₂]
    (hp : ∀ c, p.outcome c = (if f c.head c.second then p₁ else p₂).outcome c)
    (hq : ∀ c, q.outcome c = (if f c.head c.second then q₁ else q₂).outcome c)
    (hf : Bordered f) (h₁ : F.Closes R p₁ q₁) (h₂ : F.Closes R p₂ q₂) : F.Closes R p q := by
  have hlook : F.Frames Eq (peek >>= fun k => peekSecond >>= fun s => Pure.pure (f k s))
      (peek >>= fun k => peekSecond >>= fun s => Pure.pure (f k s)) :=
    .look (fun _ => rfl) (fun _ => rfl) hf
  have hboth : F.Closes R ((peek >>= fun k => peekSecond >>= fun s => Pure.pure (f k s)) >>=
        fun b => if b then p₁ else p₂)
      ((peek >>= fun k => peekSecond >>= fun s => Pure.pure (f k s)) >>=
        fun b => if b then q₁ else q₂) :=
    of_frames hlook fun b b' hb => hb ▸ ite h₁ h₂
  intro ws ws₁ c c' a c₁ hc hrun hc₁
  exact Leads.of_outcome_eq (hq c') (hboth hc ((hp c).symm.trans hrun) hc₁)

/-- A mark, or else something that reads more. -/
theorem takeMark_ite (m : Punct) {x y : Parser α} {x' y' : Parser β} [hx : Onward x]
    [hy : Consuming y] (hxx' : F.Closes R x x') (hyy' : F.Closes R y y') :
    F.Closes R (Grammar.takeMark m >>= fun b => if b then x else y)
      (Grammar.takeMark m >>= fun b => if b then x' else y') := by
  intro ws ws₁ c c' a c₁ hc hrun h₁
  obtain ⟨b, c₀, hb, hrun⟩ := runs_bind.1 hrun
  have hread : ∃ t read, c.Reads (t :: read) c₁ := by
    obtain ⟨h, rfl, rfl⟩ | ⟨-, rfl, rfl⟩ := runs_takeMark.1 hb
    · obtain ⟨t, -, ht⟩ := exists_reads_advance h (by simp)
      obtain ⟨read, hread⟩ := hx.moves (by simpa using hrun)
      exact ⟨t, read, ht.trans hread⟩
    · obtain ⟨⟨read, hread⟩, hlt⟩ := hy.consumes (by simpa using hrun)
      obtain _ | ⟨t, read⟩ := read
      · rw [hread.tokens] at hlt
        exact absurd hlt (Nat.lt_irrefl _)
      · exact ⟨t, read, hread⟩
  obtain ⟨t, read, hread⟩ := hread
  obtain rfl := hc.eq_append hread.tokens h₁
  have hhead := hc.head fun heq => absurd heq (by simp)
  obtain ⟨h, rfl, rfl⟩ | ⟨h, rfl, rfl⟩ := runs_takeMark.1 hb
  · have hnext : F.Follows Eq (read ++ ws₁) true c.advance (Grammar.takeMark m) c' :=
      .inr ⟨true, _, runs_takeMark.2 (.inl ⟨hhead.trans h, rfl, rfl⟩), hc.advance, rfl⟩
    refine hnext.bind fun b' c₁' hc₁ hb' => ?_
    obtain rfl := hb'
    exact hxx' hc₁ (by simpa using hrun) h₁
  · have hnext : F.Follows Eq (t :: read ++ ws₁) false c (Grammar.takeMark m) c' :=
      .inr ⟨false, _, runs_takeMark.2 (.inr ⟨hhead ▸ h, rfl, rfl⟩), hc, rfl⟩
    refine hnext.bind fun b' c₁' hc₁ hb' => ?_
    obtain rfl := hb'
    exact hyy' hc₁ (by simpa using hrun) h₁

end Closes

namespace Frames

theorem someNode (start start' : Nat) :
    F.Frames (fun _ _ => True) (Grammar.newNode start) (Grammar.newNode start') :=
  (Closes.someNode start start').frames

theorem someRange (start start' : Nat) :
    F.Frames (fun _ _ => True) (Grammar.rangeFrom start) (Grammar.rangeFrom start') :=
  (Closes.someRange start start').frames

end Frames

/-! ## Lists -/

section
variable {item : Parser α} {item' : Parser β} [Onward item] (hitem : F.Frames R item item')
include hitem

/-- Behind every item there is one more token, the closing mark at least. -/
theorem Closes.itemsUntil (close : Punct) (rounds rounds' : Nat) :
    F.Closes (List.Forall₂ R) (Grammar.itemsUntil close item rounds)
      (Grammar.itemsUntil close item' rounds') := by
  induction rounds generalizing rounds' with
  | zero => exact failTooDeep
  | succ rounds ih =>
    cases rounds' with
    | zero => exact tooDeep
    | succ rounds' =>
      have hrest : F.Closes (List.Forall₂ R)
          (item >>= fun first => Grammar.itemsUntil close item rounds >>= fun rest =>
            Pure.pure (first :: rest))
          (item' >>= fun first => Grammar.itemsUntil close item' rounds' >>= fun rest =>
            Pure.pure (first :: rest)) :=
        of_frames hitem fun _ _ hfirst => (ih rounds').bind fun _ _ hrest =>
          pure (.cons hfirst hrest)
      refine takeMark_ite _ (pure .nil) (of_frames .peek fun next _ hnext => ?_)
      obtain rfl := hnext
      exact ite (of_not_runs fun c a c' => by simp) hrest

theorem Closes.untilMark (close : Punct) :
    F.Closes (List.Forall₂ R) (Grammar.untilMark close item) (Grammar.untilMark close item') :=
  bound fun _ _ => itemsUntil hitem close _ _

theorem Frames.itemsByComma (rounds rounds' : Nat) :
    F.Frames (List.Forall₂ R) (Grammar.itemsByComma item rounds)
      (Grammar.itemsByComma item' rounds') := by
  induction rounds generalizing rounds' with
  | zero => exact failTooDeep
  | succ rounds ih =>
    cases rounds' with
    | zero => exact tooDeep
    | succ rounds' =>
      refine hitem.bind fun _ _ hfirst => (takeMark _).same fun _ => ite ?_ ?_
      · exact (ih rounds').bind fun _ _ hrest => pure (.cons hfirst hrest)
      · exact pure (.cons hfirst .nil)

theorem Frames.byComma :
    F.Frames (List.Forall₂ R) (Grammar.byComma item) (Grammar.byComma item') :=
  bound fun _ _ => itemsByComma hitem _ _

theorem Frames.inParens :
    F.Frames (List.Forall₂ R) (Grammar.inParens item) (Grammar.inParens item') := by
  refine (expectMark _).any fun _ _ => (atMark _).same fun _ => ite ?_ ?_
  · exact (pure .nil).bind fun _ _ h => (expectMark _).any fun _ _ => pure h
  · exact (byComma hitem).bind fun _ _ h => (expectMark _).any fun _ _ => pure h

end

/-! ## Tokens that are passed over -/

namespace Frames

theorem closePairs (opening closing : Punct) (rounds rounds' depth : Nat) :
    F.Frames (fun _ _ => True) (Grammar.closePairs opening closing rounds depth)
      (Grammar.closePairs opening closing rounds' depth) := by
  induction rounds generalizing rounds' depth with
  | zero =>
    cases depth with
    | zero => rw [Grammar.closePairs, Grammar.closePairs]; exact pure trivial
    | succ depth => exact failTooDeep
  | succ rounds ih =>
    cases depth with
    | zero => rw [Grammar.closePairs, Grammar.closePairs]; exact pure trivial
    | succ depth =>
      cases rounds' with
      | zero => exact tooDeep
      | succ rounds' =>
        rw [Grammar.closePairs, Grammar.closePairs]
        dsimp only
        refine peek.same fun _ => ite (of_not_runs fun c a c' => by simp) ?_
        exact peek.same fun _ => advance.any fun _ _ => ite (ih _ _) (ite (ih _ _) (ih _ _))

theorem skipPair (opening closing : Punct) :
    F.Frames (fun _ _ => True) (Grammar.skipPair opening closing)
      (Grammar.skipPair opening closing) :=
  (expectMark _).any fun _ _ => bound fun _ _ => closePairs _ _ _ _ _

theorem skipTo (stop : TokenKind → Bool) (rounds rounds' : Nat) :
    F.Frames (fun _ _ => True) (Grammar.skipTo stop rounds) (Grammar.skipTo stop rounds') := by
  induction rounds generalizing rounds' with
  | zero => exact failTooDeep
  | succ rounds ih =>
    cases rounds' with
    | zero => exact tooDeep
    | succ rounds' =>
      exact peek.same fun _ => ite (pure trivial) (advance.any fun _ _ => ih _)

end Frames

/-! ## Attempts -/

/-- The parser reads no token that stands at the end of a member. -/
def Unbordered (p : Parser α) : Prop :=
  ∀ ⦃c a c'⦄, Runs p c a c' → ∃ read, c.Reads read c' ∧ ∀ t ∈ read, isBorder t.kind = false

namespace Unbordered

variable {p q : Parser α} {k : α → Parser β}

theorem bind (hp : Unbordered p) (hk : ∀ a, Unbordered (k a)) : Unbordered (p >>= k) := by
  intro c b c' h
  obtain ⟨a, c₁, ha, hb⟩ := runs_bind.1 h
  obtain ⟨read, hread, hnone⟩ := hp ha
  obtain ⟨more, hmore, hnone'⟩ := hk a hb
  exact ⟨read ++ more, hread.trans hmore, List.forall_mem_append.2 ⟨hnone, hnone'⟩⟩

theorem ite {P : Prop} [Decidable P] (hp : Unbordered p) (hq : Unbordered q) :
    Unbordered (if P then p else q) := by
  split
  · exact hp
  · exact hq

theorem of_not_runs (h : ∀ c a c', ¬ Runs p c a c') : Unbordered p :=
  fun _ _ _ hrun => absurd hrun (h _ _ _)

/-- A parser that reads nothing. -/
theorem of_eq (h : ∀ c a c', Runs p c a c' → c = c') : Unbordered p := by
  intro c a c' hrun
  obtain rfl := h c a c' hrun
  exact ⟨[], .refl c, List.forall_mem_nil _⟩

theorem expectMark {m : Punct} (hm : isBorder (.punct m) = false) :
    Unbordered (Grammar.expectMark m) := by
  intro c u c' h
  obtain ⟨hhead, rfl⟩ := runs_expectMark.1 h
  obtain ⟨t, ht, hread⟩ := exists_reads_advance hhead (by simp)
  exact ⟨[t], hread, by simpa [ht] using hm⟩

end Unbordered

/-- A parser that reads no border stops in front of the end of the piece, unless the text ends. -/
theorem exists_stop_of_unbordered {p : Parser α} {a : α} (hp : Unbordered p)
    (hc : F.Matches ws c c') (hopen : F.Open ws) (h : Runs p c a c₁) :
    ∃ ws₁, c₁.tokens = ws₁ ++ F.rest ∧ F.Open ws₁ := by
  obtain ⟨read, hread, hnone⟩ := hp h
  -- the last token of the piece is not among them
  have hshort (hsub : ws ⊆ read) : F.IsLast := by
    refine hc.border.elim id fun hborder => hopen ?_
    rw [← List.getLast?_eq_none_iff, Option.eq_none_iff_forall_not_mem]
    intro t ht
    have hfree := hnone t (hsub (List.mem_of_getLast? ht))
    rw [hborder t ht] at hfree
    exact Bool.false_ne_true hfree.symm
  have heq : read ++ c₁.tokens = ws ++ F.rest := hread.tokens.symm.trans hc.tokens
  obtain ⟨ws₁, rfl, h₁⟩ | ⟨more, rfl, hmore⟩ := List.append_eq_append_iff.1 heq
  · refine ⟨ws₁, h₁, fun hnil => hshort ?_⟩
    rw [hnil, List.append_nil]
    exact List.Subset.refl _
  · obtain ⟨hrest, hrest'⟩ := hshort (List.subset_append_left _ _)
    rw [hrest] at hmore
    refine ⟨[], ?_, fun _ => ⟨hrest, hrest'⟩⟩
    rw [(List.append_eq_nil_iff.1 hmore.symm).2, hrest]
    rfl

/-- Both attempts succeed or both are given up. -/
theorem Frames.attempt {p : Parser α} {q : Parser β} {R' : β → α → Prop}
    (hpq : F.Frames R p q) (hqp : F.swap.Frames R' q p) (hq : Unbordered q) :
    F.Frames (Option.Rel R) (Grammar.attempt p) (Grammar.attempt q) := by
  intro ws ws₁ c c' o c₁ hc hrun h₁ hopen
  obtain ⟨a, ha, rfl⟩ | ⟨habandon, rfl⟩ := runs_attempt.1 hrun
  · obtain ⟨e, hfails, he⟩ | ⟨b, c₁', hb, hc₁, hab⟩ := hpq hc ha h₁ hopen
    · exact .inl ⟨e, fails_attempt.2 ⟨hfails, he⟩, he⟩
    · exact .inr ⟨some b, c₁', runs_attempt.2 (.inl ⟨b, hb, rfl⟩), hc₁, .some hab⟩
  · obtain ⟨e, c₀, hfails, he, rfl⟩ := habandon
    obtain rfl : ws = ws₁ := hc.eq_of_tokens h₁
    rcases hout : q.outcome c' with ⟨e' | b, c₁'⟩
    · by_cases he' : e'.cause = .tooDeep
      · exact .inl ⟨e', fails_attempt.2 ⟨by rw [Fails, hout], he'⟩, he'⟩
      · refine .inr ⟨none, c'.withFresh c₁'.fresh, runs_attempt.2 (.inr ⟨⟨e', c₁', hout, he', rfl⟩,
          rfl⟩), hc.withFresh _ _, .none⟩
    · -- what the second one reads, the first one would have read
      obtain ⟨ws', hc', hnil⟩ := hc.swap
      obtain ⟨ws₁', h₁', hopen'⟩ :=
        exists_stop_of_unbordered hq hc' (fun h => (hopen (hnil h)).symm) hout
      obtain ⟨e', hfails', he'⟩ | ⟨a, c₂, ha, -⟩ := hqp hc' hout h₁' hopen'
      · rw [Fails, hfails] at hfails'
        exact absurd (Except.error.inj hfails' ▸ he') he
      · rw [Runs, hfails] at ha
        cases ha

end Frame

end PropertyLint.Grammar
