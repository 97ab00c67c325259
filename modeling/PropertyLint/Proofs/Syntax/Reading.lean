/-
# What parsers read

A parser that succeeds has passed over some of the tokens.  `Cursor.Reads c read c'` says which
ones; the end of the last of them is what the cursor remembers.  The first part turns every step of
a parser into what it did to the cursor, so that a successful run can be taken apart step by step.

A type that is tried in front of a cast's operand or of a declared name may turn out to be none.
Then nothing has been read, but the identities that its nodes had are not given out again.  They are
only ever counted upwards, so an abandoned type moves the cursor on like any other parser
(`Abandons.reaches`).
-/
import Mathlib.Tactic.Simproc.ExistsAndEq
import PropertyLint.Syntax.Grammar.Decls

namespace PropertyLint.Grammar

section

variable {α β : Type} {c c' c'' : Cursor}

/-! ## Cursors -/

namespace Cursor

@[simp, grind =] theorem withFresh_tokens (n : NodeId) : (c.withFresh n).tokens = c.tokens := rfl

@[simp, grind =] theorem withFresh_head (n : NodeId) : (c.withFresh n).head = c.head := rfl

@[simp] theorem withFresh_position (n : NodeId) : (c.withFresh n).position = c.position := rfl

/-- The cursor with one more identity handed out. -/
def renew (c : Cursor) : Cursor := c.withFresh (c.fresh + 1)

@[simp, grind =] theorem renew_tokens : c.renew.tokens = c.tokens := rfl

@[simp, grind =] theorem renew_head : c.renew.head = c.head := rfl

@[simp] theorem renew_fresh : c.renew.fresh = c.fresh + 1 := rfl

/-- The range from an offset to the end of the token that was read last. -/
def rangeSince (c : Cursor) (start : Nat) : OffsetRange := ⟨start, max c.last start⟩

@[simp, grind =] theorem renew_rangeSince (start : Nat) :
    c.renew.rangeSince start = c.rangeSince start := rfl

/-- The end of the last of some tokens, if there are any. -/
def lastStop (last : Nat) : List Token → Nat
  | [] => last
  | t :: rest => lastStop t.range.stop rest

/-- The tokens have been read between the two cursors, which are at places in one text; identities
may have been handed out as well. -/
structure Reads (c : Cursor) (read : List Token) (c' : Cursor) : Prop where
  tokens : c.tokens = read ++ c'.tokens
  last : c'.last = lastStop c.last read
  size : c'.size = c.size
  fresh : c.fresh ≤ c'.fresh

/-- Some tokens, or none, have been read between the two cursors. -/
def Reaches (c c' : Cursor) : Prop := ∃ read, c.Reads read c'

theorem lastStop_append (last : Nat) (read more : List Token) :
    lastStop last (read ++ more) = lastStop (lastStop last read) more := by
  induction read generalizing last with
  | nil => rfl
  | cons t read ih => exact ih t.range.stop

theorem lastStop_congr {read : List Token} (hne : read ≠ []) (m n : Nat) :
    lastStop m read = lastStop n read := by
  cases read with
  | nil => exact absurd rfl hne
  | cons t read => rfl

/-- The last of some tokens decides. -/
theorem lastStop_concat (last : Nat) (read : List Token) (t : Token) :
    lastStop last (read ++ [t]) = t.range.stop := by
  rw [lastStop_append]
  rfl

theorem Reads.refl (c : Cursor) : c.Reads [] c := ⟨rfl, rfl, rfl, Nat.le_refl _⟩

theorem Reads.trans {read more : List Token} (h : c.Reads read c') (h' : c'.Reads more c'') :
    c.Reads (read ++ more) c'' := by
  refine ⟨?_, ?_, h'.size.trans h.size, Nat.le_trans h.fresh h'.fresh⟩
  · rw [h.tokens, h'.tokens, List.append_assoc]
  · rw [h'.last, h.last, lastStop_append]

theorem Reads.renew {read : List Token} (h : c.Reads read c') : c.Reads read c'.renew :=
  ⟨h.tokens, h.last, h.size, Nat.le_succ_of_le h.fresh⟩

theorem Reads.of_renew {read : List Token} (h : c.renew.Reads read c') : c.Reads read c' :=
  ⟨h.tokens, h.last, h.size, Nat.le_of_succ_le h.fresh⟩

/-- The token behind the next one is next behind it. -/
@[simp] theorem advance_head (c : Cursor) : c.advance.head = c.second := by
  rcases h : c.tokens with _ | ⟨t, _ | ⟨u, rest⟩⟩ <;> simp [advance, head, second, h]

theorem reads_advance {t : Token} {rest : List Token} (h : c.tokens = t :: rest) :
    c.Reads [t] c.advance := by
  unfold advance
  rw [h]
  exact ⟨h, rfl, rfl, Nat.le_refl _⟩

@[grind →]
theorem Reaches.trans (h : c.Reaches c') (h' : c'.Reaches c'') : c.Reaches c'' := by
  obtain ⟨read, h⟩ := h
  obtain ⟨more, h'⟩ := h'
  exact ⟨read ++ more, h.trans h'⟩

theorem Reaches.fresh_le (h : c.Reaches c') : c.fresh ≤ c'.fresh := by
  obtain ⟨read, h⟩ := h
  exact h.fresh

@[simp, grind .]
theorem Reaches.refl (c : Cursor) : c.Reaches c := ⟨[], .refl c⟩

theorem reaches_withFresh {n : NodeId} (h : c.fresh ≤ n) : c.Reaches (c.withFresh n) :=
  ⟨[], rfl, rfl, rfl, h⟩

@[grind! .]
theorem reaches_renew (c : Cursor) : c.Reaches c.renew := ⟨[], (Reads.refl c).renew⟩

@[grind! .]
theorem reaches_advance (c : Cursor) : c.Reaches c.advance := by
  cases h : c.tokens with
  | nil =>
    rw [advance, h]
    exact .refl c
  | cons t rest => exact ⟨[t], reads_advance h⟩

end Cursor

/-! ## Steps of a parser -/

/-- The second part of a sequence goes on where the first one has succeeded. -/
theorem outcome_bind (x : Parser α) (f : α → Parser β) (c : Cursor) :
    (x >>= f).outcome c = match x.outcome c with
      | (.ok a, c') => (f a).outcome c'
      | (.error e, c') => (.error e, c') := by
  show (ExceptT.bindCont f (x c).1) (x c).2 = _
  unfold Parser.outcome
  rcases x c with ⟨e | a, c'⟩ <;> rfl

theorem outcome_pure (a : α) (c : Cursor) : (pure a : Parser α).outcome c = (.ok a, c) := rfl

theorem outcome_map (f : α → β) (x : Parser α) (c : Cursor) :
    (f <$> x).outcome c = ((x.outcome c).1.map f, (x.outcome c).2) := by
  show (x >>= fun a => pure (f a)).outcome c = _
  rw [outcome_bind]
  rcases x.outcome c with ⟨e | a, c'⟩ <;> rfl

theorem outcome_get (c : Cursor) : (get : Parser Cursor).outcome c = (.ok c, c) := rfl

theorem outcome_advance (c : Cursor) : Parser.outcome advance c = (.ok (), c.advance) := rfl

theorem outcome_failExpecting (e : Expected) (c : Cursor) :
    (failExpecting e : Parser α).outcome c = (.error ⟨.unexpectedToken e c.head, c.position⟩, c) :=
  rfl

theorem outcome_failTooDeep (c : Cursor) :
    (failTooDeep : Parser α).outcome c = (.error ⟨.tooDeep, c.position⟩, c) := rfl

theorem outcome_freshId (c : Cursor) : Parser.outcome freshId c = (.ok c.fresh, c.renew) := rfl

/-- The parser succeeds from the first cursor, with the second cursor behind what it has read. -/
def Runs (p : Parser α) (c : Cursor) (a : α) (c' : Cursor) : Prop := p.outcome c = (.ok a, c')

@[simp] theorem runs_bind {x : Parser α} {f : α → Parser β} {b : β} :
    Runs (x >>= f) c b c'' ↔ ∃ a c', Runs x c a c' ∧ Runs (f a) c' b c'' := by
  unfold Runs
  rw [outcome_bind]
  rcases x.outcome c with ⟨e | a, c₁⟩ <;> simp

@[simp] theorem runs_pure {a b : α} : Runs (pure a) c b c' ↔ a = b ∧ c = c' := by
  simp [Runs, outcome_pure]

@[simp] theorem runs_map {x : Parser α} {f : α → β} {b : β} :
    Runs (f <$> x) c b c' ↔ ∃ a, Runs x c a c' ∧ f a = b := by
  unfold Runs
  rw [outcome_map]
  rcases x.outcome c with ⟨e | a, c₁⟩ <;> simp [Except.map, and_comm]

@[simp] theorem runs_discard {x : Parser α} {u : Unit} :
    Runs (discard x) c u c' ↔ ∃ a, Runs x c a c' := by
  show Runs ((fun _ => ()) <$> x) c u c' ↔ _
  simp

@[simp] theorem runs_ite {p : Prop} [Decidable p] {x y : Parser α} {a : α} :
    Runs (if p then x else y) c a c' ↔ (p ∧ Runs x c a c') ∨ (¬ p ∧ Runs y c a c') := by
  by_cases h : p <;> simp [h]

@[simp] theorem runs_get {d : Cursor} : Runs get c d c' ↔ c = d ∧ c = c' := by
  simp [Runs, outcome_get]

@[simp] theorem runs_peek {k : TokenKind} : Runs peek c k c' ↔ c = c' ∧ c.head = k := by
  simp [peek]

@[simp] theorem runs_peekSecond {k : TokenKind} :
    Runs peekSecond c k c' ↔ c = c' ∧ c.second = k := by
  simp [peekSecond]

@[simp] theorem runs_position {n : Nat} :
    Runs position c n c' ↔ c = c' ∧ c.position = n := by
  simp [position]

@[simp] theorem runs_bound {n : Nat} :
    Runs bound c n c' ↔ c = c' ∧ c.tokens.length + 1 = n := by
  simp [bound]

@[simp] theorem runs_advance {u : Unit} : Runs advance c u c' ↔ c.advance = c' := by
  simp [Runs, outcome_advance]

@[simp] theorem runs_failExpecting {e : Expected} {a : α} :
    Runs (failExpecting e) c a c' ↔ False := by
  simp [Runs, outcome_failExpecting]

@[simp] theorem runs_failTooDeep {a : α} : Runs failTooDeep c a c' ↔ False := by
  simp [Runs, outcome_failTooDeep]

@[simp] theorem runs_atMark {p : Punct} {b : Bool} :
    Runs (atMark p) c b c' ↔ c = c' ∧ (c.head == .punct p) = b := by
  simp [atMark]

@[simp] theorem runs_atWord {w : String} {b : Bool} :
    Runs (atWord w) c b c' ↔ c = c' ∧ (c.head == .word w) = b := by
  simp [atWord]

@[simp] theorem runs_atAnyWord {ws : List String} {b : Bool} :
    Runs (atAnyWord ws) c b c' ↔ c = c' ∧ (ws.any fun w => c.head == .word w) = b := by
  simp [atAnyWord]

@[simp] theorem runs_takeMark {p : Punct} {b : Bool} :
    Runs (takeMark p) c b c' ↔
      (c.head = .punct p ∧ b = true ∧ c.advance = c') ∨
        (c.head ≠ .punct p ∧ b = false ∧ c = c') := by
  by_cases h : c.head = .punct p <;> cases b <;> simp [takeMark, h]

@[simp] theorem runs_takeWord {w : String} {b : Bool} :
    Runs (takeWord w) c b c' ↔
      (c.head = .word w ∧ b = true ∧ c.advance = c') ∨
        (c.head ≠ .word w ∧ b = false ∧ c = c') := by
  by_cases h : c.head = .word w <;> cases b <;> simp [takeWord, h]

@[simp] theorem runs_expectMark {p : Punct} {u : Unit} :
    Runs (expectMark p) c u c' ↔ c.head = .punct p ∧ c.advance = c' := by
  by_cases h : c.head = .punct p <;> simp [expectMark, h]

@[simp] theorem runs_rangeFrom {start : Nat} {r : OffsetRange} :
    Runs (rangeFrom start) c r c' ↔ c = c' ∧ c.rangeSince start = r := by
  simp [rangeFrom, Cursor.rangeSince]

@[simp] theorem runs_freshId {id : NodeId} :
    Runs freshId c id c' ↔ c.renew = c' ∧ c.fresh = id := by
  simp [Runs, outcome_freshId, and_comm]

@[simp] theorem runs_newNode {start : Nat} {n : Node} :
    Runs (newNode start) c n c' ↔
      c.renew = c' ∧ ⟨c.fresh, c.rangeSince start⟩ = n := by
  simp [newNode]

/-- The parser fails at a token and is abandoned, so that the second cursor differs from the first
one only in the identities that have been handed out. -/
def Abandons (p : Parser α) (c c' : Cursor) : Prop :=
  ∃ e c₁, p.outcome c = (.error e, c₁) ∧ e.cause ≠ .tooDeep ∧ c.withFresh c₁.fresh = c'

theorem outcome_attempt (p : Parser α) (c : Cursor) :
    (attempt p).outcome c = match p.outcome c with
      | (.ok a, c') => (.ok (some a), c')
      | (.error e, c') =>
        if e.cause = .tooDeep then (.error e, c') else (.ok none, c.withFresh c'.fresh) := rfl

@[simp] theorem runs_attempt {p : Parser α} {a : Option α} :
    Runs (attempt p) c a c' ↔
      (∃ b, Runs p c b c' ∧ some b = a) ∨ (Abandons p c c' ∧ none = a) := by
  unfold Runs Abandons
  rw [outcome_attempt]
  rcases p.outcome c with ⟨e | b, c₁⟩
  · by_cases he : e.cause = .tooDeep <;> simp [he, and_comm]
  · simp [and_comm]

theorem runs_identifier {i : Ident} :
    Runs identifier c i c' ↔
      c.advance = c' ∧ ∃ doc rest, c.tokens = ⟨.word i.text, i.range, doc⟩ :: rest := by
  unfold identifier
  cases htokens : c.tokens with
  | nil => simp [htokens]
  | cons t rest =>
    obtain ⟨kind, range, doc⟩ := t
    cases kind with
    | word text =>
      obtain ⟨text', range'⟩ := i
      simp [htokens]
    | _ => simp [htokens]

/-! ## Tokens read -/

theorem exists_reads_advance {k : TokenKind} (h : c.head = k) (hk : k ≠ .endOfText) :
    ∃ t, t.kind = k ∧ c.Reads [t] c.advance := by
  cases htokens : c.tokens with
  | nil =>
    rw [Cursor.head, htokens] at h
    exact absurd h.symm hk
  | cons t rest =>
    rw [Cursor.head, htokens] at h
    exact ⟨t, h, Cursor.reads_advance htokens⟩

theorem exists_reads_identifier {i : Ident} (h : Runs identifier c i c') :
    ∃ t, t.kind = .word i.text ∧ t.range = i.range ∧ c.Reads [t] c' := by
  obtain ⟨rfl, doc, rest, htokens⟩ := runs_identifier.1 h
  exact ⟨_, rfl, rfl, Cursor.reads_advance htokens⟩

@[grind →]
theorem Cursor.Reaches.length_le (h : c.Reaches c') : c'.tokens.length ≤ c.tokens.length := by
  obtain ⟨read, h⟩ := h
  rw [h.tokens, List.length_append]
  omega

theorem Cursor.length_advance_lt (h : c.head ≠ .endOfText) :
    c.advance.tokens.length < c.tokens.length := by
  obtain ⟨t, -, h⟩ := exists_reads_advance rfl h
  rw [h.tokens]
  simp

@[grind →]
theorem Cursor.length_advance_of_punct {p : Punct} (h : c.head = .punct p) :
    c.advance.tokens.length < c.tokens.length :=
  length_advance_lt (by simp [h])

@[grind →]
theorem Cursor.length_advance_of_word {w : String} (h : c.head = .word w) :
    c.advance.tokens.length < c.tokens.length :=
  length_advance_lt (by simp [h])

/-! ## Runs over the tokens of a text -/

/-- The cursor is at some place among the tokens of a text. -/
def Within (tokens : List Token) (c : Cursor) : Prop :=
  ∃ read, tokens = read ++ c.tokens ∧ c.last = Cursor.lastStop 0 read

@[grind →]
theorem Within.reaches {tokens : List Token} (h : Within tokens c) (h' : c.Reaches c') :
    Within tokens c' := by
  obtain ⟨read, htokens, hlast⟩ := h
  obtain ⟨more, hmore⟩ := h'
  refine ⟨read ++ more, ?_, ?_⟩
  · rw [htokens, hmore.tokens, List.append_assoc]
  · rw [hmore.last, hlast, Cursor.lastStop_append]

/-- From every place among the tokens, the parser only moves on, and what it gives has the property
at the place where it stops. -/
def Yields (tokens : List Token) (p : Parser α) (Q : α → Cursor → Prop) : Prop :=
  ∀ ⦃c a c'⦄, Within tokens c → Runs p c a c' → c.Reaches c' ∧ Q a c'

theorem Yields.mono {tokens : List Token} {p : Parser α} {Q R : α → Cursor → Prop}
    (h : Yields tokens p Q) (hQ : ∀ a c, Q a c → R a c) : Yields tokens p R :=
  fun _ _ _ hc hrun => ⟨(h hc hrun).1, hQ _ _ (h hc hrun).2⟩

/-! ## Lists -/

variable {tokens : List Token}

theorem itemsUntil_yields {close : Punct} {item : Parser α} {Q : α → Prop}
    (hitem : Yields tokens item fun a _ => Q a) (rounds : Nat) :
    Yields tokens (itemsUntil close item rounds) fun as _ => ∀ a ∈ as, Q a := by
  unfold Yields at *
  induction rounds with
  | zero =>
    intro c as c' hc h
    simp [itemsUntil] at h
  | succ rounds ih =>
    intro c as c' hc h
    simp only [itemsUntil, runs_bind, runs_ite] at h
    simp at h
    obtain ⟨-, -, a, c₁, ha, as', has, rfl⟩ | ⟨⟨-, rfl⟩, rfl⟩ := h
    · obtain ⟨hreaches, hfirst⟩ := hitem hc ha
      obtain ⟨hreaches', hrest⟩ := ih (hc.reaches hreaches) has
      exact ⟨hreaches.trans hreaches', List.forall_mem_cons.2 ⟨hfirst, hrest⟩⟩
    · exact ⟨c.reaches_advance, List.forall_mem_nil _⟩

theorem untilMark_yields (close : Punct) {item : Parser α} {Q : α → Prop}
    (hitem : Yields tokens item fun a _ => Q a) :
    Yields tokens (untilMark close item) fun as _ => ∀ a ∈ as, Q a := by
  intro c as c' hc h
  simp only [untilMark, runs_bind, runs_bound] at h
  obtain ⟨n, c₁, ⟨rfl, rfl⟩, h⟩ := h
  exact itemsUntil_yields hitem _ hc h

/-- An item between commas stands in front of a comma, or of what stands behind all the items. -/
theorem itemsByComma_yields {close : Punct} {item : Parser α} {Q : α → Prop}
    (hitem : Yields tokens item fun a c =>
      c.head = .punct .comma ∨ c.head = .punct close → Q a) (rounds : Nat) :
    Yields tokens (itemsByComma item rounds) fun as c =>
      c.head = .punct close → ∀ a ∈ as, Q a := by
  unfold Yields at *
  induction rounds with
  | zero =>
    intro c as c' hc h
    simp [itemsByComma] at h
  | succ rounds ih =>
    intro c as c' hc h
    simp [itemsByComma] at h
    obtain ⟨a, c₁, ha, ⟨⟨-, rfl⟩, rfl⟩ | ⟨hcomma, as', has, rfl⟩⟩ := h
    · obtain ⟨hreaches, hlast⟩ := hitem hc ha
      exact ⟨hreaches, fun hclose => List.forall_mem_singleton.2 (hlast (.inr hclose))⟩
    · obtain ⟨hreaches, hfirst⟩ := hitem hc ha
      have hreaches := hreaches.trans c₁.reaches_advance
      obtain ⟨hreaches', hrest⟩ := ih (hc.reaches hreaches) has
      exact ⟨hreaches.trans hreaches',
        fun hclose => List.forall_mem_cons.2 ⟨hfirst (.inl hcomma), hrest hclose⟩⟩

theorem byComma_yields (close : Punct) {item : Parser α} {Q : α → Prop}
    (hitem : Yields tokens item fun a c =>
      c.head = .punct .comma ∨ c.head = .punct close → Q a) :
    Yields tokens (byComma item) fun as c => c.head = .punct close → ∀ a ∈ as, Q a := by
  intro c as c' hc h
  simp only [byComma, runs_bind, runs_bound] at h
  obtain ⟨n, c₁, ⟨rfl, rfl⟩, h⟩ := h
  exact itemsByComma_yields hitem _ hc h

/-- The items in parentheses are read from behind the opening one, and each stands in front of a
comma or of the closing one. -/
theorem inParens_yields {item : Parser α} {Q : α → Prop}
    (hitem : Yields tokens item fun a c =>
      c.head = .punct .comma ∨ c.head = .punct .closeParen → Q a) :
    Yields tokens (inParens item) fun as _ => ∀ a ∈ as, Q a := by
  have hitems := byComma_yields _ hitem
  unfold Yields at hitems ⊢
  intro c as c' hc h
  simp [inParens] at h
  obtain ⟨-, ⟨-, ⟨-, rfl⟩, rfl⟩ | ⟨-, c₁, has, hclose, rfl⟩⟩ := h
  · exact ⟨c.reaches_advance.trans c.advance.reaches_advance, List.forall_mem_nil _⟩
  · obtain ⟨hreaches, hread⟩ := hitems (hc.reaches c.reaches_advance) has
    have hreaches := c.reaches_advance.trans hreaches
    exact ⟨hreaches.trans c₁.reaches_advance, hread hclose⟩

/-! ## Tokens that are passed over -/

@[grind →]
theorem reaches_of_closePairs {opening closing : Punct} {rounds depth : Nat} {u : Unit}
    (h : Runs (closePairs opening closing rounds depth) c u c') : c.Reaches c' := by
  fun_induction closePairs opening closing rounds depth generalizing c with
  | case1 => simp at h; grind
  | case2 => simp at h
  | case3 rounds depth ih₁ ih₂ ih₃ =>
    simp at h
    grind

@[grind →]
theorem reaches_of_skipPair {opening closing : Punct} {u : Unit}
    (h : Runs (skipPair opening closing) c u c') : c.Reaches c' := by
  simp [skipPair] at h
  grind

@[grind →]
theorem reaches_of_skipTo {stop : TokenKind → Bool} {rounds : Nat} {u : Unit}
    (h : Runs (skipTo stop rounds) c u c') : c.Reaches c' := by
  induction rounds generalizing c with
  | zero => simp [skipTo] at h
  | succ rounds ih =>
    simp [skipTo] at h
    grind

@[grind →]
theorem reaches_of_identifier {i : Ident} (h : Runs identifier c i c') : c.Reaches c' := by
  rw [runs_identifier] at h
  grind

end

/-! ## Parsers that are tried -/

variable {α β : Type} {c c' : Cursor}

/-- However the parser ends, the identity of the next node is no smaller than before. -/
def Grows (p : Parser α) : Prop := ∀ c, c.fresh ≤ (p.outcome c).2.fresh

theorem Abandons.reaches {p : Parser α} (h : Abandons p c c') (hgrows : Grows p) :
    c.Reaches c' := by
  obtain ⟨e, c₁, hrun, -, rfl⟩ := h
  have hle := hgrows c
  rw [hrun] at hle
  exact Cursor.reaches_withFresh hle

namespace Grows

theorem bind {x : Parser α} {f : α → Parser β} (hx : Grows x) (hf : ∀ a, Grows (f a)) :
    Grows (x >>= f) := by
  intro c
  have hle := hx c
  rw [outcome_bind]
  cases hrun : x.outcome c with
  | mk r c₁ =>
    rw [hrun] at hle
    cases r with
    | error e => exact hle
    | ok a => exact Nat.le_trans hle (hf a c₁)

theorem map {x : Parser α} (f : α → β) (hx : Grows x) : Grows (f <$> x) := by
  intro c
  rw [outcome_map]
  exact hx c

theorem ite {p : Prop} [Decidable p] {x y : Parser α} (hx : Grows x) (hy : Grows y) :
    Grows (if p then x else y) := by
  split <;> assumption

theorem pure (a : α) : Grows (pure a) := fun c => Nat.le_refl c.fresh

theorem get : Grows get := fun c => Nat.le_refl c.fresh

theorem failExpecting (e : Expected) : Grows (failExpecting e : Parser α) :=
  fun c => Nat.le_refl c.fresh

theorem failTooDeep : Grows (failTooDeep : Parser α) := fun c => Nat.le_refl c.fresh

theorem advance : Grows advance := fun c => (Cursor.reaches_advance c).elim fun _ h => h.fresh

theorem peek : Grows peek := get.bind fun _ => pure _

theorem peekSecond : Grows peekSecond := get.bind fun _ => pure _

theorem position : Grows position := get.bind fun _ => pure _

theorem bound : Grows bound := get.bind fun _ => pure _

theorem atMark (p : Punct) : Grows (atMark p) := peek.bind fun _ => pure _

theorem takeMark (p : Punct) : Grows (takeMark p) :=
  (atMark p).bind fun _ => ite (advance.bind fun _ => pure _) (pure _)

theorem expectMark (p : Punct) : Grows (expectMark p) :=
  (takeMark p).bind fun _ => ite (pure _) (failExpecting _)

theorem identifier : Grows identifier := by
  refine get.bind fun c => ?_
  split
  · exact advance.bind fun _ => pure _
  · exact failExpecting _

theorem newNode (start : Nat) : Grows (newNode start) := by
  refine bind (fun c => Nat.le_succ c.fresh) fun _ => ?_
  exact (get.bind fun _ => pure _).bind fun _ => pure _

/-! ### Types -/

theorem byComma {item : Parser α} (hitem : Grows item) : Grows (byComma item) := by
  refine bound.bind fun rounds => ?_
  induction rounds with
  | zero => exact failTooDeep
  | succ rounds ih =>
    refine hitem.bind fun first => (takeMark _).bind fun more => ite ?_ (pure _)
    exact ih.bind fun _ => pure _

theorem nameSegments {typeArg : Parser TypeRef} (harg : Grows typeArg) (rounds : Nat) :
    Grows (nameSegments typeArg rounds) := by
  have hsegment : Grows (nameSegment typeArg) := by
    refine identifier.bind fun _ => (takeMark _).bind fun _ => ite ?_ (pure _)
    exact (byComma harg).bind fun _ => (expectMark _).bind fun _ => pure _
  have hdot : Grows atDottedWord :=
    peekSecond.bind fun _ => (atMark _).bind fun _ => pure _
  induction rounds with
  | zero => exact failTooDeep
  | succ rounds ih =>
    refine hsegment.bind fun _ => hdot.bind fun _ => ite ?_ (pure _)
    exact advance.bind fun _ => ih.bind fun _ => pure _

theorem typeSuffixes (place : TypePlace) (start rounds : Nat) (t : TypeRef) :
    Grows (typeSuffixes place start rounds t) := by
  have hnullable : Grows (nullableHere place) := by
    cases place with
    | declaration => exact pure _
    | expression => exact peekSecond.bind fun _ => pure _
  induction rounds generalizing t with
  | zero => exact failTooDeep
  | succ rounds ih =>
    have hmark (p : Punct) : Grows (Grammar.atMark p) := atMark p
    refine (atMark _).bind fun _ => peekSecond.bind fun _ => ?_
    refine ite ?_ ((atMark _).bind fun _ => hnullable.bind fun _ => ite ?_ (pure _))
    · exact advance.bind fun _ => advance.bind fun _ => (newNode _).bind fun _ => ih _
    · exact advance.bind fun _ => (newNode _).bind fun _ => ih _

theorem typeToDepth (depth : Nat) (place : TypePlace) : Grows (typeToDepth depth place) := by
  induction depth generalizing place with
  | zero => exact failTooDeep
  | succ depth ih =>
    refine position.bind fun start => peek.bind fun next => ?_
    split
    · split
      · exact advance.bind fun _ => (newNode _).bind fun _ => bound.bind fun _ =>
          typeSuffixes _ _ _ _
      · exact bound.bind fun _ => (nameSegments (ih _) _).bind fun _ => (newNode _).bind fun _ =>
          bound.bind fun _ => typeSuffixes _ _ _ _
    · exact failExpecting _

theorem type (place : TypePlace) : Grows (type place) := bound.bind fun _ => typeToDepth _ _

/-- A check in front of the rest of a parser. -/
theorem check {p : Prop} [Decidable p] {e : Expected} {rest : Parser α} (hrest : Grows rest) :
    Grows (if p then rest else Grammar.failExpecting e >>= fun _ : Unit => rest) :=
  hrest.ite ((failExpecting e).bind fun _ => hrest)

theorem castType : Grows castType := by
  have hparens : Grows typeInParens := (expectMark _).bind fun _ =>
    (type _).bind fun _ => (expectMark _).bind fun _ => pure _
  exact hparens.bind fun _ => peek.bind fun _ => check (pure _)

theorem localType : Grows localType :=
  peek.bind fun _ => check <| (type _).bind fun _ => peekSecond.bind fun _ => peek.bind fun _ =>
    check (pure _)

end Grows

end PropertyLint.Grammar
