/-
# Where parsers fail

Every loop and every nesting of the parser recurses on a bound.  A run that uses its bound up would
say nothing about the text, so it is shown that no run does: a parser that is given a greater bound
than there are tokens left either succeeds or meets a token that it does not look for.

* `Fails` : the counterpart of `Runs`, taken apart step by step in the same way;
* `Cursor.Refuses` : the error names the next token at some place behind the cursor;
* `EndsBelow n p` : with less than `n` tokens left, the parser fails only by refusing a token;
  `Ends p` says so for any number of tokens.

A loop ends because each of its rounds reads a token, and a nested form because a token has been
read in front of it; this is what the lengths in the proofs are for.
-/
import PropertyLint.Proofs.Syntax.ExprReading

namespace PropertyLint.Grammar

variable {α β : Type} {c c' : Cursor} {e : SyntaxError} {n : Nat}

/-! ## Failing steps -/

/-- The error that the next token is not what is looked for. -/
def Cursor.refusal (c : Cursor) (expected : Expected) : SyntaxError :=
  ⟨.unexpectedToken expected c.head, c.position⟩

/-- The parser fails from the cursor. -/
def Fails (p : Parser α) (c : Cursor) (e : SyntaxError) : Prop := (p.outcome c).1 = .error e

@[simp] theorem fails_bind {x : Parser α} {f : α → Parser β} :
    Fails (x >>= f) c e ↔ Fails x c e ∨ ∃ a c', Runs x c a c' ∧ Fails (f a) c' e := by
  unfold Fails Runs
  rw [outcome_bind]
  rcases x.outcome c with ⟨e | a, c₁⟩ <;> simp

@[simp] theorem fails_pure {a : α} : Fails (pure a) c e ↔ False := by
  simp [Fails, outcome_pure]

@[simp] theorem fails_map {x : Parser α} {f : α → β} : Fails (f <$> x) c e ↔ Fails x c e := by
  unfold Fails
  rw [outcome_map]
  rcases x.outcome c with ⟨e | a, c₁⟩ <;> simp [Except.map]

@[simp] theorem fails_discard {x : Parser α} : Fails (discard x) c e ↔ Fails x c e := by
  show Fails ((fun _ => ()) <$> x) c e ↔ _
  simp

@[simp] theorem fails_ite {p : Prop} [Decidable p] {x y : Parser α} :
    Fails (if p then x else y) c e ↔ (p ∧ Fails x c e) ∨ (¬ p ∧ Fails y c e) := by
  by_cases h : p <;> simp [h]

@[simp] theorem fails_get : Fails get c e ↔ False := by
  simp [Fails, outcome_get]

@[simp] theorem fails_peek : Fails peek c e ↔ False := by simp [peek]

@[simp] theorem fails_peekSecond : Fails peekSecond c e ↔ False := by simp [peekSecond]

@[simp] theorem fails_position : Fails position c e ↔ False := by simp [position]

@[simp] theorem fails_bound : Fails bound c e ↔ False := by simp [bound]

@[simp] theorem fails_advance : Fails advance c e ↔ False := by
  simp [Fails, outcome_advance]

@[simp] theorem fails_failExpecting {expected : Expected} :
    Fails (failExpecting expected : Parser α) c e ↔ c.refusal expected = e := by
  simp [Fails, outcome_failExpecting, Cursor.refusal]

@[simp] theorem fails_failTooDeep :
    Fails (failTooDeep : Parser α) c e ↔ ⟨.tooDeep, c.position⟩ = e := by
  simp [Fails, outcome_failTooDeep]

@[simp] theorem fails_atMark {p : Punct} : Fails (atMark p) c e ↔ False := by simp [atMark]

@[simp] theorem fails_atWord {w : String} : Fails (atWord w) c e ↔ False := by simp [atWord]

@[simp] theorem fails_atAnyWord {ws : List String} : Fails (atAnyWord ws) c e ↔ False := by
  simp [atAnyWord]

@[simp] theorem fails_takeMark {p : Punct} : Fails (takeMark p) c e ↔ False := by
  simp [takeMark]

@[simp] theorem fails_takeWord {w : String} : Fails (takeWord w) c e ↔ False := by
  simp [takeWord]

@[simp] theorem fails_expectMark {p : Punct} :
    Fails (expectMark p) c e ↔ c.head ≠ .punct p ∧ c.refusal (.mark p) = e := by
  simp [expectMark]

@[simp] theorem fails_rangeFrom {start : Nat} : Fails (rangeFrom start) c e ↔ False := by
  simp [rangeFrom]

@[simp] theorem fails_freshId : Fails freshId c e ↔ False := by
  simp [Fails, outcome_freshId]

@[simp] theorem fails_newNode {start : Nat} : Fails (newNode start) c e ↔ False := by
  simp [newNode]

@[simp] theorem fails_attempt {p : Parser α} :
    Fails (attempt p) c e ↔ Fails p c e ∧ e.cause = .tooDeep := by
  unfold Fails
  rw [outcome_attempt]
  rcases p.outcome c with ⟨e' | a, c₁⟩
  · by_cases he : e'.cause = .tooDeep
    · simp only [he, if_true, Except.error.injEq, iff_self_and]
      rintro rfl
      exact he
    · simp only [he, if_false, reduceCtorEq, Except.error.injEq, false_iff, not_and]
      rintro rfl
      exact he
  · simp

/-! ## Refused tokens -/

/-- The error is about the next token of a cursor that can be reached. -/
def Cursor.Refuses (c : Cursor) (e : SyntaxError) : Prop :=
  ∃ c' expected, c.Reaches c' ∧ c'.refusal expected = e

@[grind →]
theorem Cursor.Refuses.reached (h : c'.Refuses e) (h' : c.Reaches c') : c.Refuses e := by
  obtain ⟨d, expected, hreaches, rfl⟩ := h
  exact ⟨d, expected, h'.trans hreaches, rfl⟩

@[grind! .]
theorem Cursor.refuses_refusal (c : Cursor) (expected : Expected) :
    c.Refuses (c.refusal expected) := ⟨c, expected, .refl c, rfl⟩

/-- A bound that is used up is no refused token. -/
theorem Cursor.Refuses.cause_ne (h : c.Refuses e) : e.cause ≠ .tooDeep := by
  obtain ⟨d, expected, -, rfl⟩ := h
  simp [Cursor.refusal]

/-- With less than `n` tokens left the parser fails only by refusing a token. -/
def EndsBelow (n : Nat) (p : Parser α) : Prop :=
  ∀ ⦃c e⦄, Fails p c e → c.tokens.length < n → c.Refuses e

theorem EndsBelow.mono {m : Nat} {p : Parser α} (h : EndsBelow n p) (hm : m ≤ n) :
    EndsBelow m p :=
  fun _ _ hfails hlength => h hfails (Nat.lt_of_lt_of_le hlength hm)

/-- The parser fails only by refusing a token. -/
def Ends (p : Parser α) : Prop := ∀ ⦃c e⦄, Fails p c e → c.Refuses e

theorem Ends.below {p : Parser α} (h : Ends p) (n : Nat) : EndsBelow n p :=
  fun _ _ hfails _ => h hfails

theorem Ends.of_below {p : Parser α} (h : ∀ n, EndsBelow n p) : Ends p :=
  fun c _ hfails => h (c.tokens.length + 1) hfails (Nat.lt_succ_self _)

/-- The parser only moves on. -/
def Moves (p : Parser α) : Prop := ∀ ⦃c a c'⦄, Runs p c a c' → c.Reaches c'

/-- The parser moves on by a token or more. -/
def Consumes (p : Parser α) : Prop :=
  ∀ ⦃c a c'⦄, Runs p c a c' → c.Reaches c' ∧ c'.tokens.length < c.tokens.length

theorem Consumes.moves {p : Parser α} (h : Consumes p) : Moves p := fun _ _ _ hrun => (h hrun).1

/-- Every cursor is at some place among some tokens. -/
theorem exists_within (c : Cursor) : ∃ tokens, Within tokens c :=
  ⟨⟨.endOfText, ⟨0, c.last⟩, none⟩ :: c.tokens, [⟨.endOfText, ⟨0, c.last⟩, none⟩], rfl, rfl⟩

/-- What is known of a parser's runs over a text says how it moves from any cursor. -/
theorem Moves.of_yields {p : Parser α} {Q : List Token → α → Cursor → Prop}
    (h : ∀ tokens, Yields tokens p (Q tokens)) : Moves p := by
  intro c a c' hrun
  obtain ⟨tokens, hin⟩ := exists_within c
  exact (h tokens hin hrun).1

theorem Consumes.of_reads {p : Parser Expr} (h : ∀ tokens, ReadsExpr tokens p) : Consumes p := by
  intro c e c' hrun
  obtain ⟨tokens, hin⟩ := exists_within c
  obtain ⟨hreaches, hlength, -⟩ := (h tokens).reads hin hrun
  exact ⟨hreaches, hlength⟩

/-! ## Identifiers -/

@[grind →]
theorem lt_of_identifier {i : Ident} (h : Runs identifier c i c') :
    c'.tokens.length < c.tokens.length := by
  obtain ⟨t, -, -, hread⟩ := exists_reads_identifier h
  simp [hread.tokens]

@[grind →]
theorem refuses_of_identifier (h : Fails identifier c e) : c.Refuses e := by
  unfold identifier at h
  cases htokens : c.tokens with
  | nil =>
    simp [htokens] at h
    grind
  | cons t rest =>
    obtain ⟨kind, range, doc⟩ := t
    cases kind with
    | word text => simp [htokens] at h
    | _ =>
      simp [htokens] at h
      grind

/-! ## Loops -/

section
variable {item : Parser α}

/-- A loop up to a mark ends because every item reads a token. -/
theorem itemsUntil_ends {close : Punct} (hitem : EndsBelow n item) (hconsumes : Consumes item)
    {rounds : Nat} (h : Fails (itemsUntil close item rounds) c e) (hlength : c.tokens.length < n)
    (hrounds : c.tokens.length < rounds) : c.Refuses e := by
  induction rounds generalizing c with
  | zero => omega
  | succ rounds ih =>
    simp [itemsUntil] at h
    obtain ⟨-, ⟨-, rfl⟩ | ⟨-, h | ⟨a, c₁, ha, h⟩⟩⟩ := h
    · exact c.refuses_refusal _
    · exact hitem h hlength
    · obtain ⟨hreaches, hlt⟩ := hconsumes ha
      exact (ih h (by omega) (by omega)).reached hreaches

theorem untilMark_ends (close : Punct) (hitem : EndsBelow n item) (hconsumes : Consumes item) :
    EndsBelow n (untilMark close item) := by
  intro c e h hlength
  simp [untilMark] at h
  exact itemsUntil_ends hitem hconsumes h hlength (Nat.lt_succ_self _)

theorem untilMark_moves (close : Punct) (hmoves : Moves item) : Moves (untilMark close item) :=
  .of_yields fun _ => untilMark_yields close (Q := fun _ => True)
    fun _ _ _ _ hrun => ⟨hmoves hrun, trivial⟩

/-- A loop over commas ends because every round but the last one reads a comma. -/
theorem itemsByComma_ends (hitem : EndsBelow n item) (hmoves : Moves item)
    {rounds : Nat} (h : Fails (itemsByComma item rounds) c e) (hlength : c.tokens.length < n)
    (hrounds : c.tokens.length < rounds) : c.Refuses e := by
  induction rounds generalizing c with
  | zero => omega
  | succ rounds ih =>
    simp [itemsByComma] at h
    obtain h | ⟨a, c₁, ha, hcomma, h⟩ := h
    · exact hitem h hlength
    · have hreaches := hmoves ha
      have hle := hreaches.length_le
      have hlt := Cursor.length_advance_of_punct hcomma
      exact (ih h (by omega) (by omega)).reached (hreaches.trans c₁.reaches_advance)

theorem byComma_ends (hitem : EndsBelow n item) (hmoves : Moves item) :
    EndsBelow n (byComma item) := by
  intro c e h hlength
  simp [byComma] at h
  exact itemsByComma_ends hitem hmoves h hlength (Nat.lt_succ_self _)

theorem byComma_moves (hmoves : Moves item) : Moves (byComma item) :=
  .of_yields fun _ => byComma_yields .comma (Q := fun _ => True)
    fun _ _ _ _ hrun => ⟨hmoves hrun, fun _ => trivial⟩

/-- Behind the opening parenthesis there is one token less. -/
theorem inParens_ends (hitem : EndsBelow n item) (hmoves : Moves item) :
    EndsBelow (n + 1) (inParens item) := by
  have hends := byComma_ends hitem hmoves
  have hmoves := byComma_moves hmoves
  unfold EndsBelow Moves at *
  intro c e h hlength
  simp [inParens] at h
  grind

theorem inParens_consumes (hmoves : Moves item) : Consumes (inParens item) := by
  have hmoves := byComma_moves hmoves
  unfold Consumes Moves at *
  intro c as c' h
  simp [inParens] at h
  grind

end

@[grind →]
theorem refuses_of_closePairs {opening closing : Punct} {rounds depth : Nat}
    (h : Fails (closePairs opening closing rounds depth) c e) (hrounds : c.tokens.length < rounds) :
    c.Refuses e := by
  fun_induction closePairs opening closing rounds depth generalizing c with
  | case1 => simp at h
  | case2 => omega
  | case3 rounds depth ih₁ ih₂ ih₃ =>
    simp at h
    have := c.length_advance_lt
    grind

@[grind →]
theorem refuses_of_skipPair {opening closing : Punct}
    (h : Fails (skipPair opening closing) c e) : c.Refuses e := by
  simp [skipPair] at h
  grind

@[grind →]
theorem refuses_of_skipTo {stop : TokenKind → Bool} {rounds : Nat}
    (h : Fails (skipTo stop rounds) c e) (hrounds : c.tokens.length < rounds) : c.Refuses e := by
  induction rounds generalizing c with
  | zero => omega
  | succ rounds ih =>
    simp [skipTo] at h
    have := c.length_advance_lt
    grind

/-! ## Types -/

theorem type_moves (place : TypePlace) : Moves (type place) := fun _ _ _ => reaches_of_type

@[grind →]
theorem lt_of_type {place : TypePlace} {t : TypeRef} (h : Runs (type place) c t c') :
    c'.tokens.length < c.tokens.length := by
  obtain ⟨⟨read, hread, hrun⟩, -⟩ := type_reads h
  -- without a token there is no type
  cases read with
  | nil => simp [TypeState.start, TypeState.done] at hrun
  | cons t read =>
    simp only [hread.tokens, List.length_append, List.length_cons]
    omega

theorem typeToDepth_moves (depth : Nat) (place : TypePlace) : Moves (typeToDepth depth place) := by
  intro c t c' h
  obtain ⟨read, hread, -⟩ := (typeToDepth_reads depth place).spells h
  exact ⟨read, hread⟩

@[simp] theorem fails_nullableHere {place : TypePlace} : Fails (nullableHere place) c e ↔ False := by
  cases place <;> simp [nullableHere]

@[simp] theorem fails_atDottedWord : Fails atDottedWord c e ↔ False := by simp [atDottedWord]

@[grind →]
theorem refuses_of_typeSuffixes {place : TypePlace} {start rounds : Nat} {t : TypeRef}
    (h : Fails (typeSuffixes place start rounds t) c e) (hrounds : c.tokens.length < rounds) :
    c.Refuses e := by
  induction rounds generalizing c t with
  | zero => omega
  | succ rounds ih =>
    simp [typeSuffixes] at h
    grind

section
variable {typeArg : Parser TypeRef} (harg : EndsBelow n typeArg) (hmoves : Moves typeArg)
include harg hmoves

/-- Type arguments stand behind a name. -/
theorem nameSegment_ends : EndsBelow (n + 1) (nameSegment typeArg) := by
  have hends := byComma_ends harg hmoves
  have hmoves := byComma_moves hmoves
  unfold EndsBelow Moves at *
  intro c e h hlength
  simp [nameSegment] at h
  grind

omit harg in
theorem nameSegment_consumes : Consumes (nameSegment typeArg) := by
  have hmoves := byComma_moves hmoves
  unfold Consumes Moves at *
  intro c s c' h
  simp [nameSegment] at h
  grind

theorem nameSegments_ends {rounds : Nat} (h : Fails (nameSegments typeArg rounds) c e)
    (hlength : c.tokens.length < n + 1) (hrounds : c.tokens.length < rounds) : c.Refuses e := by
  induction rounds generalizing c with
  | zero => omega
  | succ rounds ih =>
    simp [nameSegments, atDottedWord] at h
    obtain h | ⟨segment, c₁, hsegment, -, h⟩ := h
    · exact nameSegment_ends harg hmoves h hlength
    · obtain ⟨hreaches, hlt⟩ := nameSegment_consumes hmoves hsegment
      have hle := c₁.reaches_advance.length_le
      exact (ih h (by omega) (by omega)).reached (hreaches.trans c₁.reaches_advance)

omit harg in
theorem nameSegments_moves (rounds : Nat) : Moves (nameSegments typeArg rounds) := by
  have hconsumes := nameSegment_consumes hmoves
  unfold Consumes Moves at *
  induction rounds with
  | zero =>
    intro c ss c' h
    simp [nameSegments] at h
  | succ rounds ih =>
    intro c ss c' h
    simp [nameSegments, atDottedWord] at h
    grind

theorem typeWith_ends (place : TypePlace) : EndsBelow (n + 1) (typeWith typeArg place) := by
  have hends {c : Cursor} {rounds : Nat} {e : SyntaxError}
      (h : Fails (nameSegments typeArg rounds) c e) :=
    nameSegments_ends harg hmoves h
  have hmoves := nameSegments_moves hmoves
  unfold Moves at *
  intro c e h hlength
  cases hhead : c.head with
  | word w =>
    cases hkeyword : KeywordType.ofKeyword? w with
    | some k =>
      simp [typeWith, hhead, hkeyword] at h
      grind
    | none =>
      simp [typeWith, hhead, hkeyword] at h
      grind
  | _ =>
    simp [typeWith, hhead] at h
    grind

end

theorem typeToDepth_ends (depth : Nat) (place : TypePlace) :
    EndsBelow depth (typeToDepth depth place) := by
  induction depth generalizing place with
  | zero =>
    intro c e _ hlength
    omega
  | succ depth ih =>
    exact typeWith_ends (ih .declaration) (typeToDepth_moves depth .declaration) place

@[grind →]
theorem refuses_of_type {place : TypePlace} (h : Fails (type place) c e) : c.Refuses e := by
  simp [type] at h
  exact typeToDepth_ends _ place h (Nat.lt_succ_self _)

/-! ## Arguments -/

@[grind →]
theorem refuses_of_argumentName {inAttribute : Bool}
    (h : Fails (argumentName inAttribute) c e) : c.Refuses e := by
  simp [argumentName] at h
  grind

section
variable {expression : Parser Expr}

theorem argument_ends (hends : EndsBelow n expression) (inAttribute : Bool) :
    EndsBelow n (argument expression inAttribute) := by
  unfold EndsBelow at *
  intro c e h hlength
  simp [argument] at h
  grind

theorem argument_moves (hmoves : Moves expression) (inAttribute : Bool) :
    Moves (argument expression inAttribute) := by
  unfold Moves at *
  intro c a c' h
  simp [argument] at h
  grind

theorem argumentList_ends (hends : EndsBelow n expression) (hmoves : Moves expression)
    (inAttribute : Bool) : EndsBelow (n + 1) (argumentList expression inAttribute) := by
  have hends := inParens_ends (argument_ends hends inAttribute) (argument_moves hmoves inAttribute)
  unfold EndsBelow at *
  intro c e h hlength
  simp [argumentList] at h
  grind

theorem argumentList_consumes (hmoves : Moves expression) (inAttribute : Bool) :
    Consumes (argumentList expression inAttribute) := by
  have hconsumes := inParens_consumes (argument_moves hmoves inAttribute)
  unfold Consumes at *
  intro c list c' h
  simp [argumentList] at h
  grind

/-! ## Words, literals and postfix forms -/

theorem creation_ends (hends : EndsBelow n expression) (hmoves : Moves expression) (start : Nat) :
    EndsBelow n (creation expression start) := by
  have hargs := argumentList_ends hends hmoves false
  have hargs' := argumentList_consumes hmoves false
  unfold EndsBelow Moves Consumes at *
  intro c e h hlength
  simp [creation] at h
  obtain h | ⟨created, c₁, htype, h⟩ := h
  · exact refuses_of_type h
  cases created
  all_goals simp at h
  all_goals grind

@[grind →]
theorem refuses_of_typeInParens (h : Fails typeInParens c e) : c.Refuses e := by
  simp [typeInParens] at h
  grind

/-- The word itself is read in front of everything else. -/
theorem wordExpression_ends (hends : EndsBelow n expression) (hmoves : Moves expression)
    {word : String} {range : OffsetRange} (h : Fails (wordExpression expression word range) c e)
    (hhead : c.head = .word word) (hlength : c.tokens.length < n + 1) : c.Refuses e := by
  have hcreation := creation_ends hends hmoves range.start
  unfold EndsBelow Moves at *
  simp [wordExpression] at h
  split at h
  all_goals try simp at h
  all_goals grind

theorem primary_ends (hends : EndsBelow n expression) (hmoves : Moves expression) :
    EndsBelow (n + 1) (primary expression) := by
  have hword {c : Cursor} {e : SyntaxError} {word : String} {range : OffsetRange}
      (h : Fails (wordExpression expression word range) c e) :=
    wordExpression_ends hends hmoves h
  unfold EndsBelow Moves at *
  intro c e h hlength
  cases htokens : c.tokens with
  | nil =>
    simp [primary, htokens] at h
    grind
  | cons t rest =>
    obtain ⟨kind, range, doc⟩ := t
    have hhead : c.head = kind := by rw [Cursor.head, htokens]
    cases kind with
    | word w =>
      simp [primary, htokens] at h
      exact hword h hhead hlength
    | punct p =>
      by_cases hp : p = .openParen
      · subst hp
        simp [primary, htokens] at h
        grind
      · simp [primary, htokens, hp] at h
        grind
    | endOfText =>
      simp [primary, htokens] at h
      grind
    | _ => simp [primary, htokens] at h

theorem postfixes_ends (hends : EndsBelow n expression) (hmoves : Moves expression)
    {start rounds : Nat} {target : Expr} (h : Fails (postfixes expression start rounds target) c e)
    (hlength : c.tokens.length < n + 1) (hrounds : c.tokens.length < rounds) : c.Refuses e := by
  induction rounds generalizing c target with
  | zero => omega
  | succ rounds ih =>
    simp [postfixes] at h
    obtain ⟨-, -, h | ⟨args, c₁, hargs, h⟩⟩ | ⟨hdot, h | ⟨name, c₁, hname, h⟩⟩ := h
    · exact argumentList_ends hends hmoves false h hlength
    · obtain ⟨hreaches, hlt⟩ := argumentList_consumes hmoves false hargs
      refine (ih h ?_ ?_).reached (hreaches.trans c₁.reaches_renew) <;>
        rw [Cursor.renew_tokens] <;> omega
    · grind
    · grind

theorem postfixed_ends (hends : EndsBelow n expression)
    (hreads : ∀ tokens, ReadsExpr tokens expression) (hdepth : ReadsToDepth expression) :
    EndsBelow (n + 1) (postfixed expression) := by
  have hmoves := (Consumes.of_reads hreads).moves
  have hprimary := primary_ends hends hmoves
  have hprimary' := Consumes.of_reads fun tokens => primary_reads (hreads tokens) hdepth
  have hpostfixes {c : Cursor} {e : SyntaxError} {start rounds : Nat} {target : Expr}
      (h : Fails (postfixes expression start rounds target) c e) :=
    postfixes_ends hends hmoves h
  unfold EndsBelow Consumes at *
  intro c e h hlength
  simp [postfixed] at h
  grind

end

/-! ## Operators -/

@[grind →]
theorem refuses_of_castType (h : Fails castType c e) : c.Refuses e := by
  simp [castType] at h
  grind

@[grind →]
theorem lt_of_castType {t : TypeRef} (h : Runs castType c t c') :
    c'.tokens.length < c.tokens.length := by
  simp [castType, typeInParens] at h
  grind

@[simp] theorem fails_unaryOp : Fails unaryOp c e ↔ False := by simp [unaryOp]

/-- An operand stands behind an operator or a cast. -/
theorem unaryWith_ends {unary expression : Parser Expr} (hunary : EndsBelow n unary)
    (hends : EndsBelow n expression) (hreads : ∀ tokens, ReadsExpr tokens expression)
    (hdepth : ReadsToDepth expression) : EndsBelow (n + 1) (unaryWith unary expression) := by
  have hpostfixed := postfixed_ends hends hreads hdepth
  unfold EndsBelow at *
  intro c e h hlength
  simp [unaryWith] at h
  obtain ⟨op, c₁, hop, h⟩ := h
  simp [unaryOp] at hop
  obtain ⟨-, ⟨⟨-, rfl⟩, rfl⟩ | ⟨⟨hminus, rfl⟩, rfl⟩⟩ | ⟨⟨hbang, rfl⟩, rfl⟩ := hop
  all_goals simp at h
  · obtain ⟨-, ⟨h, -⟩ | ⟨cast, c₁, ⟨t, hcast, rfl⟩ | ⟨hno, rfl⟩, h⟩⟩ | ⟨-, h⟩ := h
    · exact refuses_of_castType h
    · simp at h
      grind
    · have hreaches := hno.reaches .castType
      exact (hpostfixed h (by have := hreaches.length_le; omega)).reached hreaches
    · exact hpostfixed h hlength
  · grind
  · grind

@[grind →]
theorem refuses_of_isPattern {start : Nat} {left : Expr} (h : Fails (isPattern start left) c e) :
    c.Refuses e := by
  simp [isPattern] at h
  grind

theorem isPattern_moves (start : Nat) (left : Expr) : Moves (isPattern start left) := by
  intro c e c' h
  simp [isPattern] at h
  grind

/-- Every operator is a mark. -/
theorem head_of_op? {level : BinaryLevel} {op : BinaryOp} {k : TokenKind}
    (h : level.op? k = some op) : ∃ p, k = .punct p := by
  unfold BinaryLevel.op? at h
  obtain ⟨⟨p, op'⟩, hfind, -⟩ := Option.map_eq_some_iff.1 h
  exact ⟨p, by simpa using List.find?_some hfind⟩

section
variable {unary operand : Parser Expr} {level : BinaryLevel}

/-- Every round reads an operator. -/
theorem binaryRest_ends (hends : EndsBelow n operand) (hmoves : Moves operand)
    {start rounds : Nat} {left : Expr} (h : Fails (binaryRest operand level start rounds left) c e)
    (hlength : c.tokens.length < n) (hrounds : c.tokens.length < rounds) : c.Refuses e := by
  have hpattern := isPattern_moves
  unfold EndsBelow Moves at *
  induction rounds generalizing c left with
  | zero => omega
  | succ rounds ih =>
    cases hop : level.op? c.head with
    | some op =>
      obtain ⟨p, hp⟩ := head_of_op? hop
      simp [binaryRest, hop] at h
      -- a test is no mark, so the operator is one of the level
      obtain ⟨⟨-, hword⟩, -⟩ | ⟨-, ⟨⟨-, hword⟩, -⟩ | ⟨-, h⟩⟩ := h
      · simp [hp] at hword
      · simp [hp] at hword
      · grind
    | none =>
      simp [binaryRest, hop] at h
      grind

theorem binary_ends (hends : EndsBelow n unary) (hreads : ∀ tokens, ReadsExpr tokens unary)
    (levels : List BinaryLevel) : EndsBelow n (binary unary levels) := by
  induction levels with
  | nil => exact hends
  | cons level tighter ih =>
    have hconsumes := Consumes.of_reads fun tokens => binary_reads (hreads tokens) tighter
    have hrest {c : Cursor} {e : SyntaxError} {start rounds : Nat} {left : Expr}
        (h : Fails (binaryRest (binary unary tighter) level start rounds left) c e) :=
      binaryRest_ends ih hconsumes.moves h
    unfold EndsBelow Consumes at *
    intro c e h hlength
    simp [binary] at h
    grind

end

/-! ## Expressions -/

section
variable {m : Nat} {expression coalesce unary : Parser Expr}

/-- The right operand stands behind the left one. -/
theorem coalesceWith_ends (hcoalesce : EndsBelow m coalesce) (hunary : EndsBelow n unary)
    (hreads : ∀ tokens, ReadsExpr tokens unary) (hn : n ≤ m + 1) :
    EndsBelow n (coalesceWith coalesce unary) := by
  have hbinary := binary_ends hunary hreads binaryLevels
  have hconsumes := Consumes.of_reads fun tokens => binary_reads (hreads tokens) binaryLevels
  intro c e h hlength
  simp [coalesceWith] at h
  obtain h | ⟨left, c₁, hleft, hmark, h⟩ := h
  · exact hbinary h hlength
  · obtain ⟨hreaches, hlt⟩ := hconsumes hleft
    have hlt' := Cursor.length_advance_of_punct hmark
    exact (hcoalesce h (by omega)).reached (hreaches.trans c₁.reaches_advance)

theorem conditionalWith_ends (hexpr : EndsBelow m expression) (hcoalesce : EndsBelow n coalesce)
    (hmoves : Moves expression) (hconsumes : Consumes coalesce) (hn : n ≤ m + 1) :
    EndsBelow n (conditionalWith expression coalesce) := by
  intro c e h hlength
  simp [conditionalWith] at h
  obtain h | ⟨condition, c₁, hcondition, hquestion, h⟩ := h
  · exact hcoalesce h hlength
  -- both values stand behind the condition and the question mark
  obtain ⟨hreaches, hlt⟩ := hconsumes hcondition
  have hlt' := Cursor.length_advance_of_punct hquestion
  refine .reached ?_ (hreaches.trans c₁.reaches_advance)
  obtain h | ⟨whenTrue, c₂, htrue, ⟨-, rfl⟩ | ⟨-, h⟩⟩ := h
  · exact hexpr h (by omega)
  · exact (c₂.refuses_refusal _).reached (hmoves htrue)
  · have hreaches' := (hmoves htrue).trans c₂.reaches_advance
    have hle := hreaches'.length_le
    exact (hexpr h (by omega)).reached hreaches'

theorem conditionalWith_consumes (hmoves : Moves expression) (hconsumes : Consumes coalesce) :
    Consumes (conditionalWith expression coalesce) := by
  unfold Moves Consumes at *
  intro c e c' h
  simp [conditionalWith] at h
  grind

theorem assignmentWith_ends (hexpr : EndsBelow m expression) (hcoalesce : EndsBelow n coalesce)
    (hmoves : Moves expression) (hconsumes : Consumes coalesce) (hn : n ≤ m + 1) :
    EndsBelow n (assignmentWith expression coalesce) := by
  intro c e h hlength
  simp [assignmentWith] at h
  obtain h | ⟨target, c₁, htarget, hmark, h⟩ := h
  · exact conditionalWith_ends hexpr hcoalesce hmoves hconsumes hn h hlength
  · obtain ⟨hreaches, hlt⟩ := conditionalWith_consumes hmoves hconsumes htarget
    have hlt' := Cursor.length_advance_of_punct hmark
    exact (hexpr h (by omega)).reached (hreaches.trans c₁.reaches_advance)

end

/-- Three levels are entered before a token is read. -/
theorem toDepth_ends (depth : Nat) :
    EndsBelow (depth / 3) (expressionToDepth depth) ∧
      EndsBelow ((depth + 1) / 3) (coalesceToDepth depth) ∧
      EndsBelow ((depth + 2) / 3) (unaryToDepth depth) := by
  induction depth with
  | zero => refine ⟨?_, ?_, ?_⟩ <;> intro c e _ hlength <;> omega
  | succ depth ih =>
    obtain ⟨hexpr, hcoalesce, hunary⟩ := ih
    have hreads tokens := @toDepth_reads tokens depth
    have hexpr' := Consumes.of_reads fun tokens => (hreads tokens).1
    have hcoalesce' := Consumes.of_reads fun tokens => (hreads tokens).2.1
    refine ⟨?_, ?_, ?_⟩
    · exact assignmentWith_ends hexpr hcoalesce hexpr'.moves hcoalesce' (by omega)
    · exact coalesceWith_ends hcoalesce hunary (fun tokens => (hreads tokens).2.2) (by omega)
    · rw [show (depth + 1 + 2) / 3 = depth / 3 + 1 by omega]
      exact unaryWith_ends (hunary.mono (by omega)) hexpr (fun tokens => (hreads tokens).1)
        fun c e c' h => ⟨depth, h⟩

theorem expression_consumes : Consumes expression := .of_reads fun _ => expression_reads

@[grind →]
theorem reaches_of_expression {x : Expr} (h : Runs expression c x c') : c.Reaches c' :=
  (expression_consumes h).1

@[grind →]
theorem lt_of_expression {x : Expr} (h : Runs expression c x c') :
    c'.tokens.length < c.tokens.length :=
  (expression_consumes h).2

@[grind →]
theorem refuses_of_expression (h : Fails expression c e) : c.Refuses e := by
  simp [expression] at h
  exact (toDepth_ends _).1 h (by omega)

@[grind →]
theorem refuses_of_argumentList {inAttribute : Bool}
    (h : Fails (argumentList expression inAttribute) c e) : c.Refuses e := by
  have hends n := argumentList_ends (Ends.below (fun _ _ => refuses_of_expression) n)
    expression_consumes.moves inAttribute
  exact Ends.of_below (fun n => (hends n).mono (Nat.le_succ n)) h

@[grind →]
theorem reaches_of_argumentList {inAttribute : Bool} {list : ArgumentList Expr}
    (h : Runs (argumentList expression inAttribute) c list c') : c.Reaches c' :=
  (argumentList_consumes expression_consumes.moves inAttribute h).1

end PropertyLint.Grammar
