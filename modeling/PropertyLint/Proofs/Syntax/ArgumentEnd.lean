/-
# Where an argument ends

An argument of the form `nameof(M)`, `typeof(T)` or of a plain string, in front of a comma or a
closing parenthesis, is the whole expression (`tokens_of_argument`).
-/
import PropertyLint.Proofs.Syntax.ExprReading

namespace PropertyLint.Grammar

variable {α : Type} {c c' : Cursor} {ts : List Token}

/-- A comma or a closing parenthesis comes next. -/
def EndsArgument (ts : List Token) : Prop :=
  ∃ t rest, ts = t :: rest ∧ (t.kind = .punct .comma ∨ t.kind = .punct .closeParen)

/-- Every successful run from the cursor stops in front of the tokens. -/
def StopsBefore (p : Parser α) (c : Cursor) (ts : List Token) : Prop :=
  ∀ ⦃a c'⦄, Runs p c a c' → c'.tokens = ts

theorem head_of_tokens {t : Token} (h : c.tokens = t :: ts) : c.head = t.kind := by
  rw [Cursor.head, h]

theorem advance_tokens {t : Token} (h : c.tokens = t :: ts) : c.advance.tokens = ts := by
  rw [Cursor.advance, h]

theorem EndsArgument.head (hts : EndsArgument ts) (h : c.tokens = ts) :
    c.head = .punct .comma ∨ c.head = .punct .closeParen := by
  obtain ⟨t, rest, rfl, ht⟩ := hts
  rwa [head_of_tokens h]

theorem EndsArgument.head_ne (hts : EndsArgument ts) (h : c.tokens = ts) {p : Punct}
    (hp : p ≠ .comma ∧ p ≠ .closeParen) : c.head ≠ .punct p := by
  rcases hts.head h with hhead | hhead <;> rw [hhead] <;> simp [hp.1.symm, hp.2.symm]

theorem endsArgument_of_head (h : c.head = .punct .comma ∨ c.head = .punct .closeParen) :
    EndsArgument c.tokens := by
  cases htokens : c.tokens with
  | nil => simp [Cursor.head, htokens] at h
  | cons t rest =>
    rw [head_of_tokens htokens] at h
    exact ⟨t, rest, rfl, h⟩

/-! ## Operators -/

theorem op?_eq_none : ∀ level ∈ binaryLevels,
    level.op? (.punct .comma) = none ∧ level.op? (.punct .closeParen) = none := by
  decide

section
variable (hts : EndsArgument ts)
include hts

theorem postfixes_stop {expression : Parser Expr} {start rounds : Nat} {target : Expr}
    (h : c.tokens = ts) : StopsBefore (postfixes expression start rounds target) c ts := by
  intro e c' hrun
  cases rounds with
  | zero => simp [postfixes] at hrun
  | succ rounds =>
    have hdot := hts.head_ne h (p := .dot) (by decide)
    have hopen := hts.head_ne h (p := .openParen) (by decide)
    simp [postfixes, hdot, hopen] at hrun
    obtain ⟨-, rfl⟩ := hrun
    exact h

theorem binaryRest_stop {operand : Parser Expr} {level : BinaryLevel}
    (hlevel : level ∈ binaryLevels)
    {start rounds : Nat} {left : Expr} (h : c.tokens = ts) :
    StopsBefore (binaryRest operand level start rounds left) c ts := by
  intro e c' hrun
  cases rounds with
  | zero => simp [binaryRest] at hrun
  | succ rounds =>
    have hhead := hts.head h
    have hop : level.op? c.head = none := by
      rcases hhead with h | h <;> rw [h]
      · exact (op?_eq_none level hlevel).1
      · exact (op?_eq_none level hlevel).2
    have hword (w : String) : c.head ≠ .word w := by
      rcases hhead with h | h <;> rw [h] <;> simp
    simp [binaryRest, hop, hword] at hrun
    obtain ⟨-, rfl⟩ := hrun
    exact h

theorem binary_stop {unary : Parser Expr} (h : StopsBefore unary c ts) {levels : List BinaryLevel}
    (hlevels : ∀ level ∈ levels, level ∈ binaryLevels) :
    StopsBefore (binary unary levels) c ts := by
  induction levels with
  | nil => exact h
  | cons level tighter ih =>
    intro e c' hrun
    simp [binary] at hrun
    obtain ⟨left, c₁, hleft, hrun⟩ := hrun
    have htokens := ih (fun l hl => hlevels l (.tail _ hl)) hleft
    exact binaryRest_stop hts (hlevels _ (.head _)) htokens hrun

theorem coalesceWith_stop {coalesce unary : Parser Expr} (h : StopsBefore unary c ts) :
    StopsBefore (coalesceWith coalesce unary) c ts := by
  intro e c' hrun
  simp [coalesceWith] at hrun
  obtain ⟨left, c₁, hleft, hrun⟩ := hrun
  have htokens := binary_stop hts h (fun _ h => h) hleft
  have hcoalesce := hts.head_ne htokens (p := .coalesce) (by decide)
  simp [hcoalesce] at hrun
  obtain ⟨rfl, -⟩ := hrun
  exact htokens

theorem conditionalWith_stop {expression coalesce : Parser Expr} (h : StopsBefore coalesce c ts) :
    StopsBefore (conditionalWith expression coalesce) c ts := by
  intro e c' hrun
  simp [conditionalWith] at hrun
  obtain ⟨condition, c₁, hcondition, hrun⟩ := hrun
  have hquestion := hts.head_ne (h hcondition) (p := .question) (by decide)
  simp [hquestion] at hrun
  obtain ⟨rfl, -⟩ := hrun
  exact h hcondition

theorem assignmentWith_stop {expression coalesce : Parser Expr} (h : StopsBefore coalesce c ts) :
    StopsBefore (assignmentWith expression coalesce) c ts := by
  intro e c' hrun
  simp [assignmentWith] at hrun
  obtain ⟨target, c₁, htarget, hrun⟩ := hrun
  have htokens := conditionalWith_stop hts h htarget
  have hassign := hts.head_ne htokens (p := .assign) (by decide)
  simp [hassign] at hrun
  obtain ⟨rfl, -⟩ := hrun
  exact htokens

omit hts in
theorem unaryWith_stop {unary expression : Parser Expr} (hbang : c.head ≠ .punct .bang)
    (hminus : c.head ≠ .punct .minus) (hopen : c.head ≠ .punct .openParen)
    (h : StopsBefore (postfixed expression) c ts) :
    StopsBefore (unaryWith unary expression) c ts := by
  intro e c' hrun
  simp [unaryWith, unaryOp, hbang, hminus, hopen] at hrun
  exact h hrun

/-- An expression ends where its first operand ends. -/
theorem expressionToDepth_stop (hbang : c.head ≠ .punct .bang) (hminus : c.head ≠ .punct .minus)
    (hopen : c.head ≠ .punct .openParen)
    (h : ∀ depth, StopsBefore (postfixed (expressionToDepth depth)) c ts) (depth : Nat) :
    StopsBefore (expressionToDepth depth) c ts := by
  have hunary (depth : Nat) : StopsBefore (unaryToDepth depth) c ts := by
    cases depth with
    | zero => intro e c' hrun; simp [unaryToDepth] at hrun
    | succ depth => exact unaryWith_stop hbang hminus hopen (h depth)
  have hcoalesce (depth : Nat) : StopsBefore (coalesceToDepth depth) c ts := by
    cases depth with
    | zero => intro e c' hrun; simp [coalesceToDepth] at hrun
    | succ depth => exact coalesceWith_stop hts (hunary depth)
  cases depth with
  | zero => intro e c' hrun; simp [expressionToDepth] at hrun
  | succ depth => exact assignmentWith_stop hts (hcoalesce depth)

/-! ## Operands -/

theorem postfixed_stop {expression : Parser Expr} (h : StopsBefore (primary expression) c ts) :
    StopsBefore (postfixed expression) c ts := by
  intro e c' hrun
  simp [postfixed] at hrun
  obtain ⟨target, c₁, htarget, hrun⟩ := hrun
  exact postfixes_stop hts (h htarget) hrun

omit hts in
theorem primary_string_stop {expression : Parser Expr} {t : Token} {v : String}
    (h : c.tokens = t :: ts) (ht : t.kind = .string v) :
    StopsBefore (primary expression) c ts := by
  intro e c' hrun
  obtain ⟨kind, range, doc⟩ := t
  obtain rfl : kind = .string v := ht
  simp [primary, h] at hrun
  obtain ⟨rfl, -⟩ := hrun
  exact advance_tokens h

omit hts in
theorem exists_word_of_type {place : TypePlace} {t : TypeRef} (h : Runs (type place) c t c') :
    ∃ w, c.head = .word w := by
  obtain ⟨⟨read, hread, hrun⟩, -⟩ := type_reads h
  obtain _ | ⟨u, read⟩ := read
  · simp [TypeState.start, TypeState.done] at hrun
  · rw [head_of_tokens hread.tokens]
    rw [List.map_cons, TypeState.run_cons] at hrun
    cases hu : u.kind with
    | word w => exact ⟨w, rfl⟩
    | _ => simp [hu, TypeState.start, TypeState.step] at hrun

theorem primary_word_stop {expression : Parser Expr} {t : Token} {w : String}
    (h : c.tokens = t :: ts) (ht : t.kind = .word w) :
    StopsBefore (primary expression) c ts := by
  intro e c' hrun
  obtain ⟨kind, range, doc⟩ := t
  obtain rfl : kind = .word w := ht
  have htokens := advance_tokens h
  have hhead := hts.head htokens
  have hsecond := c.advance_head
  -- what comes next starts no type, so the word is a whole operand
  have htype {place : TypePlace} {t : TypeRef} {c₁ : Cursor} :
      ¬ Runs (type place) c.advance t c₁ := by
    intro h
    obtain ⟨w, hw⟩ := exists_word_of_type h
    rw [hw] at hhead
    simp at hhead
  simp only [primary, runs_bind, runs_position, runs_get] at hrun
  obtain ⟨n, c₁, ⟨rfl, rfl⟩, d, c₂, ⟨rfl, rfl⟩, hrun⟩ := hrun
  rw [h] at hrun
  simp [wordExpression] at hrun
  split at hrun
  all_goals try simp [creation, typeInParens] at hrun
  all_goals grind

end

/-! ## Arguments -/

theorem expressionToDepth_word_stop (hts : EndsArgument ts) {t : Token} {w : String}
    (h : c.tokens = t :: ts) (ht : t.kind = .word w) (depth : Nat) :
    StopsBefore (expressionToDepth depth) c ts := by
  have hhead := (head_of_tokens h).trans ht
  exact expressionToDepth_stop hts (by simp [hhead]) (by simp [hhead]) (by simp [hhead])
    (fun depth => postfixed_stop hts (primary_word_stop hts h ht)) depth

theorem second_of_tokens {t u : Token} (h : c.tokens = t :: u :: ts) : c.second = u.kind := by
  unfold Cursor.second
  rw [h]

theorem argument_word_stop {depth : Nat} {t u : Token} {w : String} (h : c.tokens = t :: u :: ts)
    (ht : t.kind = .word w) (hu : u.kind = .punct .closeParen) :
    StopsBefore (argument (expressionToDepth depth) false) c (u :: ts) := by
  intro a c' hrun
  have hsecond := (second_of_tokens h).trans hu
  simp [argument, argumentName, hsecond, isWord] at hrun
  obtain ⟨e, c₁, he, rfl, -⟩ := hrun
  have htokens := expressionToDepth_word_stop ⟨u, ts, rfl, .inr hu⟩ h ht depth he
  exact htokens

theorem byComma_stop {item : Parser α} {t : Token} (ht : t.kind ≠ .punct .comma)
    (h : StopsBefore item c (t :: ts)) : StopsBefore (byComma item) c (t :: ts) := by
  intro as c' hrun
  simp [byComma, itemsByComma] at hrun
  obtain ⟨a, c₁, ha, hrun⟩ := hrun
  have htokens := h ha
  have hcomma : c₁.head ≠ .punct .comma := by rwa [head_of_tokens htokens]
  simp [hcomma] at hrun
  obtain ⟨rfl, -⟩ := hrun
  exact htokens

/-- An argument list that consists of a word. -/
theorem argumentList_word_stop {depth : Nat} {t u v : Token} {w : String}
    (h : c.tokens = t :: u :: v :: ts) (hu : u.kind = .word w) (hv : v.kind = .punct .closeParen) :
    StopsBefore (argumentList (expressionToDepth depth) false) c ts := by
  intro list c' hrun
  have hsecond := (second_of_tokens h).trans hu
  simp [argumentList, inParens, hsecond] at hrun
  obtain ⟨-, as, ⟨c₁, has, -, rfl⟩, -⟩ := hrun
  have hitems := byComma_stop (by simp [hv]) (argument_word_stop (advance_tokens h) hu hv) has
  exact advance_tokens hitems

/-- A call of `nameof` with a word. -/
theorem nameof_stop (hts : EndsArgument ts) {t u v x : Token} {w : String}
    (h : c.tokens = t :: u :: v :: x :: ts) (ht : t.kind = .word "nameof")
    (hu : u.kind = .punct .openParen) (hv : v.kind = .word w) (hx : x.kind = .punct .closeParen)
    (depth : Nat) : StopsBefore (postfixed (expressionToDepth depth)) c ts := by
  intro e c' hrun
  obtain ⟨kind, range, doc⟩ := t
  obtain rfl : kind = .word "nameof" := ht
  have htokens := advance_tokens h
  have hhead : c.advance.head = .punct .openParen := (head_of_tokens htokens).trans hu
  simp [postfixed, primary, h, wordExpression] at hrun
  simp [postfixes, hhead] at hrun
  obtain ⟨list, c₁, hlist, hrun⟩ := hrun
  have hlist := argumentList_word_stop (c.advance.renew_tokens.trans htokens) hv hx hlist
  exact postfixes_stop hts (c₁.renew_tokens.trans hlist) hrun

/-- A `typeof` of a type. -/
theorem typeof_stop (hts : EndsArgument ts) {t u v : Token} {us : List Token}
    (h : c.tokens = t :: u :: (us ++ v :: ts)) (ht : t.kind = .word "typeof")
    (hus : TypeState.start.run (us.map Token.kind) = some .done) (hv : v.kind = .punct .closeParen)
    (depth : Nat) : StopsBefore (postfixed (expressionToDepth depth)) c ts := by
  apply postfixed_stop hts
  intro e c' hrun
  obtain ⟨kind, range, doc⟩ := t
  obtain rfl : kind = .word "typeof" := ht
  simp [primary, h, wordExpression, typeInParens] at hrun
  obtain ⟨-, type, c₁, htype, hclose, rfl, -⟩ := hrun
  obtain ⟨⟨read, hread, hrun⟩, -⟩ := type_reads htype
  have htokens := hread.tokens
  rw [advance_tokens (advance_tokens h)] at htokens
  obtain ⟨x, hx, hxread⟩ := exists_reads_advance hclose (by simp)
  rw [hxread.tokens, List.singleton_append] at htokens
  -- the type between the parentheses is the one that has been read
  have hlength : us.length = read.length := by
    have hkinds := congrArg (List.map Token.kind) htokens
    rw [List.map_append, List.map_append, List.map_cons, List.map_cons, hv, hx] at hkinds
    have := congrArg List.length (TypeState.unique hkinds rfl rfl hus hrun)
    simpa only [List.length_map] using this
  exact (List.cons.inj (List.append_inj htokens hlength).2).2.symm

/-! ## The whole argument -/

/-- The tokens of an argument of a simple form. -/
inductive ArgumentKinds : List TokenKind → Prop
  | string (value : String) : ArgumentKinds [.string value]
  | nameOf (w : String) :
    ArgumentKinds [.word "nameof", .punct .openParen, .word w, .punct .closeParen]
  | typeOf {kinds : List TokenKind} (h : TypeState.start.run kinds = some .done) :
    ArgumentKinds ([.word "typeof", .punct .openParen] ++ kinds ++ [.punct .closeParen])

/-- **Where an argument ends.**  Tokens of a simple form in front of a comma or a closing
parenthesis are a whole expression. -/
theorem tokens_of_argument {read : List Token} (hread : ArgumentKinds (read.map Token.kind))
    (hts : EndsArgument ts) (h : c.tokens = read ++ ts) (depth : Nat) :
    StopsBefore (expressionToDepth depth) c ts := by
  have hword {t : Token} {rest : List Token} {w : String} (h : c.tokens = t :: rest)
      (ht : t.kind = .word w)
      (hstop : ∀ depth, StopsBefore (postfixed (expressionToDepth depth)) c ts) :
      StopsBefore (expressionToDepth depth) c ts := by
    have hhead := (head_of_tokens h).trans ht
    exact expressionToDepth_stop hts (by simp [hhead]) (by simp [hhead]) (by simp [hhead])
      hstop depth
  generalize hkinds : read.map Token.kind = kinds at hread
  cases hread with
  | string value =>
    obtain ⟨t, _, rfl, ht, hnil⟩ := List.map_eq_cons_iff.1 hkinds
    obtain rfl := List.map_eq_nil_iff.1 hnil
    have hhead := (head_of_tokens h).trans ht
    exact expressionToDepth_stop hts (by simp [hhead]) (by simp [hhead]) (by simp [hhead])
      (fun depth => postfixed_stop hts (primary_string_stop h ht)) depth
  | nameOf w =>
    obtain ⟨t, _, rfl, ht, hkinds⟩ := List.map_eq_cons_iff.1 hkinds
    obtain ⟨u, _, rfl, hu, hkinds⟩ := List.map_eq_cons_iff.1 hkinds
    obtain ⟨v, _, rfl, hv, hkinds⟩ := List.map_eq_cons_iff.1 hkinds
    obtain ⟨x, _, rfl, hx, hnil⟩ := List.map_eq_cons_iff.1 hkinds
    obtain rfl := List.map_eq_nil_iff.1 hnil
    exact hword h ht (nameof_stop hts h ht hu hv hx)
  | typeOf hrun =>
    obtain ⟨front, back, rfl, hfront, hback⟩ := List.map_eq_append_iff.1 hkinds
    obtain ⟨start, us, rfl, hstart, rfl⟩ := List.map_eq_append_iff.1 hfront
    obtain ⟨t, _, rfl, ht, hstart⟩ := List.map_eq_cons_iff.1 hstart
    obtain ⟨u, _, rfl, hu, hnil⟩ := List.map_eq_cons_iff.1 hstart
    obtain rfl := List.map_eq_nil_iff.1 hnil
    obtain ⟨v, _, rfl, hv, hnil⟩ := List.map_eq_cons_iff.1 hback
    obtain rfl := List.map_eq_nil_iff.1 hnil
    have h : c.tokens = t :: u :: (us ++ v :: ts) := by simpa using h
    exact hword h ht (typeof_stop hts h ht hrun hv)

end PropertyLint.Grammar
