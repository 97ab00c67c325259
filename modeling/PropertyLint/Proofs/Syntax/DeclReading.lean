/-
# Reading declarations

What is known of everything in a file that has been read: names are words of the file, the types of
properties, methods and parameters stand in front of a word at which no longer type could end, and
the arguments of attributes and calls are what the parser of expressions reads at their place
(`MemberRead`, `TypeDeclRead`).
-/
import PropertyLint.Proofs.Syntax.ExprReading

namespace PropertyLint

/-- The types that a member declares: of a property, or of the result and the parameters of a
method. -/
def Member.declaredTypes : Member → List TypeRef
  | .property p => [p.type]
  | .method m => m.returnType :: m.params.map Parameter.type
  | _ => []

namespace Grammar

variable {α : Type} {c c' : Cursor} {tokens : List Token}

/-! ## What is known of declarations -/

/-- The identifier is a word of the tokens. -/
def IdentRead (tokens : List Token) (i : Ident) : Prop :=
  ∃ read doc rest, tokens = read ++ ⟨.word i.text, i.range, doc⟩ :: rest

/-- The type has been read somewhere in the tokens, in front of a word; behind that word no longer
type ends. -/
def TypeRead (tokens : List Token) (t : TypeRef) : Prop :=
  ∃ c read c', Within tokens c ∧ c.Reads read c' ∧
    TypeState.start.run (read.map Token.kind) = some .done ∧ t.range = c'.rangeSince c.position ∧
    ∃ w rest, c'.tokens.map Token.kind = .word w :: rest ∧ TypeState.done.Stops rest

/-- The arguments that the expressions pass have been read in the tokens. -/
def ExprsRead (tokens : List Token) (es : List Expr) : Prop := ∀ e ∈ es, OwnArgsRead tokens e

/-- The arguments of the attributes have been read in the tokens. -/
def AttributesRead (tokens : List Token) (as : List Attribute) : Prop :=
  ∀ a ∈ as, ∀ list, a.args = some list → ∀ arg ∈ list.args, ArgumentRead tokens arg

/-- What is known of a member that is no type. -/
structure MemberRead (tokens : List Token) (m : Member) : Prop where
  name : IdentRead tokens m.name
  types : ∀ t ∈ m.declaredTypes, TypeRead tokens t
  attributes : AttributesRead tokens m.attributes
  exprs : ExprsRead tokens m.exprs

/-- What is known of a type declaration without the types nested in it. -/
structure TypeDeclRead (tokens : List Token) (decl : TypeDecl) : Prop where
  attributes : AttributesRead tokens decl.attributes
  members : ∀ m ∈ decl.ownMembers, MemberRead tokens m

@[simp]
theorem exprsRead_append {es es' : List Expr} :
    ExprsRead tokens (es ++ es') ↔ ExprsRead tokens es ∧ ExprsRead tokens es' :=
  List.forall_mem_append

@[simp]
theorem exprsRead_nil : ExprsRead tokens [] := List.forall_mem_nil _

theorem ExprRead.walk {e : Expr} (h : ExprRead tokens e) : ExprsRead tokens e.walk := by
  rw [Expr.walk_eq_preorder]
  exact h.preorder

/-! ## Statements -/

theorem expression_yields : Yields tokens expression fun e _ => ExprsRead tokens e.walk := by
  intro c e c' hin h
  obtain ⟨hreaches, -, -, hread⟩ := expression_reads.reads hin h
  exact ⟨hreaches, hread.walk⟩

theorem optionalExpression_yields :
    Yields tokens optionalExpression fun e _ => ExprsRead tokens (walkOption e) := by
  have hexpr := @expression_yields tokens
  unfold Yields at hexpr ⊢
  intro c e c' hin h
  simp [optionalExpression] at h
  obtain ⟨-, rfl, rfl⟩ | ⟨-, e, he, rfl⟩ := h
  · exact ⟨.refl c, exprsRead_nil⟩
  · exact hexpr hin he

theorem initializer_yields :
    Yields tokens initializer fun e _ => ExprsRead tokens (walkOption e) := by
  have hexpr := @expression_yields tokens
  unfold Yields at hexpr ⊢
  intro c e c' hin h
  simp [initializer] at h
  obtain ⟨⟨-, rfl⟩, rfl⟩ | ⟨-, e, he, rfl⟩ := h
  · exact ⟨.refl c, exprsRead_nil⟩
  · obtain ⟨hreaches, hread⟩ := hexpr (hin.reaches c.reaches_advance) he
    exact ⟨c.reaches_advance.trans hreaches, hread⟩

theorem exprsOfStmts_read {ss : List Stmt} (h : ∀ s ∈ ss, ExprsRead tokens s.exprs) :
    ExprsRead tokens (exprsOfStmts ss) := by
  induction ss with
  | nil => exact exprsRead_nil
  | cons s ss ih =>
    rw [exprsOfStmts, exprsRead_append]
    exact ⟨h s (.head _), ih fun s hs => h s (.tail _ hs)⟩

theorem exprs_block {node : Node} {b : Block Stmt} : (Stmt.block node b).exprs = b.exprs := by
  cases b
  rfl

section
variable {statement : Parser Stmt}
  (hstatement : Yields tokens statement fun s _ => ExprsRead tokens s.exprs)
include hstatement

theorem blockWith_yields :
    Yields tokens (blockWith statement) fun b _ => ExprsRead tokens b.exprs := by
  have hitems := untilMark_yields .closeBrace hstatement
  unfold Yields at hitems ⊢
  intro c b c' hin h
  simp [blockWith] at h
  obtain ⟨hopen, ss, h, rfl⟩ := h
  obtain ⟨hreaches, hread⟩ := hitems (hin.reaches (c.reaches_advance)) h
  exact ⟨c.reaches_advance.trans hreaches, exprsOfStmts_read hread⟩

omit hstatement in
@[grind →]
theorem reaches_of_localType {t : TypeRef} (h : Runs localType c t c') : c.Reaches c' := by
  simp [localType] at h
  grind

omit hstatement in
theorem simpleStatement_yields (start : Nat) :
    Yields tokens (simpleStatement start) fun s _ => ExprsRead tokens s.exprs := by
  have hexpr := @expression_yields tokens
  have hinit := @initializer_yields tokens
  unfold Yields at hexpr hinit ⊢
  intro c s c' hin h
  show c.Reaches c' ∧ ExprsRead tokens s.exprs
  simp [simpleStatement] at h
  obtain ⟨t, c₁, ⟨t, ht, rfl⟩ | ⟨hno, rfl⟩, h⟩ := h
  · simp at h
    obtain ⟨i, c₂, hi, e, c₃, he, -, rfl, rfl⟩ := h
    have hreaches := (reaches_of_localType ht).trans (reaches_of_identifier hi)
    obtain ⟨hreaches', hread⟩ := hinit (hin.reaches hreaches) he
    have hend := c₃.reaches_advance.trans c₃.advance.reaches_renew
    exact ⟨(hreaches.trans hreaches').trans hend, by rwa [Stmt.exprs]⟩
  · simp at h
    obtain ⟨e, c₂, he, -, rfl, rfl⟩ := h
    have hreaches := hno.reaches .localType
    obtain ⟨hreaches', hread⟩ := hexpr (hin.reaches hreaches) he
    have hend := c₂.reaches_advance.trans c₂.advance.reaches_renew
    exact ⟨(hreaches.trans hreaches').trans hend, by rwa [Stmt.exprs]⟩

theorem statementWith_yields :
    Yields tokens (statementWith statement) fun s _ => ExprsRead tokens s.exprs := by
  have hblock := blockWith_yields hstatement
  have hsimple (start : Nat) := @simpleStatement_yields tokens start
  have hexpr := @expression_yields tokens
  have hoptional := @optionalExpression_yields tokens
  unfold Yields at *
  intro c s c' hin h
  show c.Reaches c' ∧ ExprsRead tokens s.exprs
  simp [statementWith] at h
  -- the branches come in the order of the negations: block, empty, `return`, `throw`, `if`
  obtain ⟨-, b, c₁, hb, rfl, rfl⟩ | ⟨-, h⟩ := h
  · obtain ⟨hreaches, hread⟩ := hblock hin hb
    exact ⟨hreaches.trans c₁.reaches_renew, by rwa [exprs_block]⟩
  have hvalue {e : Option Expr} {c₁ : Cursor} (h : Runs optionalExpression c.advance e c₁) :
      c.Reaches c₁.advance.renew ∧ ExprsRead tokens (walkOption e) := by
    obtain ⟨hreaches, hread⟩ := hoptional (hin.reaches c.reaches_advance) h
    have hend := c₁.reaches_advance.trans c₁.advance.reaches_renew
    exact ⟨(c.reaches_advance.trans hreaches).trans hend, hread⟩
  obtain ⟨-, ⟨-, ⟨-, h⟩ | ⟨-, e, c₁, he, -, rfl, rfl⟩⟩ | ⟨-, e, c₁, he, -, rfl, rfl⟩⟩ |
    ⟨-, rfl, rfl⟩ := h
  · obtain ⟨-, h⟩ | ⟨-, -, condition, c₁, hcondition, -, yes, c₂, hyes, h⟩ := h
    · exact hsimple _ hin h
    · have hreaches := c.reaches_advance.trans c.advance.reaches_advance
      obtain ⟨hreaches', hread⟩ := hexpr (hin.reaches hreaches) hcondition
      have hreaches := (hreaches.trans hreaches').trans c₁.reaches_advance
      obtain ⟨hreaches', hread'⟩ := hstatement (hin.reaches hreaches) hyes
      have hreaches := hreaches.trans hreaches'
      obtain ⟨-, rfl, rfl⟩ | ⟨-, no, c₃, hno, rfl, rfl⟩ := h
      · refine ⟨hreaches.trans c₂.reaches_renew, ?_⟩
        rw [Stmt.exprs, exprsRead_append]
        exact ⟨hread, hread'⟩
      · have hreaches := hreaches.trans c₂.reaches_advance
        obtain ⟨hreaches', hread''⟩ := hstatement (hin.reaches hreaches) hno
        refine ⟨(hreaches.trans hreaches').trans c₃.reaches_renew, ?_⟩
        rw [Stmt.exprs, exprsRead_append, exprsRead_append]
        exact ⟨hread, hread', hread''⟩
  · exact ⟨(hvalue he).1, by rw [Stmt.exprs]; exact (hvalue he).2⟩
  · exact ⟨(hvalue he).1, by rw [Stmt.exprs]; exact (hvalue he).2⟩
  · exact ⟨c.reaches_advance.trans c.advance.reaches_renew, by rw [Stmt.exprs]; exact exprsRead_nil⟩

end

theorem statementToDepth_yields (depth : Nat) :
    Yields tokens (statementToDepth depth) fun s _ => ExprsRead tokens s.exprs := by
  induction depth with
  | zero =>
    intro c s c' hin h
    simp [statementToDepth] at h
  | succ depth ih => exact statementWith_yields ih

theorem body_yields : Yields tokens body fun b _ => ExprsRead tokens b.exprs := by
  have hblock (depth : Nat) := blockWith_yields (@statementToDepth_yields tokens depth)
  have hexpr := @expression_yields tokens
  unfold Yields at *
  intro c b c' hin h
  simp [body, block] at h
  obtain ⟨-, b, hb, rfl⟩ | ⟨-, ⟨-, ⟨-, rfl⟩, rfl⟩ | ⟨-, e, c₁, he, ⟨-, rfl⟩, rfl⟩⟩ := h
  · obtain ⟨hreaches, hread⟩ := hblock _ hin hb
    exact ⟨hreaches, exprsRead_append.2 ⟨hread, exprsRead_nil⟩⟩
  · exact ⟨c.reaches_advance, exprsRead_nil⟩
  · obtain ⟨hreaches, hread⟩ := hexpr (hin.reaches c.reaches_advance) he
    exact ⟨(c.reaches_advance.trans hreaches).trans c₁.reaches_advance, hread⟩

/-! ## Attributes and modifiers -/

theorem attribute_yields : Yields tokens attribute_ fun a _ => AttributesRead tokens [a] := by
  have hargs := argumentList_yields (@expression_reads tokens) expression_readsToDepth true
  unfold Yields at *
  intro c a c' hin h
  simp [attribute_] at h
  simp only [argsRead_iff] at hargs
  obtain ⟨t, c₁, ht, ⟨-, list, c₂, hlist, rfl, rfl⟩ | ⟨-, rfl, rfl⟩⟩ := h
  · have hreaches := reaches_of_type ht
    obtain ⟨hreaches', hread⟩ := hargs (hin.reaches hreaches) hlist
    refine ⟨(hreaches.trans hreaches').trans c₂.reaches_renew, List.forall_mem_singleton.2 ?_⟩
    intro list' hlist' a ha
    obtain rfl : list = list' := Option.some.inj hlist'
    exact (hread a ha).1
  · refine ⟨(reaches_of_type ht).trans c₁.reaches_renew, List.forall_mem_singleton.2 ?_⟩
    rintro list ⟨⟩

theorem attributeSection_yields :
    Yields tokens attributeSection fun as _ => AttributesRead tokens as := by
  have hitems := byComma_yields .closeBracket
    ((@attribute_yields tokens).mono fun a c h (_ : c.head = _ ∨ c.head = _) => h)
  unfold Yields at *
  intro c a c' hin h
  simp [attributeSection] at h
  -- from behind the target on
  have hsection {c c' : Cursor} (hin : Within tokens c)
      (h : ∃ c₁, Runs (byComma attribute_) c a c₁ ∧
        c₁.head = .punct .closeBracket ∧ c₁.advance = c') :
      c.Reaches c' ∧ AttributesRead tokens a := by
    obtain ⟨c₁, h, hclose, rfl⟩ := h
    obtain ⟨hreaches, hread⟩ := hitems hin h
    refine ⟨hreaches.trans c₁.reaches_advance, ?_⟩
    intro a ha
    exact hread hclose a ha a (.head _)
  obtain ⟨-, h⟩ | ⟨-, h⟩ := h
  · have hreaches := c.reaches_advance.trans c.advance.reaches_advance
    obtain ⟨hreaches', hread⟩ := hsection (hin.reaches hreaches) h
    exact ⟨hreaches.trans hreaches', hread⟩
  · exact hsection hin h

theorem attributeSections_yields (rounds : Nat) :
    Yields tokens (attributeSections rounds) fun as _ => AttributesRead tokens as := by
  have hsection := @attributeSection_yields tokens
  unfold Yields at *
  induction rounds with
  | zero =>
    intro c as c' hin h
    simp [attributeSections] at h
  | succ rounds ih =>
    intro c as c' hin h
    simp [attributeSections] at h
    obtain ⟨⟨-, rfl⟩, rfl⟩ | ⟨-, first, c₁, hfirst, rest, hrest, rfl⟩ := h
    · exact ⟨.refl c, List.forall_mem_nil _⟩
    · obtain ⟨hreaches, hread⟩ := hsection (hin.reaches c.reaches_advance) hfirst
      have hreaches := c.reaches_advance.trans hreaches
      obtain ⟨hreaches', hread'⟩ := ih (hin.reaches hreaches) hrest
      exact ⟨hreaches.trans hreaches', List.forall_mem_append.2 ⟨hread, hread'⟩⟩

theorem attributes_yields : Yields tokens attributes fun as _ => AttributesRead tokens as := by
  intro c as c' hin h
  simp [attributes] at h
  exact attributeSections_yields _ hin h

@[grind →]
theorem reaches_of_modifiersUpTo {rounds : Nat} {ms : Modifiers}
    (h : Runs (modifiersUpTo rounds) c ms c') : c.Reaches c' := by
  induction rounds generalizing c ms with
  | zero => simp [modifiersUpTo] at h
  | succ rounds ih =>
    simp [modifiersUpTo] at h
    split at h
    · split at h
      · simp at h
        grind
      · simp at h
        grind
    · simp at h
      grind

theorem leading_yields : Yields tokens leading fun l _ => AttributesRead tokens l.attributes := by
  have hattributes := @attributes_yields tokens
  unfold Yields at *
  intro c l c' hin h
  simp [leading] at h
  grind

@[simp] theorem runs_close {l : Leading} {name : Ident} {header : DeclHeader} :
    Runs (l.close name) c header c' ↔
      c.renew = c' ∧
        ⟨⟨c.fresh, c.rangeSince l.start⟩, l.doc, l.attributes, l.modifiers, name⟩ = header := by
  simp [Leading.close]

/-! ## Behind a declared type -/

/-- The tokens from the cursor on never come to the end of a type with a word behind it. -/
def StopsAt (s : TypeState) (c : Cursor) : Prop := s.Stops (c.tokens.map Token.kind)

theorem stopsAt_of_head {s : TypeState} {k : TokenKind} (h : c.head = k) (hk : k ≠ .endOfText)
    (hword : s = .done → ∀ w, k ≠ .word w)
    (hrest : ∀ s', s.step k = some s' → StopsAt s' c.advance) : StopsAt s c := by
  obtain ⟨t, ht, hread⟩ := exists_reads_advance h hk
  rw [StopsAt, hread.tokens, List.singleton_append, List.map_cons, ht]
  exact ⟨hword, hrest⟩

theorem stopsAt_of_punct {p : Punct} (h : c.head = .punct p)
    (hp : TypeState.done.step (.punct p) = none) : StopsAt .done c :=
  stopsAt_of_head h (by simp) (fun _ w => by simp) fun s' hs => by simp [hp] at hs

/-- The next token is a mark of the type. -/
theorem stopsAt_of_step {s s' : TypeState} {p : Punct} (h : c.head = .punct p)
    (hstep : s.step (.punct p) = some s') (hrest : StopsAt s' c.advance) : StopsAt s c := by
  refine stopsAt_of_head h (by simp) (fun _ w => by simp) fun s'' hs => ?_
  obtain rfl : s' = s'' := Option.some.inj (hstep.symm.trans hs)
  exact hrest

/-- The next token is a word of the type. -/
theorem stopsAt_of_word {w : String} {depth : Nat} (h : c.head = .word w)
    (hrest : StopsAt ⟨depth, .suffix⟩ c.advance) : StopsAt ⟨depth, .name⟩ c := by
  refine stopsAt_of_head h (by simp) (by simp [TypeState.done]) fun s' hs => ?_
  obtain rfl : (⟨depth, .suffix⟩ : TypeState) = s' := by simpa [TypeState.step] using hs
  exact hrest

/-- Behind a word of a type another word ends every type, unless it ends this one. -/
theorem stopsAt_of_two_words {w : String} {depth : Nat} (h : c.head = .word w) :
    StopsAt ⟨depth + 1, .suffix⟩ c := by
  refine stopsAt_of_head h (by simp) (by simp [TypeState.done]) fun s' hs => ?_
  simp [TypeState.step] at hs

theorem head_of_identifier {i : Ident} (h : Runs identifier c i c') :
    c.head = .word i.text ∧ c.advance = c' := by
  obtain ⟨hadvance, doc, rest, htokens⟩ := runs_identifier.1 h
  exact ⟨by rw [Cursor.head, htokens], hadvance⟩

/-! ## Type parameters -/

@[grind →]
theorem reaches_of_typeParameter {i : Ident} (h : Runs typeParameter c i c') : c.Reaches c' := by
  simp [typeParameter] at h
  grind

theorem stopsAt_of_typeParameter {i : Ident} {depth : Nat} (h : Runs typeParameter c i c')
    (hstops : StopsAt ⟨depth + 1, .suffix⟩ c') : StopsAt ⟨depth + 1, .name⟩ c := by
  simp [typeParameter] at h
  obtain ⟨hin | hout, h⟩ | ⟨-, h⟩ := h
  -- the variance is a name to the type, and the name behind it ends everything
  · exact stopsAt_of_word hin (stopsAt_of_two_words (head_of_identifier h).1)
  · exact stopsAt_of_word hout (stopsAt_of_two_words (head_of_identifier h).1)
  · obtain ⟨hword, rfl⟩ := head_of_identifier h
    exact stopsAt_of_word hword hstops

theorem stopsAt_of_typeParameterItems {rounds : Nat} {is : List Ident} (depth : Nat)
    (h : Runs (itemsByComma typeParameter rounds) c is c') :
    c.Reaches c' ∧
      (StopsAt ⟨depth + 1, .suffix⟩ c' → StopsAt ⟨depth + 1, .name⟩ c) := by
  induction rounds generalizing c is with
  | zero => simp [itemsByComma] at h
  | succ rounds ih =>
    simp [itemsByComma] at h
    obtain ⟨i, c₁, hfirst, ⟨⟨-, rfl⟩, -⟩ | ⟨hcomma, is', hrest, -⟩⟩ := h
    · exact ⟨reaches_of_typeParameter hfirst, stopsAt_of_typeParameter hfirst⟩
    · obtain ⟨hreaches, hname⟩ := ih hrest
      refine ⟨by grind, fun hstops => stopsAt_of_typeParameter hfirst ?_⟩
      exact stopsAt_of_step hcomma rfl (hname hstops)

/-- Type parameters in front of a parameter list are type arguments to the type before them, but no
word follows those. -/
theorem stopsAt_of_typeParameters {is : List Ident} (h : Runs typeParameters c is c') :
    c.Reaches c' ∧ (c'.head = .punct .openParen → StopsAt .done c) := by
  simp [typeParameters] at h
  obtain ⟨⟨-, rfl⟩, -⟩ | ⟨hless, c₁, hparams, hgreater, rfl⟩ := h
  · exact ⟨.refl c, fun hopen => stopsAt_of_punct hopen rfl⟩
  · simp only [byComma, runs_bind, runs_bound] at hparams
    obtain ⟨n, c₂, ⟨rfl, rfl⟩, hparams⟩ := hparams
    obtain ⟨hreaches, hname⟩ := stopsAt_of_typeParameterItems 0 hparams
    refine ⟨by grind, fun hopen => stopsAt_of_step hless rfl (hname ?_)⟩
    exact stopsAt_of_step hgreater rfl (stopsAt_of_punct hopen rfl)

/-! ## Declared types -/

/-- A type in front of a name, behind which no longer type can end. -/
theorem TypeRead.of_runs {t : TypeRef} {i : Ident} {c₁ c₂ : Cursor} (hin : Within tokens c)
    (htype : Runs (type .declaration) c t c₁) (hname : Runs identifier c₁ i c₂)
    (hstops : StopsAt .done c₂) : TypeRead tokens t := by
  obtain ⟨⟨read, hread, hrun⟩, hrange⟩ := type_reads htype
  obtain ⟨u, hu, -, huread⟩ := exists_reads_identifier hname
  refine ⟨c, read, c₁, hin, hread, hrun, hrange, i.text, c₂.tokens.map Token.kind, ?_, hstops⟩
  rw [huread.tokens, List.singleton_append, List.map_cons, hu]

end Grammar

end PropertyLint
