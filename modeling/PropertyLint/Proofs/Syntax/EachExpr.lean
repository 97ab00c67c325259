/-
# What holds of every expression

Every expression of a file stands in one that the parser of expressions has read: in a statement, in
a body, in an attribute, in the default of a parameter, or in the initial value of a member.  So
what holds of an expression that is read and of all expressions in it (`Part.Each`) holds of every
expression of a file (`SyntaxTree.each_of_parse`).
-/
import PropertyLint.Proofs.Syntax.Around
import PropertyLint.Proofs.Syntax.MemberReading

namespace PropertyLint

/-! ## The expressions in a part -/

/-- The part, if it is an expression, and all expressions in it have the property. -/
def Part.Each (Q : Expr → Prop) (p : Part) : Prop := ∀ e, p.Has (.expr e) → Q e

namespace Part

variable {Q : Expr → Prop} {p q : Part}

theorem Each.part (h : p.Each Q) (hq : q ∈ p.parts) : q.Each Q :=
  fun e he => h e ((Has.of_mem hq).trans he)

theorem each_expr {e : Expr} : (Part.expr e).Each Q ↔ Q e ∧ ∀ q ∈ e.parts, q.Each Q := by
  constructor
  · exact fun h => ⟨h e .refl, fun q hq => h.part hq⟩
  · rintro ⟨he, hparts⟩ x hx
    rcases has_iff.1 hx with heq | ⟨q, hq, hx⟩
    · exact Part.expr.inj heq ▸ he
    · exact hparts q hq x hx

/-- What is no expression itself has the property if its parts have it. -/
theorem each_iff_parts (hp : ∀ e, p ≠ .expr e) : p.Each Q ↔ ∀ q ∈ p.parts, q.Each Q := by
  constructor
  · exact fun h q hq => h.part hq
  · intro h e he
    rcases has_iff.1 he with heq | ⟨q, hq, he⟩
    · exact absurd heq (hp e)
    · exact h q hq e he

@[simp] theorem each_ident (i : Ident) : (Part.ident i).Each Q :=
  (each_iff_parts (by simp)).2 (List.forall_mem_nil _)

/-- Types consist of types and identifiers. -/
theorem type_or_ident_of_has {t : TypeRef} (h : (Part.type t).Has q) :
    (∃ t', q = .type t') ∨ ∃ i, q = .ident i := by
  induction h with
  | refl => exact .inl ⟨t, rfl⟩
  | part _ hr ih =>
    obtain ⟨t', rfl⟩ | ⟨i, rfl⟩ := ih
    · cases t' with
      | keyword => simp [parts, TypeRef.parts] at hr
      | named node segments =>
        simp only [parts, TypeRef.parts, NameSegment.parts, List.mem_flatMap, List.mem_cons,
          List.mem_map] at hr
        obtain ⟨segment, -, rfl | ⟨arg, -, rfl⟩⟩ := hr
        · exact .inr ⟨_, rfl⟩
        · exact .inl ⟨arg, rfl⟩
      | _ => exact .inl ⟨_, List.mem_singleton.1 hr⟩
    · simp [parts] at hr

@[simp] theorem each_type (t : TypeRef) : (Part.type t).Each Q := by
  intro e he
  obtain ⟨t', h⟩ | ⟨i, h⟩ := type_or_ident_of_has he <;> cases h

@[simp] theorem each_argument {a : Argument Expr} :
    (Part.argument a).Each Q ↔ (Part.expr a.value).Each Q := by
  rw [each_iff_parts (by simp), parts, Argument.parts, List.forall_mem_append]
  simp

@[simp] theorem each_args {list : ArgumentList Expr} :
    (Part.args list).Each Q ↔ ∀ a ∈ list.args, (Part.expr a.value).Each Q := by
  rw [each_iff_parts (by simp)]
  simp [parts]

theorem each_stmt {s : Stmt} : (Part.stmt s).Each Q ↔ ∀ q ∈ s.parts, q.Each Q :=
  each_iff_parts (by simp)

@[simp] theorem each_block {b : Block Stmt} :
    (Part.block b).Each Q ↔ ∀ s ∈ b.statements, (Part.stmt s).Each Q := by
  rw [each_iff_parts (by simp), parts, List.forall_mem_map]

@[simp] theorem each_attr {a : Attribute} :
    (Part.attr a).Each Q ↔ ∀ list ∈ a.args, (Part.args list).Each Q := by
  rw [each_iff_parts (by simp)]
  simp [parts, Attribute.parts]

@[simp] theorem each_parameter {a : Parameter} : (Part.parameter a).Each Q ↔
    (∀ x ∈ a.attributes, (Part.attr x).Each Q) ∧ ∀ e ∈ a.default, (Part.expr e).Each Q := by
  rw [each_iff_parts (by simp)]
  simp [parts, Parameter.parts, or_imp, forall_and]

theorem each_accessor {a : Accessor} :
    (Part.accessor a).Each Q ↔ ∀ q ∈ a.body.parts, q.Each Q :=
  each_iff_parts (by simp)

theorem each_member {m : Member} : (Part.member m).Each Q ↔ ∀ q ∈ m.parts, q.Each Q :=
  each_iff_parts (by simp)

theorem each_typeDecl {d : TypeDecl} : (Part.member (.type d)).Each Q ↔
    (∀ a ∈ d.attributes, (Part.attr a).Each Q) ∧ ∀ m ∈ d.members, (Part.member m).Each Q := by
  rw [each_member, Member.parts]
  simp only [List.forall_mem_append, List.forall_mem_map, List.forall_mem_singleton]
  simp [TypeDecl.attributes]

end Part

namespace Grammar

variable {Q : Expr → Prop} {tokens : List Token}

/-! ## Arguments -/

section
variable {expression : Parser Expr}
  (hexpr : Yields tokens expression fun e _ => (Part.expr e).Each Q)
include hexpr

theorem argument_each (inAttribute : Bool) :
    Yields tokens (argument expression inAttribute) fun a _ => (Part.expr a.value).Each Q := by
  intro c a c' hin h
  simp [argument] at h
  obtain ⟨name, c₁, hname, h⟩ := h
  have hreaches := reaches_of_argumentName hname
  obtain ⟨-, e, c₂, he, rfl, rfl⟩ | ⟨-, e, c₂, he, rfl, rfl⟩ := h
  · have hreaches := hreaches.trans c₁.reaches_advance
    obtain ⟨hreaches', he⟩ := hexpr (hin.reaches hreaches) he
    exact ⟨(hreaches.trans hreaches').trans c₂.reaches_renew, he⟩
  · obtain ⟨hreaches', he⟩ := hexpr (hin.reaches hreaches) he
    exact ⟨(hreaches.trans hreaches').trans c₂.reaches_renew, he⟩

theorem argumentList_each (inAttribute : Bool) :
    Yields tokens (argumentList expression inAttribute) fun list _ =>
      (Part.args list).Each Q := by
  have hitems := inParens_yields ((argument_each hexpr inAttribute).mono fun _ _ h _ => h)
  intro c list c' hin h
  simp [argumentList] at h
  obtain ⟨args, hargs, rfl⟩ := h
  obtain ⟨hreaches, hargs⟩ := hitems hin hargs
  exact ⟨hreaches, Part.each_args.2 hargs⟩

end

/-! ## Expressions that are read -/

/-- Whatever its depth, an expression that is read has the property, with all expressions in it. -/
def ReadsEach (tokens : List Token) (Q : Expr → Prop) : Prop :=
  ∀ depth, Yields tokens (expressionToDepth depth) fun e _ => (Part.expr e).Each Q

section
variable (hread : ReadsEach tokens Q)
include hread

theorem expression_each : Yields tokens expression fun e _ => (Part.expr e).Each Q := by
  intro c e c' hin h
  obtain ⟨depth, h⟩ := expression_readsToDepth h
  exact hread depth hin h

/-- The arguments of attributes have been read as expressions. -/
theorem AttributesRead.each {as : List Attribute} (h : AttributesRead tokens as) :
    ∀ a ∈ as, (Part.attr a).Each Q := by
  intro a ha
  rw [Part.each_attr]
  intro list hlist
  rw [Part.each_args]
  intro arg harg
  obtain ⟨depth, c, c', hin, hrun, -⟩ := h a ha list hlist arg harg
  exact (hread depth hin hrun).2

/-! ## Statements -/

theorem optionalExpression_each :
    Yields tokens optionalExpression fun e _ => ∀ x ∈ e, (Part.expr x).Each Q := by
  intro c e c' hin h
  refine ⟨(optionalExpression_yields hin h).1, ?_⟩
  simp [optionalExpression] at h
  obtain ⟨-, rfl, rfl⟩ | ⟨-, e, he, rfl⟩ := h
  · simp
  · simpa using (expression_each hread hin he).2

theorem initializer_each :
    Yields tokens initializer fun e _ => ∀ x ∈ e, (Part.expr x).Each Q := by
  intro c e c' hin h
  refine ⟨(initializer_yields hin h).1, ?_⟩
  simp [initializer] at h
  obtain ⟨⟨-, rfl⟩, rfl⟩ | ⟨-, e, he, rfl⟩ := h
  · simp
  · simpa using (expression_each hread (hin.reaches c.reaches_advance) he).2

theorem simpleStatement_each (start : Nat) :
    Yields tokens (simpleStatement start) fun s _ => (Part.stmt s).Each Q := by
  intro c s c' hin h
  refine ⟨(simpleStatement_yields start hin h).1, ?_⟩
  simp [simpleStatement] at h
  obtain ⟨t, c₁, ⟨t, ht, rfl⟩ | ⟨hno, rfl⟩, h⟩ := h
  · simp at h
    obtain ⟨i, c₂, hi, e, c₃, he, -, rfl, rfl⟩ := h
    have hreaches := (reaches_of_localType ht).trans (reaches_of_identifier hi)
    exact Part.each_stmt.2
      (by simpa [Stmt.parts] using (initializer_each hread (hin.reaches hreaches) he).2)
  · simp at h
    obtain ⟨e, c₂, he, -, rfl, rfl⟩ := h
    have hin₁ := hin.reaches (hno.reaches .localType)
    exact Part.each_stmt.2 (by simpa [Stmt.parts] using (expression_each hread hin₁ he).2)

section
variable {statement : Parser Stmt}
  (hstatement : Yields tokens statement fun s _ => (Part.stmt s).Each Q)
include hstatement

omit hread in
theorem blockWith_each :
    Yields tokens (blockWith statement) fun b _ => (Part.block b).Each Q := by
  intro c b c' hin h
  simp [blockWith] at h
  obtain ⟨-, ss, hss, rfl⟩ := h
  obtain ⟨hreaches, hss⟩ :=
    untilMark_yields .closeBrace hstatement (hin.reaches c.reaches_advance) hss
  exact ⟨c.reaches_advance.trans hreaches, Part.each_block.2 hss⟩

theorem statementWith_each :
    Yields tokens (statementWith statement) fun s _ => (Part.stmt s).Each Q := by
  intro c s c' hin h
  have hin₁ := hin.reaches c.reaches_advance
  simp [statementWith] at h
  -- the branches come in the order of the negations: block, empty, `return`, `throw`, `if`
  obtain ⟨-, b, c₁, hb, rfl, rfl⟩ | ⟨-, h⟩ := h
  · obtain ⟨hreaches, hb⟩ := blockWith_each hstatement hin hb
    exact ⟨hreaches.trans c₁.reaches_renew, Part.each_stmt.2 (by simpa [Stmt.parts] using hb)⟩
  have hvalue {e : Option Expr} {c₁ : Cursor} (h : Runs optionalExpression c.advance e c₁) :
      c.Reaches c₁.advance.renew ∧ ∀ x ∈ e, (Part.expr x).Each Q := by
    obtain ⟨hreaches, he⟩ := optionalExpression_each hread hin₁ h
    have hend := c₁.reaches_advance.trans c₁.advance.reaches_renew
    exact ⟨(c.reaches_advance.trans hreaches).trans hend, he⟩
  obtain ⟨-, ⟨-, ⟨-, h⟩ | ⟨-, e, c₁, he, -, rfl, rfl⟩⟩ | ⟨-, e, c₁, he, -, rfl, rfl⟩⟩ |
    ⟨-, rfl, rfl⟩ := h
  · obtain ⟨-, h⟩ | ⟨-, -, condition, c₁, hcondition, -, yes, c₂, hyes, h⟩ := h
    · exact simpleStatement_each hread _ hin h
    · have hreaches := c.reaches_advance.trans c.advance.reaches_advance
      obtain ⟨hreaches', hcondition⟩ := expression_each hread (hin.reaches hreaches) hcondition
      have hreaches := (hreaches.trans hreaches').trans c₁.reaches_advance
      obtain ⟨hreaches', hyes⟩ := hstatement (hin.reaches hreaches) hyes
      have hreaches := hreaches.trans hreaches'
      obtain ⟨-, rfl, rfl⟩ | ⟨-, no, c₃, hno, rfl, rfl⟩ := h
      · exact ⟨hreaches.trans c₂.reaches_renew,
          Part.each_stmt.2 (by simpa [Stmt.parts] using ⟨hcondition, hyes⟩)⟩
      · have hreaches := hreaches.trans c₂.reaches_advance
        obtain ⟨hreaches', hno⟩ := hstatement (hin.reaches hreaches) hno
        exact ⟨(hreaches.trans hreaches').trans c₃.reaches_renew,
          Part.each_stmt.2 (by simpa [Stmt.parts] using ⟨hcondition, hyes, hno⟩)⟩
  · exact ⟨(hvalue he).1, Part.each_stmt.2 (by simpa [Stmt.parts] using (hvalue he).2)⟩
  · exact ⟨(hvalue he).1, Part.each_stmt.2 (by simpa [Stmt.parts] using (hvalue he).2)⟩
  · exact ⟨c.reaches_advance.trans c.advance.reaches_renew,
      Part.each_stmt.2 (by simp [Stmt.parts])⟩

end

theorem statementToDepth_each (depth : Nat) :
    Yields tokens (statementToDepth depth) fun s _ => (Part.stmt s).Each Q := by
  induction depth with
  | zero =>
    intro c s c' hin h
    simp [statementToDepth] at h
  | succ depth ih => exact statementWith_each hread ih

theorem body_each : Yields tokens body fun b _ => ∀ q ∈ b.parts, q.Each Q := by
  intro c b c' hin h
  refine ⟨(body_yields hin h).1, ?_⟩
  simp [body, block] at h
  obtain ⟨-, b, hb, rfl⟩ | ⟨-, ⟨-, ⟨-, rfl⟩, rfl⟩ | ⟨-, e, c₁, he, ⟨-, rfl⟩, rfl⟩⟩ := h
  · simpa [Body.parts] using (blockWith_each (statementToDepth_each hread _) hin hb).2
  · simp [Body.parts]
  · simpa [Body.parts] using (expression_each hread (hin.reaches c.reaches_advance) he).2

/-! ## Members -/

theorem parameter_each :
    Yields tokens parameter fun p _ => (Part.parameter p).Each Q := by
  intro c p c' hin h
  refine ⟨(parameter_yields hin h).1, ?_⟩
  simp [parameter] at h
  obtain ⟨as, c₁, has, h⟩ := h
  obtain ⟨hreaches, has⟩ := attributes_yields hin has
  have hin₁ := hin.reaches hreaches
  -- the default is read behind the modifiers, the type and the name
  obtain ⟨-, u, c₂, hu, t, c₃, ht, i, c₄, hi, e, c₅, he, rfl, rfl⟩ |
    ⟨-, u, c₂, hu, t, c₃, ht, i, c₄, hi, e, c₅, he, rfl, rfl⟩ := h
  · have hin₄ : Within tokens c₄ := by grind
    exact Part.each_parameter.2 ⟨has.each hread, (initializer_each hread hin₄ he).2⟩
  · have hin₄ : Within tokens c₄ := by grind
    exact Part.each_parameter.2 ⟨has.each hread, (initializer_each hread hin₄ he).2⟩

theorem parameters_each :
    Yields tokens parameters fun ps _ => ∀ p ∈ ps, (Part.parameter p).Each Q :=
  inParens_yields ((parameter_each hread).mono fun _ _ h _ => h)

theorem accessor_each : Yields tokens accessor fun a _ => (Part.accessor a).Each Q := by
  intro c a c' hin h
  refine ⟨(accessor_yields hin h).1, ?_⟩
  simp [accessor] at h
  obtain ⟨l, c₁, hl, k, c₂, hk, b, c₃, hb, rfl, rfl⟩ := h
  have hreaches := (leading_yields hin hl).1.trans (reaches_of_accessorKind hk)
  exact Part.each_accessor.2 (body_each hread (hin.reaches hreaches) hb).2

section
variable {l : Leading} (hl : AttributesRead tokens l.attributes)
include hl

theorem constructor_each :
    Yields tokens (constructor_ l) fun d _ => (Part.member (.constructor d)).Each Q := by
  intro c d c' hin h
  refine ⟨(constructor_yields hl hin h).1, ?_⟩
  simp [constructor_] at h
  obtain ⟨i, c₁, hi, ps, c₂, hps, h⟩ := h
  obtain ⟨hreaches, hps⟩ := parameters_each hread (hin.reaches (reaches_of_identifier hi)) hps
  have hin₂ := (hin.reaches (reaches_of_identifier hi)).reaches hreaches
  have hbody {n : Node} {b : Body} {c₃ c₄ : Cursor} (hin : Within tokens c₃)
      (hb : Runs body c₃ b c₄) : (Part.member (.constructor
        ⟨⟨n, l.doc, l.attributes, l.modifiers, i⟩, ps, b⟩)).Each Q := by
    have hb := (body_each hread hin hb).2
    rw [Part.each_member, Member.parts]
    simp only [List.forall_mem_append, List.forall_mem_map, List.forall_mem_singleton]
    exact ⟨⟨⟨hl.each hread, Part.each_ident _⟩, hps⟩, hb⟩
  obtain ⟨-, b, c₃, hb, rfl, rfl⟩ | ⟨-, -, c₃, ⟨list, hlist⟩, b, c₄, hb, rfl, rfl⟩ := h
  · exact hbody hin₂ hb
  · -- the arguments that are passed on are no part of the constructor
    have hskip := hin₂.reaches (c₂.reaches_advance.trans c₂.advance.reaches_advance)
    have hargs := argumentList_yields expression_reads expression_readsToDepth false hskip hlist
    exact hbody (hskip.reaches hargs.1) hb

variable {c c' : Cursor} {t : TypeRef} {name : Ident}

theorem method_each {interface : Option TypeRef} {d : MethodDecl} (hin : Within tokens c)
    (h : Runs (method l t interface name) c d c') : (Part.member (.method d)).Each Q := by
  simp [method] at h
  obtain ⟨is, c₁, his, ps, c₂, hps, u, c₃, hu, b, c₄, hb, rfl, rfl⟩ := h
  have hin₁ := hin.reaches (stopsAt_of_typeParameters his).1
  obtain ⟨hreaches, hps⟩ := parameters_each hread hin₁ hps
  have hin₃ := (hin₁.reaches hreaches).reaches (reaches_of_skipConstraints hu)
  have hb := (body_each hread hin₃ hb).2
  rw [Part.each_member, Member.parts]
  simp only [List.forall_mem_append, List.forall_mem_map, List.forall_mem_singleton]
  exact ⟨⟨⟨⟨⟨⟨hl.each hread, Part.each_type _⟩, fun t _ => Part.each_type t⟩, Part.each_ident _⟩,
    fun i _ => Part.each_ident i⟩, hps⟩, hb⟩

theorem property_each {d : PropertyDecl} (hin : Within tokens c)
    (h : Runs (property l t name) c d c') : (Part.member (.property d)).Each Q := by
  have hin₁ := hin.reaches c.reaches_advance
  -- an arrow or accessors with an initial value behind them
  have hproperty {n : Node} {arrow init : Option Expr} {as : List Accessor}
      (harrow : ∀ e ∈ arrow, (Part.expr e).Each Q) (has : ∀ a ∈ as, (Part.accessor a).Each Q)
      (hinit : ∀ e ∈ init, (Part.expr e).Each Q) : (Part.member (.property
        ⟨⟨n, l.doc, l.attributes, l.modifiers, name⟩, t, as, arrow, init⟩)).Each Q := by
    rw [Part.each_member, Member.parts]
    simp only [List.forall_mem_append, List.forall_mem_map, Option.mem_toList]
    exact ⟨⟨⟨⟨hl.each hread, by simp⟩, harrow⟩, has⟩, hinit⟩
  simp [property] at h
  obtain ⟨-, -, as, c₁, has, e, c₂, he, h⟩ | ⟨-, e, c₁, he, -, rfl, rfl⟩ := h
  · obtain ⟨hreaches, has⟩ := untilMark_yields .closeBrace (accessor_each hread) hin₁ has
    have hinit := (initializer_each hread (hin₁.reaches hreaches) he).2
    obtain ⟨-, -, rfl, rfl⟩ | ⟨-, rfl, rfl⟩ := h
    · exact hproperty (by simp) has hinit
    · exact hproperty (by simp) has hinit
  · exact hproperty (by simpa using (expression_each hread hin₁ he).2) (by simp) (by simp)

theorem field_each {d : FieldDecl} (hin : Within tokens c) (h : Runs (field l t name) c d c') :
    (Part.member (.field d)).Each Q := by
  simp [field] at h
  obtain ⟨e, c₁, he, -, rfl, rfl⟩ := h
  have hinit := (initializer_each hread hin he).2
  rw [Part.each_member, Member.parts]
  simp only [List.forall_mem_append, List.forall_mem_map, Option.mem_toList]
  exact ⟨⟨hl.each hread, by simp⟩, hinit⟩

theorem typedMember_each :
    Yields tokens (typedMember l) fun m _ => (Part.member m).Each Q := by
  intro c m c' hin h
  refine ⟨(typedMember_yields hl hin h).1, ?_⟩
  simp [typedMember] at h
  obtain ⟨t, c₁, ht, is, c₂, his, h⟩ := h
  have hin₁ := hin.reaches (reaches_of_type ht)
  have hin₂ := hin₁.reaches (dottedIdents_reads hin₁ his).1
  split at h
  · simp at h
    obtain ⟨o, c₃, ho, h⟩ := h
    have hin₃ := hin₂.reaches (reaches_of_interfaceType ho).1
    obtain ⟨-, d, hd, rfl⟩ | ⟨-, ⟨-, d, hd, rfl⟩ | ⟨-, d, hd, rfl⟩⟩ := h
    · exact method_each hread hl hin₃ hd
    · exact property_each hread hl hin₃ hd
    · exact field_each hread hl hin₃ hd
  · simp at h

end

/-! ## Types and files -/

theorem memberWith_each {typeDecl : Leading → Parser TypeDecl}
    (htype : ∀ l : Leading, AttributesRead tokens l.attributes →
      Yields tokens (typeDecl l) fun d _ => (Part.member (.type d)).Each Q) (typeName : String) :
    Yields tokens (memberWith typeDecl typeName) fun m _ => (Part.member m).Each Q := by
  intro c m c' hin h
  simp [memberWith] at h
  obtain ⟨l, c₁, hl, h⟩ := h
  obtain ⟨hreaches, hl⟩ := leading_yields hin hl
  have hin₁ := hin.reaches hreaches
  obtain ⟨-, d, hd, rfl⟩ | ⟨-, ⟨-, d, hd, rfl⟩ | ⟨-, hm⟩⟩ := h
  · obtain ⟨hreaches', hd⟩ := htype l hl hin₁ hd
    exact ⟨hreaches.trans hreaches', hd⟩
  · obtain ⟨hreaches', hd⟩ := constructor_each hread hl hin₁ hd
    exact ⟨hreaches.trans hreaches', hd⟩
  · obtain ⟨hreaches', hm⟩ := typedMember_each hread hl hin₁ hm
    exact ⟨hreaches.trans hreaches', hm⟩

theorem typeDeclToDepth_each (namespaceName : Option String) (depth : Nat) {l : Leading}
    (hl : AttributesRead tokens l.attributes) :
    Yields tokens (typeDeclToDepth namespaceName depth l) fun d _ =>
      (Part.member (.type d)).Each Q := by
  induction depth generalizing l with
  | zero =>
    intro c d c' hin h
    simp [typeDeclToDepth] at h
  | succ depth ih =>
    refine (typeDeclWith_yields (memberWith_each hread fun l hl => ih hl) l namespaceName).mono ?_
    rintro d - ⟨hattributes, hmembers⟩
    exact Part.each_typeDecl.2 ⟨hattributes ▸ hl.each hread, hmembers⟩

omit hread in
theorem forall_mem_parts_append {u v : CompilationUnit} {P : Part → Prop} :
    (∀ q ∈ (u.append v).parts, P q) ↔ (∀ q ∈ u.parts, P q) ∧ ∀ q ∈ v.parts, P q := by
  simp only [CompilationUnit.parts, CompilationUnit.append, List.map_append,
    List.forall_mem_append]
  tauto

theorem declarations_each (topLevel : Bool) (rounds : Nat) (namespaceName : Option String) :
    Yields tokens (declarations topLevel rounds namespaceName) fun u _ =>
      ∀ q ∈ u.parts, q.Each Q := by
  induction rounds generalizing topLevel namespaceName with
  | zero =>
    intro c u c' hin h
    simp [declarations] at h
  | succ rounds ih =>
    intro c u c' hin h
    -- `using` directives and the end of a namespace hold nothing
    have hnone (usings : List String) : ∀ q ∈ (CompilationUnit.mk usings [] []).parts, q.Each Q :=
      List.forall_mem_nil _
    simp [declarations] at h
    obtain ⟨-, -, rfl, rfl⟩ | ⟨-, ⟨-, rfl, rfl⟩ | ⟨-, h⟩⟩ := h
    · exact ⟨.refl c, hnone _⟩
    · exact ⟨c.reaches_advance, hnone _⟩
    obtain ⟨-, ⟨-, h⟩ | ⟨-, name, c₁, hname, h⟩⟩ | ⟨-, name, c₁, hname, rest, hrest, rfl⟩ := h
    · obtain ⟨-, as, c₁, has, rest, hrest, rfl⟩ |
        ⟨-, l, c₁, hl, decl, c₂, hdecl, rest, hrest, rfl⟩ := h
      · obtain ⟨hreaches, has⟩ := attributes_yields hin has
        obtain ⟨hreaches', hrest⟩ := ih _ _ (hin.reaches hreaches) hrest
        refine ⟨hreaches.trans hreaches', forall_mem_parts_append.2 ⟨?_, hrest⟩⟩
        simpa [CompilationUnit.parts] using has.each hread
      · obtain ⟨hreaches, hl⟩ := leading_yields hin hl
        obtain ⟨hreaches', hdecl⟩ :=
          typeDeclToDepth_each hread namespaceName _ hl (hin.reaches hreaches) hdecl
        have hreaches := hreaches.trans hreaches'
        obtain ⟨hreaches', hrest⟩ := ih _ _ (hin.reaches hreaches) hrest
        refine ⟨hreaches.trans hreaches', forall_mem_parts_append.2 ⟨?_, hrest⟩⟩
        simpa [CompilationUnit.parts] using hdecl
    · have hreaches := c.reaches_advance.trans (reaches_of_dottedName hname)
      have hreaches := hreaches.trans c₁.reaches_advance
      obtain ⟨-, -, inner, c₂, hinner, rest, hrest, rfl⟩ | ⟨-, hinner⟩ := h
      · obtain ⟨hreaches', hinner⟩ := ih _ _ (hin.reaches hreaches) hinner
        have hreaches := hreaches.trans hreaches'
        obtain ⟨hreaches', hrest⟩ := ih _ _ (hin.reaches hreaches) hrest
        exact ⟨hreaches.trans hreaches', forall_mem_parts_append.2 ⟨hinner, hrest⟩⟩
      · obtain ⟨hreaches', hinner⟩ := ih _ _ (hin.reaches hreaches) hinner
        exact ⟨hreaches.trans hreaches', hinner⟩
    · have hreaches := c.reaches_advance.trans (reaches_of_usingDirective hname)
      obtain ⟨hreaches', hrest⟩ := ih _ _ (hin.reaches hreaches) hrest
      exact ⟨hreaches.trans hreaches', forall_mem_parts_append.2 ⟨hnone _, hrest⟩⟩

theorem compilationUnit_each :
    Yields tokens compilationUnit fun u _ => ∀ q ∈ u.parts, q.Each Q := by
  intro c u c' hin h
  simp only [compilationUnit, runs_bind, runs_bound] at h
  obtain ⟨n, c₁, ⟨rfl, rfl⟩, h⟩ := h
  exact declarations_each hread true _ none hin h

end

end Grammar

/-- What holds of every expression that is read, with all expressions in it, holds of every
expression of a file. -/
theorem SyntaxTree.each_of_parse {file : FileId} {text : String} {t : SyntaxTree}
    {tokens : List Token} {Q : Expr → Prop} (h : parse file text = .ok t)
    (htokens : tokenize text = .ok tokens) (hread : Grammar.ReadsEach tokens Q) {e : Expr}
    (he : t.Holds (.expr e)) : Q e := by
  obtain ⟨-, -, tokens', c, htokens', hrun⟩ := exists_run_of_parse h
  obtain rfl : tokens = tokens' := Except.ok.inj (htokens.symm.trans htokens')
  have hin : Grammar.Within tokens ⟨tokens, 0, 0, byteLength text.toList⟩ := ⟨[], rfl, rfl⟩
  have hparts := (Grammar.compilationUnit_each hread hin hrun).2
  -- what the tree holds stands in an attribute or a type of the file
  have hroot {p : Part} (hp : t.Holds p) : p.Each Q := by
    induction hp with
    | attr ha => exact hparts _ (List.mem_append_left _ (List.mem_map_of_mem ha))
    | type hd => exact hparts _ (List.mem_append_right _ (List.mem_map.2 ⟨_, hd, rfl⟩))
    | part _ hq ih => exact ih.part hq
  exact hroot he e .refl

end PropertyLint
