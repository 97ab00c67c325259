/-
# Reading expressions

What is known of every successful run of the parser of expressions: it has read some tokens, the
expression has their range, and so has every argument in it, whose value was read in front of a
comma or a closing parenthesis (`expressionToDepth_reads`).
-/
import PropertyLint.Proofs.Syntax.Reading
import PropertyLint.Proofs.Syntax.TypeTokens
import PropertyLint.Syntax.Walk

namespace PropertyLint.Grammar

variable {c c' : Cursor} {tokens : List Token}

/-! ## What is known of expressions -/

/-- The value of the argument has been read somewhere in the tokens, in front of a comma or a
closing parenthesis. -/
def ArgumentRead (tokens : List Token) (a : Argument Expr) : Prop :=
  ∃ depth c c', Within tokens c ∧ Runs (expressionToDepth depth) c a.value c' ∧
    (c'.head = .punct .comma ∨ c'.head = .punct .closeParen)

mutual

/-- All arguments in the expression have been read in the tokens. -/
def ExprRead (tokens : List Token) : Expr → Prop
  | .member _ target _ => ExprRead tokens target
  | .invoke _ callee ⟨_, args⟩ => ExprRead tokens callee ∧ ArgsRead tokens args
  | .create _ _ (some ⟨_, args⟩) => ArgsRead tokens args
  | .createArray _ _ (some size) => ExprRead tokens size
  | .cast _ _ operand => ExprRead tokens operand
  | .asType _ operand _ => ExprRead tokens operand
  | .isType _ operand _ _ => ExprRead tokens operand
  | .binary _ _ left right => ExprRead tokens left ∧ ExprRead tokens right
  | .unary _ _ operand => ExprRead tokens operand
  | .conditional _ condition whenTrue whenFalse =>
    ExprRead tokens condition ∧ ExprRead tokens whenTrue ∧ ExprRead tokens whenFalse
  | .assign _ target value => ExprRead tokens target ∧ ExprRead tokens value
  | .paren _ inner => ExprRead tokens inner
  | _ => True

/-- The arguments and all arguments in them have been read in the tokens. -/
def ArgsRead (tokens : List Token) : List (Argument Expr) → Prop
  | [] => True
  | ⟨node, name, value⟩ :: rest =>
    ArgumentRead tokens ⟨node, name, value⟩ ∧ ExprRead tokens value ∧ ArgsRead tokens rest

end

@[simp, grind =]
theorem exprRead_invoke {node : Node} {callee : Expr} {list : ArgumentList Expr} :
    ExprRead tokens (.invoke node callee list) ↔
      ExprRead tokens callee ∧ ArgsRead tokens list.args := by
  cases list
  rfl

@[simp, grind =]
theorem exprRead_create {node : Node} {type : TypeRef} {list : ArgumentList Expr} :
    ExprRead tokens (.create node type (some list)) ↔ ArgsRead tokens list.args := by
  cases list
  rfl

theorem argsRead_iff {args : List (Argument Expr)} :
    ArgsRead tokens args ↔ ∀ a ∈ args, ArgumentRead tokens a ∧ ExprRead tokens a.value := by
  induction args with
  | nil => simp [ArgsRead]
  | cons a args ih =>
    cases a
    rw [ArgsRead, ih, List.forall_mem_cons, and_assoc]

/-- The arguments that the expression itself passes have been read in the tokens. -/
def OwnArgsRead (tokens : List Token) (e : Expr) : Prop :=
  ∀ list, e.argumentList? = some list → ∀ a ∈ list.args, ArgumentRead tokens a

theorem ExprRead.own {e : Expr} (h : ExprRead tokens e) : OwnArgsRead tokens e := by
  intro list hlist a ha
  cases e with
  | invoke node callee args =>
    obtain rfl := Option.some.inj hlist
    exact (argsRead_iff.1 (exprRead_invoke.1 h).2 a ha).1
  | create node type args =>
    obtain rfl : args = some list := hlist
    exact (argsRead_iff.1 (exprRead_create.1 h) a ha).1
  | _ => simp [Expr.argumentList?] at hlist

theorem ExprRead.children {e : Expr} (h : ExprRead tokens e) :
    ∀ x ∈ e.children, ExprRead tokens x := by
  cases e with
  | invoke node callee args =>
    rw [exprRead_invoke, argsRead_iff] at h
    simp only [Expr.children, List.forall_mem_cons, List.forall_mem_map]
    exact ⟨h.1, fun a ha => (h.2 a ha).2⟩
  | create node type args =>
    obtain _ | args := args
    · simp [Expr.children]
    · rw [exprRead_create, argsRead_iff] at h
      simp only [Expr.children, List.forall_mem_map]
      exact fun a ha => (h a ha).2
  | createArray node type size => cases size <;> simp_all [Expr.children, ExprRead]
  | _ => simp_all [Expr.children, ExprRead]

/-- What holds of the whole expression holds of all its parts. -/
theorem ExprRead.preorder {e : Expr} (h : ExprRead tokens e) :
    ∀ x ∈ e.preorder, OwnArgsRead tokens x := by
  rw [Expr.preorder_eq, List.forall_mem_cons]
  refine ⟨h.own, ?_⟩
  intro x hx
  obtain ⟨child, hchild, hx⟩ := List.mem_flatMap.1 hx
  -- an expression has more parts than each of its children
  have hshorter : child.preorder.length < e.preorder.length := by
    refine Nat.lt_of_le_of_lt ?_ e.length_children_preorder
    exact (List.sublist_flatten_of_mem (List.mem_map_of_mem hchild)).length_le
  exact (h.children child hchild).preorder x hx
termination_by e.preorder.length

/-- What is known of a parser of expressions. -/
structure ReadsExpr (tokens : List Token) (p : Parser Expr) : Prop where
  reads : ∀ ⦃c e c'⦄, Within tokens c → Runs p c e c' →
    c.Reaches c' ∧ c'.tokens.length < c.tokens.length ∧
      e.range = c'.rangeSince c.position ∧ ExprRead tokens e

/-! ## Arguments -/

@[grind →]
theorem reaches_of_argumentName {inAttribute : Bool} {name : Option ArgumentName}
    (h : Runs (argumentName inAttribute) c name c') : c.Reaches c' := by
  simp [argumentName] at h
  grind

/-- The parser reads expressions of some depth. -/
def ReadsToDepth (p : Parser Expr) : Prop :=
  ∀ ⦃c e c'⦄, Runs p c e c' → ∃ depth, Runs (expressionToDepth depth) c e c'

section
variable {expression : Parser Expr} (hexpr : ReadsExpr tokens expression)
  (hdepth : ReadsToDepth expression)
include hexpr hdepth

theorem argument_yields (inAttribute : Bool) :
    Yields tokens (argument expression inAttribute) fun a c =>
      c.head = .punct .comma ∨ c.head = .punct .closeParen →
        ArgumentRead tokens a ∧ ExprRead tokens a.value := by
  -- the value is read at the cursor itself, behind a name or a modifier
  have hvalue {c c' : Cursor} {e : Expr} (hin : Within tokens c) (h : Runs expression c e c') :
      c.Reaches c' ∧ ExprRead tokens e ∧
        ∀ n name, (c'.head = .punct .comma ∨ c'.head = .punct .closeParen) →
          ArgumentRead tokens ⟨n, name, e⟩ := by
    obtain ⟨hreaches, -, -, hread⟩ := hexpr.reads hin h
    obtain ⟨depth, hrun⟩ := hdepth h
    exact ⟨hreaches, hread, fun n name hnext => ⟨depth, c, c', hin, hrun, hnext⟩⟩
  intro c a c' hin h
  simp [argument] at h
  obtain ⟨name, c₁, hname, h⟩ := h
  have hreaches := reaches_of_argumentName hname
  obtain ⟨-, e, c₂, he, rfl, rfl⟩ | ⟨-, e, c₂, he, rfl, rfl⟩ := h
  · have hreaches := hreaches.trans c₁.reaches_advance
    obtain ⟨hreaches', hread, hargument⟩ := hvalue (hin.reaches hreaches) he
    exact ⟨(hreaches.trans hreaches').trans c₂.reaches_renew, fun h => ⟨hargument _ _ h, hread⟩⟩
  · obtain ⟨hreaches', hread, hargument⟩ := hvalue (hin.reaches hreaches) he
    exact ⟨(hreaches.trans hreaches').trans c₂.reaches_renew, fun h => ⟨hargument _ _ h, hread⟩⟩

theorem argumentList_yields (inAttribute : Bool) :
    Yields tokens (argumentList expression inAttribute) fun list _ =>
      ArgsRead tokens list.args := by
  have hitems := inParens_yields (argument_yields hexpr hdepth inAttribute)
  unfold Yields at hitems ⊢
  intro c list c' hin h
  simp [argumentList] at h
  obtain ⟨args, hargs, rfl⟩ := h
  obtain ⟨hreaches, hread⟩ := hitems hin hargs
  exact ⟨hreaches, argsRead_iff.2 hread⟩

/-! ## Words, literals and postfix forms -/

theorem creation_reads {start : Nat} {e : Expr} (hin : Within tokens c)
    (h : Runs (creation expression start) c e c') :
    c.Reaches c' ∧ e.range = c'.rangeSince start ∧ ExprRead tokens e := by
  have hargs := argumentList_yields hexpr hdepth false
  unfold Yields at hargs
  have hexpr := hexpr.reads
  simp [creation] at h
  obtain ⟨created, c₁, htype, h⟩ := h
  cases created
  all_goals simp at h
  all_goals grind [ExprRead, Expr.range, Expr.node]

omit hdepth hexpr in
@[grind →]
theorem reaches_of_typeInParens {t : TypeRef} (h : Runs typeInParens c t c') :
    c.Reaches c' := by
  simp [typeInParens] at h
  grind

theorem wordExpression_reads {word : String} {range : OffsetRange} {e : Expr}
    (hin : Within tokens c) (hhead : c.head = .word word)
    (h : Runs (wordExpression expression word range) c e c') :
    c.Reaches c' ∧ c'.tokens.length < c.tokens.length ∧
      e.range = c'.rangeSince range.start ∧ ExprRead tokens e := by
  have hcreation {c c' : Cursor} {e : Expr} (hin : Within tokens c)
      (h : Runs (creation expression range.start) c e c') :=
    creation_reads hexpr hdepth hin h
  simp [wordExpression] at h
  split at h
  all_goals try simp at h
  all_goals grind [ExprRead, Expr.range, Expr.node]

theorem primary_reads : ReadsExpr tokens (primary expression) := by
  have hword {c c' : Cursor} {word : String} {range : OffsetRange} {e : Expr}
      (hin : Within tokens c) (hhead : c.head = .word word)
      (h : Runs (wordExpression expression word range) c e c') :=
    wordExpression_reads hexpr hdepth hin hhead h
  have hexpr := hexpr.reads
  constructor
  intro c e c' hin h
  cases htokens : c.tokens with
  | nil => simp [primary, htokens] at h
  | cons t rest =>
    obtain ⟨kind, range, doc⟩ := t
    have hhead : c.head = kind := by rw [Cursor.head, htokens]
    have hposition : c.position = range.start := by rw [Cursor.position, htokens]
    cases kind with
    | word w =>
      simp [primary, htokens] at h
      rw [hposition, ← htokens]
      exact hword hin hhead h
    | punct p =>
      -- of all marks only the opening parenthesis starts an expression
      by_cases hp : p = .openParen
      · subst hp
        simp [primary, htokens] at h
        have hlength := Cursor.length_advance_of_punct hhead
        grind [ExprRead, Expr.range, Expr.node]
      · simp [primary, htokens, hp] at h
    | endOfText => simp [primary, htokens] at h
    | _ =>
      simp [primary, htokens] at h
      have hlength := Cursor.length_advance_lt (by rw [hhead]; simp)
      grind [ExprRead, Expr.range, Expr.node]

theorem postfixes_reads {start rounds : Nat} {target e : Expr} (hin : Within tokens c)
    (hrange : target.range = c.rangeSince start) (htarget : ExprRead tokens target)
    (h : Runs (postfixes expression start rounds target) c e c') :
    c.Reaches c' ∧ e.range = c'.rangeSince start ∧ ExprRead tokens e := by
  have hargs := argumentList_yields hexpr hdepth false
  unfold Yields at hargs
  induction rounds generalizing target c with
  | zero => simp [postfixes] at h
  | succ rounds ih =>
    simp [postfixes] at h
    obtain ⟨-, ⟨-, args, c₁, hlist, h⟩ | ⟨-, rfl, rfl⟩⟩ | ⟨-, name, c₁, hname, h⟩ := h
    · obtain ⟨hreaches, hread⟩ := hargs hin hlist
      have hreaches := hreaches.trans c₁.reaches_renew
      obtain ⟨hreaches', hrest⟩ :=
        ih (hin.reaches hreaches) rfl (exprRead_invoke.2 ⟨htarget, hread⟩) h
      exact ⟨hreaches.trans hreaches', hrest⟩
    · exact ⟨.refl c, hrange, htarget⟩
    · have hreaches := c.reaches_advance.trans (reaches_of_identifier hname)
      have hreaches := hreaches.trans c₁.reaches_renew
      obtain ⟨hreaches', hrest⟩ := ih (hin.reaches hreaches) rfl (by rwa [ExprRead]) h
      exact ⟨hreaches.trans hreaches', hrest⟩

theorem postfixed_reads : ReadsExpr tokens (postfixed expression) := by
  have hprimary := (primary_reads hexpr hdepth).reads
  constructor
  intro c e c' hin h
  simp [postfixed] at h
  obtain ⟨target, c₁, htarget, h⟩ := h
  obtain ⟨hreaches, hlength, hrange, hread⟩ := hprimary hin htarget
  obtain ⟨hreaches', hrange', hread'⟩ :=
    postfixes_reads hexpr hdepth (hin.reaches hreaches) hrange hread h
  exact ⟨hreaches.trans hreaches', by grind, hrange', hread'⟩

/-! ## Operators -/

omit hexpr hdepth in
@[grind →]
theorem reaches_of_castType {t : TypeRef} (h : Runs castType c t c') : c.Reaches c' := by
  simp [castType] at h
  grind

theorem unaryWith_reads {unary : Parser Expr} (hunary : ReadsExpr tokens unary) :
    ReadsExpr tokens (unaryWith unary expression) := by
  have hpostfixed := (postfixed_reads hexpr hdepth).reads
  have hunary := hunary.reads
  constructor
  intro c e c' hin h
  simp [unaryWith, unaryOp] at h
  obtain ⟨-, op, c₁, ⟨⟨-, rfl⟩, rfl⟩ | ⟨⟨hminus, rfl⟩, rfl⟩, h⟩ |
    ⟨hbang, operand, c₁, h, rfl, rfl⟩ := h
  · simp at h
    obtain ⟨hopen, cast, c₁, hcast, h⟩ | ⟨-, h⟩ := h
    · obtain ⟨t, hcast, rfl⟩ | ⟨hno, rfl⟩ := hcast
      · simp at h
        grind [ExprRead, Expr.range, Expr.node]
      · have hreaches := hno.reaches .castType
        obtain ⟨_, _, -, -, rfl⟩ := hno
        obtain ⟨hreaches', hread⟩ := hpostfixed (hin.reaches hreaches) h
        exact ⟨hreaches.trans hreaches', hread⟩
    · exact hpostfixed hin h
  · simp at h
    grind [ExprRead, Expr.range, Expr.node]
  · grind [ExprRead, Expr.range, Expr.node]

end

theorem isPattern_reads {start : Nat} {left e : Expr} (hleft : ExprRead tokens left)
    (h : Runs (isPattern start left) c e c') :
    c.Reaches c' ∧ e.range = c'.rangeSince start ∧ ExprRead tokens e := by
  simp [isPattern] at h
  obtain ⟨-, rfl, rfl⟩ | ⟨-, t, c₁, ht, h⟩ := h
  · refine ⟨c.reaches_advance.trans (c.advance.reaches_renew.trans c.advance.renew.reaches_renew),
      rfl, ?_⟩
    rw [ExprRead]
    exact ⟨hleft, trivial⟩
  · have hreaches := reaches_of_type ht
    obtain ⟨-, i, c₂, hi, rfl, rfl⟩ | ⟨-, rfl, rfl⟩ := h
    · have hreaches := hreaches.trans (reaches_of_identifier hi)
      exact ⟨hreaches.trans c₂.reaches_renew, rfl, by rwa [ExprRead]⟩
    · exact ⟨hreaches.trans c₁.reaches_renew, rfl, by rwa [ExprRead]⟩

theorem binaryRest_reads {operand : Parser Expr} (hoperand : ReadsExpr tokens operand)
    {level : BinaryLevel} {start rounds : Nat} {left e : Expr} (hin : Within tokens c)
    (hrange : left.range = c.rangeSince start) (hleft : ExprRead tokens left)
    (h : Runs (binaryRest operand level start rounds left) c e c') :
    c.Reaches c' ∧ e.range = c'.rangeSince start ∧ ExprRead tokens e := by
  have hoperand := hoperand.reads
  induction rounds generalizing left c with
  | zero => simp [binaryRest] at h
  | succ rounds ih =>
    have hpattern {right : Expr} {c₁ : Cursor}
        (hright : Runs (isPattern start left) c.advance right c₁)
        (h : Runs (binaryRest operand level start rounds right) c₁ e c') :
        c.Reaches c' ∧ e.range = c'.rangeSince start ∧ ExprRead tokens e := by
      obtain ⟨hreaches, hrange, hread⟩ := isPattern_reads hleft hright
      have hreaches := c.reaches_advance.trans hreaches
      obtain ⟨hreaches', hrest⟩ := ih (hin.reaches hreaches) hrange hread h
      exact ⟨hreaches.trans hreaches', hrest⟩
    have hcast {t : TypeRef} {node : Node} {c₁ : Cursor}
        (ht : Runs (type .expression) c.advance t c₁) (hnode : node.range = c₁.rangeSince start)
        (h : Runs (binaryRest operand level start rounds (.asType node left t)) c₁.renew e c') :
        c.Reaches c' ∧ e.range = c'.rangeSince start ∧ ExprRead tokens e := by
      have hreaches := (c.reaches_advance.trans (reaches_of_type ht)).trans c₁.reaches_renew
      have hrange : (Expr.asType node left t).range = c₁.renew.rangeSince start := hnode
      obtain ⟨hreaches', hrest⟩ := ih (hin.reaches hreaches) hrange (by rwa [ExprRead]) h
      exact ⟨hreaches.trans hreaches', hrest⟩
    cases hop : level.op? c.head with
    | some op =>
      simp [binaryRest, hop] at h
      obtain ⟨-, right, c₁, hright, h⟩ | ⟨-, ⟨-, t, c₁, ht, h⟩ | ⟨-, right, c₁, hright, h⟩⟩ := h
      · exact hpattern hright h
      · exact hcast ht rfl h
      · obtain ⟨hreaches, -, -, hread⟩ := hoperand (hin.reaches c.reaches_advance) hright
        have hreaches := (c.reaches_advance.trans hreaches).trans c₁.reaches_renew
        obtain ⟨hreaches', hrest⟩ := ih (hin.reaches hreaches) rfl
          (by rw [ExprRead]; exact ⟨hleft, hread⟩) h
        exact ⟨hreaches.trans hreaches', hrest⟩
    | none =>
      simp [binaryRest, hop] at h
      obtain ⟨-, right, c₁, hright, h⟩ | ⟨-, ⟨-, t, c₁, ht, h⟩ | ⟨-, rfl, rfl⟩⟩ := h
      · exact hpattern hright h
      · exact hcast ht rfl h
      · exact ⟨.refl c, hrange, hleft⟩

theorem binary_reads {unary : Parser Expr} (hunary : ReadsExpr tokens unary)
    (levels : List BinaryLevel) : ReadsExpr tokens (binary unary levels) := by
  induction levels with
  | nil => exact hunary
  | cons level tighter ih =>
    constructor
    intro c e c' hin h
    simp [binary] at h
    obtain ⟨left, c₁, hleft, h⟩ := h
    obtain ⟨hreaches, hlength, hrange, hread⟩ := ih.reads hin hleft
    obtain ⟨hreaches', hrange', hread'⟩ :=
      binaryRest_reads ih (hin.reaches hreaches) hrange hread h
    exact ⟨hreaches.trans hreaches', by grind, hrange', hread'⟩

theorem coalesceWith_reads {coalesce unary : Parser Expr} (hcoalesce : ReadsExpr tokens coalesce)
    (hunary : ReadsExpr tokens unary) : ReadsExpr tokens (coalesceWith coalesce unary) := by
  have hbinary := (binary_reads hunary binaryLevels).reads
  have hcoalesce := hcoalesce.reads
  constructor
  intro c e c' hin h
  simp [coalesceWith] at h
  obtain ⟨left, c₁, hleft, h⟩ := h
  obtain ⟨hreaches, hlength, hrange, hread⟩ := hbinary hin hleft
  obtain ⟨⟨-, rfl⟩, rfl⟩ | ⟨-, right, c₂, hright, rfl, rfl⟩ := h
  · exact ⟨hreaches, hlength, hrange, hread⟩
  · have hreaches := hreaches.trans c₁.reaches_advance
    obtain ⟨hreaches', hlength', -, hread'⟩ := hcoalesce (hin.reaches hreaches) hright
    refine ⟨(hreaches.trans hreaches').trans c₂.reaches_renew,
      Nat.lt_of_lt_of_le hlength' hreaches.length_le, rfl, ?_⟩
    rw [ExprRead]
    exact ⟨hread, hread'⟩

theorem conditionalWith_reads {expression coalesce : Parser Expr}
    (hexpr : ReadsExpr tokens expression) (hcoalesce : ReadsExpr tokens coalesce) :
    ReadsExpr tokens (conditionalWith expression coalesce) := by
  have hexpr := hexpr.reads
  have hcoalesce := hcoalesce.reads
  constructor
  intro c e c' hin h
  simp [conditionalWith] at h
  obtain ⟨condition, c₁, hcondition, h⟩ := h
  obtain ⟨hreaches, hlength, hrange, hread⟩ := hcoalesce hin hcondition
  obtain ⟨⟨-, rfl⟩, rfl⟩ | ⟨-, whenTrue, c₂, htrue, -, whenFalse, c₃, hfalse, rfl, rfl⟩ := h
  · exact ⟨hreaches, hlength, hrange, hread⟩
  · have hreaches := hreaches.trans c₁.reaches_advance
    obtain ⟨hreaches', -, -, hread'⟩ := hexpr (hin.reaches hreaches) htrue
    have hreaches := (hreaches.trans hreaches').trans c₂.reaches_advance
    obtain ⟨hreaches'', hlength'', -, hread''⟩ := hexpr (hin.reaches hreaches) hfalse
    refine ⟨(hreaches.trans hreaches'').trans c₃.reaches_renew,
      Nat.lt_of_lt_of_le hlength'' hreaches.length_le, rfl, ?_⟩
    rw [ExprRead]
    exact ⟨hread, hread', hread''⟩

theorem assignmentWith_reads {expression coalesce : Parser Expr}
    (hexpr : ReadsExpr tokens expression) (hcoalesce : ReadsExpr tokens coalesce) :
    ReadsExpr tokens (assignmentWith expression coalesce) := by
  have hconditional := (conditionalWith_reads hexpr hcoalesce).reads
  have hexpr := hexpr.reads
  constructor
  intro c e c' hin h
  simp [assignmentWith] at h
  obtain ⟨target, c₁, htarget, h⟩ := h
  obtain ⟨hreaches, hlength, hrange, hread⟩ := hconditional hin htarget
  obtain ⟨⟨-, rfl⟩, rfl⟩ | ⟨-, value, c₂, hvalue, rfl, rfl⟩ := h
  · exact ⟨hreaches, hlength, hrange, hread⟩
  · have hreaches := hreaches.trans c₁.reaches_advance
    obtain ⟨hreaches', hlength', -, hread'⟩ := hexpr (hin.reaches hreaches) hvalue
    refine ⟨(hreaches.trans hreaches').trans c₂.reaches_renew,
      Nat.lt_of_lt_of_le hlength' hreaches.length_le, rfl, ?_⟩
    rw [ExprRead]
    exact ⟨hread, hread'⟩

/-! ## Expressions -/

theorem toDepth_reads (depth : Nat) :
    ReadsExpr tokens (expressionToDepth depth) ∧ ReadsExpr tokens (coalesceToDepth depth) ∧
      ReadsExpr tokens (unaryToDepth depth) := by
  induction depth with
  | zero =>
    refine ⟨⟨?_⟩, ⟨?_⟩, ⟨?_⟩⟩ <;> intro c e c' hin h <;>
      simp [expressionToDepth, coalesceToDepth, unaryToDepth] at h
  | succ depth ih =>
    obtain ⟨hexpr, hcoalesce, hunary⟩ := ih
    have hdepth : ReadsToDepth (expressionToDepth depth) := fun c e c' h => ⟨depth, h⟩
    refine ⟨?_, ?_, ?_⟩
    · exact assignmentWith_reads hexpr hcoalesce
    · exact coalesceWith_reads hcoalesce hunary
    · exact unaryWith_reads hexpr hdepth hunary

theorem expressionToDepth_reads (depth : Nat) : ReadsExpr tokens (expressionToDepth depth) :=
  (toDepth_reads depth).1

theorem expression_readsToDepth : ReadsToDepth expression := by
  intro c e c' h
  simp only [expression, runs_bind, runs_bound] at h
  obtain ⟨n, c₁, ⟨rfl, rfl⟩, h⟩ := h
  exact ⟨_, h⟩

theorem expression_reads : ReadsExpr tokens expression := by
  constructor
  intro c e c' hin h
  obtain ⟨depth, h⟩ := expression_readsToDepth h
  exact (expressionToDepth_reads depth).reads hin h

end PropertyLint.Grammar
