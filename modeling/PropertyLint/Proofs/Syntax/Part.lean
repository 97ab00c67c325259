/-
# The parts of a syntax tree

Everything in a syntax tree that has a range is a `Part`: identifiers, types, arguments and their
lists, expressions, statements, blocks, attributes, parameters, accessors and members.  A part holds
further parts (`Part.parts`), listed in the order in which they are written.  A part is well nested
if it and all parts in it lie in the text as they should (`Part.Fits`, `Part.WellNested`).
-/
import PropertyLint.Syntax.Tree

namespace PropertyLint

/-! ## Parts -/

/-- Something in a syntax tree that has a range. -/
inductive Part where
  | ident (ident : Ident)
  | type (type : TypeRef)
  | argument (arg : Argument Expr)
  | args (list : ArgumentList Expr)
  | expr (expr : Expr)
  | stmt (stmt : Stmt)
  | block (block : Block Stmt)
  | attr (attr : Attribute)
  | parameter (param : Parameter)
  | accessor (accessor : Accessor)
  | member (decl : Member)

/-- The range of a part. -/
def Part.range : Part → OffsetRange
  | ident i => i.range
  | type t => t.range
  | argument a => a.node.range
  | args l => l.range
  | expr e => e.range
  | stmt s => s.range
  | block b => b.range
  | attr a => a.range
  | parameter p => p.node.range
  | accessor a => a.node.range
  | member m => m.range

/-- The name that an identifier stands for. -/
def Part.name? : Part → Option String
  | ident i => some i.text
  | _ => none

/-! ## Parts of a part -/

/-- The identifier of a segment and its type arguments. -/
def NameSegment.parts (s : NameSegment) : List Part := .ident s.name :: s.args.map .type

/-- The parts of a type. -/
def TypeRef.parts : TypeRef → List Part
  | keyword _ _ => []
  | named _ segments => segments.flatMap NameSegment.parts
  | array _ element => [.type element]
  | nullable _ underlying => [.type underlying]

/-- The parts of an argument. -/
def Argument.parts (a : Argument Expr) : List Part :=
  a.name.toList.map (fun name => .ident name.ident) ++ [.expr a.value]

/-- The parts of an expression. -/
def Expr.parts : Expr → List Part
  | literal _ _ | self _ | base _ => []
  | identifier _ name => [.ident name]
  | member _ target name => [.expr target, .ident name]
  | invoke _ callee args => [.expr callee, .args args]
  | create _ type args => .type type :: args.toList.map .args
  | createArray _ type size => .type type :: size.toList.map .expr
  | typeOf _ type => [.type type]
  | default _ type => type.toList.map .type
  | cast _ type operand => [.type type, .expr operand]
  | asType _ operand type => [.expr operand, .type type]
  | isType _ operand type designation =>
    [.expr operand, .type type] ++ designation.toList.map .ident
  | binary _ _ left right => [.expr left, .expr right]
  | unary _ _ operand => [.expr operand]
  | conditional _ condition whenTrue whenFalse =>
    [.expr condition, .expr whenTrue, .expr whenFalse]
  | assign _ target value => [.expr target, .expr value]
  | paren _ inner => [.expr inner]

/-- The parts of a statement. -/
def Stmt.parts : Stmt → List Part
  | expression _ value => [.expr value]
  | returning _ value | throwing _ value => value.toList.map .expr
  | localDecl _ type name init => [.type type, .ident name] ++ init.toList.map .expr
  | branch _ condition yes no => [.expr condition, .stmt yes] ++ no.toList.map .stmt
  | block _ body => [.block body]
  | empty _ => []

/-- The parts of a body, which has braces or an arrow. -/
def Body.parts (b : Body) : List Part := b.block.toList.map .block ++ b.arrow.toList.map .expr

/-- The parts of an attribute. -/
def Attribute.parts (a : Attribute) : List Part := .type a.name :: a.args.toList.map .args

/-- The parts of a parameter. -/
def Parameter.parts (p : Parameter) : List Part :=
  p.attributes.map .attr ++ [.type p.type, .ident p.name] ++ p.default.toList.map .expr

/-- The parts of a member. -/
def Member.parts : Member → List Part
  | field d => d.attributes.map .attr ++ [.type d.type, .ident d.name] ++ d.init.toList.map .expr
  | property d =>
    d.attributes.map .attr ++ [.type d.type, .ident d.name] ++ d.arrow.toList.map .expr ++
      d.accessors.map .accessor ++ d.init.toList.map .expr
  | method d =>
    d.attributes.map .attr ++ [.type d.returnType] ++ d.interface.toList.map .type ++
      [.ident d.name] ++ d.typeParams.map .ident ++ d.params.map .parameter ++ d.body.parts
  | constructor d =>
    d.attributes.map .attr ++ [.ident d.name] ++ d.params.map .parameter ++ d.body.parts
  | type d =>
    d.header.attributes.map .attr ++ [.ident d.header.name] ++ d.header.typeParams.map .ident ++
      d.header.bases.map .type ++ d.members.map .member

/-- The value of an integer literal. -/
def Part.integer? : Part → Option Nat
  | expr (.literal _ (.integer value)) => some value
  | _ => none

/-- The parts of a part in the order of the source. -/
def Part.parts : Part → List Part
  | ident _ => []
  | type t => t.parts
  | argument a => a.parts
  | args l => l.args.map .argument
  | expr e => e.parts
  | stmt s => s.parts
  | block b => b.statements.map .stmt
  | attr a => a.parts
  | parameter p => p.parts
  | accessor a => a.body.parts
  | member m => m.parts

/-- The attributes and the types of a file. -/
def CompilationUnit.parts (u : CompilationUnit) : List Part :=
  u.attributes.map .attr ++ u.types.map fun d => .member (.type d)

/-- The part is found somewhere in the tree. -/
inductive SyntaxTree.Holds (t : SyntaxTree) : Part → Prop where
  | attr {a : Attribute} : a ∈ t.root.attributes → Holds t (.attr a)
  | type {d : TypeDecl} : d ∈ t.root.types → Holds t (.member (.type d))
  | part {p q : Part} : Holds t p → q ∈ p.parts → Holds t q

/-! ## Nesting -/

/-- The first range ends before the second one starts. -/
def OffsetRange.Precedes (r s : OffsetRange) : Prop := r.stop ≤ s.start

/-- The range goes from the start of a token to the end of one. -/
def OffsetRange.OnTokens (tokens : List Token) (r : OffsetRange) : Prop :=
  (∃ t ∈ tokens, t.range.start = r.start) ∧ ∃ t ∈ tokens, t.range.stop = r.stop

/-- The first part ends before the second one starts. -/
def Part.Before (p q : Part) : Prop := p.range.Precedes q.range

namespace Part

variable {cs : List Char} {p q : Part} {ps qs : List Part}

/-- The part covers some characters of the text, an identifier those of its name, perhaps with the
sign in front of it, and the parts of it lie in it one behind the other. -/
structure Fits (cs : List Char) (p : Part) : Prop where
  nonempty : p.range.start < p.range.stop
  slice : ∃ inside, slice? cs p.range.start p.range.stop = some inside ∧
    ∀ w, p.name? = some w → inside = w.toList ∨ inside = '@' :: w.toList
  contains : ∀ q ∈ p.parts, p.range.contains q.range = true
  ordered : p.parts.Pairwise Before

/-- The part and all parts in it lie in the text as they should. -/
inductive WellNested (cs : List Char) : Part → Prop where
  | mk {p : Part} : p.Fits cs → (∀ q ∈ p.parts, WellNested cs q) → WellNested cs p

/-- An integer literal has the value of a token. -/
def IntegerIn (tokens : List Token) (p : Part) : Prop :=
  ∀ value, p.integer? = some value → ∃ t ∈ tokens, t.kind = .integer value

/-- Only an expression without parts is an integer literal. -/
theorem integer?_eq_none (h : p.parts ≠ []) : p.integer? = none := by
  unfold integer?
  split
  · exact absurd rfl h
  · rfl

theorem integerIn_of_none {tokens : List Token} (h : p.integer? = none) : p.IntegerIn tokens := by
  intro value hvalue
  rw [h] at hvalue
  cases hvalue

/-- The part and all parts in it start with a token and end with one, and integer literals among
them have the values of tokens. -/
inductive OnTokens (tokens : List Token) : Part → Prop where
  | mk {p : Part} : p.range.OnTokens tokens → p.IntegerIn tokens →
      (∀ q ∈ p.parts, OnTokens tokens q) → OnTokens tokens p

theorem OnTokens.range {tokens : List Token} (h : p.OnTokens tokens) : p.range.OnTokens tokens := by
  cases h with
  | mk hrange _ _ => exact hrange

theorem OnTokens.integerIn {tokens : List Token} (h : p.OnTokens tokens) : p.IntegerIn tokens := by
  cases h with
  | mk _ hinteger _ => exact hinteger

theorem OnTokens.part {tokens : List Token} (h : p.OnTokens tokens) (hq : q ∈ p.parts) :
    q.OnTokens tokens := by
  cases h with
  | mk _ _ hparts => exact hparts q hq

theorem WellNested.fits (h : p.WellNested cs) : p.Fits cs := by
  cases h with
  | mk hfits _ => exact hfits

@[simp] theorem range_attr (a : Attribute) : (Part.attr a).range = a.range := rfl

@[simp] theorem range_member (m : Member) : (Part.member m).range = m.range := rfl

theorem WellNested.part (h : p.WellNested cs) (hq : q ∈ p.parts) : q.WellNested cs := by
  cases h with
  | mk _ hparts => exact hparts q hq

/-- The parts are well nested and lie between two offsets, one behind the other. -/
structure Between (cs : List Char) (start : Nat) (ps : List Part) (stop : Nat) : Prop where
  wellNested : ∀ p ∈ ps, p.WellNested cs
  start : ∀ p ∈ ps, start ≤ p.range.start
  stop : ∀ p ∈ ps, p.range.stop ≤ stop
  ordered : ps.Pairwise Before

namespace Between

variable {start stop start' stop' : Nat}

theorem nil : Between cs start [] stop :=
  ⟨List.forall_mem_nil _, List.forall_mem_nil _, List.forall_mem_nil _, .nil⟩

theorem singleton (h : p.WellNested cs) : Between cs p.range.start [p] p.range.stop :=
  ⟨by simpa using h, by simp, by simp, List.pairwise_singleton _ _⟩

theorem mono (h : Between cs start ps stop) (hstart : start' ≤ start) (hstop : stop ≤ stop') :
    Between cs start' ps stop' :=
  ⟨h.wellNested, fun p hp => Nat.le_trans hstart (h.start p hp),
    fun p hp => Nat.le_trans (h.stop p hp) hstop, h.ordered⟩

/-- Parts between two offsets and parts behind them. -/
theorem append (h : Between cs start ps stop) (h' : Between cs start' qs stop')
    (hmid : stop ≤ start') (hstart : start ≤ start') (hstop : stop ≤ stop') :
    Between cs start (ps ++ qs) stop' := by
  refine ⟨?_, ?_, ?_, ?_⟩
  · exact List.forall_mem_append.2 ⟨h.wellNested, h'.wellNested⟩
  · exact List.forall_mem_append.2 ⟨h.start, (h'.mono hstart (Nat.le_refl _)).start⟩
  · exact List.forall_mem_append.2 ⟨(h.mono (Nat.le_refl _) hstop).stop, h'.stop⟩
  · refine List.pairwise_append.2 ⟨h.ordered, h'.ordered, fun p hp q hq => ?_⟩
    exact Nat.le_trans (h.stop p hp) (Nat.le_trans hmid (h'.start q hq))

/-- Parts take some room. -/
theorem lt (h : Between cs start ps stop) (hne : ps ≠ []) : start < stop := by
  obtain ⟨p, ps, rfl⟩ := List.exists_cons_of_ne_nil hne
  have hp := (h.wellNested p (.head _)).fits.nonempty
  have hstart := h.start p (.head _)
  have hstop := h.stop p (.head _)
  omega

/-- A part that is no identifier is well nested if its parts lie in it one behind the other. -/
theorem node (h : Between cs p.range.start p.parts p.range.stop)
    (hne : p.range.start < p.range.stop) (hname : p.name? = none)
    (hslice : ∃ inside, slice? cs p.range.start p.range.stop = some inside) :
    p.WellNested cs := by
  obtain ⟨inside, hslice⟩ := hslice
  refine .mk ⟨hne, ⟨inside, hslice, by simp [hname]⟩, fun q hq => ?_, h.ordered⟩ h.wellNested
  simp only [OffsetRange.contains, Bool.and_eq_true, decide_eq_true_eq]
  exact ⟨h.start q hq, h.stop q hq⟩

end Between

/-- The parts of a well nested part lie in it. -/
theorem WellNested.between (h : p.WellNested cs) :
    Between cs p.range.start p.parts p.range.stop := by
  have hcontains := h.fits.contains
  simp only [OffsetRange.contains, Bool.and_eq_true, decide_eq_true_eq] at hcontains
  exact ⟨fun _ hq => h.part hq, fun q hq => (hcontains q hq).1, fun q hq => (hcontains q hq).2,
    h.fits.ordered⟩

end Part

end PropertyLint
