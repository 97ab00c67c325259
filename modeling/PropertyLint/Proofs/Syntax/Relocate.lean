/-
# Moved syntax trees

A function on offsets moves every place in a syntax tree and keeps everything else: words, values,
identities and the shape of the tree.  A move is defined by recursion on the tree; lists and options
are moved item by item.
-/
import Mathlib.Order.MinMax
import PropertyLint.Syntax.Grammar.Decls

namespace PropertyLint

variable (φ : Nat → Nat)

/-! ## Ranges, tokens and names -/

/-- The range with both ends moved. -/
def OffsetRange.relocate (r : OffsetRange) : OffsetRange := ⟨φ r.start, φ r.stop⟩

variable {φ} in
theorem OffsetRange.relocate_cover (hφ : Monotone φ) (r s : OffsetRange) :
    (r.cover s).relocate φ = (r.relocate φ).cover (s.relocate φ) := by
  simp only [relocate, cover, hφ.map_min, hφ.map_max]

/-- The node with its range moved. -/
def Node.relocate (n : Node) : Node := ⟨n.id, n.range.relocate φ⟩

/-- The identifier with its range moved. -/
def Ident.relocate (i : Ident) : Ident := ⟨i.text, i.range.relocate φ⟩

/-- The token with its range and the one of its doc comment moved. -/
def Token.relocate (t : Token) : Token :=
  ⟨t.kind, t.range.relocate φ, t.doc.map (OffsetRange.relocate φ)⟩

/-- The error with its place moved. -/
def SyntaxError.relocate (e : SyntaxError) : SyntaxError := ⟨e.cause, φ e.offset⟩

/-! ## Types -/

mutual

/-- The type with all places in it moved. -/
def TypeRef.relocate : TypeRef → TypeRef
  | .keyword node k => .keyword (node.relocate φ) k
  | .named node segments => .named (node.relocate φ) (relocateSegments segments)
  | .array node element => .array (node.relocate φ) element.relocate
  | .nullable node underlying => .nullable (node.relocate φ) underlying.relocate

/-- The segments with all places in them moved. -/
def relocateSegments : List NameSegment → List NameSegment
  | [] => []
  | .mk name args :: rest => .mk (name.relocate φ) (relocateTypes args) :: relocateSegments rest

/-- The types with all places in them moved. -/
def relocateTypes : List TypeRef → List TypeRef
  | [] => []
  | t :: rest => t.relocate :: relocateTypes rest

end

/-- The segment with all places in it moved. -/
def NameSegment.relocate : NameSegment → NameSegment
  | .mk name args => .mk (name.relocate φ) (args.map (TypeRef.relocate φ))

@[simp] theorem relocateTypes_eq (ts : List TypeRef) :
    relocateTypes φ ts = ts.map (TypeRef.relocate φ) := by
  induction ts with
  | nil => rfl
  | cons t ts ih => rw [relocateTypes, ih, List.map_cons]

@[simp] theorem relocateSegments_eq (segments : List NameSegment) :
    relocateSegments φ segments = segments.map (NameSegment.relocate φ) := by
  induction segments with
  | nil => rfl
  | cons seg segments ih =>
    obtain ⟨name, args⟩ := seg
    rw [relocateSegments, ih, relocateTypes_eq, List.map_cons, NameSegment.relocate]

theorem TypeRef.relocate_named (n : Node) (segments : List NameSegment) :
    (TypeRef.named n segments).relocate φ
      = .named (n.relocate φ) (segments.map (NameSegment.relocate φ)) := by
  rw [TypeRef.relocate, relocateSegments_eq]

/-! ## Expressions -/

/-- The name of an argument with its range moved. -/
def ArgumentName.relocate (n : ArgumentName) : ArgumentName := ⟨n.ident.relocate φ, n.kind⟩

mutual

/-- The expression with all places in it moved. -/
def Expr.relocate : Expr → Expr
  | .literal n value => .literal (n.relocate φ) value
  | .identifier n name => .identifier (n.relocate φ) (name.relocate φ)
  | .self n => .self (n.relocate φ)
  | .base n => .base (n.relocate φ)
  | .member n target name => .member (n.relocate φ) target.relocate (name.relocate φ)
  | .invoke n callee ⟨r, args⟩ =>
    .invoke (n.relocate φ) callee.relocate ⟨r.relocate φ, relocateArgs args⟩
  | .create n type none => .create (n.relocate φ) (type.relocate φ) none
  | .create n type (some ⟨r, args⟩) =>
    .create (n.relocate φ) (type.relocate φ) (some ⟨r.relocate φ, relocateArgs args⟩)
  | .createArray n type none => .createArray (n.relocate φ) (type.relocate φ) none
  | .createArray n type (some size) =>
    .createArray (n.relocate φ) (type.relocate φ) (some size.relocate)
  | .typeOf n type => .typeOf (n.relocate φ) (type.relocate φ)
  | .default n type => .default (n.relocate φ) (type.map (TypeRef.relocate φ))
  | .cast n type operand => .cast (n.relocate φ) (type.relocate φ) operand.relocate
  | .asType n operand type => .asType (n.relocate φ) operand.relocate (type.relocate φ)
  | .isType n operand type designation =>
    .isType (n.relocate φ) operand.relocate (type.relocate φ) (designation.map (Ident.relocate φ))
  | .binary n op left right => .binary (n.relocate φ) op left.relocate right.relocate
  | .unary n op operand => .unary (n.relocate φ) op operand.relocate
  | .conditional n condition whenTrue whenFalse =>
    .conditional (n.relocate φ) condition.relocate whenTrue.relocate whenFalse.relocate
  | .assign n target value => .assign (n.relocate φ) target.relocate value.relocate
  | .paren n inner => .paren (n.relocate φ) inner.relocate

/-- The arguments with all places in them moved. -/
def relocateArgs : List (Argument Expr) → List (Argument Expr)
  | [] => []
  | ⟨n, name, value⟩ :: rest =>
    ⟨n.relocate φ, name.map (ArgumentName.relocate φ), value.relocate⟩ :: relocateArgs rest

end

/-- The argument with all places in it moved. -/
def Argument.relocate (a : Argument Expr) : Argument Expr :=
  ⟨a.node.relocate φ, a.name.map (ArgumentName.relocate φ), a.value.relocate φ⟩

/-- The argument list with all places in it moved. -/
def ArgumentList.relocate (l : ArgumentList Expr) : ArgumentList Expr :=
  ⟨l.range.relocate φ, l.args.map (Argument.relocate φ)⟩

@[simp] theorem relocateArgs_eq (args : List (Argument Expr)) :
    relocateArgs φ args = args.map (Argument.relocate φ) := by
  induction args with
  | nil => rfl
  | cons a args ih =>
    obtain ⟨n, name, value⟩ := a
    rw [relocateArgs, ih, List.map_cons, Argument.relocate]

@[simp] theorem Expr.relocate_invoke (n : Node) (callee : Expr) (l : ArgumentList Expr) :
    (Expr.invoke n callee l).relocate φ
      = .invoke (n.relocate φ) (callee.relocate φ) (l.relocate φ) := by
  cases l
  simp [Expr.relocate, ArgumentList.relocate]

@[simp] theorem Expr.relocate_create (n : Node) (type : TypeRef) (l : Option (ArgumentList Expr)) :
    (Expr.create n type l).relocate φ
      = .create (n.relocate φ) (type.relocate φ) (l.map (ArgumentList.relocate φ)) := by
  rcases l with _ | ⟨r, args⟩ <;> simp [Expr.relocate, ArgumentList.relocate]

@[simp] theorem Expr.relocate_createArray (n : Node) (type : TypeRef) (size : Option Expr) :
    (Expr.createArray n type size).relocate φ
      = .createArray (n.relocate φ) (type.relocate φ) (size.map (Expr.relocate φ)) := by
  cases size <;> simp [Expr.relocate]

/-! ## Statements -/

mutual

/-- The statement with all places in it moved. -/
def Stmt.relocate : Stmt → Stmt
  | .expression n value => .expression (n.relocate φ) (value.relocate φ)
  | .returning n value => .returning (n.relocate φ) (value.map (Expr.relocate φ))
  | .throwing n value => .throwing (n.relocate φ) (value.map (Expr.relocate φ))
  | .localDecl n type name init =>
    .localDecl (n.relocate φ) (type.relocate φ) (name.relocate φ) (init.map (Expr.relocate φ))
  | .branch n condition yes none =>
    .branch (n.relocate φ) (condition.relocate φ) yes.relocate none
  | .branch n condition yes (some no) =>
    .branch (n.relocate φ) (condition.relocate φ) yes.relocate (some no.relocate)
  | .block n ⟨r, statements⟩ => .block (n.relocate φ) ⟨r.relocate φ, relocateStmts statements⟩
  | .empty n => .empty (n.relocate φ)

/-- The statements with all places in them moved. -/
def relocateStmts : List Stmt → List Stmt
  | [] => []
  | s :: rest => s.relocate :: relocateStmts rest

end

/-- The block with all places in it moved. -/
def Block.relocate (b : Block Stmt) : Block Stmt :=
  ⟨b.range.relocate φ, b.statements.map (Stmt.relocate φ)⟩

@[simp] theorem relocateStmts_eq (ss : List Stmt) :
    relocateStmts φ ss = ss.map (Stmt.relocate φ) := by
  induction ss with
  | nil => rfl
  | cons s ss ih => rw [relocateStmts, ih, List.map_cons]

@[simp] theorem Stmt.relocate_branch (n : Node) (condition : Expr) (yes : Stmt) (no : Option Stmt) :
    (Stmt.branch n condition yes no).relocate φ = .branch (n.relocate φ) (condition.relocate φ)
      (yes.relocate φ) (no.map (Stmt.relocate φ)) := by
  cases no <;> simp [Stmt.relocate]

@[simp] theorem Stmt.relocate_block (n : Node) (b : Block Stmt) :
    (Stmt.block n b).relocate φ = .block (n.relocate φ) (b.relocate φ) := by
  cases b
  simp [Stmt.relocate, Block.relocate]

/-- The body with all places in it moved. -/
def Body.relocate (b : Body) : Body :=
  ⟨b.block.map (Block.relocate φ), b.arrow.map (Expr.relocate φ)⟩

/-! ## Declarations -/

/-- The attribute with all places in it moved. -/
def Attribute.relocate (a : Attribute) : Attribute :=
  ⟨a.node.relocate φ, a.name.relocate φ, a.args.map (ArgumentList.relocate φ)⟩

/-- The header with all places in it moved. -/
def DeclHeader.relocate (h : DeclHeader) : DeclHeader :=
  ⟨h.node.relocate φ, h.doc.map (OffsetRange.relocate φ), h.attributes.map (Attribute.relocate φ),
    h.modifiers, h.name.relocate φ⟩

/-- The field with all places in it moved. -/
def FieldDecl.relocate (d : FieldDecl) : FieldDecl :=
  ⟨d.toDeclHeader.relocate φ, d.type.relocate φ, d.init.map (Expr.relocate φ)⟩

/-- The accessor with all places in it moved. -/
def Accessor.relocate (a : Accessor) : Accessor :=
  ⟨a.node.relocate φ, a.kind, a.modifiers, a.body.relocate φ⟩

/-- The property with all places in it moved. -/
def PropertyDecl.relocate (d : PropertyDecl) : PropertyDecl :=
  ⟨d.toDeclHeader.relocate φ, d.type.relocate φ, d.accessors.map (Accessor.relocate φ),
    d.arrow.map (Expr.relocate φ), d.init.map (Expr.relocate φ)⟩

/-- The parameter with all places in it moved. -/
def Parameter.relocate (p : Parameter) : Parameter :=
  ⟨p.node.relocate φ, p.attributes.map (Attribute.relocate φ), p.receiver, p.type.relocate φ,
    p.name.relocate φ, p.default.map (Expr.relocate φ)⟩

/-- The method with all places in it moved. -/
def MethodDecl.relocate (d : MethodDecl) : MethodDecl :=
  ⟨d.toDeclHeader.relocate φ, d.returnType.relocate φ, d.interface.map (TypeRef.relocate φ),
    d.typeParams.map (Ident.relocate φ), d.params.map (Parameter.relocate φ), d.body.relocate φ⟩

/-- The constructor with all places in it moved. -/
def ConstructorDecl.relocate (d : ConstructorDecl) : ConstructorDecl :=
  ⟨d.toDeclHeader.relocate φ, d.params.map (Parameter.relocate φ), d.body.relocate φ⟩

/-- The header of a type with all places in it moved. -/
def TypeHeader.relocate (h : TypeHeader) : TypeHeader :=
  ⟨h.toDeclHeader.relocate φ, h.namespaceName, h.kind, h.typeParams.map (Ident.relocate φ),
    h.bases.map (TypeRef.relocate φ)⟩

mutual

/-- The type declaration with all places in it moved. -/
def TypeDecl.relocate : TypeDecl → TypeDecl
  | .mk header members => .mk (header.relocate φ) (relocateMembers members)

/-- The members with all places in them moved. -/
def relocateMembers : List Member → List Member
  | [] => []
  | .field d :: rest => .field (d.relocate φ) :: relocateMembers rest
  | .property d :: rest => .property (d.relocate φ) :: relocateMembers rest
  | .method d :: rest => .method (d.relocate φ) :: relocateMembers rest
  | .constructor d :: rest => .constructor (d.relocate φ) :: relocateMembers rest
  | .type d :: rest => .type d.relocate :: relocateMembers rest

end

/-- The member with all places in it moved. -/
def Member.relocate : Member → Member
  | .field d => .field (d.relocate φ)
  | .property d => .property (d.relocate φ)
  | .method d => .method (d.relocate φ)
  | .constructor d => .constructor (d.relocate φ)
  | .type d => .type (d.relocate φ)

@[simp] theorem relocateMembers_eq (ms : List Member) :
    relocateMembers φ ms = ms.map (Member.relocate φ) := by
  induction ms with
  | nil => rfl
  | cons m ms ih => cases m <;> rw [relocateMembers, ih, List.map_cons, Member.relocate]

/-- The declarations with all places in them moved. -/
def CompilationUnit.relocate (u : CompilationUnit) : CompilationUnit :=
  ⟨u.usings, u.attributes.map (Attribute.relocate φ), u.types.map (TypeDecl.relocate φ)⟩

theorem CompilationUnit.relocate_append (u v : CompilationUnit) :
    (u.append v).relocate φ = (u.relocate φ).append (v.relocate φ) := by
  simp [CompilationUnit.append, CompilationUnit.relocate]

end PropertyLint
