/-
# The nodes of a syntax tree

Every node with an identity, in the order of the source: declarations with their attributes, types,
parameters and bodies, statements, expressions, and the types in them.  The types of an expression
come directly behind it.
-/
import PropertyLint.Syntax.Decl

namespace PropertyLint

/-- A node of a syntax tree. -/
inductive SyntaxNode where
  | member (decl : Member)
  | accessor (accessor : Accessor)
  | parameter (param : Parameter)
  | attr (attr : Attribute)
  | argument (arg : Argument Expr)
  | stmt (stmt : Stmt)
  | expr (expr : Expr)
  | type (type : TypeRef)

namespace SyntaxNode

/-- The identity and the range of a node. -/
def node : SyntaxNode → Node
  | member m => m.header.node
  | accessor a => a.node
  | parameter p => p.node
  | attr a => a.node
  | argument a => a.node
  | stmt s => s.node
  | expr e => e.node
  | type t => t.node

end SyntaxNode

/-! ## Types -/

mutual

/-- A type and the types in it. -/
def TypeRef.nodes : TypeRef → List SyntaxNode
  | t@(.keyword _ _) => [.type t]
  | t@(.named _ segments) => .type t :: nodesOfSegments segments
  | t@(.array _ element) => .type t :: element.nodes
  | t@(.nullable _ underlying) => .type t :: underlying.nodes

/-- The types in the arguments of segments. -/
def nodesOfSegments : List NameSegment → List SyntaxNode
  | [] => []
  | .mk _ args :: rest => nodesOfTypes args ++ nodesOfSegments rest

/-- Types and the types in them. -/
def nodesOfTypes : List TypeRef → List SyntaxNode
  | [] => []
  | t :: rest => t.nodes ++ nodesOfTypes rest

end

/-- The nodes of something that may be missing. -/
def nodesOfOption {α : Type} (nodes : α → List SyntaxNode) : Option α → List SyntaxNode
  | some a => nodes a
  | none => []

/-! ## Expressions and statements -/

mutual

/-- An expression and the nodes in it. -/
def Expr.nodes : Expr → List SyntaxNode
  | e@(.member _ target _) => .expr e :: target.nodes
  | e@(.invoke _ callee ⟨_, args⟩) => .expr e :: (callee.nodes ++ nodesOfArgs args)
  | e@(.create _ type none) => .expr e :: type.nodes
  | e@(.create _ type (some ⟨_, args⟩)) => .expr e :: (type.nodes ++ nodesOfArgs args)
  | e@(.createArray _ type none) => .expr e :: type.nodes
  | e@(.createArray _ type (some size)) => .expr e :: (type.nodes ++ size.nodes)
  | e@(.typeOf _ type) => .expr e :: type.nodes
  | e@(.default _ type) => .expr e :: nodesOfOption TypeRef.nodes type
  | e@(.cast _ type operand) => .expr e :: (type.nodes ++ operand.nodes)
  | e@(.asType _ operand type) => .expr e :: (type.nodes ++ operand.nodes)
  | e@(.isType _ operand type _) => .expr e :: (type.nodes ++ operand.nodes)
  | e@(.binary _ _ left right) => .expr e :: (left.nodes ++ right.nodes)
  | e@(.unary _ _ operand) => .expr e :: operand.nodes
  | e@(.conditional _ condition whenTrue whenFalse) =>
    .expr e :: (condition.nodes ++ (whenTrue.nodes ++ whenFalse.nodes))
  | e@(.assign _ target value) => .expr e :: (target.nodes ++ value.nodes)
  | e@(.paren _ inner) => .expr e :: inner.nodes
  | e => [.expr e]

/-- Arguments and the nodes in them. -/
def nodesOfArgs : List (Argument Expr) → List SyntaxNode
  | [] => []
  | arg@⟨_, _, value⟩ :: rest => .argument arg :: (value.nodes ++ nodesOfArgs rest)

end

mutual

/-- A statement and the nodes in it. -/
def Stmt.nodes : Stmt → List SyntaxNode
  | s@(.expression _ value) => .stmt s :: value.nodes
  | s@(.returning _ value) => .stmt s :: nodesOfOption Expr.nodes value
  | s@(.throwing _ value) => .stmt s :: nodesOfOption Expr.nodes value
  | s@(.localDecl _ type _ init) => .stmt s :: (type.nodes ++ nodesOfOption Expr.nodes init)
  | s@(.branch _ condition yes none) => .stmt s :: (condition.nodes ++ yes.nodes)
  | s@(.branch _ condition yes (some no)) =>
    .stmt s :: (condition.nodes ++ (yes.nodes ++ no.nodes))
  | s@(.block _ ⟨_, statements⟩) => .stmt s :: nodesOfStmts statements
  | s@(.empty _) => [.stmt s]

/-- Statements and the nodes in them. -/
def nodesOfStmts : List Stmt → List SyntaxNode
  | [] => []
  | s :: rest => s.nodes ++ nodesOfStmts rest

end

/-- The nodes in a body. -/
def Body.nodes (b : Body) : List SyntaxNode :=
  nodesOfOption (fun block => nodesOfStmts block.statements) b.block ++
    nodesOfOption Expr.nodes b.arrow

/-! ## Declarations -/

/-- An attribute and the nodes in it. -/
def Attribute.nodes (a : Attribute) : List SyntaxNode :=
  .attr a :: (a.name.nodes ++ nodesOfOption (fun list => nodesOfArgs list.args) a.args)

/-- Attributes and the nodes in them. -/
def nodesOfAttributes (as : List Attribute) : List SyntaxNode := as.flatMap Attribute.nodes

/-- A parameter and the nodes in it. -/
def Parameter.nodes (p : Parameter) : List SyntaxNode :=
  .parameter p :: (nodesOfAttributes p.attributes ++ p.type.nodes ++
    nodesOfOption Expr.nodes p.default)

/-- An accessor and the nodes in it. -/
def Accessor.nodes (a : Accessor) : List SyntaxNode := .accessor a :: a.body.nodes

/-- The nodes in a field. -/
def FieldDecl.nodes (d : FieldDecl) : List SyntaxNode :=
  nodesOfAttributes d.attributes ++ d.type.nodes ++ nodesOfOption Expr.nodes d.init

/-- The nodes in a property. -/
def PropertyDecl.nodes (d : PropertyDecl) : List SyntaxNode :=
  nodesOfAttributes d.attributes ++ d.type.nodes ++ nodesOfOption Expr.nodes d.arrow ++
    d.accessors.flatMap Accessor.nodes ++ nodesOfOption Expr.nodes d.init

/-- The nodes in a method. -/
def MethodDecl.nodes (d : MethodDecl) : List SyntaxNode :=
  nodesOfAttributes d.attributes ++ d.returnType.nodes ++
    nodesOfOption TypeRef.nodes d.interface ++ d.params.flatMap Parameter.nodes ++ d.body.nodes

/-- The nodes in a constructor. -/
def ConstructorDecl.nodes (d : ConstructorDecl) : List SyntaxNode :=
  nodesOfAttributes d.attributes ++ d.params.flatMap Parameter.nodes ++ d.body.nodes

/-- The nodes in the attributes and the bases of a type. -/
def TypeHeader.nodes (d : TypeHeader) : List SyntaxNode :=
  nodesOfAttributes d.attributes ++ nodesOfTypes d.bases

mutual

/-- A type declaration and the nodes in it. -/
def TypeDecl.nodes : TypeDecl → List SyntaxNode
  | t@(.mk header members) => .member (.type t) :: (header.nodes ++ nodesOfMembers members)

/-- Members and the nodes in them. -/
def nodesOfMembers : List Member → List SyntaxNode
  | [] => []
  | m@(.field d) :: rest => .member m :: (d.nodes ++ nodesOfMembers rest)
  | m@(.property d) :: rest => .member m :: (d.nodes ++ nodesOfMembers rest)
  | m@(.method d) :: rest => .member m :: (d.nodes ++ nodesOfMembers rest)
  | m@(.constructor d) :: rest => .member m :: (d.nodes ++ nodesOfMembers rest)
  | .type t :: rest => t.nodes ++ nodesOfMembers rest

end

/-- The nodes of a source file. -/
def CompilationUnit.nodes (u : CompilationUnit) : List SyntaxNode :=
  nodesOfAttributes u.attributes ++ u.types.flatMap TypeDecl.nodes

end PropertyLint
