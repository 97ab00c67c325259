/-
# Expressions

The expression forms that declarations are checked for, and what a reader asks of one expression:
the names in it and the arguments it passes.
-/
import PropertyLint.Syntax.TypeRef

namespace PropertyLint

/-- A literal.  A real literal keeps its source text. -/
inductive Literal where
  | string (value : String)
  | char (value : Char)
  | integer (value : Nat)
  | real (text : String)
  | bool (value : Bool)
  | null
deriving DecidableEq, Repr

/-- A binary operator. -/
inductive BinaryOp where
  | add | sub | mul | div | rem | eq | notEq | less | greater | lessEq | greaterEq | and | or
  | coalesce
deriving DecidableEq, Repr

/-- A unary operator. -/
inductive UnaryOp where
  | not | neg
deriving DecidableEq, Repr

/-- How the name of an argument is written: `name: value` passes a parameter by name, and
`Name = value` sets a property of an attribute. -/
inductive ArgumentNameKind where
  | colon | equals
deriving DecidableEq, Repr

/-- The name of an argument. -/
structure ArgumentName where
  ident : Ident
  kind : ArgumentNameKind
deriving DecidableEq, Repr

/-- An argument of a call, a creation or an attribute. -/
structure Argument (ε : Type) where
  node : Node
  name : Option ArgumentName
  value : ε

/-- An argument list with its parentheses. -/
structure ArgumentList (ε : Type) where
  range : OffsetRange
  args : List (Argument ε)

/-- An expression. -/
inductive Expr where
  | literal (node : Node) (value : Literal)
  | identifier (node : Node) (name : Ident)
  | self (node : Node)
  | base (node : Node)
  | member (node : Node) (target : Expr) (name : Ident)
  | invoke (node : Node) (callee : Expr) (args : ArgumentList Expr)
  | create (node : Node) (type : TypeRef) (args : Option (ArgumentList Expr))
  | createArray (node : Node) (type : TypeRef) (size : Option Expr)
  | typeOf (node : Node) (type : TypeRef)
  | default (node : Node) (type : Option TypeRef)
  | cast (node : Node) (type : TypeRef) (operand : Expr)
  | asType (node : Node) (operand : Expr) (type : TypeRef)
  | isType (node : Node) (operand : Expr) (type : TypeRef) (designation : Option Ident)
  | binary (node : Node) (op : BinaryOp) (left right : Expr)
  | unary (node : Node) (op : UnaryOp) (operand : Expr)
  | conditional (node : Node) (condition whenTrue whenFalse : Expr)
  | assign (node : Node) (target value : Expr)
  | paren (node : Node) (inner : Expr)

namespace Expr

/-- The node of an expression. -/
def node : Expr → Node
  | literal n _ | identifier n _ | self n | base n | member n _ _ | invoke n _ _ | create n _ _
  | createArray n _ _ | typeOf n _ | default n _ | cast n _ _ | asType n _ _ | isType n _ _ _
  | binary n _ _ _ | unary n _ _ | conditional n _ _ _ | assign n _ _ | paren n _ => n

/-- The identity of the expression's node. -/
def id (e : Expr) : NodeId := e.node.id

/-- The range of the expression. -/
def range (e : Expr) : OffsetRange := e.node.range

/-- The expression inside of any number of parentheses. -/
def unparenthesized : Expr → Expr
  | paren _ inner => inner.unparenthesized
  | e => e

/-- The name of a called method: of `Foo(…)`, `x.Foo(…)` and `this.Foo(…)`. -/
def invokedName? : Expr → Option Ident
  | invoke _ (identifier _ name) _ | invoke _ (member _ _ name) _ => some name
  | _ => none

/-- The arguments of a call or a creation. -/
def argumentList? : Expr → Option (ArgumentList Expr)
  | invoke _ _ args => some args
  | create _ _ args => args
  | _ => none

/-- The last name of `Foo` or `x.Foo`, inside of parentheses. -/
def nameText? (e : Expr) : Option String :=
  match e.unparenthesized with
  | identifier _ name | member _ _ name => some name.text
  | _ => none

/-- The expression is a call of `nameof`. -/
def isNameof : Expr → Bool
  | invoke _ (identifier _ name) _ => name.text == "nameof"
  | _ => false

end Expr

namespace ArgumentList

/-- The argument at a position among those without a name. -/
def positional? (list : ArgumentList Expr) (index : Nat) : Option (Argument Expr) :=
  (list.args.filter fun a => a.name.isNone)[index]?

/-- The first argument with a name, written either way. -/
def named? (list : ArgumentList Expr) (name : String) : Option (Argument Expr) :=
  list.args.find? fun a => a.name.any fun n => n.ident.text == name

/-- The first argument written `name: value`. -/
def passedAs? (list : ArgumentList Expr) (name : String) : Option (Argument Expr) :=
  list.args.find? fun a => a.name.any fun n => n.kind == .colon && n.ident.text == name

end ArgumentList

end PropertyLint
