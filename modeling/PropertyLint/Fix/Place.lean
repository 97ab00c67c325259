/-
# Places that fixes edit

A diagnostic carries the range that was found wrong.  A fix looks on the tree for the name, the type
or the argument with exactly that range; if there is none, the diagnostic is out of date.
-/
import PropertyLint.Syntax.Tree
import PropertyLint.Syntax.Walk

namespace PropertyLint

namespace TypeDecl

/-- The arguments of attributes of the type and of its own members. -/
def attributeArguments (decl : TypeDecl) : List (Argument Expr) :=
  (decl.attributes ++ decl.ownMembers.flatMap Member.attributes).flatMap fun a =>
    (a.args.map ArgumentList.args).getD []

/-- The arguments of invocations and creations in the type's own members. -/
def callArguments (decl : TypeDecl) : List (Argument Expr) :=
  (decl.ownMembers.flatMap Member.exprs).flatMap fun e =>
    (e.argumentList?.map ArgumentList.args).getD []

end TypeDecl

namespace SyntaxTree

/-- The argument whose expression has exactly the range. -/
def argumentAt? (t : SyntaxTree) (r : OffsetRange) : Option (Argument Expr) :=
  (t.types.flatMap fun decl => decl.attributeArguments ++ decl.callArguments).find? fun a =>
    a.value.range == r

/-- The member, other than a type, whose name has exactly the range. -/
def memberNamedAt? (t : SyntaxTree) (r : OffsetRange) : Option Member := do
  (← t.containingType? r).ownMembers.find? fun m => m.name.range == r

/-- The type declaration whose name has exactly the range. -/
def typeNamedAt? (t : SyntaxTree) (r : OffsetRange) : Option TypeDecl :=
  t.types.find? fun decl => decl.name.range == r

/-- The type of a property, or the return type or a parameter type of a method, that has exactly
the range. -/
def declaredTypeAt? (t : SyntaxTree) (r : OffsetRange) : Option TypeRef := do
  let types ← match ← t.containingMember? r with
    | .property p => some [p.type]
    | .method m => some (m.returnType :: m.params.map Parameter.type)
    | _ => none
  types.find? fun type => type.range == r

end SyntaxTree

end PropertyLint
