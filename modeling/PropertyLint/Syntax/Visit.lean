/-
# The nodes that are checked

Checks look at one node at a time: at type declarations, their members, the attributes of both and
of the assembly, and at object creations in the members' expressions.  A visit is such a node with
the declarations around it.
-/
import PropertyLint.Syntax.Tree
import PropertyLint.Syntax.Walk

namespace PropertyLint

/-- The kind of a checked node. -/
inductive NodeKind where
  | type | field | property | method | constructor | attr | creation
deriving DecidableEq, Repr

/-- A checked node; a creation is always an expression of the form `new T(…)`. -/
inductive CheckedNode where
  | member (decl : Member)
  | attr (decl : Attribute)
  | creation (expr : Expr)

namespace CheckedNode

/-- The kind of the node. -/
def kind : CheckedNode → NodeKind
  | member (.type _) => .type
  | member (.field _) => .field
  | member (.property _) => .property
  | member (.method _) => .method
  | member (.constructor _) => .constructor
  | attr _ => .attr
  | creation _ => .creation

/-- The range of the node. -/
def range : CheckedNode → OffsetRange
  | member m => m.range
  | attr a => a.range
  | creation e => e.range

/-- The declaration that the node is. -/
def member? : CheckedNode → Option Member
  | member m => some m
  | _ => none

end CheckedNode

/-- A node with the declarations around it. -/
structure Visit where
  node : CheckedNode
  /-- The innermost type declaration; the type itself for types, none for the assembly. -/
  containingType : Option TypeDecl
  /-- The member around the node or the member itself; none at the level of types. -/
  containingMember : Option Member

/-- The expression creates an object. -/
def Expr.isCreation : Expr → Bool
  | .create .. => true
  | _ => false

/-- The visits of a member that is no type. -/
def visitsOfMember (decl : TypeDecl) (m : Member) : List Visit :=
  ⟨.member m, some decl, some m⟩ ::
    (m.attributes.map fun a => ⟨.attr a, some decl, some m⟩) ++
    ((m.exprs.filter Expr.isCreation).map fun e => ⟨.creation e, some decl, some m⟩)

/-- The visits of a type declaration, without those of the types nested in it. -/
def visitsOfType (decl : TypeDecl) : List Visit :=
  ⟨.member (.type decl), some decl, none⟩ ::
    (decl.attributes.map fun a => ⟨.attr a, some decl, none⟩) ++
    decl.ownMembers.flatMap (visitsOfMember decl)

/-- The visits of a source file. -/
def SyntaxTree.visits (t : SyntaxTree) : List Visit :=
  (t.root.attributes.map fun a => ⟨.attr a, none, none⟩) ++ t.types.flatMap visitsOfType

end PropertyLint
