/-
# Statements and declarations

Bodies are blocks of statements.  Types hold fields, properties, methods, constructors and further
types; what all declarations share is a `DeclHeader`.
-/
import PropertyLint.Syntax.Expr
import PropertyLint.Text.Ends

namespace PropertyLint

/-! ## Statements -/

/-- Statements between braces. -/
structure Block (σ : Type) where
  range : OffsetRange
  statements : List σ

/-- A statement. -/
inductive Stmt where
  | expression (node : Node) (value : Expr)
  | returning (node : Node) (value : Option Expr)
  | throwing (node : Node) (value : Option Expr)
  | localDecl (node : Node) (type : TypeRef) (name : Ident) (init : Option Expr)
  | branch (node : Node) (condition : Expr) (yes : Stmt) (no : Option Stmt)
  | block (node : Node) (body : Block Stmt)
  | empty (node : Node)

namespace Stmt

/-- The node of a statement. -/
def node : Stmt → Node
  | expression n _ | returning n _ | throwing n _ | localDecl n _ _ _ | branch n _ _ _ | block n _
  | empty n => n

/-- The range of the statement. -/
def range (s : Stmt) : OffsetRange := s.node.range

end Stmt

/-- The body of a method, a constructor or an accessor: braces, an arrow or none. -/
structure Body where
  block : Option (Block Stmt)
  arrow : Option Expr

/-! ## Attributes -/

/-- An attribute. -/
structure Attribute where
  node : Node
  name : TypeRef
  args : Option (ArgumentList Expr)

namespace Attribute

/-- The identity of the attribute's node. -/
def id (a : Attribute) : NodeId := a.node.id

/-- The range of the attribute. -/
def range (a : Attribute) : OffsetRange := a.node.range

/-- The word that attribute classes end with. -/
def suffix : String := "Attribute"

/-- The name without the word `Attribute` at its end, unless nothing else is left. -/
def shorten (name : String) : String :=
  match dropEnd? name suffix with
  | some short => if short.isEmpty then name else short
  | none => name

/-- The attribute's last name in its short form. -/
def shortName? (a : Attribute) : Option String := a.name.simpleName?.map shorten

/-- The argument at a position among those without a name. -/
def positional? (a : Attribute) (index : Nat) : Option (Argument Expr) := do
  (← a.args).positional? index

/-- The argument, if there is exactly one. -/
def singleArgument? (a : Attribute) : Option (Argument Expr) :=
  match a.args with
  | some ⟨_, [arg]⟩ => some arg
  | _ => none

end Attribute

/-! ## Members -/

/-- What all declarations have. -/
structure DeclHeader where
  node : Node
  /-- The range of the `///` comments directly above. -/
  doc : Option OffsetRange
  attributes : List Attribute
  modifiers : Modifiers
  name : Ident

/-- A field. -/
structure FieldDecl extends DeclHeader where
  type : TypeRef
  init : Option Expr

/-- The kind of an accessor. -/
inductive AccessorKind where
  | get | set | init
deriving DecidableEq, Repr

/-- An accessor of a property. -/
structure Accessor where
  node : Node
  kind : AccessorKind
  modifiers : Modifiers
  body : Body

/-- A property: accessors and an initial value, or an arrow. -/
structure PropertyDecl extends DeclHeader where
  type : TypeRef
  accessors : List Accessor
  arrow : Option Expr
  init : Option Expr

namespace PropertyDecl

/-- The first `get` accessor. -/
def getter? (p : PropertyDecl) : Option Accessor := p.accessors.find? fun a => a.kind == .get

/-- The first `set` or `init` accessor. -/
def setter? (p : PropertyDecl) : Option Accessor :=
  p.accessors.find? fun a => a.kind == .set || a.kind == .init

end PropertyDecl

/-- A parameter; `receiver` marks the first parameter of an extension method. -/
structure Parameter where
  node : Node
  attributes : List Attribute
  receiver : Bool
  type : TypeRef
  name : Ident
  default : Option Expr

/-- A method; `interface` is the type in front of the name of an explicit implementation. -/
structure MethodDecl extends DeclHeader where
  returnType : TypeRef
  interface : Option TypeRef
  typeParams : List Ident
  params : List Parameter
  body : Body

/-- A constructor. -/
structure ConstructorDecl extends DeclHeader where
  params : List Parameter
  body : Body

/-- The keyword of a type declaration. -/
inductive TypeDeclKind where
  | class_ | struct | interface
deriving DecidableEq, Repr

/-- A type declaration without its members.  Nested types share the namespace of the outer ones. -/
structure TypeHeader extends DeclHeader where
  namespaceName : Option String
  kind : TypeDeclKind
  typeParams : List Ident
  bases : List TypeRef

mutual

/-- A type declaration. -/
inductive TypeDecl where
  | mk (header : TypeHeader) (members : List Member)

/-- A member of a type. -/
inductive Member where
  | field (decl : FieldDecl)
  | property (decl : PropertyDecl)
  | method (decl : MethodDecl)
  | constructor (decl : ConstructorDecl)
  | type (decl : TypeDecl)

end

namespace TypeDecl

/-- The declaration without its members. -/
def header : TypeDecl → TypeHeader
  | mk header _ => header

/-- The members in source order. -/
def members : TypeDecl → List Member
  | mk _ members => members

/-- The identity of the declaration's node. -/
def id (t : TypeDecl) : NodeId := t.header.node.id

/-- The range of the declaration. -/
def range (t : TypeDecl) : OffsetRange := t.header.node.range

/-- The name of the type. -/
def name (t : TypeDecl) : Ident := t.header.name

/-- The attributes of the type. -/
def attributes (t : TypeDecl) : List Attribute := t.header.attributes

end TypeDecl

namespace Member

/-- What the member shares with all declarations. -/
def header : Member → DeclHeader
  | field d => d.toDeclHeader
  | property d => d.toDeclHeader
  | method d => d.toDeclHeader
  | constructor d => d.toDeclHeader
  | type d => d.header.toDeclHeader

/-- The identity of the member's node. -/
def id (m : Member) : NodeId := m.header.node.id

/-- The range of the member, without its doc comment. -/
def range (m : Member) : OffsetRange := m.header.node.range

/-- The name of the member. -/
def name (m : Member) : Ident := m.header.name

/-- The attributes of the member. -/
def attributes (m : Member) : List Attribute := m.header.attributes

/-- The modifiers of the member. -/
def modifiers (m : Member) : Modifiers := m.header.modifiers

/-- The range of the member with its doc comment. -/
def fullRange (m : Member) : OffsetRange :=
  match m.header.doc with
  | some doc => doc.cover m.range
  | none => m.range

/-- The member is a nested type. -/
def isType : Member → Bool
  | type _ => true
  | _ => false

/-- The member is a field or a property. -/
def isFieldOrProperty : Member → Bool
  | field _ | property _ => true
  | _ => false

end Member

namespace TypeDecl

/-- The members that are no types. -/
def ownMembers (t : TypeDecl) : List Member := t.members.filter fun m => !m.isType

theorem isType_of_mem_ownMembers {t : TypeDecl} {m : Member} (hm : m ∈ t.ownMembers) :
    m.isType = false := by
  simpa using (List.mem_filter.1 hm).2

/-- The first field or property with a name. -/
def fieldOrProperty? (t : TypeDecl) (name : String) : Option Member :=
  t.members.find? fun m => m.isFieldOrProperty && m.name.text == name

/-- The constructors. -/
def constructors (t : TypeDecl) : List ConstructorDecl :=
  t.members.filterMap fun
    | .constructor d => some d
    | _ => none

/-- The types declared directly inside. -/
def nestedTypes (t : TypeDecl) : List TypeDecl :=
  t.members.filterMap fun
    | .type d => some d
    | _ => none

end TypeDecl

mutual

/-- A type and all types nested in it, outer types first. -/
def TypeDecl.withNested : TypeDecl → List TypeDecl
  | t@(.mk _ members) => t :: nestedIn members

/-- The types among members and all types nested in them, outer types first. -/
def nestedIn : List Member → List TypeDecl
  | [] => []
  | .type t :: rest => t.withNested ++ nestedIn rest
  | .field _ :: rest => nestedIn rest
  | .property _ :: rest => nestedIn rest
  | .method _ :: rest => nestedIn rest
  | .constructor _ :: rest => nestedIn rest

end

theorem TypeDecl.withNested_eq_cons (d : TypeDecl) : d.withNested = d :: nestedIn d.members := by
  obtain ⟨header, members⟩ := d
  rfl

theorem nestedIn_cons (m : Member) (ms : List Member) :
    nestedIn (m :: ms) = nestedIn [m] ++ nestedIn ms := by
  cases m <;> simp [nestedIn]

/-- The declarations of one source file. -/
structure CompilationUnit where
  /-- The namespaces of plain `using` directives. -/
  usings : List String := []
  /-- The attributes of the assembly. -/
  attributes : List Attribute := []
  types : List TypeDecl := []

namespace CompilationUnit

/-- The declarations of one part of a file followed by those of the next. -/
def append (u v : CompilationUnit) : CompilationUnit :=
  ⟨u.usings ++ v.usings, u.attributes ++ v.attributes, u.types ++ v.types⟩

/-- All type declarations, outer types before the types nested in them. -/
def allTypes (u : CompilationUnit) : List TypeDecl := u.types.flatMap TypeDecl.withNested

end CompilationUnit

end PropertyLint
