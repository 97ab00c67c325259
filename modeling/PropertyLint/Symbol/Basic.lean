/-
# Symbols

A symbol is what a name in source stands for: a type, a member of a type, a parameter or a local.
Symbols refer to each other by number, because types and members refer to each other in cycles; the
numbers belong to one compilation.
-/
import PropertyLint.Syntax.Decl

namespace PropertyLint

/-- The number of a symbol in its compilation. -/
abbrev SymbolId := Nat

/-- The place where a symbol is declared in source. -/
structure SourceRef where
  file : FileId
  node : NodeId
  range : OffsetRange
deriving DecidableEq, Repr

/-! ## Full names -/

/-- The mark that the full name of a type with type parameters ends with. -/
def arityMark (arity : Nat) : String := if arity = 0 then "" else "`" ++ toString arity

/-- The full name of a type in a namespace or in another type. -/
def qualifiedName (container : Option String) (name : String) (arity : Nat) : String :=
  (match container with
    | some container => container ++ "." ++ name
    | none => name) ++ arityMark arity

/-- The parts of a dotted name that end before a dot or at its end, outer ones first. -/
def dottedPrefixes : List Char → List (List Char)
  | [] => [[]]
  | c :: cs =>
    let longer := (dottedPrefixes cs).map (c :: ·)
    if c = '.' then [] :: longer else longer

/-- The names of a namespace and of all namespaces around it, inner ones first. -/
def namespaceChain (name : String) : List String :=
  ((dottedPrefixes name.toList).map String.ofList).reverse

/-! ## Types -/

/-- The kind of a type. -/
inductive TypeKind where
  | class_ | struct | interface | enum | typeParameter | array
deriving DecidableEq, Repr

namespace TypeKind

/-- Values of such a type are copied when they are assigned. -/
def isValue : TypeKind → Bool
  | struct | enum => true
  | _ => false

/-- Values of such a type are references.  A type parameter may stand for either. -/
def isReference : TypeKind → Bool
  | class_ | interface | array => true
  | _ => false

/-- The kind of a declared type. -/
def ofDecl : TypeDeclKind → TypeKind
  | .class_ => class_
  | .struct => struct
  | .interface => interface

end TypeKind

/-- A type. -/
structure TypeSymbol where
  name : String
  kind : TypeKind
  namespaceName : Option String := none
  accessibility : Accessibility := .internal
  isStatic : Bool := false
  isAbstract : Bool := false
  /-- The enclosing type of a nested type, the owner of a type parameter. -/
  containingType : Option SymbolId := none
  baseType : Option SymbolId := none
  interfaces : List SymbolId := []
  members : List SymbolId := []
  typeParams : List SymbolId := []
  /-- The arguments of a constructed generic type; definitions have none. -/
  typeArgs : List SymbolId := []
  /-- The generic definition that a constructed type is made from. -/
  genericDefinition : Option SymbolId := none
  /-- The place of a type parameter among those of its owner. -/
  ordinal : Option Nat := none
  /-- The type of the elements of an array type. -/
  elementType : Option SymbolId := none
  declarations : List SourceRef := []
deriving DecidableEq, Repr

/-- The base type of a type and its interfaces. -/
def TypeSymbol.parents (t : TypeSymbol) : List SymbolId := t.baseType.toList ++ t.interfaces

/-! ## Members, parameters and locals -/

/-- A field; `type` is unknown when it cannot be resolved, here and below. -/
structure FieldSymbol where
  name : String
  type : Option SymbolId
  containingType : SymbolId
  accessibility : Accessibility
  isStatic : Bool
  isReadonly : Bool
  isConst : Bool
  declaration : Option SourceRef
deriving DecidableEq, Repr

/-- A property. -/
structure PropertySymbol where
  name : String
  type : Option SymbolId
  containingType : SymbolId
  accessibility : Accessibility
  isStatic : Bool
  hasGetter : Bool
  hasSetter : Bool
  declaration : Option SourceRef
deriving DecidableEq, Repr

/-- The property can be read but not be set. -/
def PropertySymbol.isReadOnly (p : PropertySymbol) : Bool := p.hasGetter && !p.hasSetter

/-- The kind of a method. -/
inductive MethodKind where
  | ordinary | constructor | explicitImplementation
deriving DecidableEq, Repr

/-- A method or a constructor; a method without a result returns the framework type for `void`. -/
structure MethodSymbol where
  name : String
  containingType : SymbolId
  accessibility : Accessibility
  isStatic : Bool
  isAbstract : Bool
  kind : MethodKind
  returnType : Option SymbolId
  params : List SymbolId
  declaration : Option SourceRef
deriving DecidableEq, Repr

/-- The name that all constructors have. -/
def constructorName : String := ".ctor"

/-- A parameter. -/
structure ParameterSymbol where
  name : String
  type : Option SymbolId
  ordinal : Nat
  hasDefault : Bool
  declaration : Option SourceRef
deriving DecidableEq, Repr

/-- A local variable. -/
structure LocalSymbol where
  name : String
  type : Option SymbolId
  declaration : Option SourceRef
deriving DecidableEq, Repr

/-! ## All symbols -/

/-- The kind of a symbol. -/
inductive SymbolKind where
  | type | field | property | method | parameter | localVar
deriving DecidableEq, Repr

/-- A symbol. -/
inductive Symbol where
  | type (symbol : TypeSymbol)
  | field (symbol : FieldSymbol)
  | property (symbol : PropertySymbol)
  | method (symbol : MethodSymbol)
  | parameter (symbol : ParameterSymbol)
  | localVar (symbol : LocalSymbol)
deriving DecidableEq, Repr

namespace Symbol

/-- The name of a symbol. -/
def name : Symbol → String
  | type s => s.name
  | field s => s.name
  | property s => s.name
  | method s => s.name
  | parameter s => s.name
  | localVar s => s.name

/-- The kind of a symbol. -/
def kind : Symbol → SymbolKind
  | type _ => .type
  | field _ => .field
  | property _ => .property
  | method _ => .method
  | parameter _ => .parameter
  | localVar _ => .localVar

/-- Who may use the symbol; parameters and locals count as private. -/
def accessibility : Symbol → Accessibility
  | type s => s.accessibility
  | field s => s.accessibility
  | property s => s.accessibility
  | method s => s.accessibility
  | parameter _ | localVar _ => .private_

/-- The symbol belongs to its type and not to the instances. -/
def isStatic : Symbol → Bool
  | type s => s.isStatic
  | field s => s.isStatic
  | property s => s.isStatic
  | method s => s.isStatic
  | parameter _ | localVar _ => false

/-- The type that the symbol is declared in. -/
def containingType? : Symbol → Option SymbolId
  | type s => s.containingType
  | field s => some s.containingType
  | property s => some s.containingType
  | method s => some s.containingType
  | parameter _ | localVar _ => none

/-- The type of the values of a field, a property, a parameter or a local. -/
def valueType? : Symbol → Option SymbolId
  | field s => s.type
  | property s => s.type
  | parameter s => s.type
  | localVar s => s.type
  | type _ | method _ => none

/-- The first declaration in source. -/
def declaration? : Symbol → Option SourceRef
  | type s => s.declarations.head?
  | field s => s.declaration
  | property s => s.declaration
  | method s => s.declaration
  | parameter s => s.declaration
  | localVar s => s.declaration

/-- The symbol as a type. -/
def asType? : Symbol → Option TypeSymbol
  | type s => some s
  | _ => none

/-- The symbol as a method. -/
def asMethod? : Symbol → Option MethodSymbol
  | method s => some s
  | _ => none

/-- The symbol as a parameter. -/
def asParameter? : Symbol → Option ParameterSymbol
  | parameter s => some s
  | _ => none

end Symbol

/-! ## Constants -/

/-- A value that is known before the program runs.  A real number keeps its source text. -/
inductive Constant where
  | string (value : String)
  | integer (value : Int)
  | real (text : String)
  | bool (value : Bool)
  | null
deriving DecidableEq, Repr

/-- The text of a string constant. -/
def Constant.text? : Constant → Option String
  | string value => some value
  | _ => none

end PropertyLint
