/-
# Declarations without source

Short forms for the declarations of framework types: headers without bodies, at no place in source.
-/
import PropertyLint.Syntax.Decl

namespace PropertyLint.Framework

/-- A node at no place. -/
def nowhere : Node := ⟨0, ⟨0, 0⟩⟩

/-- A name at no place. -/
def word (text : String) : Ident := ⟨text, ⟨0, 0⟩⟩

/-! ## Types -/

/-- A keyword type. -/
def keyword (k : KeywordType) : TypeRef := .keyword nowhere k

/-- A type by name. -/
def named (name : String) : TypeRef := .named nowhere [.mk (word name) []]

/-- A generic type with one argument. -/
def generic (name : String) (arg : TypeRef) : TypeRef := .named nowhere [.mk (word name) [arg]]

/-- An array type. -/
def arrayOf (element : TypeRef) : TypeRef := .array nowhere element

/-- The type `object`. -/
def object : TypeRef := keyword .object

/-- The type `string`. -/
def string : TypeRef := keyword .string

/-- The type `int`. -/
def int : TypeRef := keyword .int

/-- The type `bool`. -/
def bool : TypeRef := keyword .bool

/-- The type `void`. -/
def void : TypeRef := keyword .void

/-- The type of types. -/
def type : TypeRef := named "Type"

/-! ## Members -/

/-- What all declarations have. -/
def header (modifiers : Modifiers) (name : String) : DeclHeader :=
  { node := nowhere, doc := none, attributes := [], modifiers, name := word name }

/-- Parameters by type and name. -/
def parameters (params : List (TypeRef × String)) : List Parameter :=
  params.map fun (type, name) =>
    { node := nowhere, attributes := [], receiver := false, type, name := word name,
      default := none }

/-- A body that is not there. -/
def noBody : Body := ⟨none, none⟩

/-- A method with modifiers. -/
def methodWith (modifiers : Modifiers) (returnType : TypeRef) (name : String)
    (params : List (TypeRef × String)) : Member :=
  .method
    { header modifiers name with
      returnType
      interface := none
      typeParams := []
      params := parameters params
      body := noBody }

/-- A public method. -/
def method (returnType : TypeRef) (name : String) (params : List (TypeRef × String)) : Member :=
  methodWith [.public_] returnType name params

/-- A public static method. -/
def staticMethod (returnType : TypeRef) (name : String) (params : List (TypeRef × String)) :
    Member :=
  methodWith [.public_, .static_] returnType name params

/-- A method of an interface. -/
def interfaceMethod (returnType : TypeRef) (name : String) (params : List (TypeRef × String)) :
    Member :=
  methodWith [] returnType name params

/-- The name that the declaration of a constructor is written with here; its symbol has another. -/
def constructorWord : String := "constructor"

/-- A public constructor. -/
def constructor (params : List (TypeRef × String)) : Member :=
  .constructor
    { header [.public_] constructorWord with params := parameters params, body := noBody }

/-- An accessor without a body. -/
def accessor (kind : AccessorKind) : Accessor := ⟨nowhere, kind, [], noBody⟩

/-- A property with modifiers and accessors. -/
def propertyWith (modifiers : Modifiers) (kinds : List AccessorKind) (type : TypeRef)
    (name : String) : Member :=
  .property
    { header modifiers name with
      type
      accessors := kinds.map accessor
      arrow := none
      init := none }

/-- A public property that can be read and set. -/
def property (type : TypeRef) (name : String) : Member :=
  propertyWith [.public_] [.get, .set] type name

/-- A public property that can be read. -/
def readOnlyProperty (type : TypeRef) (name : String) : Member :=
  propertyWith [.public_] [.get] type name

/-- A public static property that can be read. -/
def staticProperty (type : TypeRef) (name : String) : Member :=
  propertyWith [.public_, .static_] [.get] type name

/-- A public static field that is never changed. -/
def staticField (type : TypeRef) (name : String) : Member :=
  .field { header [.public_, .static_, .readonly] name with type, init := none }

/-- A public integer constant. -/
def intConst (name : String) (value : Nat) : Member :=
  .field
    { header [.public_, .const] name with
      type := int
      init := some (.literal nowhere (.integer value)) }

/-! ## Type declarations -/

/-- A type declaration, for a namespace that is named later. -/
def declare (kind : TypeDeclKind) (modifiers : Modifiers) (name : String) (typeParams : List String)
    (bases : List TypeRef) (members : List Member) : TypeDecl :=
  .mk
    { header modifiers name with
      namespaceName := none
      kind
      typeParams := typeParams.map word
      bases }
    members

/-- A public class. -/
def publicClass (name : String) (bases : List TypeRef) (members : List Member) : TypeDecl :=
  declare .class_ [.public_] name [] bases members

/-- A public abstract class. -/
def abstractClass (name : String) (bases : List TypeRef) (members : List Member) : TypeDecl :=
  declare .class_ [.public_, .abstract_] name [] bases members

/-- A public class that no class derives from. -/
def sealedClass (name : String) (bases : List TypeRef) (members : List Member) : TypeDecl :=
  declare .class_ [.public_, .sealed] name [] bases members

/-- A public static class. -/
def staticClass (name : String) (members : List Member) : TypeDecl :=
  declare .class_ [.public_, .static_] name [] [] members

/-- A public generic class with one type parameter. -/
def genericClass (name param : String) (bases : List TypeRef) (members : List Member) : TypeDecl :=
  declare .class_ [.public_] name [param] bases members

/-- A public structure. -/
def publicStruct (name : String) (members : List Member) : TypeDecl :=
  declare .struct [.public_] name [] [] members

/-- A public interface. -/
def publicInterface (name : String) (bases : List TypeRef) (members : List Member) : TypeDecl :=
  declare .interface [.public_] name [] bases members

/-- A public generic interface with one type parameter. -/
def genericInterface (name param : String) (bases : List TypeRef) : TypeDecl :=
  declare .interface [.public_] name [param] bases []

/-- The type declarations in a namespace. -/
def inNamespace (name : String) (types : List TypeDecl) : List TypeDecl :=
  types.map fun t => .mk { t.header with namespaceName := some name } t.members

end PropertyLint.Framework
