/-
# Names and keywords of declarations

Identifiers with their place, the modifier keywords, the accessibility they spell, and the keyword
types.
-/
import PropertyLint.Text.Range

namespace PropertyLint

/-- The identity of a node of one syntax tree. -/
abbrev NodeId := Nat

/-- A node's identity and extent. -/
structure Node where
  id : NodeId
  range : OffsetRange
deriving DecidableEq, Repr, Inhabited

/-- An identifier and the range it is written at. -/
structure Ident where
  text : String
  range : OffsetRange
deriving DecidableEq, Repr, Inhabited

/-! ## Accessibility and modifiers -/

/-- Who may use a declaration. -/
inductive Accessibility where
  | private_
  | privateProtected
  | protected_
  | internal
  | protectedInternal
  | public_
deriving DecidableEq, Repr, Inhabited

/-- A modifier keyword. -/
inductive Modifier where
  | public_ | private_ | protected_ | internal | static_ | readonly | const | abstract_ | virtual
  | override_ | sealed | partial_ | new | extern_
deriving DecidableEq, Repr

namespace Modifier

/-- All modifiers. -/
def all : List Modifier :=
  [.public_, .private_, .protected_, .internal, .static_, .readonly, .const, .abstract_, .virtual,
    .override_, .sealed, .partial_, .new, .extern_]

/-- The keyword of a modifier. -/
def keyword : Modifier → String
  | public_ => "public"
  | private_ => "private"
  | protected_ => "protected"
  | internal => "internal"
  | static_ => "static"
  | readonly => "readonly"
  | const => "const"
  | abstract_ => "abstract"
  | virtual => "virtual"
  | override_ => "override"
  | sealed => "sealed"
  | partial_ => "partial"
  | new => "new"
  | extern_ => "extern"

/-- The modifier with a keyword. -/
def ofKeyword? (word : String) : Option Modifier := all.find? fun m => m.keyword == word

end Modifier

/-- The modifiers of a declaration, in source order. -/
abbrev Modifiers := List Modifier

namespace Modifiers

/-- The keyword is among the modifiers. -/
def has (ms : Modifiers) (m : Modifier) : Bool := ms.contains m

/-- The declaration belongs to the type and not to its instances; constants do. -/
def isStatic (ms : Modifiers) : Bool := ms.has .static_ || ms.has .const

/-- The declaration is marked `readonly`. -/
def isReadonly (ms : Modifiers) : Bool := ms.has .readonly

/-- The accessibility that the keywords spell, if they spell one.  `public` decides alone, then
`private`, which `protected` refines. -/
def accessibility? (ms : Modifiers) : Option Accessibility :=
  if ms.has .public_ then some .public_
  else if ms.has .private_ then
    if ms.has .protected_ then some .privateProtected else some .private_
  else if ms.has .protected_ then
    if ms.has .internal then some .protectedInternal else some .protected_
  else if ms.has .internal then some .internal
  else none

end Modifiers

/-! ## Keyword types -/

/-- A type that has a keyword of its own. -/
inductive KeywordType where
  | object | string | bool | char | byte | short | int | long | float | double | decimal | void
deriving DecidableEq, Repr

namespace KeywordType

/-- All keyword types. -/
def all : List KeywordType :=
  [.object, .string, .bool, .char, .byte, .short, .int, .long, .float, .double, .decimal, .void]

/-- The keyword of the type. -/
def keyword : KeywordType → String
  | object => "object"
  | string => "string"
  | bool => "bool"
  | char => "char"
  | byte => "byte"
  | short => "short"
  | int => "int"
  | long => "long"
  | float => "float"
  | double => "double"
  | decimal => "decimal"
  | void => "void"

/-- The full name of the framework type that the keyword stands for. -/
def metadataName : KeywordType → String
  | object => "System.Object"
  | string => "System.String"
  | bool => "System.Boolean"
  | char => "System.Char"
  | byte => "System.Byte"
  | short => "System.Int16"
  | int => "System.Int32"
  | long => "System.Int64"
  | float => "System.Single"
  | double => "System.Double"
  | decimal => "System.Decimal"
  | void => "System.Void"

/-- The type with a keyword. -/
def ofKeyword? (word : String) : Option KeywordType := all.find? fun k => k.keyword == word

/-- The keyword type that stands for a framework type. -/
def ofMetadataName? (name : String) : Option KeywordType :=
  all.find? fun k => k.metadataName == name

end KeywordType

end PropertyLint
