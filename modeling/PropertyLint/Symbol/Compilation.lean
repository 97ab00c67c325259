/-
# The symbols of a compilation

A compilation holds all symbols by their numbers.  Symbols are only added and changed, never taken
out.  Named types are registered under their full names, and the first registration of a name
counts.  Constructed generic types, array types and nullable types are made once: the same parts
always give the same number (`construct`, `arrayOf`, `nullableOf`).

The table of known framework symbols is computed on demand (`resolveKnown`) and may be kept
(`withKnown`); every change of the symbols drops it.
-/
import PropertyLint.Symbol.Known

namespace PropertyLint

/-- The known framework symbols of a compilation. -/
structure KnownSymbols where
  types : List (KnownType × SymbolId) := []
  members : List (SymbolId × KnownMember) := []
deriving DecidableEq, Repr

/-- The symbols of a compilation. -/
structure Compilation where
  symbols : Array Symbol := #[]
  /-- Types by full name, in the order of their registration. -/
  registry : List (String × SymbolId) := []
  /-- The namespaces of registered types and all namespaces around these. -/
  namespaces : List String := []
  /-- Constructed types by definition and arguments. -/
  constructed : List ((SymbolId × List SymbolId) × SymbolId) := []
  /-- Array types by element type. -/
  arrays : List (SymbolId × SymbolId) := []
  /-- The known symbols, if they have been asked for since the last change. -/
  knownCache : Option KnownSymbols := none
deriving Repr

namespace Compilation

/-! ## Reading -/

/-- The symbol with a number. -/
def symbol? (c : Compilation) (id : SymbolId) : Option Symbol := c.symbols[id]?

/-- The type with a number. -/
def type? (c : Compilation) (id : SymbolId) : Option TypeSymbol :=
  (c.symbol? id).bind Symbol.asType?

/-- The method with a number. -/
def method? (c : Compilation) (id : SymbolId) : Option MethodSymbol :=
  (c.symbol? id).bind Symbol.asMethod?

/-- The parameter with a number. -/
def parameter? (c : Compilation) (id : SymbolId) : Option ParameterSymbol :=
  (c.symbol? id).bind Symbol.asParameter?

/-- The name of a symbol. -/
def nameOf (c : Compilation) (id : SymbolId) : String := ((c.symbol? id).map Symbol.name).getD ""

/-- The type of the values of a symbol. -/
def valueType? (c : Compilation) (id : SymbolId) : Option SymbolId :=
  (c.symbol? id).bind Symbol.valueType?

/-- The numbers of all symbols. -/
def ids (c : Compilation) : List SymbolId := List.range c.symbols.size

/-- The type registered under a full name. -/
def typeNamed? (c : Compilation) (name : String) : Option SymbolId := c.registry.lookup name

/-- The namespace holds a registered type, directly or in an inner namespace. -/
def hasNamespace (c : Compilation) (name : String) : Bool := c.namespaces.contains name

/-- The generic definition of a constructed type; any other symbol is its own definition. -/
def definition (c : Compilation) (id : SymbolId) : SymbolId :=
  ((c.type? id).bind TypeSymbol.genericDefinition).getD id

/-- The type arguments of a type; those of a definition are its own parameters. -/
def typeArgs (c : Compilation) (id : SymbolId) : List SymbolId :=
  match c.type? id with
  | some t => if t.typeArgs.isEmpty then t.typeParams else t.typeArgs
  | none => []

/-- The members that a type declares itself, by name. -/
def membersNamed (c : Compilation) (id : SymbolId) (name : String) : List SymbolId :=
  (((c.type? (c.definition id)).map TypeSymbol.members).getD []).filter fun m => c.nameOf m == name

/-- The constructors of a type. -/
def constructorsOf (c : Compilation) (id : SymbolId) : List SymbolId :=
  c.membersNamed id constructorName

/-- Values of the type are copied when they are assigned. -/
def isValueType (c : Compilation) (id : SymbolId) : Bool := (c.type? id).any (·.kind.isValue)

/-- Values of the type are references. -/
def isReferenceType (c : Compilation) (id : SymbolId) : Bool :=
  (c.type? id).any (·.kind.isReference)

/-- The symbol is a type parameter. -/
def isTypeParam (c : Compilation) (id : SymbolId) : Bool :=
  (c.type? id).any (·.kind == .typeParameter)

/-! ## Full names -/

/-- The full name of a symbol, found in a bounded number of steps outwards.  A nested type is named
in its outer type, and any other type in its namespace. -/
def metadataName? (c : Compilation) : Nat → SymbolId → Option String
  | 0, _ => none
  | fuel + 1, id =>
    match c.type? id with
    | none => some (c.nameOf id)
    | some t =>
      match t.containingType with
      | some outer =>
        if t.kind = .typeParameter then
          some (qualifiedName t.namespaceName t.name t.typeParams.length)
        else do
          let container ← c.metadataName? fuel outer
          return qualifiedName (some container) t.name t.typeParams.length
      | none => some (qualifiedName t.namespaceName t.name t.typeParams.length)

/-- The number of steps that suffices for walks from symbol to symbol that never return. -/
def depthBound (c : Compilation) : Nat := c.symbols.size + 1

/-- The full name of a symbol. -/
def metadataName (c : Compilation) (id : SymbolId) : String :=
  (c.metadataName? c.depthBound id).getD ""

/-! ## Changing -/

/-- The compilation without a kept table of known symbols. -/
def dropKnown (c : Compilation) : Compilation := { c with knownCache := none }

/-- Adds a symbol; its number is the number of symbols before. -/
def add (c : Compilation) (s : Symbol) : SymbolId × Compilation :=
  (c.symbols.size, { c.dropKnown with symbols := c.symbols.push s })

/-- Changes the symbol with a number. -/
def modify (c : Compilation) (id : SymbolId) (f : Symbol → Symbol) : Compilation :=
  { c.dropKnown with symbols := c.symbols.modify id f }

/-- Changes a type; other symbols stay as they are. -/
def modifyType (c : Compilation) (id : SymbolId) (f : TypeSymbol → TypeSymbol) : Compilation :=
  { c.dropKnown with symbols := c.symbols.modify id fun
      | .type t => .type (f t)
      | s => s }

/-- Makes a type known under its full name, unless another type has that name already. -/
def register (c : Compilation) (id : SymbolId) : Compilation :=
  let chain := (((c.type? id).bind TypeSymbol.namespaceName).map namespaceChain).getD []
  { c.dropKnown with
    registry := c.registry ++ [(c.metadataName id, id)]
    namespaces := c.namespaces ++ chain }

/-- The generic type made from a definition and arguments.  No arguments, or the definition's own
parameters, give the definition. -/
def construct (c : Compilation) (id : SymbolId) (args : List SymbolId) : SymbolId × Compilation :=
  let definition := c.definition id
  match c.type? definition with
  | none => (definition, c)
  | some t =>
    if args.isEmpty || t.typeParams == args then (definition, c)
    else match c.constructed.lookup (definition, args) with
      | some known => (known, c)
      | none =>
        let (made, c) := c.add (.type { t with typeArgs := args, genericDefinition := definition })
        (made, { c with constructed := ((definition, args), made) :: c.constructed })

/-- The array type with an element type. -/
def arrayOf (c : Compilation) (element : SymbolId) : SymbolId × Compilation :=
  match c.arrays.lookup element with
  | some known => (known, c)
  | none =>
    let (made, c) := c.add <| .type
      { name := c.nameOf element ++ "[]"
        kind := .array
        accessibility := .public_
        elementType := element
        baseType := c.typeNamed? KnownType.array.metadataName }
    (made, { c with arrays := (element, made) :: c.arrays })

/-- The nullable type over another type, if the framework has one. -/
def nullableOf (c : Compilation) (underlying : SymbolId) : Option (SymbolId × Compilation) :=
  (c.typeNamed? KnownType.nullable.metadataName).map fun nullable =>
    c.construct nullable [underlying]

/-! ## Known symbols -/

/-- The known types that are registered. -/
def resolveKnownTypes (c : Compilation) : List (KnownType × SymbolId) :=
  KnownType.all.filterMap fun tag => (c.typeNamed? tag.metadataName).map fun id => (tag, id)

/-- The symbol is a member that can be known. -/
def isMember (c : Compilation) (id : SymbolId) : Bool :=
  match c.symbol? id with
  | some (.method _) | some (.field _) | some (.property _) => true
  | _ => false

/-- The known symbols of the compilation. -/
def resolveKnown (c : Compilation) : KnownSymbols :=
  let types := c.resolveKnownTypes
  { types
    members := KnownMember.all.flatMap fun member =>
      match types.lookup member.owner with
      | some owner =>
        ((c.membersNamed owner member.name).filter c.isMember).map fun id => (id, member)
      | none => [] }

/-- The known symbols: the kept table, or a new one. -/
def known (c : Compilation) : KnownSymbols := c.knownCache.getD c.resolveKnown

/-- Keeps the table of known symbols until the next change. -/
def withKnown (c : Compilation) : Compilation := { c with knownCache := some c.known }

/-- The symbol of a known type. -/
def knownType? (c : Compilation) (tag : KnownType) : Option SymbolId := c.known.types.lookup tag

/-- What a type is known as; a constructed type is known as its definition. -/
def classify (c : Compilation) (id : SymbolId) : Option KnownType :=
  let definition := c.definition id
  (c.known.types.reverse.find? fun (_, known) => known == definition).map Prod.fst

/-- The type is a known one. -/
def isKnown (c : Compilation) (id : SymbolId) (tag : KnownType) : Bool := c.classify id == some tag

/-- What a member is known as. -/
def knownMember? (c : Compilation) (id : SymbolId) : Option KnownMember :=
  c.known.members.reverse.lookup id

end Compilation

end PropertyLint
