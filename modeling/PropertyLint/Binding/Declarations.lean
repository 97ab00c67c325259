/-
# Declaring types and members

Types are declared first, with their type parameters, so that every name can be found when base
types and members are declared.  The parts of a partial type are declared as one symbol.  Classes
without a base derive from `object`, and classes and structs without a constructor get one without
parameters; both is decided when all parts are known.
-/
import PropertyLint.Binding.Types

namespace PropertyLint

open Binder

/-- A file whose declarations are bound; the framework is no file. -/
structure Source where
  file : Option FileId
  root : CompilationUnit

namespace Source

/-- The scope of the file's assembly attributes. -/
def scope (s : Source) : Scope := ⟨s.file, s.root.usings, none, []⟩

/-- The scope inside of a type of the file. -/
def scopeIn (s : Source) (type : SymbolId) : Scope := ⟨s.file, s.root.usings, some type, []⟩

end Source

/-- A type declaration with the symbol it declares. -/
structure DeclaredType where
  source : Source
  decl : TypeDecl
  symbol : SymbolId

/-- The scope inside of the declared type. -/
def DeclaredType.scope (d : DeclaredType) : Scope := d.source.scopeIn d.symbol

/-! ## Types -/

/-- The type that an earlier part of a partial declaration has declared. -/
def earlierPart? (c : Compilation) (outer : Option SymbolId) (decl : TypeHeader) :
    Option SymbolId :=
  if decl.modifiers.has .partial_ then
    let container := match outer with
      | some outer => some (c.metadataName outer)
      | none => decl.namespaceName
    c.typeNamed? (qualifiedName container decl.name.text decl.typeParams.length)
  else none

/-- The symbol of a declared type, without parameters, bases and members. -/
def typeSymbolOf (outer : Option SymbolId) (decl : TypeHeader) : TypeSymbol where
  name := decl.name.text
  kind := .ofDecl decl.kind
  namespaceName := decl.namespaceName
  accessibility :=
    decl.modifiers.accessibility?.getD (if outer.isSome then .private_ else .internal)
  isStatic := decl.modifiers.has .static_
  isAbstract := decl.modifiers.has .abstract_ || decl.kind == .interface
  containingType := outer

/-- Adds the type parameters of a type. -/
def addTypeParams (owner : SymbolId) (base : Option SymbolId) : Nat → List Ident → Binder Unit
  | _, [] => pure ()
  | ordinal, name :: rest => do
    let id ← add <| .type
      { name := name.text, kind := .typeParameter, containingType := owner, ordinal,
        baseType := base }
    change fun c => ((), c.modifyType owner fun t => { t with typeParams := t.typeParams ++ [id] })
    addTypeParams owner base (ordinal + 1) rest

/-- Adds and registers the symbol of a declared type. -/
def createType (outer : Option SymbolId) (decl : TypeHeader) : Binder SymbolId := do
  let id ← add (.type (typeSymbolOf outer decl))
  addTypeParams id (← knownType? .object) 0 decl.typeParams
  change fun c => ((), c.register id)
  return id

/-- Declares a type without its members. -/
def declareHeader (source : Source) (outer : Option SymbolId) (decl : TypeHeader) :
    Binder SymbolId := do
  let id ← match earlierPart? (← comp) outer decl with
    | some id => pure id
    | none => createType outer decl
  if let some place := source.scope.sourceRef decl.node then
    change fun c => ((), c.modifyType id fun t =>
      { t with declarations := t.declarations ++ [place] })
  declare source.scope decl.node.id id
  return id

mutual

/-- Declares a type and the types nested in it. -/
def declareType (source : Source) (outer : Option SymbolId) : TypeDecl → Binder (List DeclaredType)
  | decl@(.mk header members) => do
    let id ← declareHeader source outer header
    return ⟨source, decl, id⟩ :: (← declareNested source id members)

/-- Declares the types among members. -/
def declareNested (source : Source) (outer : SymbolId) : List Member → Binder (List DeclaredType)
  | [] => return []
  | .type decl :: rest => do
    let first ← declareType source (some outer) decl
    return first ++ (← declareNested source outer rest)
  | .field _ :: rest => declareNested source outer rest
  | .property _ :: rest => declareNested source outer rest
  | .method _ :: rest => declareNested source outer rest
  | .constructor _ :: rest => declareNested source outer rest

end

/-- Declares the types of the files. -/
def declareTypes (sources : List Source) : Binder (List DeclaredType) := do
  let declared ← sources.mapM fun source => source.root.types.mapM (declareType source none)
  return declared.flatten.flatten

/-! ## Bases -/

/-- The type with one more base: an interface, or a base type if it has none yet. -/
def TypeSymbol.withBase (t : TypeSymbol) (base : SymbolId) (isInterface : Bool) : TypeSymbol :=
  if isInterface || t.kind == .interface then
    if t.interfaces.contains base then t else { t with interfaces := t.interfaces ++ [base] }
  else if t.baseType.isNone then { t with baseType := some base }
  else t

/-- Declares the bases of a type. -/
def declareBases (d : DeclaredType) : Binder Unit :=
  d.decl.header.bases.forM fun base => do
    if let some found ← resolveType d.scope base then
      let isInterface := ((← comp).type? found).any (·.kind == .interface)
      change fun c => ((), c.modifyType d.symbol fun t => t.withBase found isInterface)

/-! ## Members -/

/-- Who may use a member; members are private unless their type is an interface. -/
def memberAccessibility (d : DeclaredType) (ms : Modifiers) : Accessibility :=
  ms.accessibility?.getD (if d.decl.header.kind = .interface then .public_ else .private_)

/-- Declares parameters. -/
def declareParams (scope : Scope) : Nat → List Parameter → Binder (List SymbolId)
  | _, [] => return []
  | ordinal, p :: rest => do
    let type ← resolveType scope p.type
    let id ← add (.parameter ⟨p.name.text, type, ordinal, p.default.isSome, scope.sourceRef p.node⟩)
    declare scope p.node.id id
    return id :: (← declareParams scope (ordinal + 1) rest)

/-- Declares a field. -/
def declareField (d : DeclaredType) (field : FieldDecl) : Binder SymbolId := do
  let type ← resolveType d.scope field.type
  let id ← addMember d.symbol <| .field
    { name := field.name.text
      type
      containingType := d.symbol
      accessibility := memberAccessibility d field.modifiers
      isStatic := field.modifiers.isStatic
      isReadonly := field.modifiers.isReadonly
      isConst := field.modifiers.has .const
      declaration := d.scope.sourceRef field.node }
  declare d.scope field.node.id id
  return id

/-- Declares a property. -/
def declareProperty (d : DeclaredType) (property : PropertyDecl) : Binder Unit := do
  let type ← resolveType d.scope property.type
  let id ← addMember d.symbol <| .property
    { name := property.name.text
      type
      containingType := d.symbol
      accessibility := memberAccessibility d property.modifiers
      isStatic := property.modifiers.isStatic
      hasGetter := property.getter?.isSome || property.arrow.isSome
      hasSetter := property.setter?.isSome
      declaration := d.scope.sourceRef property.node }
  declare d.scope property.node.id id

/-- Adds the type parameters of a method. -/
def addMethodTypeParams (base : Option SymbolId) : Nat → List Ident → Binder (List SymbolId)
  | _, [] => return []
  | ordinal, name :: rest => do
    let id ← add (.type { name := name.text, kind := .typeParameter, ordinal, baseType := base })
    return id :: (← addMethodTypeParams base (ordinal + 1) rest)

/-- Declares a method. -/
def declareMethod (d : DeclaredType) (method : MethodDecl) : Binder Unit := do
  let typeParams ← addMethodTypeParams (← knownType? .object) 0 method.typeParams
  let scope := { d.scope with methodTypeParams := typeParams }
  let returnType ← resolveType scope method.returnType
  let params ← declareParams scope 0 method.params
  if let some interface := method.interface then discard (resolveType scope interface)
  let id ← addMember d.symbol <| .method
    { name := method.name.text
      containingType := d.symbol
      accessibility :=
        if method.interface.isSome then .private_ else memberAccessibility d method.modifiers
      isStatic := method.modifiers.isStatic
      isAbstract := method.modifiers.has .abstract_ || d.decl.header.kind == .interface
      kind := if method.interface.isSome then .explicitImplementation else .ordinary
      returnType
      params
      declaration := d.scope.sourceRef method.node }
  declare d.scope method.node.id id
  modify fun s => { s with
    methodTypeParams := (⟨d.source.file, method.node.id⟩, typeParams) :: s.methodTypeParams }

/-- Declares a constructor. -/
def declareConstructor (d : DeclaredType) (ctor : ConstructorDecl) : Binder Unit := do
  let params ← declareParams d.scope 0 ctor.params
  let void ← knownType? .void
  let id ← addMember d.symbol <| .method
    { name := constructorName
      containingType := d.symbol
      accessibility := memberAccessibility d ctor.modifiers
      isStatic := ctor.modifiers.isStatic
      isAbstract := false
      kind := .constructor
      returnType := void
      params
      declaration := d.scope.sourceRef ctor.node }
  declare d.scope ctor.node.id id

/-- A constant field whose value is still to be found. -/
structure ConstField where
  scope : Scope
  symbol : SymbolId
  init : Expr

/-- Declares a member, and gives the constant field that it is. -/
def declareMember (d : DeclaredType) : Member → Binder (List ConstField)
  | .field field => do
    let id ← declareField d field
    match field.init with
    | some init => return if field.modifiers.has .const then [⟨d.scope, id, init⟩] else []
    | none => return []
  | .property property => do
    declareProperty d property
    return []
  | .method method => do
    declareMethod d method
    return []
  | .constructor ctor => do
    declareConstructor d ctor
    return []
  | .type _ => return []

/-- Declares the bases and the members of a type, and gives its constant fields. -/
def declareContents (d : DeclaredType) : Binder (List ConstField) := do
  declareBases d
  return (← d.decl.members.mapM (declareMember d)).flatten

/-! ## What is not written -/

/-- The full name of the base that a type without a written base has. -/
def implicitBaseName? (c : Compilation) (id : SymbolId) (t : TypeSymbol) : Option String :=
  let object := KnownType.object.metadataName
  if t.baseType.isSome then none
  else match t.kind with
    | .class_ => if c.metadataName id = object then none else some object
    | .struct => some "System.ValueType"
    | _ => none

/-- The type gets a constructor without parameters. -/
def needsConstructor (c : Compilation) (t : TypeSymbol) : Bool :=
  (t.kind == .class_ || t.kind == .struct) && !t.isStatic &&
    !t.members.any fun m => c.nameOf m == constructorName

/-- The constructor that a type has when none is written. -/
def implicitConstructor (type : SymbolId) (void : Option SymbolId) : MethodSymbol where
  name := constructorName
  containingType := type
  accessibility := .public_
  isStatic := false
  isAbstract := false
  kind := .constructor
  returnType := void
  params := []
  declaration := none

/-- Adds the base and the constructor that are not written. -/
def addImplicit (d : DeclaredType) : Binder Unit := do
  let c ← comp
  if let some t := c.type? d.symbol then
    if let some base := (implicitBaseName? c d.symbol t).bind c.typeNamed? then
      change fun c => ((), c.modifyType d.symbol fun t => { t with baseType := some base })
    if needsConstructor c t then
      discard (addMember d.symbol (.method (implicitConstructor d.symbol (← knownType? .void))))

/-- Declares the contents of all types, and gives their constant fields. -/
def declareAll (types : List DeclaredType) : Binder (List ConstField) := do
  let consts ← types.mapM declareContents
  types.forM addImplicit
  return consts.flatten

end PropertyLint
