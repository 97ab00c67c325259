/-
# Binding attributes and bodies

When all members are declared, the constant fields are evaluated in the order of their declaration,
then the attributes of the assemblies are bound, and then, type by type, the attributes, initial
values and bodies of the source files.  The attributes of a type and its members and the initial
values of its fields share one scope; every body has a scope of its own.
-/
import PropertyLint.Binding.Declarations
import PropertyLint.Binding.Exprs

namespace PropertyLint

open Binder

/-! ## Constants -/

/-- Evaluates a constant field. -/
def bindConstField (f : ConstField) : Binder Unit := inFreshScope [] do
  discard (bindExpr f.scope f.init)
  if let some v ← constant? f.scope f.init.id then
    modify fun s => { s with fieldConstants := (f.symbol, v) :: s.fieldConstants }

/-! ## Attributes -/

/-- Binds the arguments of an attribute and gives those for its constructor.  An argument written
with `=` refers to a member of the class. -/
def bindAttributeArgs (scope : Scope) (class? : Option SymbolId) :
    List (Argument Expr) → Binder (List PassedArg)
  | [] => return []
  | arg :: rest => do
    let type ← bindValue scope arg.value
    match arg.name with
    | some ⟨ident, .equals⟩ =>
      if let some owner := class? then
        if let member :: _ := (← comp).lookupMembers owner ident.text then
          recordSymbol scope arg.node.id member
      bindAttributeArgs scope class? rest
    | _ => return ⟨arg.paramName?, type⟩ :: (← bindAttributeArgs scope class? rest)

/-- Binds an attribute to the constructor of its class. -/
def bindAttribute (scope : Scope) (a : Attribute) : Binder Unit := do
  let class? ← resolveAttributeClass scope a.name
  let passed ← bindAttributeArgs scope class? ((a.args.map ArgumentList.args).getD [])
  if let some owner := class? then
    recordType scope a.id owner
    bindConstructor scope a.id owner passed

/-- Binds attributes one after the other. -/
def bindAttributes (scope : Scope) (as : List Attribute) : Binder Unit :=
  as.forM (bindAttribute scope)

/-! ## Bodies -/

/-- The parameters as locals, innermost first. -/
def paramLocals (facts : Facts) (scope : Scope) (params : List Parameter) :
    List (String × SymbolId) :=
  (params.filterMap fun p =>
    (facts.declared? ⟨scope.file, p.node.id⟩).map fun id => (p.name.text, id)).reverse

/-- Binds the attributes and the default values of parameters. -/
def bindParams (scope : Scope) (params : List Parameter) : Binder Unit :=
  params.forM fun p => do
    bindAttributes scope p.attributes
    bindOption scope p.default

/-- Binds the parameters and the body of a method or a constructor. -/
def bindCallable (scope : Scope) (params : List Parameter) (body : Body) : Binder Unit := do
  inFreshScope (paramLocals (← get).facts scope params) do
    bindParams scope params
    bindBody scope body

/-- The name of the value that a setter gets. -/
def setterValueName : String := "value"

/-- Binds an accessor; a setter sees the new value as a parameter. -/
def bindAccessor (scope : Scope) (propertyType : Option SymbolId) (isSetter : Bool) (a : Accessor) :
    Binder Unit := inFreshScope [] do
  if isSetter then
    let value ← add (.parameter ⟨setterValueName, propertyType, 0, false, none⟩)
    addLocal setterValueName value
  bindBody scope a.body

/-- Binds the bodies of a property. -/
def bindProperty (scope : Scope) (p : PropertyDecl) : Binder Unit := do
  let s ← get
  let propertyType := (s.facts.declared? ⟨scope.file, p.node.id⟩).bind s.comp.valueType?
  inFreshScope [] do
    bindOption scope p.arrow
    p.accessors.forM fun a =>
      bindAccessor scope propertyType (p.setter?.any fun setter => setter.node.id == a.node.id) a
    bindOption scope p.init

/-- The type parameters of a method. -/
def methodTypeParamsOf (scope : Scope) (m : MethodDecl) : Binder (List SymbolId) :=
  return ((← get).methodTypeParams.lookup ⟨scope.file, m.node.id⟩).getD []

/-- Binds a member and its attributes. -/
def bindMemberBody (scope : Scope) (m : Member) : Binder Unit := do
  bindAttributes scope m.attributes
  match m with
  | .field d => if !d.modifiers.has .const then bindOption scope d.init
  | .property d => bindProperty scope d
  | .method d =>
    bindCallable { scope with methodTypeParams := ← methodTypeParamsOf scope d } d.params d.body
  | .constructor d => bindCallable scope d.params d.body
  | .type _ => pure ()

/-- Binds a type's attributes and its members. -/
def bindTypeBody (d : DeclaredType) : Binder Unit := inFreshScope [] do
  bindAttributes d.scope d.decl.attributes
  d.decl.ownMembers.forM (bindMemberBody d.scope)

/-- Binds the attributes of a file's assembly. -/
def bindAssembly (s : Source) : Binder Unit :=
  inFreshScope [] (bindAttributes s.scope s.root.attributes)

/-! ## Projects -/

/-- Binds all files; the framework's own attributes and bodies are left out. -/
def bindSources (sources : List Source) : Binder Unit := do
  let types ← declareTypes sources
  let consts ← declareAll types
  consts.forM bindConstField
  (sources.filter fun s => s.file.isSome).forM bindAssembly
  (types.filter fun d => d.source.file.isSome).forM bindTypeBody

end PropertyLint
