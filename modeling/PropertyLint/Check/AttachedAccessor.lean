/-
# Checking the accessors of attached properties

A static method that reads or sets an attached property is named after it, has its registered type,
does nothing else and is documented.  The one that reads it says for which objects the property is
meant.
-/
import PropertyLint.Lint.Context
import PropertyLint.Pattern.AttributeUse
import PropertyLint.Pattern.BackingMember

namespace PropertyLint.Check.AttachedAccessor

/-- A name that is not the registered one behind `Get` or `Set`. -/
def name (method : MethodDecl) (direction : Direction) (registered : String) : List Finding :=
  let expected := direction.word ++ registered
  if method.name.text = expected then []
  else [.withText .accessorName method.name.range [method.name.text, expected]
          .expectedName expected]

/-- What a message calls the type that is checked. -/
def typeLabel : Direction → String
  | .get => "Return type"
  | .set => "Value type"

/-- The type of the value that the method gets or sets. -/
def valueType? (method : MethodDecl) : Direction → Option TypeRef
  | .get => some method.returnType
  | .set => (method.params[1]?).map Parameter.type

/-- A type that is not the registered one. -/
def type (ctx : Context) (method : MethodDecl) (direction : Direction) (registered : SymbolId) :
    List Finding :=
  match valueType? method direction with
  | some written =>
    match ctx.model.symbol? written.id with
    | some declared =>
      if ctx.comp.typesEqual declared registered then []
      else
        let expected := ctx.comp.display registered
        [.withText .accessorType written.range [typeLabel direction, expected] .typeText expected]
    | none => []
  | none => []

/-- The argument of the first attribute that says for which objects a property is meant. -/
def browsableArgument? (method : MethodDecl) : Option (Argument Expr) :=
  method.attributes.findSome? fun a =>
    match a.use? with
    | some (.browsableForType arg) => some arg
    | _ => none

/-- No attribute that says for which objects the property is meant, or one for other objects. -/
def browsable (ctx : Context) (method : MethodDecl) (element : SymbolId) : List Finding :=
  let expected := ctx.comp.typeOfText element
  match browsableArgument? method with
  | none =>
    [.withText .addBrowsable method.name.range [ctx.comp.display element] .attributeText
      ("[AttachedPropertyBrowsableForType(" ++ expected ++ ")]")]
  | some arg =>
    match ctx.model.typeOfArgument? arg.value with
    | some named =>
      if ctx.comp.isAssignableTo named element then []
      else [.withText .browsableArgument arg.value.range [ctx.comp.display element]
              .expectedArgument expected]
    | none => []

/-- The accessibility of a method that needs a doc comment. -/
def isVisible (a : Accessibility) : Bool :=
  a == .protected_ || a == .internal || a == .protectedInternal || a == .public_

/-- A visible method without a doc comment. -/
def documentation (ctx : Context) (method : MethodDecl) : List Finding :=
  let symbol? := ctx.containingSymbol?.bind ctx.comp.symbol?
  let visible := symbol?.any fun s => isVisible s.accessibility
  if method.doc.isNone && visible then [⟨.documentAccessor, method.name.range, [], []⟩] else []

/-- What is wrong with the method against the registration of the property. -/
def registration (ctx : Context) (method : MethodDecl) (direction : Direction) (element : SymbolId)
    (r : Registration) : List Finding :=
  ((r.type.map (type ctx method direction)).getD []) ++
    if direction = .get && r.kind.isAttached then browsable ctx method element else []

/-- Checks a method that reads or sets the value of a backing member. -/
def accessor (ctx : Context) (method : MethodDecl) (direction : Direction) (call : Expr)
    (element : SymbolId) (backing : BackingMember) : Polled (List Finding) := do
  let names := ((ctx.model.registeredName? backing).map (name method direction)).getD []
  Polled.poll
  let against := ((ctx.model.registrationOf? backing.symbol).map
    (registration ctx method direction element)).getD []
  let effects := sideEffects .accessorSideEffects (extraStatements method.body call)
  return names ++ against ++ effects ++ documentation ctx method

/-- What a method reads or sets: its call, the type of the objects that it is for and the backing
member.  Methods for other objects than those with properties are none of these accessors. -/
def accessed? (ctx : Context) (method : MethodDecl) :
    Option (AttachedCall × SymbolId × BackingMember) := do
  let attached ← method.attachedCall?
  let access ← ctx.model.confirmCall? attached.call
  let element ← ctx.model.symbol? (← method.params.head?).type.id
  if !ctx.comp.isAssignableToKnown element .dependencyObject then none
  return (attached, element, ← ctx.comp.staticBackingMember? (← access.backing))

/-- Checks a method. -/
def run (ctx : Context) : Polled (List Finding) := do
  match ctx.node with
  | .member (.method method) =>
    match accessed? ctx method with
    | some (attached, element, backing) =>
      accessor ctx method attached.direction attached.call element backing
    | none => return []
  | _ => return []

end PropertyLint.Check.AttachedAccessor
