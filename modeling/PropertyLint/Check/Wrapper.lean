/-
# Checking property wrappers

An instance property of a dependency object that reads or sets a dependency property has the name
and the type that are registered, uses one dependency property, sets it with `SetValue` and does
nothing else.
-/
import PropertyLint.Lint.Context
import PropertyLint.Pattern.Registration

namespace PropertyLint.Check.Wrapper

/-- A getter and a setter that use different dependency properties. -/
def sameProperty (property : PropertyDecl) (get set : Option Registration) : List Finding :=
  match get, set with
  | some get, some set =>
    if get.call.id = set.call.id then []
    else [⟨.sameProperty, property.name.range, [property.name.text], []⟩]
  | _, _ => []

/-- A name that is not the registered one. -/
def name (property : PropertyDecl) (r : Registration) : List Finding :=
  match r.name with
  | some registered =>
    if property.name.text = registered then []
    else [.withText .wrapperName property.name.range [property.name.text, registered]
            .expectedName registered]
  | none => []

/-- A type that is not the registered one. -/
def type (ctx : Context) (property : PropertyDecl) (r : Registration) : List Finding :=
  match ctx.containingSymbol?.bind ctx.comp.valueType?, r.type with
  | some declared, some registered =>
    if ctx.comp.typesEqual declared registered then []
    else
      let expected := ctx.comp.display registered
      [.withText .wrapperType property.type.range [property.name.text, expected]
        .typeText expected]
  | _, _ => []

/-- A setter that uses `SetCurrentValue`. -/
def setValue (setter : Option AccessorCall) : List Finding :=
  match setter with
  | some ⟨call, .setCurrentValue, _⟩ => [⟨.useSetValue, call.range, [], []⟩]
  | _ => []

/-- Statements of an accessor other than its call. -/
def accessorEffects (accessor : Option Accessor) (access : Option AccessorCall) :
    Polled (List Finding) := do
  match accessor, access with
  | some accessor, some access =>
    Polled.poll
    return sideEffects .wrapperSideEffects (extraStatements accessor.body access.call)
  | _, _ => return []

/-- Checks a property that reads or sets values. -/
def wrapper (ctx : Context) (property : PropertyDecl) (calls : WrapperCalls) :
    Polled (List Finding) := do
  let getter := calls.getCall.bind ctx.model.confirmCall?
  let setter := calls.setCall.bind ctx.model.confirmCall?
  let registrationFor (access : Option AccessorCall) : Option Registration :=
    (access.bind AccessorCall.backing).bind ctx.model.registrationOf?
  let get := registrationFor getter
  let set := registrationFor setter
  let against := ((get <|> set).map fun r => name property r ++ type ctx property r).getD []
  let getEffects ← accessorEffects property.getter? getter
  let setEffects ← accessorEffects property.setter? setter
  return sameProperty property get set ++ against ++ setValue setter ++ getEffects ++ setEffects

/-- Checks a property. -/
def run (ctx : Context) : Polled (List Finding) := do
  match ctx.node with
  | .member (.property property) =>
    let onObject := ctx.containingTypeSymbol?.any fun t =>
      ctx.comp.isAssignableToKnown t .dependencyObject
    match property.wrapperCalls?, onObject with
    | some calls, true => wrapper ctx property calls
    | _, _ => return []
  | _ => return []

end PropertyLint.Check.Wrapper
