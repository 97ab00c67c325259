/-
# Checking value converters

A converter that keeps no state offers a default instance, which is an instance of the converter
itself, and an attribute says between which types it converts.
-/
import PropertyLint.Lint.Context
import PropertyLint.Pattern.AttributeUse
import PropertyLint.Pattern.Conversion

namespace PropertyLint.Check.Converter

/-- The type is a converter of one value or of several values. -/
def isConverter (c : Compilation) (t : SymbolId) : Bool :=
  c.isAssignableToKnown t .iValueConverter || c.isAssignableToKnown t .iMultiValueConverter

/-! ## Default instances -/

/-- The member is a static field or property that holds a converter. -/
def isDefaultInstance (ctx : Context) (member : Member) : Bool :=
  member.isFieldOrProperty && member.modifiers.isStatic &&
    ((ctx.model.declared? member.id).bind ctx.comp.valueType?).any (isConverter ctx.comp)

/-- The member can be changed or refined in derived classes. -/
def isExtensible (member : Member) : Bool :=
  [Modifier.virtual, .abstract_, .protected_].any member.modifiers.has

/-- The member is state of an instance. -/
def isMutable : Member → Bool
  | .field d => !d.modifiers.isStatic && !d.modifiers.isReadonly
  | .property d => !d.modifiers.isStatic && d.setter?.isSome
  | _ => false

/-- The type has nothing to derive from, no constructor parameters and no state. -/
def isStateless (t : TypeDecl) : Bool :=
  !(t.ownMembers.any isExtensible || t.constructors.any (fun c => !c.params.isEmpty) ||
    t.ownMembers.any isMutable)

/-- A converter without state and without a default instance, or default instances of other types.
-/
def defaultInstance (ctx : Context) (t : TypeDecl) (converter : SymbolId) : List Finding :=
  let defaults := t.ownMembers.filter (isDefaultInstance ctx)
  if defaults.isEmpty then
    if isStateless t then [⟨.converterDefault, t.name.range, [], []⟩] else []
  else
    let values := defaults.filterMap fun m => m.startValue?.map Expr.unparenthesized
    let others := values.filter fun value =>
      (ctx.model.type? value.id).any fun assigned => !ctx.comp.typesEqual assigned converter
    others.map fun value => ⟨.defaultInstanceType, value.range, [], []⟩

/-! ## Conversion attributes -/

/-- The arguments of the framework's conversion attribute. -/
def conversionArguments? (ctx : Context) (t : TypeDecl) :
    Option (Option (Argument Expr) × Option (Argument Expr)) :=
  t.attributes.findSome? fun a =>
    match a.use? with
    | some (.valueConversion source target) =>
      if ctx.model.isAttribute a .valueConversionAttribute then some (source, target) else none
    | _ => none

/-- An argument that names another type than the converter works with. -/
def argument (ctx : Context) (arg : Option (Argument Expr)) (expected : Option SymbolId) :
    Option Finding := do
  let arg ← arg
  let expected ← expected
  let actual ← ctx.model.typeOfArgument? arg.value
  if ctx.comp.typesEqual actual expected then none
  else
    let text := ctx.comp.typeOfText expected
    return .withText .valueConversionTypes arg.value.range [text] .expectedArgument text

/-- A converter without a conversion attribute. -/
def missingConversion (ctx : Context) (t : TypeDecl) (types : ConversionTypes) : Finding :=
  match types.source, types.target with
  | some source, some target =>
    .withText .addValueConversion t.name.range [] .attributeText
      ("[ValueConversion(" ++ ctx.comp.typeOfText source ++ ", " ++
        ctx.comp.typeOfText target ++ ")]")
  | _, _ => ⟨.addUnknownConversion, t.name.range, [], []⟩

/-- No conversion attribute, or one with wrong types. -/
def conversion (ctx : Context) (t : TypeDecl) : List Finding :=
  match ctx.model.conversionTypes? t with
  | none => []
  | some types =>
    match conversionArguments? ctx t with
    | none => [missingConversion ctx t types]
    | some (source, target) =>
      (argument ctx source types.source).toList ++ (argument ctx target types.target).toList

/-! ## The check -/

/-- The converter can be used from markup: it is not abstract and not hidden in another type. -/
def isUsable (t : TypeSymbol) : Bool :=
  !t.isAbstract && t.accessibility != .private_ && t.accessibility != .protected_

/-- What is wrong with a usable type. -/
def usable (ctx : Context) (t : TypeDecl) (symbol : SymbolId) : List Finding :=
  if isConverter ctx.comp symbol then
    (if ctx.comp.isAssignableToKnown symbol .markupExtension then []
      else defaultInstance ctx t symbol) ++
    (if ctx.comp.isAssignableToKnown symbol .iValueConverter then conversion ctx t else [])
  else []

/-- Checks a type. -/
def run (ctx : Context) : Polled (List Finding) := do
  match ctx.node, ctx.containingSymbol? with
  | .member (.type t), some symbol =>
    return if (ctx.comp.type? symbol).any isUsable then usable ctx t symbol else []
  | _, _ => return []

end PropertyLint.Check.Converter
