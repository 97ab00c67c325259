/-
# Checking the arguments of attributes

The attributes of markup extensions, markup handlers, template parts and XML namespaces name things
that have to exist or to agree with the code.
-/
import PropertyLint.Lint.Context
import PropertyLint.Pattern.AttributeUse
import PropertyLint.Pattern.MarkupExtension
import PropertyLint.Text.Ends
import PropertyLint.Text.Quoted

namespace PropertyLint.Check.AttributeArguments

/-- A constructor argument attribute that does not name the parameter its property comes from. -/
def constructorArgument (ctx : Context) (arg : Argument Expr) : Option Finding := do
  match ← ctx.visit.containingMember with
  | .property _ =>
    let actual ← ctx.model.constantText? arg.value
    let expected ← ctx.model.constructorParameter? (← ctx.visit.containingType)
      (← ctx.containingSymbol?)
    if actual = expected then none
    else
      let text := "\"" ++ expected ++ "\""
      return .withText .constructorArgument arg.value.range [expected] .expectedArgument text
  | _ => none

/-- A return type attribute that does not name what the markup extension provides. -/
def markupReturnType (ctx : Context) (arg : Argument Expr) : Option Finding := do
  let extension ← ctx.containingTypeSymbol?
  if ctx.visit.containingMember.isSome || !ctx.comp.isAssignableToKnown extension .markupExtension
  then none
  let declared ← ctx.model.typeOfArgument? arg.value
  let provided ← ctx.model.providedType? (← ctx.visit.containingType)
  if ctx.comp.typesEqual declared provided then none
  else
    let expected := ctx.comp.typeOfText provided
    return .withText .markupReturnType arg.value.range [expected] .expectedArgument expected

/-- A symbol is a method that markup can call: static, without a result, with the sender and the
arguments of the event as parameters. -/
def isHandler (c : Compilation) (argsType : KnownType) : Symbol → Bool
  | .method m =>
    m.isStatic && m.returnType.any (fun t => c.isKnown t .void) &&
      match m.params with
      | [sender, args] =>
        (c.valueType? sender).any (fun t => c.isKnown t .object) &&
          (c.valueType? args).any fun t => c.isKnown t argsType
      | _ => false
  | _ => false

/-- The rule for a markup handler. -/
def handlerRule : MarkupHandler → Rule
  | .markupExtension => .markupExtensionHandler
  | .typeConverter => .typeConverterHandler

/-- An attribute that names a handler which its type does not have. -/
def markupHandler (ctx : Context) (handler : MarkupHandler) (arg : Argument Expr) :
    Option Finding := do
  let name ← ctx.model.constantText? arg.value
  let type ← ctx.containingTypeSymbol?
  match ctx.comp.findMember? type name (isHandler ctx.comp handler.eventArgsType) with
  | some _ => none
  | none => return ⟨handlerRule handler, arg.value.range, [], []⟩

/-- What the names of template parts start with. -/
def partWord : String := "PART_"

/-- A template part whose name does not start with the word for parts. -/
def templatePart (ctx : Context) (arg : Argument Expr) : Option Finding := do
  let name ← ctx.model.constantText? arg.value
  if startsWith name partWord then none
  else return ⟨.templatePartPrefix, arg.value.range, [name], []⟩

/-- A namespace definition for a namespace that holds no type. -/
def xmlnsDefinition (ctx : Context) (arg : Argument Expr) : Option Finding := do
  let name ← ctx.model.constantText? arg.value
  if ctx.comp.hasNamespace name then none
  else return ⟨.xmlnsNamespace, arg.value.range, [name], []⟩

/-- The framework attribute that a use is about. -/
def attributeType : AttributeUse → KnownType
  | .constructorArgument _ => .constructorArgumentAttribute
  | .valueConversion _ _ => .valueConversionAttribute
  | .markupReturnType _ => .markupExtensionReturnTypeAttribute
  | .templatePart _ => .templatePartAttribute
  | .markupHandler handler _ => handler.attributeType
  | .browsableForType _ => .attachedPropertyBrowsableForTypeAttribute
  | .xmlnsDefinition _ => .xmlnsDefinitionAttribute

/-- What is wrong with a framework attribute. -/
def use (ctx : Context) : AttributeUse → Option Finding
  | .constructorArgument arg => constructorArgument ctx arg
  | .markupReturnType arg => markupReturnType ctx arg
  | .markupHandler handler arg => markupHandler ctx handler arg
  | .templatePart arg => templatePart ctx arg
  | .xmlnsDefinition arg => xmlnsDefinition ctx arg
  | .valueConversion _ _ | .browsableForType _ => none

/-- Checks an attribute. -/
def run (ctx : Context) : Polled (List Finding) := do
  match ctx.node with
  | .attr a =>
    match a.use? with
    | some found =>
      return if ctx.model.isAttribute a (attributeType found) then (use ctx found).toList else []
    | none => return []
  | _ => return []

end PropertyLint.Check.AttributeArguments
