/-
# Attributes that are checked

What an attribute of a known name says: the arguments that a check looks at.  Whether the name
stands for the framework's attribute is asked of the model.
-/
import PropertyLint.Binding.Project

namespace PropertyLint

/-- The attribute of a handler that is called when markup sets a property. -/
inductive MarkupHandler where
  | markupExtension | typeConverter
deriving DecidableEq, Repr

namespace MarkupHandler

/-- The attribute that names the handler. -/
def attributeType : MarkupHandler → KnownType
  | markupExtension => .xamlSetMarkupExtensionAttribute
  | typeConverter => .xamlSetTypeConverterAttribute

/-- The type of the handler's second parameter. -/
def eventArgsType : MarkupHandler → KnownType
  | markupExtension => .xamlSetMarkupExtensionEventArgs
  | typeConverter => .xamlSetTypeConverterEventArgs

end MarkupHandler

/-- What an attribute says. -/
inductive AttributeUse where
  | constructorArgument (arg : Argument Expr)
  | valueConversion (source target : Option (Argument Expr))
  | markupReturnType (arg : Argument Expr)
  | templatePart (name : Argument Expr)
  | markupHandler (handler : MarkupHandler) (arg : Argument Expr)
  | browsableForType (arg : Argument Expr)
  | xmlnsDefinition (clrNamespace : Argument Expr)

/-- The argument for a parameter: by its name, or else at its place. -/
def ArgumentList.namedOrAt? (args : ArgumentList Expr) (name : String) (index : Nat) :
    Option (Argument Expr) :=
  args.passedAs? name <|> args.positional? index

/-- The first argument that sets a property. -/
def ArgumentList.setting? (args : ArgumentList Expr) (name : String) : Option (Argument Expr) :=
  args.args.find? fun a => a.name.any fun n => n.kind == .equals && n.ident.text == name

/-- What an attribute says, by its name. -/
def Attribute.use? (a : Attribute) : Option AttributeUse := do
  match ← a.shortName? with
  | "ConstructorArgument" => return .constructorArgument (← a.singleArgument?)
  | "ValueConversion" =>
    let args ← a.args
    return .valueConversion (args.namedOrAt? "sourceType" 0) (args.namedOrAt? "targetType" 1)
  | "MarkupExtensionReturnType" => return .markupReturnType (← a.positional? 0)
  | "TemplatePart" => return .templatePart (← (← a.args).setting? "Name")
  | "XamlSetMarkupExtension" => return .markupHandler .markupExtension (← a.positional? 0)
  | "XamlSetTypeConverter" => return .markupHandler .typeConverter (← a.positional? 0)
  | "AttachedPropertyBrowsableForType" => return .browsableForType (← a.positional? 0)
  | "XmlnsDefinition" => return .xmlnsDefinition (← (← a.args).namedOrAt? "clrNamespace" 1)
  | _ => none

/-- The attribute is a known one of the framework. -/
def Model.isAttribute (m : Model) (a : Attribute) (known : KnownType) : Bool :=
  (m.type? a.id).any fun t => m.comp.isKnown t known

end PropertyLint
