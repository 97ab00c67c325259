/-
# Framework types and members with a meaning

The checks are about a few types and members of the framework.  Types are known by their full names,
members by their names in the known type that owns them.
-/
import PropertyLint.Symbol.Basic

namespace PropertyLint

/-- A framework type that checks ask for. -/
inductive KnownType where
  | object | string | void | type | boolean | int32 | double | nullable | array
  | dependencyObject | dependencyProperty | dependencyPropertyKey | propertyMetadata
  | componentResourceKey | templatePartAttribute | attachedPropertyBrowsableForTypeAttribute
  | iValueConverter | iMultiValueConverter | valueConversionAttribute
  | markupExtension | markupExtensionReturnTypeAttribute | constructorArgumentAttribute
  | xamlSetMarkupExtensionAttribute | xamlSetTypeConverterAttribute
  | xamlSetMarkupExtensionEventArgs | xamlSetTypeConverterEventArgs
  | xmlnsDefinitionAttribute | routedCommand | routedUICommand
deriving DecidableEq, Repr

namespace KnownType

/-- All known types. -/
def all : List KnownType :=
  [.object, .string, .void, .type, .boolean, .int32, .double, .nullable, .array,
    .dependencyObject, .dependencyProperty, .dependencyPropertyKey, .propertyMetadata,
    .componentResourceKey, .templatePartAttribute, .attachedPropertyBrowsableForTypeAttribute,
    .iValueConverter, .iMultiValueConverter, .valueConversionAttribute,
    .markupExtension, .markupExtensionReturnTypeAttribute, .constructorArgumentAttribute,
    .xamlSetMarkupExtensionAttribute, .xamlSetTypeConverterAttribute,
    .xamlSetMarkupExtensionEventArgs, .xamlSetTypeConverterEventArgs,
    .xmlnsDefinitionAttribute, .routedCommand, .routedUICommand]

/-- The name of the type without its namespace. -/
def simpleName : KnownType → String
  | object => "Object"
  | string => "String"
  | void => "Void"
  | type => "Type"
  | boolean => "Boolean"
  | int32 => "Int32"
  | double => "Double"
  | nullable => "Nullable"
  | array => "Array"
  | dependencyObject => "DependencyObject"
  | dependencyProperty => "DependencyProperty"
  | dependencyPropertyKey => "DependencyPropertyKey"
  | propertyMetadata => "PropertyMetadata"
  | componentResourceKey => "ComponentResourceKey"
  | templatePartAttribute => "TemplatePartAttribute"
  | attachedPropertyBrowsableForTypeAttribute => "AttachedPropertyBrowsableForTypeAttribute"
  | iValueConverter => "IValueConverter"
  | iMultiValueConverter => "IMultiValueConverter"
  | valueConversionAttribute => "ValueConversionAttribute"
  | markupExtension => "MarkupExtension"
  | markupExtensionReturnTypeAttribute => "MarkupExtensionReturnTypeAttribute"
  | constructorArgumentAttribute => "ConstructorArgumentAttribute"
  | xamlSetMarkupExtensionAttribute => "XamlSetMarkupExtensionAttribute"
  | xamlSetTypeConverterAttribute => "XamlSetTypeConverterAttribute"
  | xamlSetMarkupExtensionEventArgs => "XamlSetMarkupExtensionEventArgs"
  | xamlSetTypeConverterEventArgs => "XamlSetTypeConverterEventArgs"
  | xmlnsDefinitionAttribute => "XmlnsDefinitionAttribute"
  | routedCommand => "RoutedCommand"
  | routedUICommand => "RoutedUICommand"

/-- The namespace of the type. -/
def namespaceName : KnownType → String
  | object | string | void | type | boolean | int32 | double | nullable | array => "System"
  | dependencyObject | dependencyProperty | dependencyPropertyKey | propertyMetadata
  | componentResourceKey | templatePartAttribute | attachedPropertyBrowsableForTypeAttribute =>
    "System.Windows"
  | iValueConverter | iMultiValueConverter | valueConversionAttribute => "System.Windows.Data"
  | markupExtension | markupExtensionReturnTypeAttribute | constructorArgumentAttribute
  | xamlSetMarkupExtensionAttribute | xamlSetTypeConverterAttribute
  | xamlSetMarkupExtensionEventArgs | xamlSetTypeConverterEventArgs
  | xmlnsDefinitionAttribute => "System.Windows.Markup"
  | routedCommand | routedUICommand => "System.Windows.Input"

/-- The number of type parameters of the type. -/
def arity : KnownType → Nat
  | nullable => 1
  | _ => 0

/-- The full name of the type. -/
def metadataName (t : KnownType) : String :=
  qualifiedName (some t.namespaceName) t.simpleName t.arity

end KnownType

/-- A framework member that checks ask for. -/
inductive KnownMember where
  | register | registerReadOnly | registerAttached | registerAttachedReadOnly | addOwner
  | unsetValue
  /-- The property of a key that is registered with it. -/
  | keyDependencyProperty
  | getValue | setValue | setCurrentValue
deriving DecidableEq, Repr

namespace KnownMember

/-- All known members. -/
def all : List KnownMember :=
  [.register, .registerReadOnly, .registerAttached, .registerAttachedReadOnly, .addOwner,
    .unsetValue, .keyDependencyProperty, .getValue, .setValue, .setCurrentValue]

/-- The type that owns the member. -/
def owner : KnownMember → KnownType
  | register | registerReadOnly | registerAttached | registerAttachedReadOnly | addOwner
  | unsetValue => .dependencyProperty
  | keyDependencyProperty => .dependencyPropertyKey
  | getValue | setValue | setCurrentValue => .dependencyObject

/-- The name of the member. -/
def name : KnownMember → String
  | register => "Register"
  | registerReadOnly => "RegisterReadOnly"
  | registerAttached => "RegisterAttached"
  | registerAttachedReadOnly => "RegisterAttachedReadOnly"
  | addOwner => "AddOwner"
  | unsetValue => "UnsetValue"
  | keyDependencyProperty => "DependencyProperty"
  | getValue => "GetValue"
  | setValue => "SetValue"
  | setCurrentValue => "SetCurrentValue"

end KnownMember

end PropertyLint
