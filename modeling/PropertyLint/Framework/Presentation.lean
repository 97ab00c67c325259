/-
# The presentation types of the framework

The declarations of `System.Windows` and of the namespaces in it that code is checked against:
dependency properties and their metadata, controls, converters, markup extensions and commands.
-/
import PropertyLint.Framework.Declare

namespace PropertyLint.Framework

/-! ## Dependency properties -/

/-- The type of dependency properties. -/
def dependencyProperty : TypeRef := named "DependencyProperty"

/-- The type of the keys of read-only dependency properties. -/
def dependencyPropertyKey : TypeRef := named "DependencyPropertyKey"

/-- The type of property metadata. -/
def propertyMetadata : TypeRef := named "PropertyMetadata"

/-- The parameters that all registrations start with. -/
def registrationParams : List (TypeRef × String) :=
  [(string, "name"), (type, "propertyType"), (type, "ownerType")]

/-- The parameter for metadata. -/
def metadataParam (name : String) : TypeRef × String := (propertyMetadata, name)

/-- The parameter for a validation of values. -/
def validateParam : TypeRef × String := (named "ValidateValueCallback", "validateValueCallback")

/-- The overloads of a registration that gives a dependency property. -/
def registrations (name metadata : String) : List Member :=
  [ staticMethod dependencyProperty name registrationParams,
    staticMethod dependencyProperty name (registrationParams ++ [metadataParam metadata]),
    staticMethod dependencyProperty name
      (registrationParams ++ [metadataParam metadata, validateParam]) ]

/-- The overloads of a registration that gives a key. -/
def readOnlyRegistrations (name metadata : String) : List Member :=
  [ staticMethod dependencyPropertyKey name (registrationParams ++ [metadataParam metadata]),
    staticMethod dependencyPropertyKey name
      (registrationParams ++ [metadataParam metadata, validateParam]) ]

/-- Objects with dependency properties, the properties and their keys. -/
def dependencyTypes : List TypeDecl :=
  [ publicClass "DependencyObject" []
      [ method object "GetValue" [(dependencyProperty, "dp")],
        method void "SetValue" [(dependencyProperty, "dp"), (object, "value")],
        method void "SetValue" [(dependencyPropertyKey, "key"), (object, "value")],
        method void "SetCurrentValue" [(dependencyProperty, "dp"), (object, "value")],
        method void "ClearValue" [(dependencyProperty, "dp")] ],
    sealedClass "DependencyProperty" [] <|
      [ staticField object "UnsetValue",
        readOnlyProperty string "Name",
        readOnlyProperty type "PropertyType",
        readOnlyProperty type "OwnerType" ] ++
      registrations "Register" "typeMetadata" ++
      readOnlyRegistrations "RegisterReadOnly" "typeMetadata" ++
      registrations "RegisterAttached" "defaultMetadata" ++
      readOnlyRegistrations "RegisterAttachedReadOnly" "defaultMetadata" ++
      [ method dependencyProperty "AddOwner" [(type, "ownerType")],
        method dependencyProperty "AddOwner" [(type, "ownerType"), metadataParam "typeMetadata"] ],
    sealedClass "DependencyPropertyKey" []
      [readOnlyProperty dependencyProperty "DependencyProperty"] ]

/-! ## Metadata -/

/-- The parameter for a default value. -/
def defaultValueParam : TypeRef × String := (object, "defaultValue")

/-- The parameter for the callback of changes. -/
def changedParam : TypeRef × String := (named "PropertyChangedCallback", "propertyChangedCallback")

/-- The parameter for the callback that coerces values. -/
def coerceParam : TypeRef × String := (named "CoerceValueCallback", "coerceValueCallback")

/-- The type of the flags of metadata. -/
def metadataOptions : TypeRef := named "FrameworkPropertyMetadataOptions"

/-- The parameter for flags. -/
def flagsParam : TypeRef × String := (metadataOptions, "flags")

/-- Callbacks, metadata and their flags. -/
def metadataTypes : List TypeDecl :=
  [ publicClass "DependencyPropertyChangedEventArgs" [] [],
    publicClass "PropertyChangedCallback" [] [],
    publicClass "CoerceValueCallback" [] [],
    publicClass "ValidateValueCallback" [] [],
    publicClass "PropertyMetadata" []
      [ constructor [],
        constructor [defaultValueParam],
        constructor [changedParam],
        constructor [defaultValueParam, changedParam],
        constructor [defaultValueParam, changedParam, coerceParam],
        property object "DefaultValue" ],
    publicClass "UIPropertyMetadata" [propertyMetadata]
      [ constructor [],
        constructor [defaultValueParam],
        constructor [defaultValueParam, changedParam] ],
    publicStruct "FrameworkPropertyMetadataOptions"
      [ staticField metadataOptions "None",
        staticField metadataOptions "AffectsMeasure",
        staticField metadataOptions "AffectsArrange",
        staticField metadataOptions "AffectsRender",
        staticField metadataOptions "Inherits",
        staticField metadataOptions "BindsTwoWayByDefault" ],
    publicClass "FrameworkPropertyMetadata" [named "UIPropertyMetadata"]
      [ constructor [],
        constructor [defaultValueParam],
        constructor [defaultValueParam, changedParam],
        constructor [defaultValueParam, flagsParam],
        constructor [defaultValueParam, flagsParam, changedParam] ] ]

/-! ## Elements, resources and attributes -/

/-- The values of visibility, the classes that elements derive from, resource keys, and the
attributes of properties and template parts. -/
def elementTypes : List TypeDecl :=
  [ publicStruct "Visibility"
      [ staticField (named "Visibility") "Visible",
        staticField (named "Visibility") "Hidden",
        staticField (named "Visibility") "Collapsed" ],
    abstractClass "Freezable" [named "DependencyObject"] [],
    abstractClass "Visual" [named "DependencyObject"] [],
    publicClass "UIElement" [named "Visual"] [],
    publicClass "FrameworkElement" [named "UIElement"] [property object "DataContext"],
    abstractClass "ResourceKey" [] [],
    publicClass "ComponentResourceKey" [named "ResourceKey"]
      [ constructor [],
        constructor [(type, "typeInTargetAssembly"), (object, "resourceId")],
        property type "TypeInTargetAssembly",
        property object "ResourceId" ],
    sealedClass "TemplatePartAttribute" [named "Attribute"]
      [constructor [], property string "Name", property type "Type"],
    sealedClass "AttachedPropertyBrowsableForTypeAttribute" [named "Attribute"]
      [constructor [(type, "targetType")], readOnlyProperty type "TargetType"] ]

/-- The types of the namespace `System.Windows`. -/
def windowsTypes : List TypeDecl :=
  inNamespace "System.Windows" (dependencyTypes ++ metadataTypes ++ elementTypes)

/-- The types of the namespace `System.Windows.Controls`. -/
def controlTypes : List TypeDecl := inNamespace "System.Windows.Controls"
  [ publicClass "Control" [named "FrameworkElement"] [],
    publicClass "ContentControl" [named "Control"] [],
    publicClass "Button" [named "ContentControl"] [],
    publicClass "TextBox" [named "Control"] [],
    publicClass "UserControl" [named "ContentControl"] [],
    publicClass "Panel" [named "FrameworkElement"] [] ]

/-! ## Data, markup and commands -/

/-- The parameters that conversions end with. -/
def conversionParams : List (TypeRef × String) :=
  [(object, "parameter"), (named "CultureInfo", "culture")]

/-- The types of the namespace `System.Windows.Data`. -/
def dataTypes : List TypeDecl := inNamespace "System.Windows.Data"
  [ publicInterface "IValueConverter" []
      [ interfaceMethod object "Convert"
          ([(object, "value"), (type, "targetType")] ++ conversionParams),
        interfaceMethod object "ConvertBack"
          ([(object, "value"), (type, "targetType")] ++ conversionParams) ],
    publicInterface "IMultiValueConverter" []
      [ interfaceMethod object "Convert"
          ([(arrayOf object, "values"), (type, "targetType")] ++ conversionParams),
        interfaceMethod (arrayOf object) "ConvertBack"
          ([(object, "value"), (arrayOf type, "targetTypes")] ++ conversionParams) ],
    sealedClass "ValueConversionAttribute" [named "Attribute"]
      [ constructor [(type, "sourceType"), (type, "targetType")],
        readOnlyProperty type "SourceType",
        readOnlyProperty type "TargetType",
        property type "ParameterType" ],
    publicClass "Binding" [] [staticField object "DoNothing"] ]

/-- The types of the namespace `System.Windows.Markup`. -/
def markupTypes : List TypeDecl := inNamespace "System.Windows.Markup"
  [ abstractClass "MarkupExtension" []
      [ methodWith [.public_, .abstract_] object "ProvideValue"
          [(named "IServiceProvider", "serviceProvider")] ],
    sealedClass "MarkupExtensionReturnTypeAttribute" [named "Attribute"]
      [constructor [], constructor [(type, "returnType")], readOnlyProperty type "ReturnType"],
    sealedClass "ConstructorArgumentAttribute" [named "Attribute"]
      [constructor [(string, "argumentName")], readOnlyProperty string "ArgumentName"],
    sealedClass "XamlSetMarkupExtensionAttribute" [named "Attribute"]
      [ constructor [(string, "xamlSetMarkupExtensionHandler")],
        readOnlyProperty string "XamlSetMarkupExtensionHandler" ],
    sealedClass "XamlSetTypeConverterAttribute" [named "Attribute"]
      [ constructor [(string, "xamlSetTypeConverterHandler")],
        readOnlyProperty string "XamlSetTypeConverterHandler" ],
    publicClass "XamlSetMarkupExtensionEventArgs" [named "EventArgs"] [],
    publicClass "XamlSetTypeConverterEventArgs" [named "EventArgs"] [],
    sealedClass "XmlnsDefinitionAttribute" [named "Attribute"]
      [ constructor [(string, "xmlNamespace"), (string, "clrNamespace")],
        readOnlyProperty string "XmlNamespace",
        readOnlyProperty string "ClrNamespace",
        property string "AssemblyName" ] ]

/-- The types of the namespace `System.Windows.Input`. -/
def inputTypes : List TypeDecl := inNamespace "System.Windows.Input"
  [ publicInterface "ICommand" [] [],
    publicClass "RoutedCommand" [named "ICommand"]
      [ constructor [],
        constructor [(string, "name"), (type, "ownerType")],
        readOnlyProperty string "Name",
        readOnlyProperty type "OwnerType" ],
    publicClass "RoutedUICommand" [named "RoutedCommand"]
      [ constructor [],
        constructor [(string, "text"), (string, "name"), (type, "ownerType")],
        property string "Text" ] ]

end PropertyLint.Framework
