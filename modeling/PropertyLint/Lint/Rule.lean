/-
# Rules

A rule is one thing that a check can report.  It has a number, a name for configurations, a message
template and a severity; some rules are off unless a configuration turns them on.  The rules are
listed in the order of their numbers.

A template holds numbered places in braces, such as `{0}`.  A place is filled with the argument of
its number; a brace that opens no such place is an ordinary character.  An argument is put in as it
is and never read again.
-/
import PropertyLint.Lint.Severity

namespace PropertyLint

/-! ## Templates -/

/-- The number that digits spell, behind a plus sign if one is given. -/
def placeNumber? (cs : List Char) : Option Nat :=
  let digits := match cs with
    | '+' :: rest => rest
    | _ => cs
  if digits.isEmpty then none
  else if digits.all fun c => '0' ≤ c && c ≤ '9' then
    some (digits.foldl (fun n c => 10 * n + (c.toNat - '0'.toNat)) 0)
  else none

/-- The argument of the place that an opening brace in front of `cs` starts, and the number of
characters up to the closing brace. -/
def place? (args : List String) (cs : List Char) : Option (String × Nat) := do
  let inside := cs.takeWhile (· != '\x7d')
  if inside.length < cs.length then
    let arg ← args[← placeNumber? inside]?
    return (arg, inside.length)
  else none

/-- Fills the places of a template from left to right. -/
def fillChars (args : List String) (template : List Char) : List Char :=
  match template with
  | [] => []
  | c :: cs =>
    if c = '\x7b' then
      match place? args cs with
      | some (arg, count) => arg.toList ++ fillChars args (cs.drop (count + 1))
      | none => c :: fillChars args cs
    else c :: fillChars args cs
termination_by template.length
decreasing_by all_goals (simp only [List.length_drop, List.length_cons]; omega)

/-- The message that a template makes of its arguments. -/
def fillTemplate (template : String) (args : List String) : String :=
  String.ofList (fillChars args template.toList)

/-! ## Lists of messages -/

/-- Messages below each other, each behind its number. -/
def numberedMessages (messages : List String) : String :=
  if messages.isEmpty then "(no diagnostics)"
  else "\n".intercalate <|
    messages.zipIdx.map fun (m, i) => "[" ++ toString (i + 1) ++ "] " ++ m

/-! ## The rules -/

/-- The subject of a rule. -/
inductive Category where
  | dependencyProperty | markupExtension | valueConverter | componentResourceKey | routedCommand
  | controlTemplate | xmlnsDefinition | documentation
deriving DecidableEq, Repr

namespace Category

/-- The short name of a category. -/
def shortName : Category → String
  | dependencyProperty => "DependencyProperty"
  | markupExtension => "MarkupExtension"
  | valueConverter => "ValueConverter"
  | componentResourceKey => "ComponentResourceKey"
  | routedCommand => "RoutedCommand"
  | controlTemplate => "ControlTemplate"
  | xmlnsDefinition => "XmlnsDefinition"
  | documentation => "Documentation"

/-- The full name of a category. -/
def name (c : Category) : String :=
  "WpfAnalyzers." ++ if c = valueConverter then "IValueConverter" else c.shortName

end Category

/-- What a rule is called and how it is reported. -/
structure RuleInfo where
  number : Nat
  name : String
  title : String
  template : String
  category : Category
  severity : Severity := .warning
  enabledByDefault : Bool := true
  description : String
deriving DecidableEq, Repr

/-- A rule. -/
inductive Rule where
  | backingFieldName | keyFieldName | wrapperName | accessorName | defaultValueType
  | registeredOwner | wrapperType | accessorType | sharedDefaultValue | backingMemberReadonly
  | keyDeclaredFirst | sameProperty | addBrowsable | browsableArgument | useSetValue
  | wrapperSideEffects | accessorSideEffects | xmlnsNamespace | documentBackingMember
  | documentAccessor | converterDefault | addValueConversion | valueConversionTypes
  | addUnknownConversion | defaultInstanceType | markupReturnType | constructorArgument
  | markupExtensionHandler | typeConverterHandler | commandName | commandOwner
  | templatePartPrefix | resourceKeyType | resourceKeyMember
deriving DecidableEq, Repr

namespace Rule

/-- All rules, by number. -/
def all : List Rule :=
  [.backingFieldName, .keyFieldName, .wrapperName, .accessorName, .defaultValueType,
    .registeredOwner, .wrapperType, .accessorType, .sharedDefaultValue, .backingMemberReadonly,
    .keyDeclaredFirst, .sameProperty, .addBrowsable, .browsableArgument, .useSetValue,
    .wrapperSideEffects, .accessorSideEffects, .xmlnsNamespace, .documentBackingMember,
    .documentAccessor, .converterDefault, .addValueConversion, .valueConversionTypes,
    .addUnknownConversion, .defaultInstanceType, .markupReturnType, .constructorArgument,
    .markupExtensionHandler, .typeConverterHandler, .commandName, .commandOwner,
    .templatePartPrefix, .resourceKeyType, .resourceKeyMember]

/-- The description of a rule. -/
def info : Rule → RuleInfo
  | backingFieldName =>
    { number := 1
      name := "backing_field_matches_registered_name"
      title := "Backing field for a DependencyProperty should match registered name."
      template := "Field '{0}' that is backing field for the DependencyProperty registered as " ++
        "'{1}' must be named '{1}Property'"
      category := .dependencyProperty
      description := "A dependency property's backing field should be named with the name it is " ++
        "registered with suffixed by 'Property'." }
  | keyFieldName =>
    { number := 2
      name := "key_backing_field_matches_registered_name"
      title := "Backing field for a DependencyPropertyKey should match registered name."
      template := "Field '{0}' that is backing field for the DependencyPropertyKey registered " ++
        "as '{1}' must be named '{1}PropertyKey'"
      category := .dependencyProperty
      description := "A DependencyPropertyKey's backing field should be named with the name it " ++
        "is registered with suffixed by 'PropertyKey'." }
  | wrapperName =>
    { number := 3
      name := "clr_property_matches_registered_name"
      title := "CLR property for a DependencyProperty should match registered name."
      template := "Property '{0}' must be named {1}"
      category := .dependencyProperty
      description := "A CLR property accessor for a DependencyProperty must have the same name " ++
        "as the DependencyProperty is registered with." }
  | accessorName =>
    { number := 4
      name := "clr_method_matches_registered_name"
      title := "CLR method for a DependencyProperty must match registered name."
      template := "Method '{0}' must be named '{1}'"
      category := .dependencyProperty
      description := "CLR methods for accessing a DependencyProperty must have names matching " ++
        "the name the DependencyProperty is registered with." }
  | defaultValueType =>
    { number := 10
      name := "default_value_matches_registered_type"
      title := "Default value type must match registered type."
      template := "Default value for '{0}' must be of type {1}"
      category := .dependencyProperty
      severity := .error
      description := "A DependencyProperty is registered with a type and a default value. The " ++
        "type of the default value must be the same as the registered type." }
  | registeredOwner =>
    { number := 11
      name := "registered_owner_is_containing_type"
      title := "Containing type should be used as registered owner."
      template := "Register containing type: '{0}' as owner."
      category := .dependencyProperty
      description := "When registering a DependencyProperty register containing type as owner " ++
        "type." }
  | wrapperType =>
    { number := 12
      name := "clr_property_matches_registered_type"
      title := "CLR property type should match registered type."
      template := "Property '{0}' must be of type {1}"
      category := .dependencyProperty
      description := "CLR property type should match registered type." }
  | accessorType =>
    { number := 13
      name := "clr_method_matches_registered_type"
      title := "CLR accessor for attached property must match registered type."
      template := "{0} must match registered type {1}"
      category := .dependencyProperty
      description := "CLR accessor for attached property must match registered type." }
  | sharedDefaultValue =>
    { number := 16
      name := "default_value_is_not_shared_instance"
      title := "Default value is shared reference type."
      template := "Default value for '{0}' is a reference type that will be shared among all " ++
        "instances."
      category := .dependencyProperty
      description := "When registering a new instance of a reference type as default value the " ++
        "value is shared for all instances of the control." }
  | backingMemberReadonly =>
    { number := 30
      name := "backing_member_static_readonly"
      title := "Backing field for a DependencyProperty should be static and readonly."
      template := "Backing member '{0}' of type {1} should be static and readonly."
      category := .dependencyProperty
      description := "Backing field for a DependencyProperty should be static and readonly. " ++
        "Backing properties should be static and get-only." }
  | keyDeclaredFirst =>
    { number := 31
      name := "key_field_declared_first"
      title := "DependencyPropertyKey member must be declared before DependencyProperty member."
      template := "Field '{0}' must be declared before '{1}'"
      category := .dependencyProperty
      description := "DependencyPropertyKey member must be declared before DependencyProperty " ++
        "member, otherwise the DependencyProperty is initialized from a null key." }
  | sameProperty =>
    { number := 32
      name := "clr_property_same_property_in_get_and_set"
      title := "Use same dependency property in get and set."
      template := "Property '{0}' must access the same dependency property in getter and setter"
      category := .dependencyProperty
      severity := .error
      description := "Use same dependency property in get and set." }
  | addBrowsable =>
    { number := 33
      name := "add_attached_property_browsable_for_type"
      title := "Add [AttachedPropertyBrowsableForType]"
      template := "Add [AttachedPropertyBrowsableForType(typeof({0}))]"
      category := .dependencyProperty
      description := "Add [AttachedPropertyBrowsableForType] so the designer shows the attached " ++
        "property for the right types." }
  | browsableArgument =>
    { number := 34
      name := "attached_property_browsable_for_type_argument"
      title := "Use correct argument for [AttachedPropertyBrowsableForType]"
      template := "Use [AttachedPropertyBrowsableForType(typeof({0}))]"
      category := .dependencyProperty
      description := "Use correct argument for [AttachedPropertyBrowsableForType]" }
  | useSetValue =>
    { number := 35
      name := "clr_property_uses_set_value"
      title := "Use SetValue in setter."
      template := "Use SetValue in setter."
      category := .dependencyProperty
      description := "Use SetValue in setter. SetCurrentValue does not change the value source." }
  | wrapperSideEffects =>
    { number := 36
      name := "clr_property_avoid_side_effects"
      title := "Avoid side effects in CLR accessors."
      template := "Avoid side effects in CLR accessors."
      category := .dependencyProperty
      description := "Bindings do not call accessors when updating value. Use callbacks." }
  | accessorSideEffects =>
    { number := 42
      name := "clr_method_avoid_side_effects"
      title := "Avoid side effects in CLR accessors."
      template := "Avoid side effects in CLR accessors."
      category := .dependencyProperty
      description := "Bindings do not call accessor methods when updating value. Use callbacks." }
  | xmlnsNamespace =>
    { number := 51
      name := "xmlns_definition_namespace_exists"
      title := "XmlnsDefinition must map to existing namespace."
      template := "[XmlnsDefinition] maps to '{0}' that does not exist."
      category := .xmlnsDefinition
      severity := .error
      description := "The CLR namespace an XmlnsDefinition maps must contain at least one type." }
  | documentBackingMember =>
    { number := 60
      name := "document_backing_member"
      title := "Backing member for DependencyProperty should have documentation."
      template := "Backing member for DependencyProperty should have documentation."
      category := .documentation
      description := "Backing member for DependencyProperty should have documentation." }
  | documentAccessor =>
    { number := 61
      name := "document_clr_method"
      title := "Accessor method for attached property should have documentation."
      template := "CLR accessor for attached property should have documentation."
      category := .documentation
      description := "Accessor method for attached property should have documentation." }
  | converterDefault =>
    { number := 70
      name := "converter_has_default_instance"
      title := "Add default field to converter."
      template := "Add default field to converter."
      category := .valueConverter
      enabledByDefault := false
      description := "A stateless converter can expose a shared `Default` instance so XAML can " ++
        "use `x:Static` instead of allocating one per use." }
  | addValueConversion =>
    { number := 71
      name := "converter_has_value_conversion"
      title := "Add ValueConversion attribute."
      template := "Add ValueConversion attribute."
      category := .valueConverter
      description := "Add ValueConversion attribute so tools know the source and target types " ++
        "of the converter." }
  | valueConversionTypes =>
    { number := 72
      name := "value_conversion_types"
      title := "ValueConversion must use correct types."
      template := "ValueConversion must use correct types. Expected: {0}"
      category := .valueConverter
      description := "ValueConversion must use the types the converter actually converts from " ++
        "and to." }
  | addUnknownConversion =>
    { number := 73
      name := "converter_has_value_conversion_unknown_types"
      title := "Add ValueConversion attribute (unknown types)."
      template := "Add ValueConversion attribute (unknown types)."
      category := .valueConverter
      enabledByDefault := false
      description := "Add ValueConversion attribute even when the conversion types cannot be " ++
        "inferred." }
  | defaultInstanceType =>
    { number := 74
      name := "default_converter_instance_type"
      title := "Use containing type."
      template := "Use containing type."
      category := .valueConverter
      description := "The default instance of a converter must be an instance of the converter " ++
        "itself." }
  | markupReturnType =>
    { number := 81
      name := "markup_extension_return_type"
      title := "MarkupExtensionReturnType must use correct return type."
      template := "MarkupExtensionReturnType must use correct return type. Expected: {0}"
      category := .markupExtension
      severity := .error
      description := "MarkupExtensionReturnType must use the type ProvideValue returns." }
  | constructorArgument =>
    { number := 82
      name := "constructor_argument_name"
      title := "[ConstructorArgument] must match."
      template := "[ConstructorArgument] must match. Expected: {0}"
      category := .markupExtension
      description := "[ConstructorArgument] must name the constructor parameter the property is " ++
        "assigned from." }
  | markupExtensionHandler =>
    { number := 84
      name := "xaml_set_markup_extension_target"
      title := "Target of [XamlSetMarkupExtension] should exist and have correct signature."
      template := "Expected a method with signature void ReceiveMarkupExtension(object, " ++
        "XamlSetMarkupExtensionEventArgs)."
      category := .markupExtension
      severity := .error
      description := "Target of [XamlSetMarkupExtension] should exist and have correct signature." }
  | typeConverterHandler =>
    { number := 85
      name := "xaml_set_type_converter_target"
      title := "Target of [XamlSetTypeConverter] should exist and have correct signature."
      template := "Expected a method with signature void ReceiveTypeConverter(object, " ++
        "XamlSetTypeConverterEventArgs)."
      category := .markupExtension
      severity := .error
      description := "Target of [XamlSetTypeConverter] should exist and have correct signature." }
  | commandName =>
    { number := 120
      name := "routed_command_name"
      title := "Register containing member name as name for routed command."
      template := "Register {0} as name."
      category := .routedCommand
      description := "Register containing member name as name for routed command." }
  | commandOwner =>
    { number := 121
      name := "routed_command_owner"
      title := "Register containing type as owner for routed command."
      template := "Register {0} as owner."
      category := .routedCommand
      description := "Register containing type as owner for routed command." }
  | templatePartPrefix =>
    { number := 132
      name := "template_part_prefix"
      title := "Use PART prefix."
      template := "Use 'PART_' prefix for template part {0}."
      category := .controlTemplate
      description := "Template part names should start with 'PART_'." }
  | resourceKeyType =>
    { number := 140
      name := "component_resource_key_type"
      title := "Use containing type when creating a ComponentResourceKey."
      template := "Use containing type: {0}."
      category := .componentResourceKey
      severity := .error
      description := "Use containing type when creating a ComponentResourceKey." }
  | resourceKeyMember =>
    { number := 141
      name := "component_resource_key_member"
      title := "Use containing member as key."
      template := "Use containing member: {0}."
      category := .componentResourceKey
      description := "Use containing member as resource id when creating a ComponentResourceKey." }

/-- The number of a rule. -/
def number (r : Rule) : Nat := r.info.number

/-- The name that configurations use. -/
def name (r : Rule) : String := r.info.name

/-- The digits of a number below 10000, with zeros in front. -/
def fourDigits (n : Nat) : String :=
  String.ofList ([1000, 100, 10, 1].map fun unit => Char.ofNat ('0'.toNat + n / unit % 10))

/-- The id that findings carry. -/
def id (r : Rule) : String := "WPF" ++ fourDigits r.number

/-- The rule with an id or a name. -/
def find? (key : String) : Option Rule := all.find? fun r => r.id == key || r.name == key

/-- The rule with an id. -/
def ofId? (key : String) : Option Rule := all.find? fun r => r.id == key

/-- How the rule is reported when no configuration says anything about it. -/
def defaultSeverity (r : Rule) : RuleSeverity :=
  if r.info.enabledByDefault then .ofSeverity r.info.severity else .off

/-- The page that explains the rule. -/
def helpUrl (r : Rule) : String :=
  "https://github.com/DotNetAnalyzers/WpfAnalyzers/tree/master/documentation/" ++ r.id ++ ".md"

/-- The rule in one line. -/
def display (r : Rule) : String := r.id ++ " (" ++ r.name ++ "): " ++ r.info.title

/-- The message of the rule for arguments. -/
def message (r : Rule) (args : List String) : String := fillTemplate r.info.template args

end Rule

end PropertyLint
