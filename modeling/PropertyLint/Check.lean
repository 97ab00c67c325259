/-
# The checks

A check looks at nodes of some kinds and can report some rules.  The checks run in the order in
which they are listed.
-/
import PropertyLint.Check.BackingMember
import PropertyLint.Check.Wrapper
import PropertyLint.Check.AttachedAccessor
import PropertyLint.Check.AttributeArguments
import PropertyLint.Check.Converter
import PropertyLint.Check.Creation

namespace PropertyLint

/-- A check. -/
inductive Check where
  | backingMember | wrapper | attachedAccessor | attributeArguments | converter | resourceKey
  | routedCommand
deriving DecidableEq, Repr

namespace Check

/-- The checks in the order in which they run. -/
def all : List Check :=
  [.backingMember, .wrapper, .attachedAccessor, .attributeArguments, .converter, .resourceKey,
    .routedCommand]

/-- The name of a check. -/
def name : Check → String
  | backingMember => "backing_member"
  | wrapper => "clr_property"
  | attachedAccessor => "clr_method"
  | attributeArguments => "attributes"
  | converter => "value_converter"
  | resourceKey => "resource_key"
  | routedCommand => "routed_command"

/-- The names of the checks in alphabetical order. -/
def names : List String := (all.map name).mergeSort fun a b => a ≤ b

/-- What a check looks for. -/
def description : Check → String
  | backingMember =>
    "Checks backing fields and properties of dependency properties against their registration"
  | wrapper => "Checks CLR property wrappers against the registration of the property they access"
  | attachedAccessor =>
    "Checks attached property accessor methods against the registration they access"
  | attributeArguments =>
    "Checks markup extension, XAML handler, template part and xmlns attributes"
  | converter => "Checks converter default instances and their ValueConversion attributes"
  | resourceKey => "Checks that component resource keys use the containing type and member"
  | routedCommand =>
    "Checks that routed commands are named after their member and owned by their type"

/-- The rules that a check can report. -/
def rules : Check → List Rule
  | backingMember =>
    [.backingFieldName, .keyFieldName, .defaultValueType, .registeredOwner, .sharedDefaultValue,
      .backingMemberReadonly, .keyDeclaredFirst, .documentBackingMember]
  | wrapper => [.wrapperName, .wrapperType, .sameProperty, .useSetValue, .wrapperSideEffects]
  | attachedAccessor =>
    [.accessorName, .accessorType, .addBrowsable, .browsableArgument, .accessorSideEffects,
      .documentAccessor]
  | attributeArguments =>
    [.xmlnsNamespace, .markupReturnType, .constructorArgument, .markupExtensionHandler,
      .typeConverterHandler, .templatePartPrefix]
  | converter =>
    [.converterDefault, .addValueConversion, .valueConversionTypes, .addUnknownConversion,
      .defaultInstanceType]
  | resourceKey => [.resourceKeyType, .resourceKeyMember]
  | routedCommand => [.commandName, .commandOwner]

/-- The kinds of the nodes that a check looks at. -/
def kinds : Check → List NodeKind
  | backingMember => [.field, .property]
  | wrapper => [.property]
  | attachedAccessor => [.method]
  | attributeArguments => [.attr]
  | converter => [.type]
  | resourceKey | routedCommand => [.creation]

/-- What a check finds at a node. -/
def run : Check → Context → Polled (List Finding)
  | backingMember => BackingMember.run
  | wrapper => Wrapper.run
  | attachedAccessor => AttachedAccessor.run
  | attributeArguments => AttributeArguments.run
  | converter => Converter.run
  | resourceKey => Creation.runResourceKey
  | routedCommand => Creation.runCommand

end Check

end PropertyLint
