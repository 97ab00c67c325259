/-
# The base types of the framework

The declarations of the namespaces `System`, `System.Collections` and `System.Globalization` that
code is checked against.
-/
import PropertyLint.Framework.Declare

namespace PropertyLint.Framework

/-- The constructors that exceptions have. -/
def exceptionConstructors : List Member := [constructor [], constructor [(string, "message")]]

/-- The types of the namespace `System`. -/
def systemTypes : List TypeDecl := inNamespace "System"
  [ publicClass "Object" []
      [ methodWith [.public_, .virtual] bool "Equals" [(object, "obj")],
        methodWith [.public_, .virtual] int "GetHashCode" [],
        methodWith [.public_, .virtual] string "ToString" [],
        method type "GetType" [] ],
    abstractClass "ValueType" [] [],
    publicStruct "Void" [],
    publicStruct "Boolean" [],
    publicStruct "Char" [],
    publicStruct "Byte" [],
    publicStruct "Int16" [],
    publicStruct "Int32" [intConst "MaxValue" 2147483647],
    publicStruct "Int64" [],
    publicStruct "Single" [],
    publicStruct "Double" [staticField (keyword .double) "NaN"],
    publicStruct "Decimal" [],
    declare .struct [.public_] "Nullable" ["T"] []
      [readOnlyProperty bool "HasValue", readOnlyProperty (named "T") "Value"],
    sealedClass "String" []
      [ staticField string "Empty",
        readOnlyProperty int "Length",
        staticMethod bool "IsNullOrEmpty" [(string, "value")] ],
    abstractClass "Type" [] [readOnlyProperty string "Name"],
    abstractClass "Array" [] [readOnlyProperty int "Length"],
    abstractClass "Attribute" [] [],
    publicClass "EventArgs" [] [],
    publicClass "Exception" [] exceptionConstructors,
    publicClass "ArgumentException" [named "Exception"] exceptionConstructors,
    publicClass "InvalidOperationException" [named "Exception"] exceptionConstructors,
    publicClass "NotSupportedException" [named "Exception"] exceptionConstructors,
    publicClass "NotImplementedException" [named "Exception"] exceptionConstructors,
    publicInterface "IServiceProvider" []
      [interfaceMethod object "GetService" [(type, "serviceType")]],
    staticClass "Console" [staticMethod void "WriteLine" [(string, "value")]] ]

/-- The types of the namespaces of collections. -/
def collectionTypes : List TypeDecl :=
  inNamespace "System.Collections"
    [ publicInterface "IEnumerable" [] [],
      publicInterface "IList" [named "IEnumerable"] [] ] ++
  inNamespace "System.Collections.Generic"
    [ genericInterface "IEnumerable" "T" [named "IEnumerable"],
      genericInterface "IList" "T" [generic "IEnumerable" (named "T")],
      genericClass "List" "T" [generic "IList" (named "T"), named "IList"]
        [constructor [], method void "Add" [(named "T", "item")]] ] ++
  inNamespace "System.Collections.ObjectModel"
    [ genericClass "ObservableCollection" "T" [generic "IList" (named "T"), named "IList"]
        [constructor []] ]

/-- The types of the namespace `System.Globalization`. -/
def globalizationTypes : List TypeDecl := inNamespace "System.Globalization"
  [ publicClass "CultureInfo" []
      [ staticProperty (named "CultureInfo") "InvariantCulture",
        staticProperty (named "CultureInfo") "CurrentCulture" ] ]

end PropertyLint.Framework
