/-
# The framework

The framework's declarations are bound in front of the files of every project.
-/
import PropertyLint.Framework.Base
import PropertyLint.Framework.Presentation

namespace PropertyLint.Framework

/-- The namespaces that the framework's declarations use without naming them. -/
def usings : List String :=
  [ "System", "System.Collections", "System.Collections.Generic", "System.Globalization",
    "System.Windows", "System.Windows.Controls", "System.Windows.Input", "System.Windows.Markup" ]

/-- The declarations of the framework. -/
def declarations : CompilationUnit where
  usings := usings
  types := systemTypes ++ collectionTypes ++ globalizationTypes ++ windowsTypes ++ controlTypes ++
    dataTypes ++ markupTypes ++ inputTypes

end PropertyLint.Framework
